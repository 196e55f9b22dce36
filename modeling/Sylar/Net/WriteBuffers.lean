import Sylar.Net.ReadBuffers
import Mathlib.Algebra.GroupWithZero.Nat

/-!
# Receiving into the nodes of a `ByteArray`

`SocketStream::read` makes room, lets the socket fill the pieces of the nodes behind
the position, and moves the position by what was received. `write` copies the same
bytes and steps from node to node as it does. Both overwrite the content at the
position, and both end at the node of the new position.
-/

namespace Sylar.Net

open Sylar.Lib Sylar.Lib.Blocks

namespace ByteArray

variable (fresh : Nat → Nat → UInt8)

/-- `getWriteBuffers`: its result, and the pieces it appends. -/
def getWriteBuffers (len : Nat) : Method ByteArray Failure (Nat × List Span) := do
  if len = 0 then
    return (0, [])
  addCapacity fresh len
  let s ← get
  let (sps, _) ← Method.lift (walk s s.cur s.position len)
  return (len, sps)

/-- The bytes are stored into the pieces in order, until there are no more bytes. -/
def fill (sps : List Span) (bytes : List UInt8) : Method ByteArray Failure Unit := do
  let s ← get
  let nodes ← Method.lift (storeAll s.nodes sps bytes)
  set { s with nodes := nodes }

/-- `SocketStream::read(ba, length)` on a connected stream, when the socket receives `bytes`. -/
def receive (length : Nat) (bytes : List UInt8) : Method ByteArray Failure Nat := do
  let (_, sps) ← getWriteBuffers fresh length
  fill sps bytes
  if bytes.length > 0 then
    let s ← get
    setPosition (s.getPosition + bytes.length)
  return bytes.length

end ByteArray

/-- No byte of a node is in both pieces. -/
def Span.Disjoint (a b : Span) : Prop :=
  a.node = b.node → a.offset + a.length ≤ b.offset ∨ b.offset + b.length ≤ a.offset

namespace ByteArray

section Pieces

variable {base : Nat} {sps : List Span} {p n : Nat}

/-- The pieces of a range do not overlap. -/
theorem Tiles.disjoint (ht : Tiles base sps p n) : sps.Pairwise Span.Disjoint := by
  induction ht with
  | nil => exact List.Pairwise.nil
  | @cons sp sps p n start pos inside rest ih =>
      refine List.pairwise_cons.2 ⟨?_, ih⟩
      intro later hmem hnode
      obtain ⟨-, -, hfrom, -⟩ := Tiles.mem rest later hmem
      left
      rw [← start, hnode] at hfrom
      omega

/-- The pieces of a range have its length. -/
theorem Tiles.sum_length (ht : Tiles base sps p n) : (sps.map Span.length).sum = n := by
  induction ht with
  | nil => rfl
  | cons start pos inside rest ih => rw [List.map_cons, List.sum_cons, ih]

end Pieces

section Content

variable (fresh : Nat → Nat → UInt8) {s t : ByteArray}

theorem WellFormed.size_le_length (h : s.WellFormed) : s.size ≤ s.bytes.length := by
  rw [h.length_bytes]
  exact h.size_le

/-- Bytes put in at the position overwrite the content there. -/
theorem content_overwrite (h : s.WellFormed) {more bytes : List UInt8}
    (hbytes : t.bytes = overwrite (s.bytes ++ more) s.position bytes)
    (hsize : t.size = max s.size (s.position + bytes.length)) :
    t.content = overwrite s.content s.position bytes := by
  have hle := h.size_le_length
  have hmore : s.size ≤ (s.bytes ++ more).length := by
    rw [List.length_append]
    exact Nat.le_add_right_of_le hle
  rw [content, hbytes, hsize, take_overwrite_max _ h.position_le hmore,
    List.take_append_of_le_length hle, content]

/-- New blocks behind the nodes are not part of the content. -/
theorem content_append (h : s.WellFormed) {more : List UInt8} (hbytes : t.bytes = s.bytes ++ more)
    (hsize : t.size = s.size) : t.content = s.content := by
  have hle := h.size_le_length
  rw [content, hbytes, hsize, List.take_append_of_le_length hle, content]

/-- A write overwrites the content. -/
theorem write_content (h : s.WellFormed) (buf : List UInt8) :
    ∃ t, (write fresh buf).exec s = (.ok (), t) ∧ t.WellFormed ∧
      t.position = s.position + buf.length ∧ t.size = max s.size (s.position + buf.length) ∧
      t.content = overwrite s.content s.position buf := by
  obtain ⟨t, hrun, ht, -, -, hwrite⟩ := write_spec fresh h buf
  rw [exec_write_eq] at hwrite
  have hflat := (Prod.mk.inj hwrite).2
  have hsize : t.size = max s.size (s.position + buf.length) :=
    (congrArg Flat.size hflat).symm
  refine ⟨t, hrun, ht, (congrArg Flat.position hflat).symm, hsize, ?_⟩
  exact content_overwrite h (congrArg Flat.data hflat).symm hsize

/-- Room is made behind the position, and nothing is moved. -/
theorem getWriteBuffers_spec (h : s.WellFormed) {len : Nat} (hlen : 1 ≤ len) :
    ∃ sps t, (getWriteBuffers fresh len).exec s = (.ok (len, sps), t) ∧ t.WellFormed ∧
      Tiles t.baseSize sps t.position len ∧ t.position + len ≤ t.capacity ∧
      t.position = s.position ∧ t.size = s.size ∧ ∃ more, t.bytes = s.bytes ++ more := by
  obtain ⟨t, hgrow, ht, hbase, -, hflat, hroom, hposition, hsize⟩ :=
    addCapacity_spec fresh h len
  obtain ⟨sps, hwalk, htiles⟩ := ht.walk_spec hlen hroom
  rw [← ht.cur_eq] at hwalk
  rw [grow_eq] at hflat
  refine ⟨sps, t, ?_, ht, htiles, hroom, hposition, hsize, _, congrArg Flat.data hflat⟩
  rw [getWriteBuffers, if_neg (Nat.ne_of_gt hlen), Method.exec_bind_ok hgrow,
    Method.exec_bind_ok (Method.exec_get t)]
  simp only [Method.exec_bind, Method.exec_lift, hwalk, Method.exec_pure]

/-- Filling the pieces keeps the object in order and overwrites the bytes of their range. -/
theorem fill_spec (h : s.WellFormed) {sps : List Span} {n : Nat}
    (ht : Tiles s.baseSize sps s.position n) (hroom : s.position + n ≤ s.capacity)
    {bytes : List UInt8} (hle : bytes.length ≤ n) :
    ∃ t, (fill sps bytes).exec s = (.ok (), t) ∧ t.WellFormed ∧ t.position = s.position ∧
      t.size = s.size ∧ t.capacity = s.capacity ∧
      t.bytes = overwrite s.bytes s.position bytes := by
  obtain ⟨nodes, hstore, hlength, hsize, hblock, hdata⟩ :=
    storeAll_spec h.node_size h.node_block ht (by rw [← h.capacity_eq]; exact hroom) hle
  refine ⟨{ s with nodes := nodes }, ?_, ?_, rfl, rfl, rfl, hdata⟩
  · rw [fill, Method.exec_bind_ok (Method.exec_get s)]
    simp only [Method.exec_bind, Method.exec_lift, hstore, Method.exec_set]
  · have hne : nodes ≠ [] := by
      apply List.ne_nil_of_length_pos
      rw [hlength]
      exact List.length_pos_iff.mpr h.nonempty
    exact ⟨h.base_pos, hne, h.capacity_eq.trans (by rw [hlength]), hsize, hblock,
      h.position_le, h.size_le, h.cur_eq⟩

/-- Receiving overwrites the content. -/
theorem receive_content (h : s.WellFormed) {len : Nat} {bytes : List UInt8}
    (hpos : 1 ≤ bytes.length) (hle : bytes.length ≤ len) :
    ∃ t, (receive fresh len bytes).exec s = (.ok bytes.length, t) ∧ t.WellFormed ∧
      t.position = s.position + bytes.length ∧
      t.size = max s.size (s.position + bytes.length) ∧
      t.content = overwrite s.content s.position bytes := by
  obtain ⟨sps, g, hget, hg, htiles, hroom, hposition, hsize, more, hmore⟩ :=
    getWriteBuffers_spec fresh h (hpos.trans hle)
  obtain ⟨f, hfill, hf, hposition', hsize', hcapacity, hbytes⟩ := fill_spec hg htiles hroom hle
  have hend : f.position + bytes.length ≤ f.capacity := by
    rw [hposition', hcapacity]
    omega
  obtain ⟨t, hset, ht, -, -, hflat⟩ := setPosition_spec hf hend
  have hat : f.position = s.position := hposition'.trans hposition
  have htsize : t.size = max s.size (s.position + bytes.length) := by
    have hcongr : t.size = max f.size (f.position + bytes.length) := congrArg Flat.size hflat
    rw [hcongr, hat, hsize', hsize]
  have htbytes : t.bytes = overwrite (s.bytes ++ more) s.position bytes := by
    have hcongr : t.bytes = f.bytes := congrArg Flat.data hflat
    rw [hcongr, hbytes, hmore, hposition]
  refine ⟨t, ?_, ht, ?_, htsize, content_overwrite h htbytes htsize⟩
  · have hsome : bytes.length > 0 := hpos
    rw [receive, Method.exec_bind_ok hget, Method.exec_bind_ok hfill]
    simp only [if_pos hsome, Method.exec_bind, Method.exec_get, getPosition, hset,
      Method.exec_pure]
  · have hcongr : t.position = f.position + bytes.length := congrArg Flat.position hflat
    rw [hcongr, hat]

/-- Receiving bytes leaves what writing them leaves. The pieces are as long as was asked for and
do not overlap, and preparing them leaves position, size and content as they are. -/
theorem scatter_input_eq_write (h : s.WellFormed) {len : Nat} (hlen : 1 ≤ len)
    {bytes : List UInt8} (hpos : 1 ≤ bytes.length) (hle : bytes.length ≤ len) :
    (∃ sps g, (getWriteBuffers fresh len).exec s = (.ok (len, sps), g) ∧ g.WellFormed ∧
      sps.Pairwise Span.Disjoint ∧ (sps.map Span.length).sum = len ∧
      g.position = s.position ∧ g.size = s.size ∧ g.content = s.content) ∧
    ∃ t u, (receive fresh len bytes).exec s = (.ok bytes.length, t) ∧
      (write fresh bytes).exec s = (.ok (), u) ∧ t.WellFormed ∧ u.WellFormed ∧
      t.content = u.content ∧ t.size = u.size ∧ t.position = u.position := by
  constructor
  · obtain ⟨sps, g, hget, hg, htiles, -, hposition, hsize, more, hmore⟩ :=
      getWriteBuffers_spec fresh h hlen
    exact ⟨sps, g, hget, hg, htiles.disjoint, htiles.sum_length, hposition, hsize,
      content_append h hmore hsize⟩
  · obtain ⟨t, hreceive, ht, htposition, htsize, htcontent⟩ := receive_content fresh h hpos hle
    obtain ⟨u, hwrite, hu, huposition, husize, hucontent⟩ := write_content fresh h bytes
    exact ⟨t, u, hreceive, hwrite, ht, hu, htcontent.trans hucontent.symm,
      htsize.trans husize.symm, htposition.trans huposition.symm⟩

/-- Three bytes into a full array of two, when five were asked for. -/
theorem scatter_input_eq_write_full :
    let full : ByteArray := { new (fun _ _ => 0) 2 with position := 2, size := 2, cur := none }
    ∃ t u, (receive (fun _ _ => 0) 5 [7, 8, 9]).exec full = (.ok 3, t) ∧
      (write (fun _ _ => 0) [7, 8, 9]).exec full = (.ok (), u) ∧ t.WellFormed ∧ u.WellFormed ∧
      t.content = u.content ∧ t.size = u.size ∧ t.position = u.position := by
  intro full
  have hfull : full.WellFormed := by
    constructor <;> decide
  exact (scatter_input_eq_write (fun _ _ => 0) hfull (by decide : 1 ≤ 5)
    (by decide : 1 ≤ [(7 : UInt8), 8, 9].length) (by decide)).2

end Content

end ByteArray

end Sylar.Net
