import Sylar.Net.FlatBuffer

/-!
# What a write leaves in a `ByteArray`

A write may start anywhere in the content. The bytes in front of it stay, and the
capacity grows by whole blocks if it is too small. Two writes that follow each
other leave the object that one write leaves, down to its nodes: the blocks are
allocated at different times but are the same blocks.
-/

namespace Sylar.Net

open Sylar.Lib Sylar.Lib.Blocks

namespace ByteArray

/-- How many blocks are added to make room for `n` bytes at the position. -/
def blocksFor (baseSize capacity position n : Nat) : Nat :=
  if n ≤ capacity - position then 0 else nodeCount (n - (capacity - position)) baseSize

/-- The capacity after room was made. -/
def grown (baseSize capacity position n : Nat) : Nat :=
  capacity + blocksFor baseSize capacity position n * baseSize

/-! ### Making room -/

section Room

variable {baseSize capacity position n : Nat}

theorem nodeCount_mul_add (hb : 0 < baseSize) (q m : Nat) :
    nodeCount (q * baseSize + m) baseSize = q + nodeCount m baseSize := by
  unfold nodeCount
  rw [Nat.add_assoc, Nat.add_sub_assoc (by omega), Nat.mul_comm, Nat.mul_add_div hb]

/-- There is no smaller number of blocks. -/
theorem nodeCount_le (hb : 0 < baseSize) {m q : Nat} (h : m ≤ q * baseSize) :
    nodeCount m baseSize ≤ q := by
  unfold nodeCount
  apply Nat.le_of_lt_succ
  rw [Nat.div_lt_iff_lt_mul hb, Nat.succ_mul]
  omega

theorem le_grown (hb : 0 < baseSize) (hle : position ≤ capacity) :
    position + n ≤ grown baseSize capacity position n := by
  unfold grown blocksFor
  split
  · omega
  · have henough := (nodeCount_spec hb (by omega : 0 < n - (capacity - position))).2
    omega

/-- Making room for `a` bytes and then for `b` bytes behind them is making room for both. -/
theorem blocksFor_add (hb : 0 < baseSize) (hle : position ≤ capacity) (a b : Nat) :
    blocksFor baseSize capacity position (a + b) =
      blocksFor baseSize capacity position a +
        blocksFor baseSize (grown baseSize capacity position a) (position + a) b := by
  by_cases ha : a ≤ capacity - position
  · have hzero : blocksFor baseSize capacity position a = 0 := if_pos ha
    rw [grown, hzero, Nat.zero_mul, Nat.add_zero, Nat.zero_add]
    unfold blocksFor
    by_cases hroom : a + b ≤ capacity - position
    · rw [if_pos hroom, if_pos (by omega)]
    · rw [if_neg hroom, if_neg (by omega)]
      congr 1
      omega
  · have hmissing : 0 < a - (capacity - position) := by omega
    have hcount : blocksFor baseSize capacity position a =
        nodeCount (a - (capacity - position)) baseSize := if_neg ha
    have henough := (nodeCount_spec hb hmissing).2
    rw [grown, hcount]
    generalize hc : nodeCount (a - (capacity - position)) baseSize = count at henough
    unfold blocksFor
    rw [if_neg (by omega)]
    by_cases hroom : b ≤ capacity + count * baseSize - (position + a)
    · -- The last block that was added for `a` has room for `b`.
      rw [if_pos hroom, Nat.add_zero]
      apply Nat.le_antisymm
      · exact nodeCount_le hb (by omega)
      · rw [← hc]
        unfold nodeCount
        exact Nat.div_le_div_right (by omega)
    · rw [if_neg hroom, ← nodeCount_mul_add hb]
      congr 1
      omega

/-- A write fills the capacity exactly if it reaches its end and ends with a block. -/
theorem end_eq_grown_iff (hb : 0 < baseSize) (hdvd : baseSize ∣ capacity)
    (hle : position ≤ capacity) :
    position + n = grown baseSize capacity position n ↔
      capacity ≤ position + n ∧ baseSize ∣ position + n := by
  unfold grown blocksFor
  split
  · rw [Nat.zero_mul, Nat.add_zero]
    constructor
    · intro heq
      exact ⟨heq.ge, heq ▸ hdvd⟩
    · rintro ⟨hge, -⟩
      omega
  · obtain ⟨m, hm⟩ : ∃ m, m = n - (capacity - position) := ⟨_, rfl⟩
    have hend : position + n = capacity + m := by omega
    rw [← hm, hend, Nat.add_left_cancel_iff, Nat.dvd_add_right hdvd]
    constructor
    · intro heq
      exact ⟨by omega, Dvd.intro_left _ heq.symm⟩
    · rintro ⟨-, q, rfl⟩
      have hzero : nodeCount 0 baseSize = 0 := Nat.div_eq_of_lt (by omega)
      have hcount := nodeCount_mul_add hb q 0
      rw [Nat.add_zero, hzero, Nat.add_zero, Nat.mul_comm] at hcount
      rw [hcount, Nat.mul_comm]

end Room

section Grow

variable (fresh : Nat → Nat → UInt8)

theorem length_newBytes (baseSize allocated count : Nat) :
    (Flat.newBytes fresh baseSize allocated count).length = count * baseSize := by
  have huni : Uniform baseSize
      ((List.range count).map fun k => (List.range baseSize).map (fresh (allocated + k))) := by
    intro b hb
    obtain ⟨k, -, rfl⟩ := List.mem_map.1 hb
    rw [List.length_map, List.length_range]
  rw [Flat.newBytes, length_flatten huni, List.length_map, List.length_range]

theorem newBytes_add (baseSize allocated c d : Nat) :
    Flat.newBytes fresh baseSize allocated (c + d) =
      Flat.newBytes fresh baseSize allocated c ++
        Flat.newBytes fresh baseSize (allocated + c) d := by
  unfold Flat.newBytes
  rw [List.range_add, List.map_append, List.flatten_append, List.map_map]
  simp only [Function.comp_def, Nat.add_assoc]

/-- Growing appends blocks, possibly none. -/
theorem grow_eq (f : Flat) (baseSize n : Nat) :
    f.grow fresh baseSize n =
      let count := blocksFor baseSize f.data.length f.position n
      { f with
        data := f.data ++ Flat.newBytes fresh baseSize f.allocated count
        allocated := f.allocated + count } := by
  unfold Flat.grow blocksFor
  split
  · simp [Flat.newBytes]
  · rfl

/-- The flat buffer after a write. -/
theorem exec_write_eq (f : Flat) (baseSize : Nat) (buf : List UInt8) :
    (Flat.write fresh baseSize buf).exec f =
      let count := blocksFor baseSize f.data.length f.position buf.length
      (.ok (), {
        data := overwrite (f.data ++ Flat.newBytes fresh baseSize f.allocated count)
          f.position buf
        size := max f.size (f.position + buf.length)
        position := f.position + buf.length
        allocated := f.allocated + count }) := by
  rw [Flat.write, Method.exec_modify, grow_eq]

/-- Two writes to the flat buffer are one. -/
theorem flat_write_append {f : Flat} {baseSize : Nat} (hb : 0 < baseSize)
    (hle : f.position ≤ f.data.length) (a b : List UInt8) :
    (do Flat.write fresh baseSize a; Flat.write fresh baseSize b).exec f =
      (Flat.write fresh baseSize (a ++ b)).exec f := by
  have hroom := le_grown (n := a.length) hb hle
  have hcount := blocksFor_add hb hle a.length b.length
  unfold grown at hroom hcount
  rw [Method.exec_bind_ok (exec_write_eq fresh f baseSize a), exec_write_eq, exec_write_eq]
  dsimp only
  generalize blocksFor baseSize f.data.length f.position a.length = c at *
  have hfit : f.position + a.length ≤
      (f.data ++ Flat.newBytes fresh baseSize f.allocated c).length := by
    rw [List.length_append, length_newBytes]
    exact hroom
  rw [length_overwrite hfit, List.length_append, length_newBytes, List.length_append, hcount]
  generalize blocksFor baseSize _ (f.position + a.length) b.length = d
  have hdata : overwrite (overwrite (f.data ++ Flat.newBytes fresh baseSize f.allocated c)
        f.position a ++ Flat.newBytes fresh baseSize (f.allocated + c) d)
        (f.position + a.length) b =
      overwrite (f.data ++ Flat.newBytes fresh baseSize f.allocated (c + d)) f.position
        (a ++ b) := by
    rw [overwrite_append hfit, overwrite_overwrite, newBytes_add, List.append_assoc]
    rw [List.length_append]
    exact Nat.le_add_right_of_le hfit
  have hsize : max (max f.size (f.position + a.length)) (f.position + a.length + b.length) =
      max f.size (f.position + (a.length + b.length)) := by omega
  rw [hdata, hsize, Nat.add_assoc, Nat.add_assoc]

end Grow

/-! ### Objects -/

/-- An object in order is given by its flat buffer, the size of its blocks and its byte order. -/
theorem WellFormed.ext {s t : ByteArray} (hs : s.WellFormed) (ht : t.WellFormed)
    (hbase : s.baseSize = t.baseSize) (hendian : s.endian = t.endian) (hflat : s.flat = t.flat) :
    s = t := by
  have hbytes : s.bytes = t.bytes := congrArg Flat.data hflat
  have hposition : s.position = t.position := congrArg Flat.position hflat
  have hcapacity : s.capacity = t.capacity := by
    rw [← hs.length_bytes, ← ht.length_bytes, hbytes]
  have hptr : s.nodes.map Node.ptr = t.nodes.map Node.ptr :=
    eq_of_flatten_eq hs.base_pos hs.uniform (hbase ▸ ht.uniform) hbytes
  have hnodes : s.nodes = t.nodes := by
    have hself : ∀ {u : ByteArray}, u.WellFormed → u.baseSize = s.baseSize →
        (u.nodes.map Node.ptr).map (fun p => (⟨p, s.baseSize⟩ : Node)) = u.nodes := by
      intro u hu hsame
      rw [List.map_map]
      apply (List.map_congr_left fun node hnode => ?_).trans (List.map_id _)
      rw [Function.comp_apply, ← hsame, ← hu.node_size node hnode]
      rfl
    rw [← hself hs rfl, ← hself ht hbase.symm, hptr]
  have hcur : s.cur = t.cur := by
    rw [hs.cur_eq, ht.cur_eq, hbase, hcapacity, hposition]
  have hsize : s.size = t.size := congrArg Flat.size hflat
  have hallocated : s.allocated = t.allocated := congrArg Flat.allocated hflat
  cases s
  cases t
  simp only [ByteArray.mk.injEq]
  exact ⟨hbase, hposition, hcapacity, hsize, hendian, hnodes, hcur, hallocated⟩

/-- Behind the last block there is no current node. -/
theorem WellFormed.cur_eq_none {s : ByteArray} (h : s.WellFormed)
    (hfull : s.position = s.capacity) : s.cur = none := by
  rw [h.cur_eq, cursor, if_pos hfull]

/-- In front of it the current node is that of the position. -/
theorem WellFormed.cur_eq_some {s : ByteArray} (h : s.WellFormed)
    (hroom : s.position ≠ s.capacity) :
    s.position / s.baseSize < s.nodes.length ∧ s.cur = some (s.position / s.baseSize) := by
  constructor
  · rw [Nat.div_lt_iff_lt_mul h.base_pos, ← h.capacity_eq]
    exact lt_of_le_of_ne h.position_le_capacity hroom
  · rw [h.cur_eq, cursor, if_neg hroom]

theorem spans_zero (node : Node) (rest : List Node) (i npos ncap : Nat) :
    spans (node :: rest) i npos ncap 0 = .ok ([], some i) := by
  cases rest <;> simp [spans]

/-- A walk over no bytes still looks into the current node. -/
theorem WellFormed.walk_zero {s : ByteArray} (h : s.WellFormed) (position : Nat) :
    s.walk s.cur position 0 =
      if s.position = s.capacity then .error .nullNode else .ok ([], s.cur) := by
  by_cases hfull : s.position = s.capacity
  · rw [if_pos hfull, walk, h.cur_eq_none hfull]
    rfl
  · obtain ⟨hlt, hcur⟩ := h.cur_eq_some hfull
    rw [if_neg hfull, hcur, walk]
    simp only [deref, List.getElem?_eq_getElem hlt, bind, Except.bind]
    rw [List.drop_eq_getElem_cons hlt, spans_zero]

section Writes

variable (fresh : Nat → Nat → UInt8) {s : ByteArray}

/-- Two writes are one. -/
theorem write_append (h : s.WellFormed) (a b : List UInt8) :
    (do write fresh a; write fresh b).exec s = (write fresh (a ++ b)).exec s := by
  obtain ⟨t, hrun, ht, hbase, hend, hflat⟩ := write_spec fresh h a
  obtain ⟨u, hrun', hu, hbase', hend', hflat'⟩ := write_spec fresh ht b
  obtain ⟨v, hrun'', hv, hbase'', hend'', hflat''⟩ := write_spec fresh h (a ++ b)
  have hle : s.flat.position ≤ s.flat.data.length := by
    change s.position ≤ s.bytes.length
    rw [h.length_bytes]
    exact h.position_le_capacity
  have hsame : u.flat = v.flat := by
    have happend := flat_write_append fresh h.base_pos hle a b
    rw [Method.exec_bind_ok hflat, ← hbase, hflat', hbase, hflat''] at happend
    exact (Prod.mk.inj happend).2
  rw [Method.exec_bind_ok hrun, hrun', hrun'',
    hu.ext hv (hbase'.trans (hbase.trans hbase''.symm)) (hend'.trans (hend.trans hend''.symm))
      hsame]

/-- The object after the bytes were written at the position. -/
structure Written (buf : List UInt8) (s t : ByteArray) : Prop where
  wellFormed : t.WellFormed
  baseSize_eq : t.baseSize = s.baseSize
  endian_eq : t.endian = s.endian
  position_eq : t.position = s.position + buf.length
  size_eq : t.size = max s.size (s.position + buf.length)
  capacity_eq : t.capacity = grown s.baseSize s.capacity s.position buf.length
  content : t.bytes.take (s.position + buf.length) = s.bytes.take s.position ++ buf

/-- A write goes to the position, wherever that is. -/
theorem write_written (h : s.WellFormed) (buf : List UInt8) :
    ∃ t, (write fresh buf).exec s = (.ok (), t) ∧ Written buf s t := by
  obtain ⟨t, hrun, ht, hbase, hend, hwrite⟩ := write_spec fresh h buf
  have hlen : s.flat.data.length = s.capacity := h.length_bytes
  rw [exec_write_eq, hlen] at hwrite
  have hflat := (Prod.mk.inj hwrite).2
  have hroom := le_grown (n := buf.length) h.base_pos h.position_le_capacity
  have hcapacity : (s.bytes ++ Flat.newBytes fresh s.baseSize s.allocated
      (blocksFor s.baseSize s.capacity s.position buf.length)).length =
        grown s.baseSize s.capacity s.position buf.length := by
    rw [List.length_append, length_newBytes, h.length_bytes, grown]
  have hbytes : t.bytes = overwrite (s.bytes ++ Flat.newBytes fresh s.baseSize s.allocated
      (blocksFor s.baseSize s.capacity s.position buf.length)) s.position buf :=
    (congrArg Flat.data hflat).symm
  refine ⟨t, hrun, ht, hbase, hend, (congrArg Flat.position hflat).symm,
    (congrArg Flat.size hflat).symm, ?_, ?_⟩
  · rw [← ht.length_bytes, hbytes, length_overwrite (by omega), hcapacity]
  · have hprior : s.position ≤ s.bytes.length := by
      rw [h.length_bytes]
      exact h.position_le_capacity
    rw [hbytes, take_overwrite (by omega), List.take_append_of_le_length hprior]

end Writes

end ByteArray

end Sylar.Net
