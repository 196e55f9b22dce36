import Sylar.Net.ByteArray

/-!
# A `ByteArray` is one flat buffer

The flat buffer is one sequence of `capacity` bytes with a size and a cursor.
`WellFormed` ties the node chain, the counters and the current node of a
`ByteArray` to each other; on well-formed states every operation does on the
concatenation of the nodes what the flat buffer's operation does.
-/

namespace Sylar.Net

open Sylar.Lib Sylar.Lib.Blocks

/-- One array of bytes with a size and a cursor. It grows by whole blocks of
`baseSize` bytes, and block number `k` starts with the bytes `fresh k`. -/
structure Flat where
  data : List UInt8
  size : Nat
  position : Nat
  allocated : Nat
  deriving DecidableEq, Repr

namespace Flat

variable (fresh : Nat → Nat → UInt8) (baseSize : Nat)

def new : Flat where
  data := (List.range baseSize).map (fresh 0)
  size := 0
  position := 0
  allocated := 1

/-- The bytes of `count` new blocks. -/
def newBytes (allocated count : Nat) : List UInt8 :=
  ((List.range count).map fun k => (List.range baseSize).map (fresh (allocated + k))).flatten

def grow (f : Flat) (n : Nat) : Flat :=
  if n ≤ f.data.length - f.position then f
  else
    let count := ByteArray.nodeCount (n - (f.data.length - f.position)) baseSize
    { f with
      data := f.data ++ newBytes fresh baseSize f.allocated count
      allocated := f.allocated + count }

def write (buf : List UInt8) : Method Flat Failure Unit :=
  modify fun f =>
    let g := f.grow fresh baseSize buf.length
    { g with
      data := overwrite g.data g.position buf
      position := g.position + buf.length
      size := max g.size (g.position + buf.length) }

/-- A write goes to the cursor, after the buffer has been made long enough. -/
theorem exec_write (f : Flat) (buf : List UInt8) :
    ∃ more allocated, (write fresh baseSize buf).exec f =
      (.ok (), {
        data := overwrite (f.data ++ more) f.position buf
        size := max f.size (f.position + buf.length)
        position := f.position + buf.length
        allocated := allocated }) := by
  by_cases h : buf.length ≤ f.data.length - f.position
  · refine ⟨[], f.allocated, ?_⟩
    simp [write, grow, h]
  · let count := ByteArray.nodeCount (buf.length - (f.data.length - f.position)) baseSize
    refine ⟨newBytes fresh baseSize f.allocated count, f.allocated + count, ?_⟩
    simp only [write, grow, if_neg h, Method.exec_modify, count]

def read (n : Nat) : Method Flat Failure (List UInt8) := do
  let f ← get
  if n > f.size - f.position then
    throw (.outOfRange "not enougth len")
  set { f with position := f.position + n }
  return (f.data.drop f.position).take n

def setPosition (v : Nat) : Method Flat Failure Unit := do
  let f ← get
  if v > f.data.length then
    throw (.outOfRange "setPosition out of range")
  set { f with position := v, size := max f.size v }

def clear : Method Flat Failure Unit :=
  modify fun f => { f with data := f.data.take baseSize, size := 0, position := 0 }

def addCapacity (n : Nat) : Method Flat Failure Unit :=
  modify fun f => f.grow fresh baseSize n

end Flat

namespace ByteArray

/-- The concatenation of the nodes' blocks. -/
def bytes (s : ByteArray) : List UInt8 := (s.nodes.map Node.ptr).flatten

/-- The flat buffer a `ByteArray` stands for. -/
def flat (s : ByteArray) : Flat := ⟨s.bytes, s.size, s.position, s.allocated⟩

/-- The node index a cursor at byte `p` of `capacity` bytes has to hold. -/
def cursor (baseSize capacity p : Nat) : Option Nat :=
  if p = capacity then none else some (p / baseSize)

/-- The relations between the fields that every operation keeps. -/
structure WellFormed (s : ByteArray) : Prop where
  base_pos : 0 < s.baseSize
  nonempty : s.nodes ≠ []
  capacity_eq : s.capacity = s.nodes.length * s.baseSize
  node_size : ∀ node ∈ s.nodes, node.size = s.baseSize
  node_block : ∀ node ∈ s.nodes, node.ptr.length = s.baseSize
  position_le : s.position ≤ s.size
  size_le : s.size ≤ s.capacity
  cur_eq : s.cur = cursor s.baseSize s.capacity s.position

/-- The pieces follow each other through the flat range `[p, p + n)`, each
nonempty and inside its block. -/
inductive Tiles (baseSize : Nat) : List Span → Nat → Nat → Prop
  | nil {p : Nat} : Tiles baseSize [] p 0
  | cons {sp : Span} {sps : List Span} {p n : Nat}
      (start : sp.node * baseSize + sp.offset = p)
      (pos : 0 < sp.length)
      (inside : sp.offset + sp.length ≤ baseSize)
      (rest : Tiles baseSize sps (p + sp.length) n) :
      Tiles baseSize (sp :: sps) p (sp.length + n)

section Walk

variable {base : Nat}

theorem cursor_of_lt {i k m : Nat} (hi : i < m) (hk : k < base) :
    cursor base (m * base) (i * base + k) = some i := by
  have hle : (i + 1) * base ≤ m * base := Nat.mul_le_mul_right base hi
  rw [Nat.succ_mul] at hle
  have hne : i * base + k ≠ m * base := by omega
  rw [cursor, if_neg hne, Nat.add_comm, Nat.add_mul_div_right _ _ (by omega),
    Nat.div_eq_of_lt hk, Nat.zero_add]

theorem spans_fit {node : Node} {rest : List Node} {i npos ncap size : Nat}
    (hpos : size ≠ 0) (hfit : size ≤ ncap) :
    spans (node :: rest) i npos ncap size =
      .ok ([⟨i, npos, size⟩], if node.size = npos + size then next rest i else some i) := by
  cases rest <;> simp [spans, hpos, hfit]

theorem spans_next {node after : Node} {rest : List Node} {i npos ncap size : Nat}
    {sps : List Span} {last : Option Nat} (hpos : size ≠ 0) (hfit : ¬ size ≤ ncap)
    (h : spans (after :: rest) (i + 1) 0 after.size (size - ncap) = .ok (sps, last)) :
    spans (node :: after :: rest) i npos ncap size = .ok (⟨i, npos, ncap⟩ :: sps, last) := by
  rw [spans, if_neg hpos, if_neg hfit, h]
  rfl

/-- The shared loop reaches the right pieces and the right cursor. -/
theorem spans_spec (hb : 0 < base) {chain : List Node}
    (hsize : ∀ node ∈ chain, node.size = base) {i npos size : Nat}
    (hnpos : npos < base) (hpos : 0 < size) (hroom : npos + size ≤ chain.length * base) :
    ∃ sps, spans chain i npos (base - npos) size =
        .ok (sps, cursor base ((i + chain.length) * base) (i * base + npos + size)) ∧
      Tiles base sps (i * base + npos) size := by
  induction chain generalizing i npos size with
  | nil =>
      simp only [List.length_nil, Nat.zero_mul] at hroom
      omega
  | cons node rest ih =>
      have hnode : node.size = base := hsize node List.mem_cons_self
      by_cases hfit : size ≤ base - npos
      · refine ⟨[⟨i, npos, size⟩], ?_, ?_⟩
        · rw [spans_fit (by omega) hfit, hnode]
          by_cases hend : base = npos + size
          · have hp : i * base + npos + size = (i + 1) * base + 0 := by
              rw [Nat.succ_mul]
              omega
            rw [if_pos hend, hp]
            cases rest with
            | nil => simp [next, cursor]
            | cons after rest =>
                rw [cursor_of_lt (by simp only [List.length_cons]; omega) hb]
                rfl
          · rw [if_neg hend, Nat.add_assoc,
              cursor_of_lt (by simp only [List.length_cons]; omega) (by omega)]
        · have htile : Tiles base [⟨i, npos, size⟩] (i * base + npos) (size + 0) :=
            Tiles.cons rfl hpos (by dsimp only; omega) Tiles.nil
          exact htile
      · cases rest with
        | nil =>
            simp only [List.length_cons, List.length_nil] at hroom
            omega
        | cons after rest =>
            have hafter : after.size = base :=
              hsize after (List.mem_cons_of_mem _ List.mem_cons_self)
            have hroom' : 0 + (size - (base - npos)) ≤ (after :: rest).length * base := by
              rw [List.length_cons, Nat.succ_mul] at hroom
              omega
            obtain ⟨sps, hrun, htiles⟩ := ih (i := i + 1)
              (fun m hm => hsize m (List.mem_cons_of_mem _ hm)) hb
              (by omega : 0 < size - (base - npos)) hroom'
            rw [Nat.sub_zero] at hrun
            have hp : (i + 1) * base + 0 = i * base + npos + (base - npos) := by
              rw [Nat.succ_mul]
              omega
            have hq : (i + 1) * base + 0 + (size - (base - npos)) = i * base + npos + size := by
              omega
            have hlen : i + 1 + (after :: rest).length = i + (node :: after :: rest).length := by
              simp only [List.length_cons]
              omega
            refine ⟨⟨i, npos, base - npos⟩ :: sps, ?_, ?_⟩
            · rw [hq, hlen] at hrun
              exact spans_next (by omega) hfit (by rw [hafter]; exact hrun)
            · rw [hp] at htiles
              have hn : size = (base - npos) + (size - (base - npos)) := by omega
              rw [hn]
              exact Tiles.cons rfl (by dsimp only; omega) (by dsimp only; omega) htiles

theorem Tiles.node_lt {sp : Span} {sps : List Span} {p n m : Nat}
    (h : Tiles base (sp :: sps) p n) (hroom : p + n ≤ m * base) : sp.node < m := by
  cases h with
  | cons start pos inside rest =>
      apply Nat.lt_of_mul_lt_mul_right (a := base)
      omega

/-- The pieces of a range hold exactly the bytes of the range. -/
theorem loadAll_spec {nodes : List Node} (hblock : ∀ node ∈ nodes, node.ptr.length = base)
    {sps : List Span} {p n : Nat} (ht : Tiles base sps p n)
    (hroom : p + n ≤ nodes.length * base) :
    loadAll nodes sps = .ok (((nodes.map Node.ptr).flatten.drop p).take n) := by
  have huni : Uniform base (nodes.map Node.ptr) := by
    intro b hb
    obtain ⟨node, hmem, rfl⟩ := List.mem_map.mp hb
    exact hblock node hmem
  induction ht with
  | nil => simp [loadAll]
  | @cons sp sps p n start pos inside rest ih =>
      have hlt := (Tiles.cons start pos inside rest).node_lt hroom
      have hget : nodes[sp.node]? = some nodes[sp.node] := List.getElem?_eq_getElem hlt
      have hlen : nodes[sp.node].ptr.length = base := hblock _ (List.getElem_mem hlt)
      have hload : load nodes sp = .ok ((nodes[sp.node].ptr.drop sp.offset).take sp.length) := by
        simp [load, deref, hlt, hlen, inside, bind, Except.bind]
      have hblk : (nodes.map Node.ptr)[sp.node]? = some nodes[sp.node].ptr := by
        rw [List.getElem?_map, hget]
        rfl
      have hbytes := drop_take_block huni hblk inside
      rw [start] at hbytes
      rw [loadAll, hload, ih (by omega), ← hbytes, List.take_add, List.drop_drop]
      rfl

/-- Storing a buffer piece by piece overwrites the range the pieces go through. A buffer that
is shorter than the pieces leaves the bytes behind it alone. -/
theorem storeAll_spec {nodes : List Node} (hsize : ∀ node ∈ nodes, node.size = base)
    (hblock : ∀ node ∈ nodes, node.ptr.length = base) {sps : List Span} {p n : Nat}
    (ht : Tiles base sps p n) (hroom : p + n ≤ nodes.length * base) {buf : List UInt8}
    (hbuf : buf.length ≤ n) :
    ∃ nodes', storeAll nodes sps buf = .ok nodes' ∧ nodes'.length = nodes.length ∧
      (∀ node ∈ nodes', node.size = base) ∧ (∀ node ∈ nodes', node.ptr.length = base) ∧
      (nodes'.map Node.ptr).flatten = overwrite (nodes.map Node.ptr).flatten p buf := by
  induction ht generalizing nodes buf with
  | nil =>
      obtain rfl := List.length_eq_zero_iff.mp (Nat.le_zero.mp hbuf)
      exact ⟨nodes, rfl, rfl, hsize, hblock, by simp⟩
  | @cons sp sps p n start pos inside rest ih =>
      have huni : Uniform base (nodes.map Node.ptr) := by
        intro b hb
        obtain ⟨node, hmem, rfl⟩ := List.mem_map.mp hb
        exact hblock node hmem
      have hlt := (Tiles.cons start pos inside rest).node_lt hroom
      have hlen : nodes[sp.node].ptr.length = base := hblock _ (List.getElem_mem hlt)
      have htake : (buf.take sp.length).length ≤ sp.length := List.length_take_le _ _
      set node' : Node := { nodes[sp.node] with
        ptr := overwrite nodes[sp.node].ptr sp.offset (buf.take sp.length) } with hnode'
      have hstore : store nodes sp (buf.take sp.length) = .ok (nodes.set sp.node node') := by
        simp only [store, deref, List.getElem?_eq_getElem hlt, bind, Except.bind]
        rw [if_pos (by omega)]
      have hblk : (nodes.map Node.ptr)[sp.node]? = some nodes[sp.node].ptr := by
        rw [List.getElem?_map, List.getElem?_eq_getElem hlt]
        rfl
      have hflat : ((nodes.set sp.node node').map Node.ptr).flatten =
          overwrite (nodes.map Node.ptr).flatten p (buf.take sp.length) := by
        rw [List.map_set, ← start]
        exact flatten_set_overwrite huni hblk (by omega)
      have hsize' : ∀ node ∈ nodes.set sp.node node', node.size = base := by
        intro node hmem
        rcases List.mem_or_eq_of_mem_set hmem with hmem | rfl
        · exact hsize node hmem
        · exact hsize nodes[sp.node] (List.getElem_mem hlt)
      have hblock' : ∀ node ∈ nodes.set sp.node node', node.ptr.length = base := by
        intro node hmem
        rcases List.mem_or_eq_of_mem_set hmem with hmem | rfl
        · exact hblock node hmem
        · exact (length_overwrite (by omega)).trans hlen
      have hdrop : (buf.drop sp.length).length = _ := List.length_drop
      obtain ⟨nodes', hrun, hlen', hs, hb, hdata⟩ := ih hsize' hblock'
        (by rw [List.length_set]; omega) (by rw [hdrop]; omega)
      refine ⟨nodes', ?_, by rw [hlen', List.length_set], hs, hb, ?_⟩
      · rw [storeAll, hstore]
        exact hrun
      · rw [hdata, hflat]
        by_cases hshort : buf.length ≤ sp.length
        · rw [List.drop_eq_nil_of_le hshort, List.take_of_length_le hshort, overwrite_nil]
        · have hfull : (buf.take sp.length).length = sp.length :=
            List.length_take_of_le (Nat.le_of_not_le hshort)
          have hfit : p + (buf.take sp.length).length ≤ (nodes.map Node.ptr).flatten.length := by
            rw [length_flatten huni, List.length_map]
            omega
          have hmerge := overwrite_overwrite (b := buf.drop sp.length) hfit
          rw [hfull, List.take_append_drop] at hmerge
          exact hmerge

end Walk

namespace WellFormed

variable {s : ByteArray}

theorem uniform (h : s.WellFormed) : Uniform s.baseSize (s.nodes.map Node.ptr) := by
  intro b hb
  obtain ⟨node, hmem, rfl⟩ := List.mem_map.mp hb
  exact h.node_block node hmem

theorem length_bytes (h : s.WellFormed) : s.bytes.length = s.capacity := by
  rw [bytes, length_flatten h.uniform, List.length_map, h.capacity_eq]

/-- From the node under the right cursor the walk reaches `n` bytes and the next cursor. -/
theorem walk_spec (h : s.WellFormed) {position n : Nat} (hn : 0 < n)
    (hroom : position + n ≤ s.capacity) :
    ∃ sps, s.walk (cursor s.baseSize s.capacity position) position n =
        .ok (sps, cursor s.baseSize s.capacity (position + n)) ∧
      Tiles s.baseSize sps position n := by
  have hb := h.base_pos
  have hcap := h.capacity_eq
  have hsplit : position / s.baseSize * s.baseSize + position % s.baseSize = position :=
    Nat.div_add_mod' position s.baseSize
  have hnpos : position % s.baseSize < s.baseSize := Nat.mod_lt _ hb
  have hlt : position / s.baseSize < s.nodes.length := by
    apply Nat.lt_of_mul_lt_mul_right (a := s.baseSize)
    omega
  set i := position / s.baseSize with hi
  have hcur : cursor s.baseSize s.capacity position = some i := by
    rw [cursor, if_neg (by omega)]
  have hroom' : position % s.baseSize + n ≤ (s.nodes.drop i).length * s.baseSize := by
    rw [List.length_drop, Nat.sub_mul]
    omega
  have hsize : ∀ node ∈ s.nodes.drop i, node.size = s.baseSize :=
    fun node hmem => h.node_size node (List.mem_of_mem_drop hmem)
  obtain ⟨sps, hrun, ht⟩ := spans_spec hb hsize (i := i) hnpos hn hroom'
  refine ⟨sps, ?_, by rwa [hsplit] at ht⟩
  have hsz : s.nodes[i].size = s.baseSize := h.node_size _ (List.getElem_mem hlt)
  have hlen : i + (s.nodes.drop i).length = s.nodes.length := by
    rw [List.length_drop]
    omega
  rw [hsplit, hlen, ← hcap] at hrun
  simp only [walk, hcur, deref, List.getElem?_eq_getElem hlt, bind, Except.bind, hsz]
  exact hrun

theorem position_le_capacity (h : s.WellFormed) : s.position ≤ s.capacity :=
  h.position_le.trans h.size_le

theorem deref_root (h : s.WellFormed) : ∃ node, deref s.nodes (some 0) = .ok (0, node) := by
  obtain ⟨node, rest, hnodes⟩ := List.exists_cons_of_ne_nil h.nonempty
  exact ⟨node, by simp [deref, hnodes]⟩

end WellFormed

section Growth

variable (fresh : Nat → Nat → UInt8)

/-- Enough new nodes: `count` blocks hold the missing bytes, and there is at least one. -/
theorem nodeCount_spec {m base : Nat} (hb : 0 < base) (hm : 0 < m) :
    0 < nodeCount m base ∧ m ≤ nodeCount m base * base := by
  have hdiv := Nat.div_add_mod' (m + base - 1) base
  have hmod := Nat.mod_lt (m + base - 1) hb
  have hle : m ≤ nodeCount m base * base := by
    rw [nodeCount]
    omega
  refine ⟨?_, hle⟩
  by_contra hzero
  rw [Nat.eq_zero_of_not_pos hzero] at hle
  omega

theorem newNodes_map_ptr (allocated count baseSize : Nat) :
    ((newNodes fresh allocated count baseSize).map Node.ptr).flatten =
      Flat.newBytes fresh baseSize allocated count := by
  simp [newNodes, Flat.newBytes, Node.new, Function.comp_def]

theorem mem_newNodes {allocated count baseSize : Nat} {node : Node}
    (h : node ∈ newNodes fresh allocated count baseSize) :
    node.size = baseSize ∧ node.ptr.length = baseSize := by
  obtain ⟨k, _, rfl⟩ := List.mem_map.mp h
  simp [Node.new]

/-- Growing appends whole blocks after the chain, makes room for `n` bytes at
the cursor, and moves nothing else. -/
theorem addCapacity_spec {s : ByteArray} (h : s.WellFormed) (n : Nat) :
    ∃ t, (addCapacity fresh n).exec s = (.ok (), t) ∧ t.WellFormed ∧
      t.baseSize = s.baseSize ∧ t.endian = s.endian ∧
      t.flat = s.flat.grow fresh s.baseSize n ∧ t.position + n ≤ t.capacity ∧
      t.position = s.position ∧ t.size = s.size := by
  have hlen := h.length_bytes
  have hle := h.position_le_capacity
  by_cases hroom : n ≤ s.getCapacity
  · refine ⟨s, ?_, h, rfl, rfl, ?_, ?_, rfl, rfl⟩
    · by_cases hn : n = 0
      · rw [addCapacity, if_pos hn, Method.exec_pure]
      · rw [addCapacity, if_neg hn, Method.exec_bind, Method.exec_get]
        simp only [ge_iff_le, hroom, if_true, Method.exec_pure]
    · have hroom' : n ≤ s.flat.data.length - s.flat.position := by
        simpa only [flat, hlen, getCapacity] using hroom
      rw [Flat.grow, if_pos hroom']
    · rw [getCapacity] at hroom
      omega
  · obtain ⟨node, hroot⟩ := h.deref_root
    have hm : 0 < n - s.getCapacity := by omega
    obtain ⟨hcount, henough⟩ := nodeCount_spec h.base_pos hm
    set count := nodeCount (n - s.getCapacity) s.baseSize with hc
    have hcapacity : s.capacity + count * s.baseSize =
        (s.nodes.length + count) * s.baseSize := by
      rw [h.capacity_eq, Nat.add_mul]
    let t : ByteArray := { s with
      nodes := s.nodes ++ newNodes fresh s.allocated count s.baseSize
      capacity := s.capacity + count * s.baseSize
      cur := if s.getCapacity = 0 then (if count = 0 then none else some s.nodes.length)
        else s.cur
      allocated := s.allocated + count }
    refine ⟨t, ?_, ?_, rfl, rfl, ?_, ?_, rfl, rfl⟩
    · have hn : n ≠ 0 := by omega
      rw [addCapacity, if_neg hn, Method.exec_bind, Method.exec_get]
      simp only [ge_iff_le, hroom, if_false, Method.exec_bind, Method.exec_lift, hroot,
        Method.exec_set]
      rfl
    · constructor
      · exact h.base_pos
      · exact List.append_ne_nil_of_left_ne_nil h.nonempty _
      · simp [t, newNodes, hcapacity]
      · intro node hmem
        rcases List.mem_append.mp hmem with hmem | hmem
        · exact h.node_size node hmem
        · exact (mem_newNodes fresh hmem).1
      · intro node hmem
        rcases List.mem_append.mp hmem with hmem | hmem
        · exact h.node_block node hmem
        · exact (mem_newNodes fresh hmem).2
      · exact h.position_le
      · exact h.size_le.trans (Nat.le_add_right _ _)
      · change (if s.getCapacity = 0 then (if count = 0 then none else some s.nodes.length)
          else s.cur) = cursor s.baseSize (s.capacity + count * s.baseSize) s.position
        by_cases hfull : s.getCapacity = 0
        · have hpos : s.position = s.nodes.length * s.baseSize + 0 := by
            rw [getCapacity] at hfull
            rw [Nat.add_zero, ← h.capacity_eq]
            omega
          rw [if_pos hfull, if_neg (by omega), hcapacity, hpos,
            cursor_of_lt (by omega) h.base_pos]
        · have hlt : s.position < s.capacity := by
            rw [getCapacity] at hfull
            omega
          rw [if_neg hfull, h.cur_eq, cursor, cursor, if_neg (by omega), if_neg (by omega)]
    · have hroom' : ¬ n ≤ s.flat.data.length - s.flat.position := by
        simpa only [flat, hlen, getCapacity] using hroom
      rw [Flat.grow, if_neg hroom']
      simp only [flat, bytes, t, List.map_append, List.flatten_append, newNodes_map_ptr]
      rw [← bytes, hlen]
      rfl
    · change s.position + n ≤ s.capacity + count * s.baseSize
      rw [getCapacity] at henough
      omega

/-- A write keeps the fields tied together and writes at the cursor of the flat buffer. -/
theorem write_spec {s : ByteArray} (h : s.WellFormed) (buf : List UInt8) :
    ∃ t, (write fresh buf).exec s = (.ok (), t) ∧ t.WellFormed ∧
      t.baseSize = s.baseSize ∧ t.endian = s.endian ∧
      (Flat.write fresh s.baseSize buf).exec s.flat = (.ok (), t.flat) := by
  by_cases hbuf : buf.length = 0
  · obtain rfl := List.length_eq_zero_iff.mp hbuf
    have hmax : max s.size s.position = s.size := Nat.max_eq_left h.position_le
    refine ⟨s, rfl, h, rfl, rfl, ?_⟩
    simp [Flat.write, Flat.grow, flat, hmax]
  · obtain ⟨t, hgrow, ht, hbase, hend, hflat, hroom, hpos, hsz⟩ :=
      addCapacity_spec fresh h buf.length
    obtain ⟨sps, hwalk, htiles⟩ := ht.walk_spec (by omega : 0 < buf.length) hroom
    rw [← ht.cur_eq] at hwalk
    have hfit : t.position + buf.length ≤ t.nodes.length * t.baseSize := by
      rw [← ht.capacity_eq]
      exact hroom
    obtain ⟨nodes, hstore, hlen, hsize, hblock, hdata⟩ :=
      storeAll_spec ht.node_size ht.node_block htiles hfit (Nat.le_refl _)
    let u : ByteArray := { t with
      nodes := nodes
      cur := cursor t.baseSize t.capacity (t.position + buf.length)
      position := t.position + buf.length
      size := if t.position + buf.length > t.size then t.position + buf.length else t.size }
    have hmax : (if t.position + buf.length > t.size then t.position + buf.length
        else t.size) = max t.size (t.position + buf.length) := by
      split <;> omega
    have husize : u.size = max t.size (t.position + buf.length) := hmax
    refine ⟨u, ?_, ?_, hbase, hend, ?_⟩
    · rw [write, if_neg hbuf, Method.exec_bind_ok hgrow]
      simp only [Method.exec_bind, Method.exec_get, Method.exec_lift, hwalk, hstore,
        Method.exec_set, u]
    · have hne : nodes ≠ [] := by
        apply List.ne_nil_of_length_pos
        rw [hlen]
        exact List.length_pos_iff.mpr ht.nonempty
      constructor
      · exact ht.base_pos
      · exact hne
      · exact ht.capacity_eq.trans (by rw [hlen])
      · exact hsize
      · exact hblock
      · rw [husize]
        exact Nat.le_max_right _ _
      · rw [husize]
        exact Nat.max_le.mpr ⟨ht.size_le, hroom⟩
      · rfl
    · have hu : u.flat = { t.flat with
          data := overwrite t.flat.data t.flat.position buf
          position := t.flat.position + buf.length
          size := max t.flat.size (t.flat.position + buf.length) } := by
        simp only [flat, hmax, bytes, u, hdata]
      rw [Flat.write, Method.exec_modify, ← hflat, hu]

end Growth

/-- A read of more than the remaining bytes throws and changes nothing. -/
theorem read_throws {s : ByteArray} {n : Nat} (hn : n > s.getReadSize) :
    (read n).exec s = (.error (.outOfRange "not enougth len"), s) := by
  simp only [read, Method.exec_bind, Method.exec_get, if_pos hn, Method.exec_throw]

/-- A read of at most the remaining bytes returns the bytes at the cursor. -/
theorem read_spec {s : ByteArray} (h : s.WellFormed) {n : Nat} (hpos : 0 < n)
    (hn : n ≤ s.getReadSize) :
    ∃ t, (read n).exec s = (.ok ((s.bytes.drop s.position).take n), t) ∧ t.WellFormed ∧
      t.baseSize = s.baseSize ∧ t.endian = s.endian ∧
      t.flat = { s.flat with position := s.position + n } := by
  have hsize := h.size_le
  rw [getReadSize] at hn
  obtain ⟨sps, hwalk, htiles⟩ := h.walk_spec hpos (by omega : s.position + n ≤ s.capacity)
  rw [← h.cur_eq] at hwalk
  have hload := loadAll_spec h.node_block htiles (by rw [← h.capacity_eq]; omega)
  let t : ByteArray := { s with
    cur := cursor s.baseSize s.capacity (s.position + n)
    position := s.position + n }
  refine ⟨t, ?_, ?_, rfl, rfl, rfl⟩
  · have hle : ¬ n > s.getReadSize := by
      rw [getReadSize]
      omega
    simp only [read, Method.exec_bind, Method.exec_get, if_neg hle, Method.exec_lift, hwalk,
      hload, Method.exec_set, Method.exec_pure, t, bytes]
  · exact ⟨h.base_pos, h.nonempty, h.capacity_eq, h.node_size, h.node_block,
      (by dsimp only [t]; omega), h.size_le, rfl⟩

/-- The loop of `setPosition` finds the cursor of the byte it is given. -/
theorem seek_spec {base : Nat} (hb : 0 < base) {chain : List Node}
    (hsize : ∀ node ∈ chain, node.size = base) (hne : chain ≠ []) {i v : Nat}
    (hv : v ≤ chain.length * base) :
    seek chain i v = .ok (cursor base ((i + chain.length) * base) (i * base + v)) := by
  induction chain generalizing i v with
  | nil => exact absurd rfl hne
  | cons node rest ih =>
      have hnode : node.size = base := hsize node List.mem_cons_self
      rw [seek, hnode]
      by_cases hgt : v > base
      · rw [if_pos hgt]
        rw [List.length_cons, Nat.succ_mul] at hv
        have hrest : rest ≠ [] := by
          rintro rfl
          simp only [List.length_nil, Nat.zero_mul] at hv
          omega
        have hp : (i + 1) * base + (v - base) = i * base + v := by
          rw [Nat.succ_mul]
          omega
        have hlen : i + 1 + rest.length = i + (node :: rest).length := by
          rw [List.length_cons]
          omega
        rw [ih (fun m hm => hsize m (List.mem_cons_of_mem _ hm)) hrest (by omega), hp, hlen]
      · rw [if_neg hgt]
        by_cases heq : v = base
        · have hp : i * base + v = (i + 1) * base + 0 := by
            rw [Nat.succ_mul]
            omega
          rw [if_pos heq, hp]
          cases rest with
          | nil => simp [next, cursor]
          | cons after rest =>
              rw [cursor_of_lt (by simp only [List.length_cons]; omega) hb]
              rfl
        · rw [if_neg heq, cursor_of_lt (by simp only [List.length_cons]; omega) (by omega)]

/-- A position beyond the capacity throws and changes nothing. -/
theorem setPosition_throws {s : ByteArray} {v : Nat} (hv : v > s.capacity) :
    (setPosition v).exec s = (.error (.outOfRange "setPosition out of range"), s) := by
  simp only [setPosition, Method.exec_bind, Method.exec_get, if_pos hv, Method.exec_throw]

theorem setPosition_spec {s : ByteArray} (h : s.WellFormed) {v : Nat} (hv : v ≤ s.capacity) :
    ∃ t, (setPosition v).exec s = (.ok (), t) ∧ t.WellFormed ∧
      t.baseSize = s.baseSize ∧ t.endian = s.endian ∧
      t.flat = { s.flat with position := v, size := max s.size v } := by
  have hseek := seek_spec h.base_pos h.node_size h.nonempty (i := 0) (v := v)
    (by rw [← h.capacity_eq]; exact hv)
  rw [Nat.zero_add, Nat.zero_mul, Nat.zero_add, ← h.capacity_eq] at hseek
  have hmax : (if v > s.size then v else s.size) = max s.size v := by
    split <;> omega
  let t : ByteArray := { s with
    position := v
    size := max s.size v
    cur := cursor s.baseSize s.capacity v }
  refine ⟨t, ?_, ?_, rfl, rfl, rfl⟩
  · simp only [setPosition, Method.exec_bind, Method.exec_get, if_neg (Nat.not_lt.mpr hv),
      gt_iff_lt, Method.exec_set, Method.exec_lift, hseek, Method.exec_modify, t]
    rw [← hmax]
  · exact ⟨h.base_pos, h.nonempty, h.capacity_eq, h.node_size, h.node_block,
      Nat.le_max_right _ _, Nat.max_le.mpr ⟨h.size_le, hv⟩, rfl⟩

/-- Clearing keeps the root node alone and puts the cursor at its start. -/
theorem clear_spec {s : ByteArray} (h : s.WellFormed) :
    ∃ t, clear.exec s = (.ok (), t) ∧ t.WellFormed ∧
      t.baseSize = s.baseSize ∧ t.endian = s.endian ∧
      t.flat = { s.flat with data := s.bytes.take s.baseSize, size := 0, position := 0 } := by
  obtain ⟨node, hroot⟩ := h.deref_root
  have hb := h.base_pos
  have hlen : (s.nodes.take 1).length = 1 := by
    rw [List.length_take]
    have := List.length_pos_iff.mpr h.nonempty
    omega
  let t : ByteArray := { s with
    position := 0
    size := 0
    capacity := s.baseSize
    nodes := s.nodes.take 1
    cur := some 0 }
  refine ⟨t, ?_, ?_, rfl, rfl, ?_⟩
  · simp only [clear, Method.exec_bind, Method.exec_get, Method.exec_lift, hroot,
      Method.exec_set, t]
  · constructor
    · exact hb
    · exact List.ne_nil_of_length_pos (by rw [hlen]; omega)
    · change s.baseSize = (s.nodes.take 1).length * s.baseSize
      rw [hlen, Nat.one_mul]
    · exact fun node hmem => h.node_size node (List.mem_of_mem_take hmem)
    · exact fun node hmem => h.node_block node (List.mem_of_mem_take hmem)
    · exact Nat.le_refl 0
    · exact Nat.zero_le _
    · change some 0 = cursor s.baseSize s.baseSize 0
      rw [cursor, if_neg (by omega), Nat.zero_div]
  · have htake := take_flatten h.uniform 1
    rw [Nat.one_mul, ← List.map_take] at htake
    simp only [flat, bytes, t, htake]

section Runs

variable (fresh : Nat → Nat → UInt8)

/-- The calls a run is made of. Only `read` returns bytes. -/
inductive Call where
  | write (buf : List UInt8)
  | read (size : Nat)
  | setPosition (v : Nat)
  | clear
  | addCapacity (size : Nat)
  deriving DecidableEq, Repr

/-- A read asks for at least one byte. -/
def Call.Admissible : Call → Prop
  | .read size => 1 ≤ size
  | _ => True

instance : DecidablePred Call.Admissible
  | .read size => inferInstanceAs (Decidable (1 ≤ size))
  | .write _ | .setPosition _ | .clear | .addCapacity _ => isTrue trivial

def Call.method : Call → Method ByteArray Failure (List UInt8)
  | .write buf => do ByteArray.write fresh buf; return []
  | .read size => ByteArray.read size
  | .setPosition v => do ByteArray.setPosition v; return []
  | .clear => do ByteArray.clear; return []
  | .addCapacity size => do ByteArray.addCapacity fresh size; return []

def Call.onFlat (baseSize : Nat) : Call → Method Flat Failure (List UInt8)
  | .write buf => do Flat.write fresh baseSize buf; return []
  | .read size => Flat.read size
  | .setPosition v => do Flat.setPosition v; return []
  | .clear => do Flat.clear baseSize; return []
  | .addCapacity size => do Flat.addCapacity fresh baseSize size; return []

/-- What the getters show: `getSize`, `getPosition` and `getReadSize`. -/
def view (s : ByteArray) : Nat × Nat × Nat := (s.getSize, s.getPosition, s.getReadSize)

/-- The same three numbers of the flat buffer. -/
def flatView (f : Flat) : Nat × Nat × Nat := (f.size, f.position, f.size - f.position)

/-- A well-formed state stands for the flat buffer of its bytes. -/
def Represents (baseSize : Nat) (s : ByteArray) (f : Flat) : Prop :=
  s.WellFormed ∧ s.baseSize = baseSize ∧ f = s.flat

theorem new_represents {baseSize : Nat} (hb : 1 ≤ baseSize) :
    Represents baseSize (ByteArray.new fresh baseSize) (Flat.new fresh baseSize) := by
  refine ⟨⟨hb, by simp [ByteArray.new], by simp [ByteArray.new], ?_, ?_, Nat.le_refl _,
    Nat.zero_le _, ?_⟩, rfl, ?_⟩
  · simp [ByteArray.new, Node.new]
  · simp [ByteArray.new, Node.new]
  · have hne : ¬ 0 = baseSize := by omega
    simp [ByteArray.new, cursor, hne]
  · simp [ByteArray.new, Flat.new, flat, bytes, Node.new]

/-- Every call shows what the flat buffer shows and keeps the states related. -/
theorem Call.simulates {baseSize : Nat} (c : Call) (hc : c.Admissible) :
    Method.Simulates (Represents baseSize) (c.method fresh) (c.onFlat fresh baseSize) := by
  rintro s f ⟨h, rfl, rfl⟩
  cases c with
  | write buf =>
      obtain ⟨t, hrun, ht, hbase, _, hflat⟩ := write_spec fresh h buf
      rw [Call.method, Call.onFlat, Method.exec_bind_ok hrun, Method.exec_bind_ok hflat]
      exact ⟨rfl, ht, hbase, rfl⟩
  | read size =>
      by_cases hn : size ≤ s.getReadSize
      · obtain ⟨t, hrun, ht, hbase, _, hflat⟩ := read_spec h hc hn
        have hle : ¬ size > s.flat.size - s.flat.position := Nat.not_lt.mpr hn
        rw [Call.method, Call.onFlat, hrun, Flat.read, Method.exec_bind_ok (Method.exec_get _)]
        rw [if_neg hle, Method.exec_bind_ok (Method.exec_set _ _), Method.exec_pure]
        exact ⟨rfl, ht, hbase, hflat.symm⟩
      · have hgt : size > s.flat.size - s.flat.position := Nat.not_le.mp hn
        rw [Call.method, Call.onFlat, read_throws (Nat.not_le.mp hn), Flat.read,
          Method.exec_bind_ok (Method.exec_get _)]
        rw [if_pos hgt, Method.exec_bind_error (Method.exec_throw _ _)]
        exact ⟨rfl, h, rfl, rfl⟩
  | setPosition v =>
      have hlen : s.flat.data.length = s.capacity := h.length_bytes
      by_cases hv : v ≤ s.capacity
      · obtain ⟨t, hrun, ht, hbase, _, hflat⟩ := setPosition_spec h hv
        have hle : ¬ v > s.flat.data.length := by omega
        rw [Call.method, Call.onFlat, Method.exec_bind_ok hrun, Flat.setPosition,
          Method.exec_bind, Method.exec_bind_ok (Method.exec_get _), if_neg hle,
          Method.exec_set]
        exact ⟨rfl, ht, hbase, hflat.symm⟩
      · have hgt : v > s.flat.data.length := by omega
        rw [Call.method, Call.onFlat,
          Method.exec_bind_error (setPosition_throws (Nat.not_le.mp hv)), Flat.setPosition,
          Method.exec_bind, Method.exec_bind_ok (Method.exec_get _), if_pos hgt,
          Method.exec_bind_error (Method.exec_throw _ _)]
        exact ⟨rfl, h, rfl, rfl⟩
  | clear =>
      obtain ⟨t, hrun, ht, hbase, _, hflat⟩ := clear_spec h
      rw [Call.method, Call.onFlat, Method.exec_bind_ok hrun, Flat.clear,
        Method.exec_bind_ok (Method.exec_modify _ _)]
      exact ⟨rfl, ht, hbase, hflat.symm⟩
  | addCapacity size =>
      obtain ⟨t, hrun, ht, hbase, _, hflat, _⟩ := addCapacity_spec fresh h size
      rw [Call.method, Call.onFlat, Method.exec_bind_ok hrun, Flat.addCapacity,
        Method.exec_bind_ok (Method.exec_modify _ _)]
      exact ⟨rfl, ht, hbase, hflat.symm⟩

/-- On a well-formed state a call fails only by `std::out_of_range`, before it
has changed anything. -/
theorem Call.failure {s : ByteArray} (h : s.WellFormed) (c : Call) (hc : c.Admissible)
    {e : Failure} (he : ((c.method fresh).exec s).1 = .error e) :
    (∃ what, e = .outOfRange what) ∧ ((c.method fresh).exec s).2 = s := by
  cases c with
  | write buf =>
      obtain ⟨t, hrun, _⟩ := write_spec fresh h buf
      rw [Call.method, Method.exec_bind_ok hrun] at he
      cases he
  | read size =>
      by_cases hn : size ≤ s.getReadSize
      · obtain ⟨t, hrun, _⟩ := read_spec h hc hn
        rw [Call.method, hrun] at he
        cases he
      · rw [Call.method, read_throws (Nat.not_le.mp hn)] at he ⊢
        cases he
        exact ⟨⟨_, rfl⟩, rfl⟩
  | setPosition v =>
      by_cases hv : v ≤ s.capacity
      · obtain ⟨t, hrun, _⟩ := setPosition_spec h hv
        rw [Call.method, Method.exec_bind_ok hrun] at he
        cases he
      · rw [Call.method,
          Method.exec_bind_error (setPosition_throws (Nat.not_le.mp hv))] at he ⊢
        cases he
        exact ⟨⟨_, rfl⟩, rfl⟩
  | clear =>
      obtain ⟨t, hrun, _⟩ := clear_spec h
      rw [Call.method, Method.exec_bind_ok hrun] at he
      cases he
  | addCapacity size =>
      obtain ⟨t, hrun, _⟩ := addCapacity_spec fresh h size
      rw [Call.method, Method.exec_bind_ok hrun] at he
      cases he

/-- Any run of calls on a new `ByteArray` shows what the flat buffer shows:
the same bytes, errors and getters. After it the node chain, the counters and
the current node agree, and the next call cannot follow a null node or copy
outside a node; where it throws, it leaves the state as it was. -/
theorem run_refines_flat {baseSize : Nat} (hb : 1 ≤ baseSize) (calls : List Call)
    (hc : ∀ c ∈ calls, c.Admissible) :
    let run := Method.script (Call.method fresh) view (ByteArray.new fresh baseSize) calls
    let flatRun := Method.script (Call.onFlat fresh baseSize) flatView
      (Flat.new fresh baseSize) calls
    let s := run.2
    (s.baseSize = baseSize ∧ s.nodes.length = s.capacity / baseSize ∧
      (∀ node ∈ s.nodes, node.size = baseSize ∧ node.ptr.length = baseSize) ∧
      s.position ≤ s.size ∧ s.size ≤ s.capacity ∧
      (s.cur = none ↔ s.position = s.capacity) ∧
      (s.position ≠ s.capacity → s.cur = some (s.position / baseSize))) ∧
    (∀ c : Call, c.Admissible → ∀ e, ((c.method fresh).exec s).1 = .error e →
      (∃ what, e = .outOfRange what) ∧ ((c.method fresh).exec s).2 = s) ∧
    run.1 = flatRun.1 ∧ flatRun.2.data.length = s.capacity := by
  intro run flatRun s
  have hview : ∀ s f, Represents baseSize s f → view s = flatView f := by
    rintro s f ⟨_, _, rfl⟩
    rfl
  obtain ⟨hres, h, hbase, hflat⟩ := Method.script_simulates hview calls
    (fun c hmem => c.simulates fresh (hc c hmem)) (new_represents fresh hb)
  change s.WellFormed at h
  change s.baseSize = baseSize at hbase
  have hcap := h.capacity_eq
  have hcur := h.cur_eq
  rw [hbase] at hcap hcur
  refine ⟨⟨hbase, ?_, ?_, h.position_le, h.size_le, ?_, ?_⟩, ?_, hres, ?_⟩
  · rw [hcap, Nat.mul_div_cancel _ hb]
  · intro node hmem
    exact hbase ▸ ⟨h.node_size node hmem, h.node_block node hmem⟩
  · rw [hcur, cursor]
    split <;> simp_all
  · intro hne
    rw [hcur, cursor, if_neg hne]
  · intro c hadm e he
    exact c.failure fresh h hadm he
  · change flatRun.2 = s.flat at hflat
    rw [hflat]
    exact h.length_bytes

/-- A run over two-byte nodes: a write across a node boundary, a seek, a read up
to the end and a read past it. -/
theorem run_refines_flat_boundary :
    let fresh : Nat → Nat → UInt8 := fun _ _ => 0
    let calls : List Call := [.write [7, 8, 9], .setPosition 1, .read 2, .read 1]
    let run := Method.script (Call.method fresh) view (ByteArray.new fresh 2) calls
    (1 ≤ 2 ∧ ∀ c ∈ calls, c.Admissible) ∧
    run.1 = [(.ok [], 3, 3, 0), (.ok [], 3, 1, 2), (.ok [8, 9], 3, 3, 0),
      (.error (.outOfRange "not enougth len"), 3, 3, 0)] ∧
    run.1 = (Method.script (Call.onFlat fresh 2) flatView (Flat.new fresh 2) calls).1 ∧
    run.2.cur = some 1 := by
  have hb : 1 ≤ 2 := by decide
  refine ⟨⟨hb, by decide⟩, by decide, ?_, ?_⟩
  · exact (run_refines_flat _ hb _ (by decide)).2.2.1
  · exact (run_refines_flat _ hb _ (by decide)).1.2.2.2.2.2.2 (by decide)

end Runs

end ByteArray

end Sylar.Net
