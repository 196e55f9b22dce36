import Sylar.Net.Content

/-!
# Reading without moving the position

The positional `read` and the two `getReadBuffers` are `const`: they go through the
nodes from some start and leave the object alone. They differ in where they start.
`getReadBuffers` starts at the current node for the position of the object, and walks
from the root for a position of its own. The positional `read` takes the offset
from its position and the node from the object.

The length that is left is a difference of sizes. In the positional `read` it wraps
for a position behind the end, and `getReadBuffers` always takes that of the
object's own position.
-/

namespace Sylar.Net

open Sylar.Lib Sylar.Lib.Blocks

namespace ByteArray

/-- `read(buf, size, position) const`. -/
def readAt (s : ByteArray) (size position : UInt64) : Except Failure (List UInt8) :=
  if size > UInt64.ofNat s.size - position then .error (.outOfRange "not enough len")
  else do
    let (sps, _) ← s.walk s.cur position.toNat size.toNat
    loadAll s.nodes sps

def toString (s : ByteArray) : Except Failure (List UInt8) :=
  if s.getReadSize = 0 then .ok []
  else s.readAt (UInt64.ofNat s.getReadSize) (UInt64.ofNat s.position)

/-- `getReadBuffers(buffers, len)`: its result, and the pieces it appends. -/
def getReadBuffers (s : ByteArray) (len : Nat) : Except Failure (Nat × List Span) :=
  let len := if len > s.getReadSize then s.getReadSize else len
  if len = 0 then .ok (0, [])
  else do
    let (sps, _) ← s.walk s.cur s.position len
    .ok (len, sps)

/-- The loop that follows `next` from a node with the index `i`. -/
def advance : List Node → Nat → Nat → Except Failure (Option Nat)
  | [], _, 0 => .ok none
  | [], _, _ + 1 => .error .nullNode
  | _ :: _, i, 0 => .ok (some i)
  | _ :: rest, i, count + 1 => advance rest (i + 1) count

/-- `getReadBuffers(buffers, len, position)`. -/
def getReadBuffersAt (s : ByteArray) (len position : Nat) : Except Failure (Nat × List Span) :=
  let len := if len > s.getReadSize then s.getReadSize else len
  if len = 0 then .ok (0, [])
  else do
    let cur ← advance s.nodes 0 (position / s.baseSize)
    let (sps, _) ← s.walk cur position len
    .ok (len, sps)

/-- What the array holds. -/
def content (s : ByteArray) : List UInt8 := s.bytes.take s.size

section Walk

variable {base : Nat} {s : ByteArray}

/-- The loop follows a null pointer if the chain is too short. -/
theorem spans_overrun {chain : List Node} (hsize : ∀ node ∈ chain, node.size = base)
    {i npos size : Nat} (hnpos : npos < base) (hpos : 0 < size)
    (hover : chain.length * base < npos + size) :
    spans chain i npos (base - npos) size = .error .nullNode := by
  induction chain generalizing i npos size with
  | nil => rfl
  | cons node rest ih =>
      rw [List.length_cons, Nat.succ_mul] at hover
      have hfit : ¬ size ≤ base - npos := by omega
      cases rest with
      | nil => simp only [spans, if_neg (Nat.ne_of_gt hpos), if_neg hfit]
      | cons after rest =>
          have hafter : after.size = base :=
            hsize after (List.mem_cons_of_mem _ List.mem_cons_self)
          have hrest := ih (i := i + 1) (fun m hm => hsize m (List.mem_cons_of_mem _ hm))
            (by omega : 0 < base) (by omega : 0 < size - (base - npos)) (by omega)
          rw [Nat.sub_zero] at hrest
          rw [spans, if_neg (Nat.ne_of_gt hpos), if_neg hfit, hafter, hrest]
          rfl

/-- The walk sees of a position only where it is in its block. -/
theorem walk_mod (cur : Option Nat) {p q : Nat} (h : p % s.baseSize = q % s.baseSize) (n : Nat) :
    s.walk cur p n = s.walk cur q n := by
  unfold walk
  rw [h]

/-- Too long a walk follows a null pointer. -/
theorem WellFormed.walk_overrun (h : s.WellFormed) {position n : Nat} (hn : 0 < n)
    (hover : s.capacity < position + n) :
    s.walk (cursor s.baseSize s.capacity position) position n = .error .nullNode := by
  have hcap := h.capacity_eq
  unfold walk cursor
  split
  · rfl
  · cases hnode : s.nodes[position / s.baseSize]? with
    | none =>
        rw [deref, hnode]
        rfl
    | some node =>
        obtain ⟨hlt, rfl⟩ := List.getElem?_eq_some_iff.1 hnode
        have hsz : s.nodes[position / s.baseSize].size = s.baseSize :=
          h.node_size _ (List.getElem_mem hlt)
        have hsplit := Nat.div_add_mod' position s.baseSize
        have hlength : (s.nodes.drop (position / s.baseSize)).length * s.baseSize <
            position % s.baseSize + n := by
          rw [List.length_drop, Nat.sub_mul]
          omega
        rw [deref, hnode]
        change spans _ _ _ (s.nodes[position / s.baseSize].size - _) n = _
        rw [hsz]
        exact spans_overrun (fun node hmem => h.node_size node (List.mem_of_mem_drop hmem))
          (Nat.mod_lt _ h.base_pos) hn hlength

/-- The walk from the right node reads the bytes of the range. -/
theorem WellFormed.load_spec (h : s.WellFormed) {position n : Nat} (hn : 0 < n)
    (hroom : position + n ≤ s.capacity) :
    ∃ sps last, s.walk (cursor s.baseSize s.capacity position) position n = .ok (sps, last) ∧
      Tiles s.baseSize sps position n ∧
      loadAll s.nodes sps = .ok ((s.bytes.drop position).take n) := by
  obtain ⟨sps, hwalk, htiles⟩ := h.walk_spec hn hroom
  refine ⟨sps, _, hwalk, htiles, ?_⟩
  exact loadAll_spec h.node_block htiles (by rw [← h.capacity_eq]; exact hroom)

theorem content_range {position n : Nat} (hle : position + n ≤ s.size) :
    (s.content.drop position).take n = (s.bytes.drop position).take n := by
  rw [content, List.drop_take, List.take_take, Nat.min_eq_left (by omega)]

end Walk

/-! ### The positional read -/

section Positional

variable {s : ByteArray}

/-- What the positional `read` is to do. -/
def readAtSpec (s : ByteArray) (size position : Nat) : Except Failure (List UInt8) :=
  if position ≤ s.size ∧ size ≤ s.size - position then
    .ok ((s.content.drop position).take size)
  else .error (.outOfRange "not enough len")

/-- Where the positional `read` starts: in the current node, at the offset of its position. -/
def readStart (s : ByteArray) (position : Nat) : Nat :=
  s.position / s.baseSize * s.baseSize + position % s.baseSize

/-- The length that is left wraps behind the end. -/
theorem readAt_throws_iff (hsize : s.size < 2 ^ 64) (size position : UInt64) :
    size > UInt64.ofNat s.size - position ↔
      (position.toNat ≤ s.size ∧ s.size - position.toNat < size.toNat) ∨
        (s.size < position.toNat ∧ 2 ^ 64 - (position.toNat - s.size) < size.toNat) := by
  have hnat : (UInt64.ofNat s.size).toNat = s.size := UInt64.toNat_ofNat_of_lt' hsize
  have hlt := position.toNat_lt
  rw [gt_iff_lt, UInt64.lt_iff_toNat_lt, UInt64.toNat_sub, hnat]
  omega

/-- The current node is the node of the place where the positional `read` starts. -/
theorem cur_eq_cursor_readStart (h : s.WellFormed) (hroom : s.position ≠ s.capacity)
    (position : Nat) : s.cur = cursor s.baseSize s.capacity (s.readStart position) := by
  obtain ⟨hlt, hcur⟩ := h.cur_eq_some hroom
  rw [hcur, h.capacity_eq, readStart, cursor_of_lt hlt (Nat.mod_lt _ h.base_pos)]

/-- What the positional `read` does once it does not throw. -/
theorem load_at_cur (h : s.WellFormed) (position n : Nat) :
    (do let (sps, _) ← s.walk s.cur position n; loadAll s.nodes sps) =
      if s.position = s.capacity then .error .nullNode
      else if n = 0 then .ok []
      else if s.readStart position + n ≤ s.capacity then
        .ok ((s.bytes.drop (s.readStart position)).take n)
      else .error .nullNode := by
  by_cases hfull : s.position = s.capacity
  · rw [if_pos hfull, walk, h.cur_eq_none hfull]
    rfl
  rw [if_neg hfull]
  by_cases hn : n = 0
  · rw [if_pos hn, hn, h.walk_zero, if_neg hfull]
    rfl
  have hmod : position % s.baseSize = s.readStart position % s.baseSize := by
    rw [readStart, Nat.mul_add_mod', Nat.mod_mod]
  rw [if_neg hn, walk_mod _ hmod, cur_eq_cursor_readStart h hfull position]
  by_cases hroom : s.readStart position + n ≤ s.capacity
  · obtain ⟨sps, last, hwalk, -, hload⟩ := h.load_spec (Nat.pos_of_ne_zero hn) hroom
    rw [if_pos hroom, hwalk]
    exact hload
  · rw [if_neg hroom, h.walk_overrun (Nat.pos_of_ne_zero hn) (Nat.lt_of_not_le hroom)]
    rfl

/-- In the block of the object's position the positional `read` starts where it should. -/
theorem readStart_of_same_block {position : Nat}
    (hsame : position / s.baseSize = s.position / s.baseSize) :
    s.readStart position = position := by
  rw [readStart, ← hsame, Nat.div_add_mod']

/-- Inside the content and in the block of the object's position, the positional `read`
is right. -/
theorem readAt_own_block (h : s.WellFormed) (hsize : s.size < 2 ^ 64) {size position : UInt64}
    (hsame : position.toNat / s.baseSize = s.position / s.baseSize) (hpos : 0 < size.toNat)
    (hle : position.toNat + size.toNat ≤ s.size) :
    s.readAt size position = .ok ((s.content.drop position.toNat).take size.toNat) := by
  have hthrows := readAt_throws_iff hsize size position
  have hcap := h.size_le
  have hfull : s.position ≠ s.capacity := by
    intro heq
    have hdiv : s.capacity / s.baseSize = s.nodes.length := by
      rw [h.capacity_eq, Nat.mul_div_cancel _ h.base_pos]
    have hbelow : position.toNat / s.baseSize < s.nodes.length := by
      rw [Nat.div_lt_iff_lt_mul h.base_pos, ← h.capacity_eq]
      omega
    rw [hsame, heq, hdiv] at hbelow
    exact Nat.lt_irrefl _ hbelow
  rw [readAt, if_neg (by rw [hthrows]; omega), load_at_cur h, if_neg hfull,
    if_neg (Nat.ne_of_gt hpos), readStart_of_same_block hsame, if_pos (by omega),
    content_range hle]

/-- `toString` asks for the object's own position, where the start is right. -/
theorem toString_eq (h : s.WellFormed) (hsize : s.size < 2 ^ 64) :
    s.toString = .ok (s.content.drop s.position) := by
  have hle := h.position_le
  have hlength : s.content.length = s.size := by
    rw [content, List.length_take, h.length_bytes, Nat.min_eq_left h.size_le]
  have hposition : (UInt64.ofNat s.position).toNat = s.position :=
    UInt64.toNat_ofNat_of_lt' (Nat.lt_of_le_of_lt hle hsize)
  have hread : (UInt64.ofNat s.getReadSize).toNat = s.getReadSize :=
    UInt64.toNat_ofNat_of_lt' (Nat.lt_of_le_of_lt (Nat.sub_le _ _) hsize)
  unfold toString
  split
  · rename_i hzero
    rw [List.drop_eq_nil_of_le (by rw [getReadSize] at hzero; omega)]
  · rename_i hzero
    rw [readAt_own_block h hsize (by rw [hposition]) (by omega)
      (by rw [hposition, hread, getReadSize]; omega), hposition, hread, List.take_of_length_le]
    rw [List.length_drop, hlength, getReadSize]

/-- The positional `read` does what it should in these cases only. It has to
throw where it does, and otherwise the bytes it takes from the current node on are those
of the range. -/
theorem readAt_eq_spec_iff (h : s.WellFormed) (hsize : s.size < 2 ^ 64)
    (size position : UInt64) :
    s.readAt size position = s.readAtSpec size.toNat position.toNat ↔
      (position.toNat ≤ s.size ∧
        (s.size - position.toNat < size.toNat ∨
          (s.position ≠ s.capacity ∧
            (size = 0 ∨
              (s.readStart position.toNat + size.toNat ≤ s.capacity ∧
                (s.bytes.drop (s.readStart position.toNat)).take size.toNat =
                  (s.bytes.drop position.toNat).take size.toNat))))) ∨
      (s.size < position.toNat ∧ 2 ^ 64 - (position.toNat - s.size) < size.toNat) := by
  have hthrows := readAt_throws_iff hsize size position
  have hzero : size = 0 ↔ size.toNat = 0 := by
    rw [← UInt64.toNat_inj, UInt64.toNat_zero]
  by_cases hthrow : size > UInt64.ofNat s.size - position
  · -- Both sides throw unless the length that is left has wrapped.
    have hspec : s.readAtSpec size.toNat position.toNat =
        .error (.outOfRange "not enough len") := by
      rw [readAtSpec, if_neg]
      rcases hthrows.1 hthrow with hcase | hcase <;> omega
    rw [readAt, if_pos hthrow, hspec]
    refine iff_of_true rfl ?_
    rcases hthrows.1 hthrow with ⟨hle, hlong⟩ | hcase
    · exact .inl ⟨hle, .inl hlong⟩
    · exact .inr hcase
  rw [readAt, if_neg hthrow, load_at_cur h]
  rw [hthrows, not_or] at hthrow
  by_cases hle : position.toNat ≤ s.size
  · have hfits : size.toNat ≤ s.size - position.toNat := by
      by_contra hlong
      exact hthrow.1 ⟨hle, Nat.lt_of_not_le hlong⟩
    have hspec : s.readAtSpec size.toNat position.toNat =
        .ok ((s.bytes.drop position.toNat).take size.toNat) := by
      rw [readAtSpec, if_pos ⟨hle, hfits⟩, content_range (by omega)]
    rw [hspec]
    split_ifs with hfull hnone hroom
    · simp [hfull, hle, hfits]
    · simp [hfull, hle, hzero, hnone]
    · simp [hfull, Nat.not_lt.2 hle, hle, Nat.not_lt.2 hfits, hzero, hnone, hroom]
    · simp [hle, hfits, hzero, hnone, hroom]
  · -- Behind the end nothing may be read, and no branch of the walk throws.
    have hspec : s.readAtSpec size.toNat position.toNat =
        .error (.outOfRange "not enough len") := by
      rw [readAtSpec, if_neg (fun hin => hle hin.1)]
    rw [hspec]
    refine iff_of_false ?_ ?_
    · split_ifs <;> simp
    · rintro (hin | hwrap)
      · exact hle hin.1
      · exact hthrow.2 hwrap

/-- Two blocks of two bytes, all of them written, with the position at the start. -/
def twoBlocks : ByteArray where
  baseSize := 2
  position := 0
  capacity := 4
  size := 4
  endian := .big
  nodes := [⟨[1, 2], 2⟩, ⟨[3, 4], 2⟩]
  cur := some 0
  allocated := 2

theorem twoBlocks_wellFormed : twoBlocks.WellFormed := by
  constructor <;> decide

/-- A range that starts in the current node and goes on in the next one is read. -/
theorem readAt_eq_spec_iff_across : twoBlocks.readAt 2 1 = .ok [2, 3] :=
  (readAt_eq_spec_iff twoBlocks_wellFormed (by decide) 2 1).2
    (.inl ⟨by decide, .inr ⟨by decide, .inr ⟨by decide, by decide⟩⟩⟩)

/-- The byte at position 2 is 3. With the position of the object at 0 the positional `read`
returns the byte at position 0. -/
theorem readAt_follows_current_node :
    (do write (fun _ _ => 0) [1, 2, 3, 4]; setPosition 0).exec (new (fun _ _ => 0) 2) =
      (.ok (), twoBlocks) ∧
    twoBlocks.readAt 1 2 = .ok [1] ∧ twoBlocks.readAtSpec 1 2 = .ok [3] := by
  decide

end Positional

/-! ### The pieces for a gathering send -/

section Buffers

variable {s : ByteArray}

/-- The pieces are in nodes of the object, none is empty, and together they are the `n` bytes
of the content from `position` on. -/
structure Describes (s : ByteArray) (position n : Nat) (sps : List Span) : Prop where
  pos : ∀ sp ∈ sps, 0 < sp.length
  inside : ∀ sp ∈ sps, ∃ node, s.nodes[sp.node]? = some node ∧
    sp.offset + sp.length ≤ node.size
  bytes : loadAll s.nodes sps = .ok ((s.content.drop position).take n)

theorem describes_nil (s : ByteArray) (position : Nat) : Describes s position 0 [] where
  pos := by simp
  inside := by simp
  bytes := by simp [loadAll]

/-- Every piece of a range is in the range, is not empty and stays in its block. -/
theorem Tiles.mem {base : Nat} {sps : List Span} {p n : Nat} (ht : Tiles base sps p n) :
    ∀ sp ∈ sps, 0 < sp.length ∧ sp.offset + sp.length ≤ base ∧
      p ≤ sp.node * base + sp.offset ∧ sp.node * base + sp.offset + sp.length ≤ p + n := by
  induction ht with
  | nil => simp
  | @cons sp sps p n start pos inside rest ih =>
      intro sp' hmem
      rcases List.mem_cons.1 hmem with rfl | hmem
      · exact ⟨pos, inside, by omega, by omega⟩
      · obtain ⟨hpos, hinside, hfrom, hto⟩ := ih sp' hmem
        exact ⟨hpos, hinside, by omega, by omega⟩

/-- The pieces that a walk from the right node finds are those of the range. -/
theorem WellFormed.walk_describes (h : s.WellFormed) (position : Nat) {n : Nat} (hn : 0 < n)
    (hle : position + n ≤ s.size) :
    ∃ sps last, s.walk (cursor s.baseSize s.capacity position) position n = .ok (sps, last) ∧
      Describes s position n sps := by
  have hroom : position + n ≤ s.capacity := hle.trans h.size_le
  obtain ⟨sps, last, hwalk, htiles, hload⟩ := h.load_spec hn hroom
  refine ⟨sps, last, hwalk, fun sp hmem => (htiles.mem sp hmem).1, ?_, ?_⟩
  · intro sp hmem
    obtain ⟨hpos, hinside, -, hto⟩ := htiles.mem sp hmem
    have hlt : sp.node < s.nodes.length := by
      have hcap := h.capacity_eq
      apply Nat.lt_of_mul_lt_mul_right (a := s.baseSize)
      omega
    refine ⟨_, List.getElem?_eq_getElem hlt, ?_⟩
    rw [h.node_size _ (List.getElem_mem hlt)]
    exact hinside
  · rw [content_range hle]
    exact hload

theorem advance_eq (nodes : List Node) (i count : Nat) (hle : count ≤ nodes.length) :
    advance nodes i count = .ok (if count = nodes.length then none else some (i + count)) := by
  induction nodes generalizing i count with
  | nil =>
      obtain rfl : count = 0 := Nat.le_zero.1 hle
      rfl
  | cons node rest ih =>
      cases count with
      | zero => rfl
      | succ count =>
          rw [advance, ih (i + 1) count (Nat.le_of_succ_le_succ hle)]
          simp only [List.length_cons, Nat.succ_inj, Nat.add_assoc, Nat.add_comm 1]

/-- Walking from the root ends at the node of the position. -/
theorem WellFormed.advance_spec (h : s.WellFormed) {position : Nat}
    (hle : position ≤ s.capacity) :
    advance s.nodes 0 (position / s.baseSize) =
      .ok (cursor s.baseSize s.capacity position) := by
  have hcap := h.capacity_eq
  have hcount : position / s.baseSize ≤ s.nodes.length := by
    apply Nat.div_le_of_le_mul
    rw [Nat.mul_comm, ← hcap]
    exact hle
  have hend : position / s.baseSize = s.nodes.length ↔ position = s.capacity := by
    constructor
    · intro heq
      have hmul := Nat.div_mul_le_self position s.baseSize
      rw [heq] at hmul
      omega
    · rintro rfl
      rw [hcap, Nat.mul_div_cancel _ h.base_pos]
  rw [advance_eq _ _ _ hcount, cursor, Nat.zero_add]
  simp only [hend]

theorem clamp_eq_min (s : ByteArray) (len : Nat) :
    (if len > s.getReadSize then s.getReadSize else len) = min len (s.size - s.position) := by
  have hread : s.getReadSize = s.size - s.position := rfl
  split <;> omega

/-- The number returned is that of the object's own position. -/
theorem getReadBuffersAt_count {len position k : Nat} {sps : List Span}
    (hrun : s.getReadBuffersAt len position = .ok (k, sps)) :
    k = min len (s.size - s.position) := by
  unfold getReadBuffersAt at hrun
  simp only [clamp_eq_min] at hrun
  split at hrun
  · rename_i hzero
    cases hrun
    exact hzero.symm
  · cases hadvance : advance s.nodes 0 (position / s.baseSize) with
    | error e =>
        rw [hadvance] at hrun
        cases hrun
    | ok cur =>
        cases hwalk : s.walk cur position (min len (s.size - s.position)) with
        | error e =>
            simp only [hadvance, hwalk, bind, Except.bind] at hrun
            cases hrun
        | ok r =>
            simp only [hadvance, hwalk, bind, Except.bind] at hrun
            cases hrun
            rfl

/-- `getReadBuffers` describes the bytes from the object's position on. With a position of its
own it describes the bytes from there on only if that is the object's position too, or
the length reaches behind the end from neither of the two. -/
theorem getReadBuffers_exact_iff (h : s.WellFormed) :
    (∀ len, ∃ sps, s.getReadBuffers len = .ok (min len (s.size - s.position), sps) ∧
      Describes s s.position (min len (s.size - s.position)) sps) ∧
    ∀ len position, position ≤ s.size →
      ((∃ sps, s.getReadBuffersAt len position = .ok (min len (s.size - position), sps) ∧
          Describes s position (min len (s.size - position)) sps) ↔
        position = s.position ∨ len ≤ s.size - max position s.position) := by
  have hle := h.position_le
  constructor
  · intro len
    unfold getReadBuffers
    simp only [clamp_eq_min]
    by_cases hzero : min len (s.size - s.position) = 0
    · rw [if_pos hzero, hzero]
      exact ⟨[], rfl, describes_nil s s.position⟩
    · obtain ⟨sps, last, hwalk, hdescribes⟩ :=
        h.walk_describes s.position (Nat.pos_of_ne_zero hzero) (by omega)
      rw [← h.cur_eq] at hwalk
      rw [if_neg hzero, hwalk]
      exact ⟨sps, rfl, hdescribes⟩
  · intro len position hposition
    have hsame : min len (s.size - position) = min len (s.size - s.position) ↔
        position = s.position ∨ len ≤ s.size - max position s.position := by
      omega
    rw [← hsame]
    constructor
    · rintro ⟨sps, hrun, -⟩
      exact getReadBuffersAt_count hrun
    · intro heq
      rw [heq]
      unfold getReadBuffersAt
      simp only [clamp_eq_min]
      by_cases hzero : min len (s.size - s.position) = 0
      · rw [if_pos hzero, hzero]
        exact ⟨[], rfl, describes_nil s position⟩
      · obtain ⟨sps, last, hwalk, hdescribes⟩ :=
          h.walk_describes position (Nat.pos_of_ne_zero hzero) (by omega)
        rw [if_neg hzero, h.advance_spec (hposition.trans h.size_le)]
        simp only [hwalk, bind, Except.bind]
        exact ⟨sps, rfl, hdescribes⟩

/-- The second block, asked for by its length. -/
theorem getReadBuffers_exact_iff_second_block :
    ∃ sps, twoBlocks.getReadBuffersAt 2 2 = .ok (2, sps) ∧ Describes twoBlocks 2 2 sps :=
  ((getReadBuffers_exact_iff twoBlocks_wellFormed).2 2 2 (by decide)).2 (.inr (by decide))

/-- Two bytes are left from position 2 on. Asked for as many as there are, the call takes the
four that are left from the object's position on and follows a null pointer behind the last
node. -/
theorem getReadBuffersAt_overruns :
    twoBlocks.WellFormed ∧ twoBlocks.getReadBuffersAt (2 ^ 64 - 1) 2 = .error .nullNode ∧
      ¬ ∃ sps, twoBlocks.getReadBuffersAt (2 ^ 64 - 1) 2 = .ok (2, sps) ∧
        Describes twoBlocks 2 2 sps := by
  have hrun : twoBlocks.getReadBuffersAt (2 ^ 64 - 1) 2 = .error .nullNode := by decide
  refine ⟨twoBlocks_wellFormed, hrun, ?_⟩
  rintro ⟨sps, hok, -⟩
  rw [hrun] at hok
  cases hok

end Buffers

end ByteArray

end Sylar.Net
