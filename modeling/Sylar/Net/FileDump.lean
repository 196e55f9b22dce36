import Sylar.Net.ReadBuffers
import Sylar.Lib.Narrowing

/-!
# A `ByteArray` written to a file and read back

`writeToFile` goes through the nodes from the current one on and writes of each the bytes
behind an offset. The offset is kept in an `int`, which holds the remainder of the
position only if that is below `2^31`. `readFromFile` writes the file to the object in
pieces of the size of its own blocks, the last one shorter and possibly empty.

The files can be opened, and the sizes are below `2^63`, where `int64_t` has them.
-/

namespace Sylar.Net

open Sylar.Lib Sylar.Lib.Blocks

namespace ByteArray

/-- The bytes at `ptr + offset`. -/
def peek (node : Node) (offset len : Int) : Except Failure (List UInt8) :=
  if 0 ≤ offset ∧ offset + len ≤ node.ptr.length then
    .ok ((node.ptr.drop offset.toNat).take len.toNat)
  else .error .outsideNode

/-- The offset as the `int` it is kept in. -/
def diff (baseSize pos : Nat) : Int := (narrow (UInt64.ofNat (pos % baseSize))).toInt

/-- The loop of `writeToFile`, with the nodes from `cur` on. -/
def dump (baseSize : Nat) : List Node → Nat → Nat → Except Failure (List UInt8)
  | [], _, readSize => if readSize = 0 then .ok [] else .error .nullNode
  | node :: rest, pos, readSize =>
      if readSize = 0 then .ok []
      else do
        let len := if readSize + diff baseSize pos > baseSize then baseSize - diff baseSize pos
          else readSize
        let bytes ← peek node (diff baseSize pos) len
        let more ← dump baseSize rest (pos + len.toNat) (readSize - len.toNat)
        .ok (bytes ++ more)

/-- What `writeToFile` stores in the file. -/
def writeToFile (s : ByteArray) : Except Failure (List UInt8) :=
  let chain := match s.cur with
    | none => []
    | some i => s.nodes.drop i
  dump s.baseSize chain s.position s.getReadSize

variable (fresh : Nat → Nat → UInt8)

/-- The loop of `readFromFile` over the rest of the file, with a buffer of `baseSize` bytes. A
short read is the last one. -/
def feed (baseSize : Nat) (file : List UInt8) : Method ByteArray Failure Unit :=
  if 0 < baseSize ∧ baseSize ≤ file.length then do
    write fresh (file.take baseSize)
    feed baseSize (file.drop baseSize)
  else write fresh file
termination_by file.length
decreasing_by
  rw [List.length_drop]
  omega

def readFromFile (file : List UInt8) : Method ByteArray Failure Unit := do
  let s ← get
  feed fresh s.baseSize file

/-! ### Writing the file -/

section Dump

variable {base pos n : Nat}

/-- A 64 bit word keeps the low half of the offset. -/
theorem low_offset (base pos : Nat) :
    (UInt64.ofNat (pos % base)).toNat % 2 ^ 32 = pos % base % 2 ^ 32 := by
  rw [UInt64.toNat_ofNat']
  omega

theorem diff_of_lt (h : pos % base % 2 ^ 32 < 2 ^ 31) :
    diff base pos = (pos % base % 2 ^ 32 : Nat) := by
  rw [← low_offset] at h ⊢
  exact toInt_narrow_of_lt h

theorem diff_neg (h : 2 ^ 31 ≤ pos % base % 2 ^ 32) : diff base pos < 0 := by
  rw [← Int.not_le, diff, narrow_nonneg_iff, low_offset]
  omega

theorem dump_zero (chain : List Node) : dump base chain pos 0 = .ok [] := by
  cases chain <;> rfl

/-- A block is written from the offset on. -/
theorem dump_cons {node : Node} {rest : List Node} (hblock : node.ptr.length = base)
    {d : Nat} (hd : diff base pos = d) (hle : d ≤ base) (hn : n ≠ 0) :
    dump base (node :: rest) pos n =
      (do let more ← dump base rest (pos + min n (base - d)) (n - (base - d))
          .ok ((node.ptr.drop d).take n ++ more)) := by
  have hlen : (if (n : Int) + d > base then (base : Int) - d else n) =
      (min n (base - d) : Nat) := by
    split <;> omega
  have hrest : n - min n (base - d) = n - (base - d) := by omega
  have htake : (node.ptr.drop d).take (min n (base - d)) = (node.ptr.drop d).take n := by
    rw [List.take_eq_take_iff, List.length_drop, hblock]
    omega
  have hpeek : peek node d (min n (base - d) : Nat) = .ok ((node.ptr.drop d).take n) := by
    rw [peek, if_pos (by omega), Int.toNat_natCast, Int.toNat_natCast, htake]
  rw [dump, if_neg hn]
  simp only [hd, hlen, hpeek, Int.toNat_natCast, hrest, bind, Except.bind]

/-- From a block that is written whole on, the blocks are written one after the other. -/
theorem dump_aligned {chain : List Node} (hblock : ∀ node ∈ chain, node.ptr.length = base)
    (halign : pos % base % 2 ^ 32 = 0) (hroom : n ≤ chain.length * base) :
    dump base chain pos n = .ok ((chain.map Node.ptr).flatten.take n) := by
  induction chain generalizing pos n with
  | nil =>
      obtain rfl : n = 0 := by simpa using hroom
      rfl
  | cons node rest ih =>
      by_cases hn : n = 0
      · rw [hn, dump_zero, List.take_zero]
      have hnode : node.ptr.length = base := hblock node List.mem_cons_self
      have hd : diff base pos = (0 : Nat) := by
        rw [diff_of_lt (by omega), halign]
      have hmore : dump base rest (pos + min n (base - 0)) (n - (base - 0)) =
          .ok ((rest.map Node.ptr).flatten.take (n - base)) := by
        by_cases hfit : n ≤ base
        · rw [Nat.sub_zero, Nat.sub_eq_zero_of_le hfit, dump_zero, List.take_zero]
        · -- The position moves by a whole block, so that the next one is written whole too.
          rw [Nat.sub_zero, Nat.min_eq_right (Nat.le_of_not_le hfit)]
          apply ih (fun node' hmem => hblock node' (List.mem_cons_of_mem _ hmem))
          · rw [Nat.add_mod_right]
            exact halign
          · rw [List.length_cons, Nat.succ_mul] at hroom
            omega
      rw [dump_cons hnode hd (Nat.zero_le _) hn, hmore, List.map_cons, List.flatten_cons,
        List.take_append, hnode]
      rfl

/-- The blocks are written from the offset in the first one on. -/
theorem dump_spec {chain : List Node} (hb : 0 < base)
    (hblock : ∀ node ∈ chain, node.ptr.length = base) (hlow : pos % base % 2 ^ 32 < 2 ^ 31)
    (hroom : pos % base % 2 ^ 32 + n ≤ chain.length * base) :
    dump base chain pos n =
      .ok (((chain.map Node.ptr).flatten.drop (pos % base % 2 ^ 32)).take n) := by
  have hmod : pos % base < base := Nat.mod_lt _ hb
  obtain ⟨d, hd⟩ : ∃ d, d = pos % base % 2 ^ 32 := ⟨_, rfl⟩
  have hle : d ≤ pos % base := hd ▸ Nat.mod_le _ _
  rw [← hd] at hroom ⊢
  by_cases hn : n = 0
  · rw [hn, dump_zero, List.take_zero]
  cases chain with
  | nil =>
      rw [List.length_nil] at hroom
      omega
  | cons node rest =>
      have hnode : node.ptr.length = base := hblock node List.mem_cons_self
      have hdiff : diff base pos = d := by
        rw [diff_of_lt hlow, hd]
      have hmore : dump base rest (pos + min n (base - d)) (n - (base - d)) =
          .ok ((rest.map Node.ptr).flatten.take (n - (base - d))) := by
        by_cases hfit : n ≤ base - d
        · rw [Nat.sub_eq_zero_of_le hfit, dump_zero, List.take_zero]
        · rw [Nat.min_eq_right (Nat.le_of_not_le hfit)]
          apply dump_aligned (fun node' hmem => hblock node' (List.mem_cons_of_mem _ hmem))
          · -- What is left of the remainder is a multiple of `2^32`.
            have hnext : (pos + (base - d)) % base = pos % base - d := by
              have hsum : pos + (base - d) =
                  (pos % base - d) + base * (pos / base + 1) := by
                have hsplit := Nat.mod_add_div pos base
                rw [Nat.mul_succ]
                omega
              rw [hsum, Nat.add_mul_mod_self_left, Nat.mod_eq_of_lt (by omega)]
            rw [hnext, hd]
            omega
          · rw [List.length_cons, Nat.succ_mul] at hroom
            omega
      rw [dump_cons hnode hdiff (hle.trans hmod.le) hn, hmore, List.map_cons,
        List.flatten_cons, List.drop_append_of_le_length (by omega), List.take_append,
        List.length_drop, hnode]
      rfl

/-- A negative offset is in front of the block. -/
theorem dump_negative {node : Node} {rest : List Node} (hneg : 2 ^ 31 ≤ pos % base % 2 ^ 32)
    (hn : n ≠ 0) : dump base (node :: rest) pos n = .error .outsideNode := by
  have hdiff := diff_neg hneg
  rw [dump, if_neg hn]
  simp only [peek]
  rw [if_neg (by omega)]
  rfl

end Dump

/-! ### The file of an object -/

section Objects

variable {s : ByteArray}

/-- The offset of the position in its block. -/
def blockOffset (s : ByteArray) : Nat := s.position % s.baseSize

/-- Where the file starts: the offset loses the bits that an `int` does not have. -/
def dumpStart (s : ByteArray) : Nat :=
  s.position / s.baseSize * s.baseSize + s.blockOffset % 2 ^ 32

/-- The file of an object in order. -/
theorem writeToFile_eq (h : s.WellFormed) :
    s.writeToFile =
      if s.getReadSize = 0 then .ok []
      else if s.blockOffset % 2 ^ 32 < 2 ^ 31 then
        .ok ((s.bytes.drop s.dumpStart).take s.getReadSize)
      else .error .outsideNode := by
  unfold writeToFile
  by_cases hzero : s.getReadSize = 0
  · rw [if_pos hzero, hzero, dump_zero]
  have hread : s.getReadSize = s.size - s.position := rfl
  have hsize := h.size_le
  obtain ⟨hlt, hcur⟩ := h.cur_eq_some (by omega)
  rw [if_neg hzero, hcur]
  dsimp only
  by_cases hlow : s.blockOffset % 2 ^ 32 < 2 ^ 31
  · have hoff : s.blockOffset % 2 ^ 32 ≤ s.position % s.baseSize := Nat.mod_le _ _
    have hsplit := Nat.div_add_mod' s.position s.baseSize
    have hcap := h.capacity_eq
    have hroom : s.blockOffset % 2 ^ 32 + s.getReadSize ≤
        (s.nodes.drop (s.position / s.baseSize)).length * s.baseSize := by
      rw [List.length_drop, Nat.sub_mul]
      omega
    have hblock : ∀ node ∈ s.nodes.drop (s.position / s.baseSize),
        node.ptr.length = s.baseSize :=
      fun node hmem => h.node_block node (List.mem_of_mem_drop hmem)
    rw [if_pos hlow, dump_spec h.base_pos hblock hlow hroom, List.map_drop,
      ← drop_flatten h.uniform, List.drop_drop]
    rfl
  · rw [if_neg hlow, List.drop_eq_getElem_cons hlt]
    exact dump_negative (Nat.le_of_not_lt hlow) hzero

/-- Reading a file back is one write. -/
theorem exec_feed (h : s.WellFormed) {baseSize : Nat} (file : List UInt8) :
    (feed fresh baseSize file).exec s = (write fresh file).exec s := by
  induction hlen : file.length using Nat.strong_induction_on generalizing s file with
  | _ m ih =>
      rw [feed]
      split
      · rename_i hfull
        obtain ⟨t, hrun, ht, -⟩ := write_spec fresh h (file.take baseSize)
        have hdrop : (file.drop baseSize).length < m := by
          rw [List.length_drop]
          omega
        have happend := write_append fresh h (file.take baseSize) (file.drop baseSize)
        rw [Method.exec_bind_ok hrun, List.take_append_drop] at happend
        rw [Method.exec_bind_ok hrun, ih _ hdrop ht _ rfl, happend]
      · rfl

/-- The file holds the bytes from the position on, and reading it into `b` is writing them. -/
def DumpRoundTrips (a b : ByteArray) : Prop :=
  ∃ file, a.writeToFile = .ok file ∧ file = a.content.drop a.position ∧
    (readFromFile fresh file).exec b = (write fresh (a.content.drop a.position)).exec b

/-- The file is right if nothing is left to write, or the offset of the position as an `int` is
not negative and the bytes from there on are those from the position on. -/
theorem file_dump_round_trips_iff {a b : ByteArray} (ha : a.WellFormed) (hb : b.WellFormed) :
    DumpRoundTrips fresh a b ↔
      a.getReadSize = 0 ∨
        (a.blockOffset % 2 ^ 32 < 2 ^ 31 ∧
          (a.bytes.drop a.dumpStart).take a.getReadSize =
            (a.bytes.drop a.position).take a.getReadSize) := by
  have hread : ∀ file, (readFromFile fresh file).exec b = (write fresh file).exec b := by
    intro file
    rw [readFromFile, Method.exec_bind_ok (Method.exec_get b), exec_feed fresh hb]
  have hcontent : a.content.drop a.position =
      (a.bytes.drop a.position).take a.getReadSize := by
    rw [content, List.drop_take]
    rfl
  have hfile : DumpRoundTrips fresh a b ↔
      a.writeToFile = .ok ((a.bytes.drop a.position).take a.getReadSize) := by
    unfold DumpRoundTrips
    rw [hcontent]
    constructor
    · rintro ⟨file, hwrite, rfl, -⟩
      exact hwrite
    · intro hwrite
      exact ⟨_, hwrite, rfl, hread _⟩
  rw [hfile, writeToFile_eq ha]
  split_ifs with hzero hlow
  · simp [hzero]
  · rw [Except.ok.injEq]
    simp only [hzero, hlow, false_or, true_and]
  · simp only [hzero, hlow, false_or, false_and]

/-- An offset below `2^31` keeps its bits. -/
theorem dumpStart_eq (hlow : s.blockOffset < 2 ^ 31) : s.dumpStart = s.position := by
  rw [dumpStart, Nat.mod_eq_of_lt (by omega), blockOffset, Nat.div_add_mod']

/-- From the middle of the first block of an array with blocks of two bytes, into one with
blocks of three. -/
theorem file_dump_round_trips_iff_inside :
    DumpRoundTrips (fun _ _ => 0) { twoBlocks with position := 1 } (new (fun _ _ => 0) 3) := by
  have ha : ({ twoBlocks with position := 1 } : ByteArray).WellFormed := by
    constructor <;> decide
  have hb : (new (fun _ _ => 0) 3).WellFormed := (new_represents _ (by decide)).1
  have hlow : ({ twoBlocks with position := 1 } : ByteArray).blockOffset < 2 ^ 31 := by decide
  refine (file_dump_round_trips_iff _ ha hb).2 (.inr ⟨by decide, ?_⟩)
  rw [dumpStart_eq hlow]

/-- With a block of `2^31 + 1` bytes and the position at the last of them, the offset is
negative as an `int`, and `writeToFile` reads in front of the block. -/
theorem writeToFile_negative_offset :
    ∃ a, (do setPosition (2 ^ 31 + 1); setPosition (2 ^ 31)).exec
        (new (fun _ _ => 0) (2 ^ 31 + 1)) = (.ok (), a) ∧
      a.WellFormed ∧ a.getReadSize = 1 ∧ a.writeToFile = .error .outsideNode := by
  have hnew : (new (fun _ _ => 0) (2 ^ 31 + 1)).WellFormed := (new_represents _ (by decide)).1
  obtain ⟨t, hrun, ht, hbase, -, hflat⟩ := setPosition_spec hnew (Nat.le_refl (2 ^ 31 + 1))
  have htsize : t.size = 2 ^ 31 + 1 := congrArg Flat.size hflat
  have hcapacity : 2 ^ 31 ≤ t.capacity := by
    have hle := ht.size_le
    omega
  obtain ⟨a, hrun', ha, hbase', -, hflat'⟩ := setPosition_spec ht hcapacity
  have hposition : a.position = 2 ^ 31 := congrArg Flat.position hflat'
  have hasize : a.size = 2 ^ 31 + 1 := by
    have hcongr : a.size = max t.size (2 ^ 31) := congrArg Flat.size hflat'
    omega
  have habase : a.baseSize = 2 ^ 31 + 1 := hbase'.trans hbase
  have hread : a.getReadSize = 1 := by
    rw [getReadSize, hposition, hasize, Nat.add_sub_cancel_left]
  have hoffset : a.blockOffset = 2 ^ 31 := by
    rw [blockOffset, hposition, habase, Nat.mod_eq_of_lt (Nat.lt_succ_self _)]
  refine ⟨a, ?_, ha, hread, ?_⟩
  · rw [Method.exec_bind_ok hrun, hrun']
  · rw [writeToFile_eq ha, if_neg (by omega), if_neg (by rw [hoffset]; decide)]

end Objects

end ByteArray

end Sylar.Net
