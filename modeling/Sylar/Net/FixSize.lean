import Mathlib.Algebra.GroupWithZero.Nat
import Mathlib.Tactic.Common

/-!
# `readFixSize` and `writeFixSize`

The four loops of `Stream` keep the `int` that a read or a write returns in a `size_t`. The
test `len <= 0` is then one for 0, and a negative result is taken for a large count: it
moves the offset back and raises the count of what is left.

The results are given. A positive one stands for as many bytes that were transferred.
-/

namespace Sylar.Net

/-- `size_t len = read(…)`. -/
def sizeOfResult (r : Int32) : UInt64 := r.toInt64.toUInt64

/-- A call of `read` or `write`: where in the buffer, how many bytes, and the result. -/
structure TransferCall where
  position : UInt64
  left : UInt64
  result : Int32
  deriving DecidableEq, Repr

/-- The places of the bytes that a call transfers. -/
def TransferCall.touched (c : TransferCall) : List UInt64 :=
  (List.range c.result.toInt.toNat).map fun i => c.position + .ofNat i

/-- The value returned, unless more results are needed, and the calls made. -/
structure FixSizeRun where
  returned : Option Int32
  calls : List TransferCall
  deriving DecidableEq, Repr

def FixSizeRun.touched (run : FixSizeRun) : List UInt64 := run.calls.flatMap TransferCall.touched

/-- The loop. `move` is what a result does to the place of the next call. -/
def fixSizeLoop (move : Int32 → UInt64 → UInt64) (length : UInt64) :
    List Int32 → UInt64 → UInt64 → FixSizeRun
  | [], _, left => ⟨if left = 0 then some (.ofNat length.toNat) else none, []⟩
  | r :: results, position, left =>
      if left = 0 then ⟨some (.ofNat length.toNat), []⟩
      else if sizeOfResult r = 0 then ⟨some 0, [⟨position, left, r⟩]⟩
      else
        let rest := fixSizeLoop move length results (move r position) (left - sizeOfResult r)
        ⟨rest.returned, ⟨position, left, r⟩ :: rest.calls⟩

/-- `offset += len`. -/
def moveOffset (r : Int32) (offset : UInt64) : UInt64 := offset + sizeOfResult r

/-- A byte array moves on by what was transferred. -/
def moveByteArray (r : Int32) (position : UInt64) : UInt64 := position + .ofNat r.toInt.toNat

/-- `Stream::readFixSize(void*, size_t)`. -/
def readFixSize (length : UInt64) (results : List Int32) : FixSizeRun :=
  fixSizeLoop moveOffset length results 0 length

/-- `Stream::readFixSize(ByteArray::ptr, size_t)`, with places counted from the position of
the array. -/
def readFixSizeByteArray (length : UInt64) (results : List Int32) : FixSizeRun :=
  fixSizeLoop moveByteArray length results 0 length

/-- `Stream::writeFixSize(const void*, size_t)`. -/
def writeFixSize (length : UInt64) (results : List Int32) : FixSizeRun :=
  fixSizeLoop moveOffset length results 0 length

/-- `Stream::writeFixSize(ByteArray::ptr, size_t)`, with places counted from the position of
the array. -/
def writeFixSizeByteArray (length : UInt64) (results : List Int32) : FixSizeRun :=
  fixSizeLoop moveByteArray length results 0 length

section Specification

/-- What the loop is for: it goes on until nothing is left, and stops with the first result
that is not positive. The value returned, and the number of bytes transferred. -/
def exactLoop (length : Nat) : List Int32 → Nat → Option Int × Nat
  | [], left => (if left = 0 then some length else none, 0)
  | r :: results, left =>
      if left = 0 then (some length, 0)
      else if r.toInt ≤ 0 then (some r.toInt, 0)
      else
        let rest := exactLoop length results (left - r.toInt.toNat)
        (rest.1, r.toInt.toNat + rest.2)

/-- The run returns what it should, transfers the bytes from the first place on in their
order, and no place, count or byte is outside of the buffer. -/
structure Exact (length : Nat) (results : List Int32) (run : FixSizeRun) : Prop where
  returned : run.returned.map Int32.toInt = (exactLoop length results length).1
  touched : run.touched = (List.range (exactLoop length results length).2).map UInt64.ofNat
  calls : ∀ c ∈ run.calls, c.position.toNat ≤ length ∧ c.left.toNat ≤ length
  bytes : ∀ b ∈ run.touched, b.toNat < length

/-- The sum of the results. -/
def total : List Int32 → Int
  | [] => 0
  | r :: results => r.toInt + total results

/-- The result `r` is got after positive ones that leave something to be transferred. -/
def Got (left : Nat) (results before : List Int32) (r : Int32) : Prop :=
  (∃ after, results = before ++ r :: after) ∧ (∀ q ∈ before, 0 < q.toInt) ∧ total before < left

/-- No result is above the number of bytes that are still wanted. -/
def Fits (left : Nat) (results : List Int32) : Prop :=
  ∀ before r, Got left results before r → total before + r.toInt ≤ left

/-- A negative result is got. -/
def Fails (left : Nat) (results : List Int32) : Prop :=
  ∃ before r, Got left results before r ∧ r.toInt < 0

end Specification

section Results

variable {left : Nat} {q r : Int32} {results before : List Int32}

theorem toNat_sizeOfResult (h : 0 ≤ r.toInt) : (sizeOfResult r).toNat = r.toInt.toNat := by
  have hle : (0 : Int64) ≤ r.toInt64 := by
    rw [Int64.le_iff_toInt_le, Int32.toInt_toInt64]
    exact h
  rw [sizeOfResult, Int64.toNat_toUInt64_of_le hle, ← Int32.toInt_toInt64]
  rfl

/-- The test `len <= 0`. -/
theorem sizeOfResult_eq_zero_iff : sizeOfResult r = 0 ↔ r.toInt = 0 := by
  constructor
  · intro h
    have hzero : r.toInt64 = 0 := by
      rw [← Int64.toInt64_toUInt64 r.toInt64]
      exact congrArg UInt64.toInt64 h
    rw [← Int32.toInt_toInt64, hzero]
    rfl
  · intro h
    obtain rfl : r = 0 := Int32.toInt_inj.mp h
    rfl

theorem sizeOfResult_eq_ofNat (h : 0 ≤ r.toInt) : sizeOfResult r = .ofNat r.toInt.toNat := by
  rw [← toNat_sizeOfResult h, UInt64.ofNat_toNat]

/-- Both ways to move on are the same after a positive result. -/
theorem moveOffset_eq (h : 0 ≤ r.toInt) (position : UInt64) :
    moveOffset r position = moveByteArray r position := by
  rw [moveOffset, moveByteArray, sizeOfResult_eq_ofNat h]

theorem total_nonneg (h : ∀ q ∈ before, 0 < q.toInt) : 0 ≤ total before := by
  induction before with
  | nil => exact Int.le_refl 0
  | cons q before ih =>
      obtain ⟨hq, hrest⟩ := List.forall_mem_cons.mp h
      have := ih hrest
      rw [total]
      omega

theorem got_head (hleft : 0 < left) : Got left (q :: results) [] q :=
  ⟨⟨results, rfl⟩, by simp, by simpa [total] using hleft⟩

theorem Got.cons (hq : 0 < q.toInt) (hle : q.toInt.toNat ≤ left)
    (h : Got (left - q.toInt.toNat) results before r) :
    Got left (q :: results) (q :: before) r := by
  obtain ⟨⟨after, rfl⟩, hpos, htotal⟩ := h
  refine ⟨⟨after, rfl⟩, List.forall_mem_cons.mpr ⟨hq, hpos⟩, ?_⟩
  rw [total]
  omega

theorem Fits.le_head (h : Fits left (q :: results)) (hleft : 0 < left) : q.toInt ≤ left := by
  have hle := h [] q (got_head hleft)
  rw [total] at hle
  omega

theorem Fits.tail (h : Fits left (q :: results)) (hq : 0 < q.toInt)
    (hle : q.toInt.toNat ≤ left) : Fits (left - q.toInt.toNat) results := by
  intro before r hgot
  have := h (q :: before) r (hgot.cons hq hle)
  rw [total] at this
  omega

theorem not_fails_tail (h : ¬Fails left (q :: results)) (hq : 0 < q.toInt)
    (hle : q.toInt.toNat ≤ left) : ¬Fails (left - q.toInt.toNat) results := by
  rintro ⟨before, r, hgot, hr⟩
  exact h ⟨q :: before, r, hgot.cons hq hle, hr⟩

end Results

section Loop

variable {move : Int32 → UInt64 → UInt64} {length : UInt64} {results : List Int32}
  {position left : UInt64}

/-- The loop never returns a negative value. -/
theorem fixSizeLoop_nonneg (hlength : length.toNat < 2 ^ 31) {rt : Int32}
    (h : (fixSizeLoop move length results position left).returned = some rt) : 0 ≤ rt.toInt := by
  have hvalue : (Int32.ofNat length.toNat).toInt = length.toNat := Int32.toInt_ofNat_of_lt hlength
  induction results generalizing position left with
  | nil =>
      rw [fixSizeLoop] at h
      dsimp only at h
      split at h
      · cases h
        omega
      · cases h
  | cons r results ih =>
      rw [fixSizeLoop] at h
      split at h
      · cases h
        omega
      · split at h
        · cases h
          decide
        · exact ih h

/-- A loop that gets a negative result should return it. -/
theorem exactLoop_of_fails {length left : Nat} (h : Fails left results)
    (hfits : Fits left results) :
    ∃ rt, (exactLoop length results left).1 = some rt ∧ rt < 0 := by
  induction results generalizing left with
  | nil =>
      obtain ⟨before, r, ⟨⟨after, hnil⟩, -⟩, -⟩ := h
      exact absurd hnil (by simp)
  | cons q results ih =>
      obtain ⟨before, r, ⟨⟨after, heq⟩, hpos, htotal⟩, hr⟩ := h
      cases before with
      | nil =>
          cases heq
          rw [total] at htotal
          rw [exactLoop, if_neg (by omega), if_pos (Int.le_of_lt hr)]
          exact ⟨_, rfl, hr⟩
      | cons p before =>
          cases heq
          obtain ⟨hp, hpos⟩ := List.forall_mem_cons.mp hpos
          rw [total] at htotal
          have hsum := total_nonneg hpos
          have hle : q.toInt.toNat ≤ left := by omega
          rw [exactLoop, if_neg (by omega), if_neg (by omega)]
          exact ih ⟨before, r, ⟨⟨after, rfl⟩, hpos, by omega⟩, hr⟩ (hfits.tail hp hle)

/-- The bytes of a call, and then those from its end on. -/
theorem touched_append {n k : Nat} (position : UInt64) :
    ((List.range n).map fun i => position + UInt64.ofNat i) ++
        ((List.range k).map fun i => position + .ofNat n + UInt64.ofNat i) =
      (List.range (n + k)).map fun i => position + UInt64.ofNat i := by
  rw [List.range_add, List.map_append, List.map_map]
  simp only [Function.comp_def, UInt64.ofNat_add, UInt64.add_assoc]

/-- What a round leaves after a positive result. -/
theorem round_spec {q : Int32} (hq : 0 < q.toInt) (hle : q.toInt.toNat ≤ left.toNat)
    (hend : position.toNat + left.toNat < 2 ^ 64) :
    (moveByteArray q position).toNat = position.toNat + q.toInt.toNat ∧
      (left - sizeOfResult q).toNat = left.toNat - q.toInt.toNat := by
  have hsize := toNat_sizeOfResult (Int.le_of_lt hq)
  constructor
  · have hlt : q.toInt.toNat < UInt64.size := Nat.lt_of_le_of_lt hle left.toNat_lt
    rw [moveByteArray, UInt64.toNat_add, UInt64.toNat_ofNat_of_lt' hlt]
    exact Nat.mod_eq_of_lt (by omega)
  · rw [UInt64.toNat_sub_of_le, hsize]
    rw [UInt64.le_iff_toNat_le, hsize]
    exact hle

/-- Without a negative result the loop does what it is for. -/
theorem fixSizeLoop_spec (hmove : ∀ r position, 0 ≤ r.toInt → move r position =
      moveByteArray r position) (hlength : length.toNat < 2 ^ 31)
    (hend : position.toNat + left.toNat = length.toNat) (hfits : Fits left.toNat results)
    (hfails : ¬Fails left.toNat results) :
    let run := fixSizeLoop move length results position left
    let exact := exactLoop length.toNat results left.toNat
    run.returned.map Int32.toInt = exact.1 ∧
      run.touched = (List.range exact.2).map (fun i => position + .ofNat i) ∧
      exact.2 ≤ left.toNat ∧
      ∀ c ∈ run.calls, c.position.toNat ≤ length.toNat ∧ c.left.toNat ≤ length.toNat := by
  have hvalue : (Int32.ofNat length.toNat).toInt = length.toNat := Int32.toInt_ofNat_of_lt hlength
  have hzero : left = 0 ↔ left.toNat = 0 := by rw [← UInt64.toNat_inj]; rfl
  induction results generalizing position left with
  | nil =>
      dsimp only
      rw [fixSizeLoop, exactLoop]
      by_cases hleft : left = 0
      · rw [if_pos hleft, if_pos (hzero.mp hleft)]
        exact ⟨congrArg some hvalue, rfl, Nat.zero_le _, by simp⟩
      · rw [if_neg hleft, if_neg (mt hzero.mpr hleft)]
        exact ⟨rfl, rfl, Nat.zero_le _, by simp⟩
  | cons q results ih =>
      dsimp only
      rw [fixSizeLoop, exactLoop]
      by_cases hleft : left = 0
      · rw [if_pos hleft, if_pos (hzero.mp hleft)]
        exact ⟨congrArg some hvalue, rfl, Nat.zero_le _, by simp⟩
      · have hpos : 0 < left.toNat := Nat.pos_of_ne_zero (mt hzero.mpr hleft)
        have hnonneg : 0 ≤ q.toInt := by
          by_contra hneg
          exact hfails ⟨[], q, got_head hpos, Int.not_le.mp hneg⟩
        have hcall : position.toNat ≤ length.toNat ∧ left.toNat ≤ length.toNat := by omega
        rw [if_neg hleft, if_neg (mt hzero.mpr hleft)]
        by_cases hq : q.toInt = 0
        · rw [if_pos (sizeOfResult_eq_zero_iff.mpr hq), if_pos (Int.le_of_eq hq)]
          refine ⟨congrArg some hq.symm, ?_, Nat.zero_le _, ?_⟩
          · simp [FixSizeRun.touched, TransferCall.touched, hq]
          · simpa using hcall
        · have hq : 0 < q.toInt := by omega
          have hle : q.toInt.toNat ≤ left.toNat := by
            have := hfits.le_head hpos
            omega
          obtain ⟨hposition, hrest⟩ := @round_spec position _ _ hq hle (by omega)
          rw [if_neg (mt sizeOfResult_eq_zero_iff.mp (by omega)), if_neg (by omega),
            hmove q position hnonneg]
          have hfits' : Fits (left - sizeOfResult q).toNat results := by
            rw [hrest]
            exact hfits.tail hq hle
          have hfails' : ¬Fails (left - sizeOfResult q).toNat results := by
            rw [hrest]
            exact not_fails_tail hfails hq hle
          obtain ⟨hreturned, htouched, hcount, hcalls⟩ :=
            @ih (moveByteArray q position) _ (by omega) hfits' hfails'
              (by rw [← UInt64.toNat_inj]; rfl)
          rw [hrest] at hreturned htouched hcount
          have hsum : q.toInt.toNat + (exactLoop length.toNat results
              (left.toNat - q.toInt.toNat)).2 ≤ left.toNat := by omega
          refine ⟨hreturned, ?_, hsum, List.forall_mem_cons.mpr ⟨hcall, hcalls⟩⟩
          rw [← touched_append]
          exact congrArg (_ ++ ·) htouched

end Loop

/-- The four loops. -/
inductive FixSizeLoop where
  | readFixSize
  | readFixSizeByteArray
  | writeFixSize
  | writeFixSizeByteArray

def FixSizeLoop.run : FixSizeLoop → UInt64 → List Int32 → FixSizeRun
  | .readFixSize => Net.readFixSize
  | .readFixSizeByteArray => Net.readFixSizeByteArray
  | .writeFixSize => Net.writeFixSize
  | .writeFixSizeByteArray => Net.writeFixSizeByteArray

/-- What the four loops have in common. -/
theorem FixSizeLoop.exists_move (f : FixSizeLoop) (length : UInt64) (results : List Int32) :
    ∃ move, (∀ r position, 0 ≤ r.toInt → move r position = moveByteArray r position) ∧
      f.run length results = fixSizeLoop move length results 0 length := by
  cases f with
  | readFixSize | writeFixSize => exact ⟨moveOffset, fun r p h => moveOffset_eq h p, rfl⟩
  | readFixSizeByteArray | writeFixSizeByteArray => exact ⟨moveByteArray, fun _ _ _ => rfl, rfl⟩

/-- Each of the four loops is exact and stops with an error, for all results that fit, exactly
if it gets no negative result. -/
theorem fixSize_exact_iff (f : FixSizeLoop) {length : Nat} (hlength : length < 2 ^ 31)
    {results : List Int32} (hfits : Fits length results) :
    Exact length results (f.run (.ofNat length) results) ↔ ¬Fails length results := by
  have htoNat : (UInt64.ofNat length).toNat = length :=
    UInt64.toNat_ofNat_of_lt' (Nat.lt_trans hlength (by decide))
  obtain ⟨move, hmove, hrun⟩ := f.exists_move (.ofNat length) results
  rw [hrun]
  constructor
  · intro hexact hfails
    obtain ⟨rt, hrt, hneg⟩ := @exactLoop_of_fails _ length _ hfails hfits
    have hreturned := hexact.returned
    rw [hrt] at hreturned
    obtain ⟨rt', hrt', rfl⟩ := Option.map_eq_some_iff.mp hreturned
    have := fixSizeLoop_nonneg (by rwa [htoNat]) hrt'
    omega
  · intro hfails
    obtain ⟨hreturned, htouched, hcount, hcalls⟩ :=
      @fixSizeLoop_spec _ _ _ 0 (.ofNat length) hmove (by rwa [htoNat])
        (Nat.zero_add _) (by rwa [htoNat]) (by rwa [htoNat])
    simp only [htoNat, UInt64.zero_add] at hreturned htouched hcount hcalls
    refine ⟨hreturned, htouched, hcalls, ?_⟩
    intro b hb
    rw [htouched] at hb
    obtain ⟨i, hi, rfl⟩ := List.mem_map.mp hb
    have hlt : i < length := Nat.lt_of_lt_of_le (List.mem_range.mp hi) hcount
    rw [UInt64.toNat_ofNat_of_lt' (Nat.lt_trans hlt (Nat.lt_trans hlength (by decide)))]
    exact hlt

/-- Five bytes that come in two parts. -/
theorem fixSize_exact_iff_two_parts :
    Fits 5 [2, 3] ∧ Exact 5 [2, 3] (FixSizeLoop.readFixSize.run 5 [2, 3]) := by
  have hgot : ∀ before r, Got 5 [2, 3] before r →
      (before = [] ∧ r = 2) ∨ (before = [2] ∧ r = 3) := by
    rintro before r ⟨⟨after, heq⟩, -, -⟩
    cases before with
    | nil =>
        simp only [List.nil_append, List.cons.injEq] at heq
        exact .inl ⟨rfl, heq.1.symm⟩
    | cons q before =>
        cases before with
        | nil =>
            simp only [List.cons_append, List.nil_append, List.cons.injEq] at heq
            exact .inr ⟨by rw [← heq.1], heq.2.1.symm⟩
        | cons p before => simp at heq
  have hfits : Fits 5 [2, 3] := by
    intro before r h
    obtain ⟨rfl, rfl⟩ | ⟨rfl, rfl⟩ := hgot before r h
    · decide
    · decide
  refine ⟨hfits, (@fixSize_exact_iff .readFixSize 5 (by decide) _ hfits).mpr ?_⟩
  rintro ⟨before, r, h, hr⟩
  obtain ⟨rfl, rfl⟩ | ⟨rfl, rfl⟩ := hgot before r h
  · exact absurd hr (by decide)
  · exact absurd hr (by decide)

/-- The first read of four bytes fails. The loop goes on in front of the buffer, gets the
five bytes that are now left, and returns 4. -/
theorem error_moves_back :
    readFixSize 4 [0 - 1, 5] = ⟨some 4, [⟨0, 4, 0 - 1⟩, ⟨0 - 1, 5, 5⟩]⟩ ∧
      exactLoop 4 [0 - 1, 5] 4 = (some (-1), 0) ∧
      ¬Exact 4 [0 - 1, 5] (readFixSize 4 [0 - 1, 5]) := by
  refine ⟨by decide, by decide, ?_⟩
  intro hexact
  exact absurd hexact.returned (by decide)

end Sylar.Net
