import Mathlib.Algebra.GroupWithZero.Nat
import Mathlib.Data.List.SplitLengths
import Mathlib.Tactic.Common

/-!
# A stream that arrives in pieces

Taking bytes off a stream that arrives in pieces shortens the first pieces and
leaves the others as they are. The positions at which the pieces start are
those of the stream.
-/

namespace Sylar.Lib.Pieces

variable {α : Type*}

/-- The pieces without the first `n` elements. -/
def skip (n : Nat) : List (List α) → List (List α)
  | [] => []
  | w :: ws => if n < w.length then w.drop n :: ws else skip (n - w.length) ws

/-- The lengths of the pieces without the first `n` elements. -/
def skipLengths (n : Nat) : List Nat → List Nat
  | [] => []
  | k :: ks => if n < k then (k - n) :: ks else skipLengths (n - k) ks

/-- The positions at which pieces of the given lengths start, the first one at `p`. -/
def starts (p : Nat) : List Nat → List Nat
  | [] => []
  | k :: ks => p :: starts (p + k) ks

theorem flatten_skip (n : Nat) (ws : List (List α)) :
    (skip n ws).flatten = ws.flatten.drop n := by
  induction ws generalizing n with
  | nil => simp [skip]
  | cons w ws ih =>
      rw [skip, List.flatten_cons, List.drop_append]
      split
      · next hlt =>
          rw [List.flatten_cons, Nat.sub_eq_zero_of_le hlt.le, List.drop_zero]
      · next hge =>
          rw [ih, List.drop_eq_nil_of_le (Nat.le_of_not_lt hge), List.nil_append]

theorem map_length_skip (n : Nat) (ws : List (List α)) :
    (skip n ws).map List.length = skipLengths n (ws.map List.length) := by
  induction ws generalizing n with
  | nil => rfl
  | cons w ws ih =>
      rw [skip, List.map_cons, skipLengths]
      split
      · rw [List.map_cons, List.length_drop]
      · exact ih _

/-- What is left of a piece is not empty and not longer than the piece. -/
theorem mem_skip {n : Nat} {ws : List (List α)} {u : List α} (hu : u ∈ skip n ws)
    (hne : ∀ w ∈ ws, w ≠ []) : u ≠ [] ∧ ∃ w ∈ ws, u.length ≤ w.length := by
  induction ws generalizing n with
  | nil => cases hu
  | cons w ws ih =>
      have htail : ∀ v ∈ ws, v ≠ [] := fun v hv => hne v (List.mem_cons_of_mem _ hv)
      rw [skip] at hu
      split at hu
      · next hlt =>
          obtain rfl | hu := List.mem_cons.mp hu
          · refine ⟨?_, w, List.mem_cons_self, ?_⟩
            · rw [ne_eq, List.drop_eq_nil_iff]
              exact Nat.not_le_of_lt hlt
            · rw [List.length_drop]
              exact Nat.sub_le _ _
          · exact ⟨htail u hu, u, List.mem_cons_of_mem _ hu, Nat.le_refl _⟩
      · obtain ⟨hnil, v, hv, hle⟩ := ih hu htail
        exact ⟨hnil, v, List.mem_cons_of_mem _ hv, hle⟩

theorem skip_zero {ws : List (List α)} (hne : ∀ w ∈ ws, w ≠ []) : skip 0 ws = ws := by
  cases ws with
  | nil => rfl
  | cons w ws =>
      rw [skip, if_pos (List.length_pos_iff.mpr (hne w List.mem_cons_self)), List.drop_zero]

theorem skip_skip (m n : Nat) (ws : List (List α)) : skip n (skip m ws) = skip (m + n) ws := by
  induction ws generalizing m with
  | nil => rfl
  | cons w ws ih =>
      rw [skip, skip]
      by_cases hm : m < w.length
      · rw [if_pos hm, skip, List.length_drop, List.drop_drop]
        by_cases hn : m + n < w.length
        · rw [if_pos hn, if_pos (by omega)]
        · rw [if_neg hn, if_neg (by omega)]
          congr 1
          omega
      · rw [if_neg hm, if_neg (by omega), ih]
        congr 1
        omega

theorem sum_skipLengths (n : Nat) (ks : List Nat) :
    (skipLengths n ks).sum = ks.sum - n := by
  induction ks generalizing n with
  | nil => simp [skipLengths]
  | cons k ks ih =>
      rw [skipLengths, List.sum_cons]
      split
      · rw [List.sum_cons]
        omega
      · rw [ih]
        omega

theorem le_of_mem_starts {p b : Nat} {ks : List Nat} (h : b ∈ starts p ks) : p ≤ b := by
  induction ks generalizing p with
  | nil => cases h
  | cons k ks ih =>
      obtain rfl | h := List.mem_cons.mp h
      · exact Nat.le_refl _
      · exact Nat.le_of_add_right_le (ih h)

/-- Behind the elements taken off, the pieces start where they started before. -/
theorem mem_starts_skipLengths {p n b : Nat} {ks : List Nat} (hb : p + n < b) :
    b ∈ starts (p + n) (skipLengths n ks) ↔ b ∈ starts p ks := by
  induction ks generalizing p n with
  | nil => rfl
  | cons k ks ih =>
      rw [skipLengths, starts, List.mem_cons]
      split
      · next hlt =>
          have hsum : p + n + (k - n) = p + k := by omega
          rw [starts, List.mem_cons, hsum]
          constructor
          · rintro (rfl | h)
            · omega
            · exact Or.inr h
          · rintro (rfl | h)
            · omega
            · exact Or.inr h
      · next hge =>
          have hsum : p + n = p + k + (n - k) := by omega
          rw [hsum] at hb ⊢
          rw [ih hb]
          constructor
          · exact Or.inr
          · rintro (rfl | h)
            · omega
            · exact h

end Sylar.Lib.Pieces
