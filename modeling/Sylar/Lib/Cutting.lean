import Mathlib.Data.List.Basic

/-!
# Cutting a list at an element

`cutAt` is a search for the first occurrence of an element together with the two
parts around it. It reads off the first segment of `List.splitOn`.
-/

namespace Sylar.Lib

variable {α : Type*} {c x : α} {s front back : List α}

/-- A list without the element begins what is in front of it. -/
theorem prefix_append_cons_iff {l : List α} (h : c ∉ l) :
    l <+: s ++ c :: back ↔ l <+: s := by
  constructor
  · intro hl
    have hs : s ++ [c] <+: s ++ c :: back := ⟨back, by rw [List.append_assoc]; rfl⟩
    obtain hshort | hlong := List.prefix_or_prefix_of_prefix hl hs
    · obtain rfl | hshort := List.prefix_concat_iff.1 hshort
      · exact absurd (List.mem_append_right s List.mem_cons_self) h
      · exact hshort
    · exact absurd (hlong.subset (List.mem_append_right s List.mem_cons_self)) h
  · intro hl
    exact hl.trans (List.prefix_append s _)

variable [DecidableEq α]

/-- The parts before and behind the first occurrence of `c`. -/
def cutAt (c : α) : List α → Option (List α × List α)
  | [] => none
  | x :: s => if x = c then some ([], s) else (cutAt c s).map fun parts => (x :: parts.1, parts.2)

theorem cutAt_eq_none_iff : cutAt c s = none ↔ c ∉ s := by
  induction s with
  | nil => simp [cutAt]
  | cons x s ih =>
      rw [cutAt, List.mem_cons, not_or]
      split
      · next hx => simp [hx]
      · next hx => simp [ih, Ne.symm hx]

theorem cutAt_eq_some (h : cutAt c s = some (front, back)) :
    s = front ++ c :: back ∧ c ∉ front := by
  induction s generalizing front with
  | nil => cases h
  | cons x s ih =>
      rw [cutAt] at h
      split at h
      · next hx =>
          cases h
          exact ⟨by rw [hx, List.nil_append], List.not_mem_nil⟩
      · next hx =>
          obtain ⟨⟨front', back'⟩, hcut, heq⟩ := Option.map_eq_some_iff.1 h
          cases heq
          obtain ⟨rfl, hfront⟩ := ih hcut
          refine ⟨rfl, ?_⟩
          rw [List.mem_cons, not_or]
          exact ⟨Ne.symm hx, hfront⟩

theorem cutAt_append (h : c ∉ front) (back : List α) :
    cutAt c (front ++ c :: back) = some (front, back) := by
  induction front with
  | nil => simp [cutAt]
  | cons x front ih =>
      rw [List.mem_cons, not_or] at h
      rw [List.cons_append, cutAt, if_neg (Ne.symm h.1), ih h.2]
      rfl

theorem append_cons_prefix_iff {front' back' : List α} (h : c ∉ front) (h' : c ∉ front') :
    front ++ c :: back <+: front' ++ c :: back' ↔ front = front' ∧ back <+: back' := by
  constructor
  · rintro ⟨more, hmore⟩
    rw [List.append_assoc, List.cons_append] at hmore
    have hcut := cutAt_append h (back ++ more)
    rw [hmore, cutAt_append h'] at hcut
    cases hcut
    exact ⟨rfl, List.prefix_append back more⟩
  · rintro ⟨rfl, more, rfl⟩
    exact ⟨more, by rw [List.append_assoc, List.cons_append]⟩

theorem length_lt_of_cutAt (h : cutAt c s = some (front, back)) : back.length < s.length := by
  rw [(cutAt_eq_some h).1, List.length_append, List.length_cons]
  omega

/-- Induction over the segments. -/
theorem cut_induction {motive : List α → Prop} (c : α) (last : ∀ s, c ∉ s → motive s)
    (cut : ∀ front back, c ∉ front → motive back → motive (front ++ c :: back)) (s : List α) :
    motive s := by
  cases hcut : cutAt c s with
  | none => exact last s (cutAt_eq_none_iff.1 hcut)
  | some parts =>
      obtain ⟨heq, hfront⟩ := cutAt_eq_some hcut
      have hlt := length_lt_of_cutAt hcut
      rw [heq]
      exact cut parts.1 parts.2 hfront (cut_induction c last cut parts.2)
termination_by s.length

/-- No segment has the separator. -/
theorem not_mem_of_mem_splitOn {segment : List α} (h : segment ∈ s.splitOn c) : c ∉ segment := by
  induction s using cut_induction c with
  | last s hs =>
      rw [List.splitOn_eq_singleton hs, List.mem_singleton] at h
      rwa [h]
  | cut front back hfront ih =>
      rw [List.splitOn_append_cons_self_of_not_mem hfront, List.mem_cons] at h
      obtain rfl | hmem := h
      · exact hfront
      · exact ih hmem

/-- The segments of words that were joined; no words give one empty segment. -/
theorem splitOn_join {words : List (List α)} (h : ∀ word ∈ words, c ∉ word) :
    ([c].intercalate words).splitOn c = if words = [] then [[]] else words := by
  split
  · next hnil =>
      rw [hnil]
      exact List.splitOn_nil c
  · next hne => exact List.splitOn_intercalate c h hne

/-- What is not the separator is in a segment. -/
theorem exists_mem_splitOn_iff (hne : x ≠ c) :
    (∃ segment ∈ s.splitOn c, x ∈ segment) ↔ x ∈ s := by
  induction s using cut_induction c with
  | last s hs => simp [List.splitOn_eq_singleton hs]
  | cut front back hfront ih =>
      rw [List.splitOn_append_cons_self_of_not_mem hfront, List.mem_append, List.mem_cons,
        ← ih]
      simp [hne]

/-- The index of the first element that passes. -/
theorem findIdx?_append_cons {p : α → Bool} (hfront : ∀ y ∈ front, p y = false) (hx : p x = true) :
    (front ++ x :: back).findIdx? p = some front.length := by
  have hnone : front.findIdx? p = none := List.findIdx?_eq_none_iff.mpr hfront
  rw [List.findIdx?_append, hnone, List.findIdx?_cons, hx]
  simp

/-- A list with `x` has a first run of it. -/
theorem exists_first_run (h : x ∈ s) :
    ∃ front k rest, s = front ++ List.replicate (k + 1) x ++ rest ∧ x ∉ front ∧
      rest.head? ≠ some x := by
  have hrun : ∀ t : List α, ∃ k rest, t = List.replicate k x ++ rest ∧ rest.head? ≠ some x := by
    intro t
    induction t with
    | nil => exact ⟨0, [], rfl, by simp⟩
    | cons y t ih =>
        by_cases hy : y = x
        · obtain ⟨k, rest, rfl, hrest⟩ := ih
          exact ⟨k + 1, rest, by rw [hy, List.replicate_succ, List.cons_append], hrest⟩
        · exact ⟨0, y :: t, rfl, by simpa using hy⟩
  obtain ⟨front, back, rfl, hfront⟩ := List.eq_append_cons_of_mem h
  obtain ⟨k, rest, rfl, hrest⟩ := hrun back
  refine ⟨front, k, rest, ?_, hfront, hrest⟩
  rw [List.replicate_succ, List.append_assoc, List.cons_append]

end Sylar.Lib
