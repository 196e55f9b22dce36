import Mathlib.Data.List.DropRight
import Sylar.Http.Params

/-!
# `StringUtil::Trim`, `TrimLeft` and `TrimRight`

Each function looks for the first or the last byte that is no delimiter and cuts the string
there. `TrimRight` passes the index of the last byte that stays as the length of the result,
so it drops that byte as well.
-/

namespace Sylar.Common

open Sylar.Lib
open Sylar.Http (Text ascii)

section Search

variable (str delimit : Text)

/-- `std::string::find_first_not_of`, with `none` for `npos`. -/
def findFirstNotOf : Option Nat := str.findIdx? fun c => c ∉ delimit

/-- `std::string::find_last_not_of`, which goes from the end to the front. -/
def findLastNotOf : Option Nat :=
  (str.reverse.findIdx? fun c => c ∉ delimit).map fun i => str.length - 1 - i

/-- `std::string::substr` at a position inside the string. -/
def substr (pos n : Nat) : Text := (str.drop pos).take n

def npos : Nat := 18446744073709551615

/-- Where a first byte is found, a last one is found as well. -/
def trim : Text :=
  match findFirstNotOf str delimit with
  | none => []
  | some first => substr str first ((findLastNotOf str delimit).getD npos - first + 1)

def trimLeft : Text :=
  match findFirstNotOf str delimit with
  | none => []
  | some first => str.drop first

def trimRight : Text :=
  match findLastNotOf str delimit with
  | none => []
  | some last => substr str 0 last

end Search

/-- `t` is `s` without its longest prefix of delimiters. -/
def IsTrimLeft (s d t : Text) : Prop :=
  ∃ front, s = front ++ t ∧ (∀ c ∈ front, c ∈ d) ∧
    ∀ p, p <+: s → (∀ c ∈ p, c ∈ d) → p.length ≤ front.length

/-- `t` is `s` without its longest suffix of delimiters. -/
def IsTrimRight (s d t : Text) : Prop :=
  ∃ back, s = t ++ back ∧ (∀ c ∈ back, c ∈ d) ∧
    ∀ p, p <:+ s → (∀ c ∈ p, c ∈ d) → p.length ≤ back.length

/-- What the three functions are to each other. -/
structure TrimsAgree (s d : Text) : Prop where
  left : IsTrimLeft s d (trimLeft s d)
  right : IsTrimRight s d (trimRight s d)
  leftFirst : trim s d = trimRight (trimLeft s d) d
  rightFirst : trim s d = trimLeft (trimRight s d) d
  trimTwice : trim (trim s d) d = trim s d
  leftTwice : trimLeft (trimLeft s d) d = trimLeft s d
  rightTwice : trimRight (trimRight s d) d = trimRight s d

section Delimiters

variable {s d front back : Text} {c : UInt8}

theorem findFirstNotOf_eq_none_iff : findFirstNotOf s d = none ↔ ∀ c ∈ s, c ∈ d := by
  simp [findFirstNotOf, List.findIdx?_eq_none_iff]

theorem findLastNotOf_eq_none_iff : findLastNotOf s d = none ↔ ∀ c ∈ s, c ∈ d := by
  simp [findLastNotOf, List.findIdx?_eq_none_iff]

theorem findFirstNotOf_append_cons (hfront : ∀ x ∈ front, x ∈ d) (hc : c ∉ d) :
    findFirstNotOf (front ++ c :: back) d = some front.length := by
  apply findIdx?_append_cons
  · intro x hx
    simpa using hfront x hx
  · simpa using hc

theorem findLastNotOf_append_cons (hback : ∀ x ∈ back, x ∈ d) (hc : c ∉ d) :
    findLastNotOf (front ++ c :: back) d = some front.length := by
  have hrev : (front ++ c :: back).reverse = back.reverse ++ c :: front.reverse := by simp
  have hfind : (front ++ c :: back).reverse.findIdx? (fun x => decide (x ∉ d)) =
      some back.length := by
    rw [hrev, findIdx?_append_cons, List.length_reverse]
    · intro x hx
      simpa using hback x (List.mem_reverse.mp hx)
    · simpa using hc
  rw [findLastNotOf, hfind, Option.map_some, List.length_append, List.length_cons]
  congr 1
  omega

/-- A string with a byte that is no delimiter has a first one. -/
theorem exists_first (h : ¬ ∀ c ∈ s, c ∈ d) :
    ∃ front c back, s = front ++ c :: back ∧ (∀ x ∈ front, x ∈ d) ∧ c ∉ d := by
  induction s with
  | nil => exact absurd (fun c hc => absurd hc List.not_mem_nil) h
  | cons b s ih =>
      by_cases hb : b ∈ d
      · have htail : ¬ ∀ c ∈ s, c ∈ d := by
          intro hs
          exact h (List.forall_mem_cons.mpr ⟨hb, hs⟩)
        obtain ⟨front, c, back, rfl, hfront, hc⟩ := ih htail
        exact ⟨b :: front, c, back, rfl, List.forall_mem_cons.mpr ⟨hb, hfront⟩, hc⟩
      · exact ⟨[], b, s, rfl, fun x hx => absurd hx List.not_mem_nil, hb⟩

/-- A string with a byte that is no delimiter has a last one. -/
theorem exists_last (h : ¬ ∀ c ∈ s, c ∈ d) :
    ∃ front c back, s = front ++ c :: back ∧ (∀ x ∈ back, x ∈ d) ∧ c ∉ d := by
  have hrev : ¬ ∀ c ∈ s.reverse, c ∈ d := by simpa using h
  obtain ⟨front, c, back, hs, hfront, hc⟩ := exists_first hrev
  refine ⟨back.reverse, c, front.reverse, ?_, ?_, hc⟩
  · calc
      s = s.reverse.reverse := s.reverse_reverse.symm
      _ = back.reverse ++ c :: front.reverse := by simp [hs]
  · simpa using hfront

theorem trimLeft_eq (s d : Text) : trimLeft s d = s.dropWhile (· ∈ d) := by
  by_cases h : ∀ c ∈ s, c ∈ d
  · have hall : s.dropWhile (· ∈ d) = [] := List.dropWhile_eq_nil_iff.mpr (by simpa using h)
    rw [trimLeft, findFirstNotOf_eq_none_iff.mpr h, hall]
  · obtain ⟨front, c, back, rfl, hfront, hc⟩ := exists_first h
    rw [trimLeft, findFirstNotOf_append_cons hfront hc,
      List.dropWhile_append_of_pos (by simpa using hfront),
      List.dropWhile_cons_of_neg (by simpa using hc)]
    exact List.drop_left

/-- `TrimRight` drops the last byte that is no delimiter. -/
theorem trimRight_append_cons (hback : ∀ x ∈ back, x ∈ d) (hc : c ∉ d) :
    trimRight (front ++ c :: back) d = front := by
  rw [trimRight, findLastNotOf_append_cons hback hc]
  exact List.take_left

theorem rdropWhile_append_cons {p : UInt8 → Bool} (hback : ∀ x ∈ back, p x = true)
    (hc : p c = false) : (front ++ c :: back).rdropWhile p = front ++ [c] := by
  induction back using List.reverseRecOn with
  | nil => exact List.rdropWhile_concat_neg p front c (by simp [hc])
  | append_singleton back b ih =>
      have hb : p b = true := hback b (by simp)
      have hrest : ∀ x ∈ back, p x = true := fun x hx => hback x (by simp [hx])
      rw [← List.cons_append, ← List.append_assoc, List.rdropWhile_concat_pos p _ b hb]
      exact ih hrest

theorem trimRight_eq (s d : Text) : trimRight s d = (s.rdropWhile (· ∈ d)).dropLast := by
  by_cases h : ∀ c ∈ s, c ∈ d
  · have hall : s.rdropWhile (· ∈ d) = [] :=
      List.rdropWhile_eq_nil_iff.mpr (by simpa using h)
    rw [trimRight, findLastNotOf_eq_none_iff.mpr h, hall]
    rfl
  · obtain ⟨front, c, back, rfl, hback, hc⟩ := exists_last h
    rw [trimRight_append_cons hback hc, rdropWhile_append_cons (by simpa using hback)
      (by simpa using hc), List.dropLast_concat]

/-- `Trim` drops the delimiters at both ends. -/
theorem trim_eq (s d : Text) : trim s d = (s.dropWhile (· ∈ d)).rdropWhile (· ∈ d) := by
  by_cases h : ∀ c ∈ s, c ∈ d
  · have hall : s.dropWhile (· ∈ d) = [] := List.dropWhile_eq_nil_iff.mpr (by simpa using h)
    rw [trim, findFirstNotOf_eq_none_iff.mpr h, hall]
    rfl
  · obtain ⟨front, c, rest, hs, hfront, hc⟩ := exists_first h
    obtain ⟨front', e, back, hs', hback, he⟩ := exists_last h
    have hfirst : findFirstNotOf s d = some front.length := by
      rw [hs, findFirstNotOf_append_cons hfront hc]
    have hlast : findLastNotOf s d = some front'.length := by
      rw [hs', findLastNotOf_append_cons hback he]
    -- The first byte that is no delimiter does not stand behind the last one.
    have hle : front.length ≤ front'.length := by
      by_contra hlt
      have hstart : front' ++ [e] <+: s := ⟨back, by simp [hs']⟩
      have hinside : front' ++ [e] <+: front := by
        apply List.prefix_of_prefix_length_le hstart ⟨c :: rest, hs.symm⟩
        rw [List.length_append, List.length_singleton]
        omega
      exact he (hfront e (hinside.subset (by simp)))
    have hdrop : s.drop front.length = front'.drop front.length ++ e :: back := by
      rw [hs', List.drop_append_of_le_length hle]
    have hlen : front'.length - front.length + 1 =
        (front'.drop front.length ++ [e]).length := by
      simp
    calc
      trim s d = (s.drop front.length).take (front'.length - front.length + 1) := by
        rw [trim, hfirst, hlast]
        rfl
      _ = front'.drop front.length ++ [e] := by
        rw [hdrop, hlen, List.append_cons _ e back, List.take_left]
      _ = (s.drop front.length).rdropWhile (· ∈ d) := by
        rw [hdrop, rdropWhile_append_cons (by simpa using hback) (by simpa using he)]
      _ = (s.dropWhile (· ∈ d)).rdropWhile (· ∈ d) := by
        rw [← trimLeft_eq, trimLeft, hfirst]

/-- The function under which the parameters of a request are read. -/
theorem trim_eq_trim (s d : Text) : trim s d = Http.trim d s := trim_eq s d

/-- `TrimLeft` is right for every string. -/
theorem isTrimLeft_trimLeft (s d : Text) : IsTrimLeft s d (trimLeft s d) := by
  rw [trimLeft_eq]
  refine ⟨s.takeWhile (· ∈ d), (List.takeWhile_append_dropWhile ..).symm, ?_, ?_⟩
  · intro c hc
    simpa using List.mem_takeWhile_imp hc
  · rintro p ⟨rest, rfl⟩ hp
    rw [List.takeWhile_append_of_pos (by simpa using hp), List.length_append]
    exact Nat.le_add_right _ _

end Delimiters

/-- The functions agree on a string if and only if it has nothing but delimiters. -/
theorem trims_agree_iff (s d : Text) : TrimsAgree s d ↔ ∀ c ∈ s, c ∈ d := by
  constructor
  · intro h
    by_contra hother
    obtain ⟨front, c, back, rfl, hback, hc⟩ := exists_last hother
    obtain ⟨removed, hsplit, hremoved, -⟩ := h.right
    rw [trimRight_append_cons hback hc] at hsplit
    have hcut : c :: back = removed := List.append_cancel_left hsplit
    exact hc (hremoved c (hcut ▸ List.mem_cons_self))
  · intro h
    have hleft : trimLeft s d = [] := by rw [trimLeft, findFirstNotOf_eq_none_iff.mpr h]
    have hright : trimRight s d = [] := by rw [trimRight, findLastNotOf_eq_none_iff.mpr h]
    have htrim : trim s d = [] := by rw [trim, findFirstNotOf_eq_none_iff.mpr h]
    constructor
    · exact isTrimLeft_trimLeft s d
    · rw [hright]
      exact ⟨s, rfl, h, fun p hp _ => hp.length_le⟩
    · rw [htrim, hleft]
      rfl
    · rw [htrim, hright]
      rfl
    · rw [htrim]
      rfl
    · rw [hleft]
      rfl
    · rw [hright]
      rfl

/-- `TrimRight` takes the `b` with the blank, and another letter at every further call. -/
theorem trimRight_drops_letter :
    trimRight (ascii "ab ") (ascii " ") = ascii "a" ∧
      trimRight (ascii "a") (ascii " ") = [] ∧
      trim (ascii "ab ") (ascii " ") = ascii "ab" ∧
      ¬ TrimsAgree (ascii "ab ") (ascii " ") := by
  refine ⟨by decide, by decide, by decide, ?_⟩
  intro h
  have hdrop : trim (ascii "ab ") (ascii " ") ≠
      trimRight (trimLeft (ascii "ab ") (ascii " ")) (ascii " ") := by decide
  exact hdrop h.leftFirst

end Sylar.Common
