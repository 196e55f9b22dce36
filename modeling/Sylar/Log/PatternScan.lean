import Mathlib.Data.List.TakeWhile
import Sylar.Log.Formatter

/-!
# The scan of a pattern by its suffixes

`LogFormatter::init` walks over the pattern with two indices. Here both loops are
described by what is left of the pattern: `conversionOf` is the loop behind a `%`, and
`cut` the loop over the whole pattern.
-/

namespace Sylar.Log

open Sylar.Http (Text ascii)

/-- The bytes that the name of a conversion goes on with. -/
def isWord (c : UInt8) : Bool := isAlpha c || c == 125

/-- The conversion at the beginning of the text behind a `%`, its format and the text that is
left; `none` if a brace is not closed. At the end of the text all of it is the name. -/
def conversionOf (text : Text) : Option (Text × Text × Text) :=
  match text.dropWhile isWord with
  | [] => some (text, [], [])
  | c :: rest =>
      if c = 123 then
        if 125 ∈ rest then
          some (text.takeWhile isWord, rest.takeWhile (· ≠ 125), (rest.dropWhile (· ≠ 125)).tail)
        else none
      else some (text.takeWhile isWord, [], c :: rest)

namespace LogFormatter

section Scan

variable {pattern : Text}

theorem drop_cons {n : Nat} {c : UInt8} {rest : Text} (h : pattern.drop n = c :: rest) :
    pattern[n]? = some c ∧ pattern.drop (n + 1) = rest ∧
      (n + 1 = pattern.length ↔ rest = []) := by
  have hget : pattern[n]? = some c := by rw [← List.head?_drop, h, List.head?_cons]
  have hdrop : pattern.drop (n + 1) = rest := by rw [← List.tail_drop, h, List.tail_cons]
  have hlength := congrArg List.length h
  rw [List.length_drop, List.length_cons] at hlength
  refine ⟨hget, hdrop, ?_⟩
  rw [← List.length_eq_zero_iff]
  omega

/-- The loop inside of the braces. -/
theorem scan_format (i rounds fmtBegin : Nat) {n : Nat} {rest : Text} (front str : Text)
    (hrest : pattern.drop n = rest) (hrounds : rest.length ≤ rounds)
    (hfront : pattern.drop (fmtBegin + 1) = front ++ rest)
    (hn : n = fmtBegin + 1 + front.length) :
    let s := scan pattern i rounds ⟨n, true, fmtBegin, str, []⟩
    if 125 ∈ rest then
      s.inFormat = false ∧ s.str = str ∧ s.fmt = front ++ rest.takeWhile (· ≠ 125) ∧
        pattern.drop s.n = (rest.dropWhile (· ≠ 125)).tail
    else s.inFormat = true := by
  induction rest generalizing n front str rounds with
  | nil =>
      cases rounds with
      | zero => simp [scan]
      | succ rounds =>
          have hnone : pattern[n]? = none := by rw [← List.head?_drop, hrest, List.head?_nil]
          simp [scan, hnone]
  | cons c rest ih =>
      obtain ⟨hget, hdrop, hend⟩ := drop_cons hrest
      obtain ⟨rounds, rfl⟩ : ∃ k, rounds = k + 1 := ⟨rounds - 1, by simp at hrounds; omega⟩
      by_cases hc : c = 125
      · subst hc
        have hsub : substr pattern (fmtBegin + 1) (n - fmtBegin - 1) = front := by
          rw [substr, hfront, hn, show fmtBegin + 1 + front.length - fmtBegin - 1 = front.length
            by omega, List.take_left]
        simp [scan, hget, hsub, hdrop]
      · have hstep : scan pattern i (rounds + 1) ⟨n, true, fmtBegin, str, []⟩ =
            scan pattern i rounds ⟨n + 1, true, fmtBegin,
              if n + 1 = pattern.length ∧ str = [] then pattern.drop (i + 1) else str, []⟩ := by
          simp [scan, hget, hc]
        have hnext := ih rounds (front ++ [c])
          (if n + 1 = pattern.length ∧ str = [] then pattern.drop (i + 1) else str) hdrop
          (by simpa using hrounds) (by rw [hfront, List.append_assoc]; rfl)
          (by rw [hn]; simp; omega)
        rw [hstep]
        have hmem : 125 ∈ c :: rest ↔ 125 ∈ rest := by
          simp [Ne.symm hc]
        by_cases hclosed : 125 ∈ rest
        · have hne : ¬ (n + 1 = pattern.length ∧ str = []) := by
            rintro ⟨hlast, -⟩
            rw [hend.mp hlast] at hclosed
            cases hclosed
          rw [if_neg hne] at hnext ⊢
          simp only [if_pos hclosed] at hnext
          simp only [if_pos (hmem.mpr hclosed)]
          rw [List.takeWhile_cons_of_pos (by simpa using hc),
            List.dropWhile_cons_of_pos (by simpa using hc), List.append_cons]
          exact hnext
        · simp only [if_neg hclosed] at hnext
          simp only [if_neg (fun h => hclosed (hmem.mp h))]
          exact hnext

/-- The scan ends as `conversionOf` says. -/
def Ends (pattern : Text) (s : ConversionScan) : Option (Text × Text × Text) → Prop
  | none => s.inFormat = true
  | some (str, fmt, rest) =>
      s.inFormat = false ∧ s.str = str ∧ s.fmt = fmt ∧ pattern.drop s.n = rest

/-- The loop over the name. -/
theorem scan_word {i n rounds : Nat} (front : Text) {rest : Text}
    (hrest : pattern.drop n = rest) (hrounds : rest.length ≤ rounds)
    (hfront : pattern.drop (i + 1) = front ++ rest) (hn : n = i + 1 + front.length)
    (hword : ∀ c ∈ front, isWord c = true) :
    Ends pattern
      (scan pattern i rounds ⟨n, false, 0, if rest = [] then front ++ rest else [], []⟩)
      (conversionOf (front ++ rest)) := by
  induction rest generalizing n front rounds with
  | nil =>
      have hscan : scan pattern i rounds ⟨n, false, 0, front ++ [], []⟩ =
          ⟨n, false, 0, front ++ [], []⟩ := by
        cases rounds with
        | zero => rfl
        | succ rounds =>
            have hnone : pattern[n]? = none := by rw [← List.head?_drop, hrest, List.head?_nil]
            simp [scan, hnone]
      have hconversion : conversionOf (front ++ []) = some (front ++ [], [], []) := by
        rw [conversionOf, List.dropWhile_append_of_pos hword]
        rfl
      rw [if_pos rfl, hscan, hconversion]
      exact ⟨rfl, rfl, rfl, hrest⟩
  | cons c rest ih =>
      obtain ⟨hget, hdrop, hend⟩ := drop_cons hrest
      obtain ⟨rounds, rfl⟩ : ∃ k, rounds = k + 1 := ⟨rounds - 1, by simp at hrounds; omega⟩
      have hsub : substr pattern (i + 1) (n - i - 1) = front := by
        rw [substr, hfront, hn, show i + 1 + front.length - i - 1 = front.length by omega,
          List.take_left]
      rw [if_neg (List.cons_ne_nil c rest)]
      by_cases hc : isWord c = true
      · have hne : c ≠ 123 := by
          rintro rfl
          cases hc
        have hstep : scan pattern i (rounds + 1) ⟨n, false, 0, [], []⟩ =
            scan pattern i rounds
              ⟨n + 1, false, 0, if rest = [] then (front ++ [c]) ++ rest else [], []⟩ := by
          have hgo : (!isAlpha c && c != 123 && c != 125) = false := by
            rw [isWord, Bool.or_eq_true, beq_iff_eq] at hc
            obtain hc | rfl := hc
            · rw [hc]
              rfl
            · decide
          rw [scan, hget]
          simp only [Bool.not_false, Bool.true_and, hgo, beq_iff_eq, hne, Bool.false_and,
            Bool.false_eq_true, if_false, hend, and_true, hfront, List.append_assoc,
            List.singleton_append]
        have hnext := ih (front ++ [c]) hdrop (by simpa using hrounds)
          (by rw [hfront, List.append_cons]) (by rw [hn, List.length_append]; rfl)
          (List.forall_mem_append.mpr ⟨hword, List.forall_mem_singleton.mpr hc⟩)
        rw [hstep, show front ++ c :: rest = front ++ [c] ++ rest from List.append_cons ..]
        exact hnext
      · have hconversion : conversionOf (front ++ c :: rest) =
            if c = 123 then
              if 125 ∈ rest then
                some (front, rest.takeWhile (· ≠ 125), (rest.dropWhile (· ≠ 125)).tail)
              else none
            else some (front, [], c :: rest) := by
          rw [conversionOf, List.dropWhile_append_of_pos hword,
            List.takeWhile_append_of_pos hword, List.dropWhile_cons_of_neg hc,
            List.takeWhile_cons_of_neg hc, List.append_nil]
        rw [hconversion]
        by_cases hopen : c = 123
        · subst hopen
          have hstep : scan pattern i (rounds + 1) ⟨n, false, 0, [], []⟩ =
              scan pattern i rounds ⟨n + 1, true, n, front, []⟩ := by
            rw [scan, hget, ← hsub]
            rfl
          have hformat := scan_format i rounds n [] front hdrop
            (by simpa using hrounds) hdrop rfl
          rw [hstep, if_pos rfl]
          split
          · next hclosed =>
              simp only [if_pos hclosed] at hformat
              exact hformat
          · next hclosed =>
              simp only [if_neg hclosed] at hformat
              exact hformat
        · have hstop : (!isAlpha c && c != 123 && c != 125) = true := by
            rw [isWord, Bool.or_eq_true, beq_iff_eq, not_or] at hc
            simp [hc.1, hc.2, hopen]
          have hstep : scan pattern i (rounds + 1) ⟨n, false, 0, [], []⟩ =
              ⟨n, false, 0, front, []⟩ := by
            rw [scan, hget]
            simp only [Bool.not_false, Bool.true_and, hstop, if_true, hsub]
          rw [hstep, if_neg hopen]
          exact ⟨rfl, rfl, rfl, hrest⟩

/-- The scan behind the `%` at `i`. -/
theorem scan_eq_conversionOf (pattern : Text) (i : Nat) :
    Ends pattern (scan pattern i (pattern.length - i) ⟨i + 1, false, 0, [], []⟩)
      (conversionOf (pattern.drop (i + 1))) := by
  have hrounds : (pattern.drop (i + 1)).length ≤ pattern.length - i := by
    rw [List.length_drop]
    omega
  have hscan := scan_word (n := i + 1) [] rfl hrounds rfl rfl nofun
  have hstr : (if pattern.drop (i + 1) = [] then [] ++ pattern.drop (i + 1) else []) =
      ([] : Text) := by
    split
    · next hnil => rw [hnil]; rfl
    · rfl
  rwa [hstr] at hscan

end Scan

end LogFormatter

theorem length_conversionOf {text str fmt rest : Text}
    (h : conversionOf text = some (str, fmt, rest)) : rest.length ≤ text.length := by
  have hdrop := (List.dropWhile_suffix isWord (l := text)).length_le
  rw [conversionOf] at h
  split at h
  · cases h
    exact Nat.zero_le _
  · next c tail hc =>
      rw [hc, List.length_cons] at hdrop
      split at h
      · split at h
        · cases h
          have htail := (List.dropWhile_suffix (· ≠ 125) (l := tail)).length_le
          rw [List.length_tail]
          omega
        · cases h
      · cases h
        exact hdrop

/-- What is found in the rest of a pattern, with the text that was collected before. -/
def cut (text nstr : Text) : List PatternPart × Bool :=
  match text with
  | [] => (LogFormatter.flush nstr, false)
  | c :: text =>
      if c ≠ 37 then cut text (nstr ++ [c])
      else if text.head? = some 37 then cut text (nstr ++ [37])
      else
        match _h : conversionOf text with
        | none => (.text (ascii "<<pattern_error>>") :: (cut text nstr).1, true)
        | some (str, fmt, rest) =>
            (LogFormatter.flush nstr ++ .conversion str fmt :: (cut rest []).1, (cut rest []).2)
termination_by text.length
decreasing_by
  · exact Nat.lt_succ_self _
  · exact Nat.lt_succ_self _
  · exact Nat.lt_succ_self _
  · exact Nat.lt_succ_of_le (length_conversionOf _h)

section Cut

variable {text nstr str fmt rest : Text}

@[simp] theorem cut_nil (nstr : Text) : cut [] nstr = (LogFormatter.flush nstr, false) := by
  rw [cut]

theorem cut_text {c : UInt8} (hc : c ≠ 37) (text nstr : Text) :
    cut (c :: text) nstr = cut text (nstr ++ [c]) := by
  rw [cut, if_pos hc]

theorem cut_escape (text nstr : Text) :
    cut (37 :: 37 :: text) nstr = cut (37 :: text) (nstr ++ [37]) := by
  rw [cut, if_neg (not_not.mpr rfl), List.head?_cons, if_pos rfl]

theorem cut_open (hhead : text.head? ≠ some 37) (h : conversionOf text = none) (nstr : Text) :
    cut (37 :: text) nstr = (.text (ascii "<<pattern_error>>") :: (cut text nstr).1, true) := by
  rw [cut, if_neg (not_not.mpr rfl), if_neg hhead]
  split
  · rfl
  · next hsome =>
      rw [h] at hsome
      cases hsome

theorem cut_conversion (hhead : text.head? ≠ some 37)
    (h : conversionOf text = some (str, fmt, rest)) (nstr : Text) :
    cut (37 :: text) nstr =
      (LogFormatter.flush nstr ++ .conversion str fmt :: (cut rest []).1, (cut rest []).2) := by
  rw [cut, if_neg (not_not.mpr rfl), if_neg hhead]
  split
  · next hnone =>
      rw [h] at hnone
      cases hnone
  · next hsome =>
      rw [h] at hsome
      cases hsome
      rfl

end Cut

namespace LogFormatter

/-- The loop over the pattern is `cut` on what is left of it. -/
theorem parts_eq_cut {pattern : Text} {rounds i : Nat} (hrounds : (pattern.drop i).length < rounds)
    (nstr : Text) : parts pattern rounds i nstr = cut (pattern.drop i) nstr := by
  induction rounds generalizing i nstr with
  | zero => cases hrounds
  | succ rounds ih =>
      cases htext : pattern.drop i with
      | nil =>
          have hnone : pattern[i]? = none := by rw [← List.head?_drop, htext, List.head?_nil]
          rw [parts, hnone, cut_nil]
      | cons c text =>
          obtain ⟨hget, hdrop, -⟩ := drop_cons htext
          rw [htext, List.length_cons] at hrounds
          have hnext : ∀ nstr, parts pattern rounds (i + 1) nstr = cut text nstr := by
            intro nstr
            rw [ih (by rw [hdrop]; omega), hdrop]
          by_cases hc : c = 37
          · subst hc
            have hhead : pattern[i + 1]? = text.head? := by rw [← hdrop, List.head?_drop]
            rw [parts, hget]
            simp only [ne_eq, not_true_eq_false, if_false, hhead]
            by_cases hescape : text.head? = some 37
            · obtain ⟨text, rfl⟩ := List.head?_eq_some_iff.mp hescape
              rw [if_pos hescape, hnext, cut_escape]
            · have hends := scan_eq_conversionOf pattern i
              rw [hdrop] at hends
              rw [if_neg hescape]
              cases hconversion : conversionOf text with
              | none =>
                  rw [hconversion] at hends
                  have hopen : (scan pattern i (pattern.length - i)
                    ⟨i + 1, false, 0, [], []⟩).inFormat = true := hends
                  rw [if_pos hopen, hnext, cut_open hescape hconversion]
              | some p =>
                  obtain ⟨str, fmt, rest⟩ := p
                  rw [hconversion] at hends
                  obtain ⟨hclosed, hstr, hfmt, hrest⟩ := hends
                  have hlength := length_conversionOf hconversion
                  rw [if_neg (by rw [hclosed]; exact Bool.false_ne_true), hstr, hfmt,
                    ih (by rw [hrest]; omega), hrest, cut_conversion hescape hconversion]
          · rw [parts, hget]
            simp only [ne_eq, hc, not_false_eq_true, if_true]
            rw [hnext, cut_text hc]

theorem new_eq_cut (pattern : Text) :
    new pattern = ⟨pattern, (cut pattern []).1.map PatternPart.item,
      (cut pattern []).2 || (cut pattern []).1.any PatternPart.isUnknown⟩ := by
  rw [new, parts_eq_cut (by rw [List.drop_zero]; exact Nat.lt_succ_self _), List.drop_zero]

end LogFormatter

end Sylar.Log
