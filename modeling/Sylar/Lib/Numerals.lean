import Mathlib.Tactic.Common
import Mathlib.Tactic.Ring

/-!
# Numerals and `strtol`

The value of the digits that a text starts with, and the conversion of the C
library that is built on it: white space, a sign and, for base 16, a prefix
`0x` come before the digits, and the result is clamped to 64 bits.
-/

namespace Sylar.Lib.Numerals

/-- The digit that a byte stands for. -/
def digit (base : Nat) (b : UInt8) : Option Nat :=
  let n := b.toNat
  let value :=
    if 48 ≤ n ∧ n ≤ 57 then some (n - 48)
    else if 97 ≤ n ∧ n ≤ 122 then some (n - 87)
    else if 65 ≤ n ∧ n ≤ 90 then some (n - 55)
    else none
  value.filter (· < base)

/-- The value of the digits at the start of a text, behind the value `acc`. -/
def numeral (base acc : Nat) : List UInt8 → Nat
  | [] => acc
  | b :: bs =>
      match digit base b with
      | none => acc
      | some d => numeral base (base * acc + d) bs

/-- The text is a sequence of digits and not empty. -/
def IsNumeral (base : Nat) (t : List UInt8) : Prop := t ≠ [] ∧ ∀ b ∈ t, (digit base b).isSome

instance (base : Nat) (t : List UInt8) : Decidable (IsNumeral base t) :=
  inferInstanceAs (Decidable (_ ∧ _))

/-- `isspace` in the C locale. -/
def isSpace (b : UInt8) : Bool := b.toNat = 32 || (9 ≤ b.toNat && b.toNat ≤ 13)

/-- The sign at the start of a text, and what follows it. -/
def sign (t : List UInt8) : Int × List UInt8 :=
  if t.head? = some 45 then (-1, t.drop 1)
  else if t.head? = some 43 then (1, t.drop 1)
  else (1, t)

/-- A prefix `0x` counts where a digit follows it. -/
def dropHex (base : Nat) (t : List UInt8) : List UInt8 :=
  if base = 16 ∧ t[0]? = some 48 ∧ (t[1]? = some 120 ∨ t[1]? = some 88) ∧
      (t[2]?.bind (digit 16)).isSome then t.drop 2
  else t

/-- `strtol(t, NULL, base)` where `long` has 64 bits. -/
def strtol (base : Nat) (t : List UInt8) : Int :=
  let (s, digits) := sign (t.dropWhile isSpace)
  max (-2 ^ 63) (min (2 ^ 63 - 1) (s * numeral base 0 (dropHex base digits)))

/-- The conversion of a `long` to a 32-bit `int`. -/
def toInt (n : Int) : Int := n.bmod (2 ^ 32)

theorem numeral_append {base acc : Nat} {t u : List UInt8} (ht : ∀ b ∈ t, (digit base b).isSome) :
    numeral base acc (t ++ u) = numeral base (numeral base acc t) u := by
  induction t generalizing acc with
  | nil => rfl
  | cons b t ih =>
      obtain ⟨d, hd⟩ := Option.isSome_iff_exists.mp (ht b List.mem_cons_self)
      simp only [List.cons_append, numeral, hd]
      exact ih fun c hc => ht c (List.mem_cons_of_mem _ hc)

theorem numeral_stop {base acc : Nat} {c : UInt8} (hc : digit base c = none) (t : List UInt8) :
    numeral base acc (c :: t) = acc := by
  rw [numeral, hc]

/-- Digits behind a value count from that value. -/
theorem numeral_acc {base acc : Nat} {t : List UInt8} (ht : ∀ b ∈ t, (digit base b).isSome) :
    numeral base acc t = acc * base ^ t.length + numeral base 0 t := by
  induction t generalizing acc with
  | nil => simp [numeral]
  | cons b t ih =>
      obtain ⟨d, hd⟩ := Option.isSome_iff_exists.mp (ht b List.mem_cons_self)
      have htail : ∀ c ∈ t, (digit base c).isSome := fun c hc => ht c (List.mem_cons_of_mem _ hc)
      simp only [numeral, hd]
      rw [ih htail, @ih (base * 0 + d) htail, List.length_cons, Nat.pow_succ]
      ring

/-- The digits that a split leaves in front count by the place they stand at. -/
theorem numeral_split {base : Nat} {t u : List UInt8} (ht : ∀ b ∈ t, (digit base b).isSome)
    (hu : ∀ b ∈ u, (digit base b).isSome) :
    numeral base 0 (t ++ u) = numeral base 0 t * base ^ u.length + numeral base 0 u := by
  rw [numeral_append ht, numeral_acc hu]

theorem IsNumeral.drop {base n : Nat} {t : List UInt8} (ht : IsNumeral base t)
    (hn : n < t.length) : IsNumeral base (t.drop n) := by
  refine ⟨?_, fun b hb => ht.2 b (List.mem_of_mem_drop hb)⟩
  rw [ne_eq, List.drop_eq_nil_iff]
  exact Nat.not_le_of_lt hn

/-- What the digits in front of a split add. -/
theorem numeral_take_drop {base : Nat} {t : List UInt8} (ht : ∀ b ∈ t, (digit base b).isSome)
    (n : Nat) :
    numeral base 0 t =
      numeral base 0 (t.take n) * base ^ (t.drop n).length + numeral base 0 (t.drop n) := by
  have hfront : ∀ b ∈ t.take n, (digit base b).isSome := fun b hb => ht b (List.mem_of_mem_take hb)
  have hback : ∀ b ∈ t.drop n, (digit base b).isSome := fun b hb => ht b (List.mem_of_mem_drop hb)
  rw [← numeral_split hfront hback, List.take_append_drop]

theorem le_toNat_of_digit {base : Nat} {b : UInt8} (h : (digit base b).isSome) :
    48 ≤ b.toNat := by
  by_contra hlt
  rw [digit, if_neg (by omega), if_neg (by omega), if_neg (by omega)] at h
  cases h

/-- White space and a sign are not found in front of a numeral. -/
theorem sign_numeral {base : Nat} {t : List UInt8} (ht : IsNumeral base t) (u : List UInt8) :
    sign ((t ++ u).dropWhile isSpace) = (1, t ++ u) := by
  obtain ⟨b, t, rfl⟩ := List.exists_cons_of_ne_nil ht.1
  have hb : 48 ≤ b.toNat := le_toNat_of_digit (ht.2 b List.mem_cons_self)
  have hne : ∀ k : UInt8, k.toNat < 48 → b ≠ k := by
    rintro k hk rfl
    omega
  have hspace : isSpace b = false := by
    simp only [isSpace, Bool.or_eq_false_iff, Bool.and_eq_false_iff, decide_eq_false_iff_not]
    omega
  rw [List.cons_append, List.dropWhile_cons_of_neg (by simp [hspace]), sign, List.head?_cons,
    if_neg, if_neg]
  · exact fun h => hne 43 (by decide) (Option.some.inj h)
  · exact fun h => hne 45 (by decide) (Option.some.inj h)

/-- A prefix is not found in front of a numeral. -/
theorem dropHex_numeral {t u : List UInt8} {c : UInt8} (ht : IsNumeral 16 t)
    (hx : c ≠ 120 ∧ c ≠ 88) : dropHex 16 (t ++ c :: u) = t ++ c :: u := by
  obtain ⟨b, t, rfl⟩ := List.exists_cons_of_ne_nil ht.1
  rw [dropHex, if_neg]
  rintro ⟨-, -, hsecond, -⟩
  cases t with
  | nil =>
      obtain h | h := hsecond
      · exact hx.1 (Option.some.inj h)
      · exact hx.2 (Option.some.inj h)
  | cons x t =>
      have hdigit : (digit 16 x).isSome := ht.2 x (by simp)
      obtain h | h := hsecond
      · rw [Option.some.inj h] at hdigit
        exact absurd hdigit (by decide)
      · rw [Option.some.inj h] at hdigit
        exact absurd hdigit (by decide)

/-- A numeral in front of a byte that is no digit is read up to the largest `long`. -/
theorem strtol_numeral_eq {t u : List UInt8} {c : UInt8} (ht : IsNumeral 16 t)
    (hc : digit 16 c = none) (hx : c ≠ 120 ∧ c ≠ 88) :
    strtol 16 (t ++ c :: u) = min (2 ^ 63 - 1) (numeral 16 0 t : Int) := by
  have hvalue : numeral 16 0 (t ++ c :: u) = numeral 16 0 t := by
    rw [numeral_append ht.2, numeral_stop hc]
  simp only [strtol, sign_numeral ht, dropHex_numeral ht hx, hvalue]
  omega

/-- A numeral in front of a byte that is no digit is read as its value. -/
theorem strtol_numeral {t u : List UInt8} {c : UInt8} (ht : IsNumeral 16 t)
    (hc : digit 16 c = none) (hx : c ≠ 120 ∧ c ≠ 88) (hlt : numeral 16 0 t < 2 ^ 63) :
    strtol 16 (t ++ c :: u) = numeral 16 0 t := by
  rw [strtol_numeral_eq ht hc hx]
  omega

/-- A decimal numeral in front of what is no digit is read as its value. -/
theorem strtol_decimal {t u : List UInt8} (ht : IsNumeral 10 t)
    (hu : ∀ c ∈ u.head?, digit 10 c = none) (hlt : numeral 10 0 t < 2 ^ 63) :
    strtol 10 (t ++ u) = numeral 10 0 t := by
  have hvalue : numeral 10 0 (t ++ u) = numeral 10 0 t := by
    rw [numeral_append ht.2]
    cases u with
    | nil => rfl
    | cons c u => exact numeral_stop (hu c rfl) u
  have hhex : dropHex 10 (t ++ u) = t ++ u := if_neg fun h => absurd h.1 (by decide)
  simp only [strtol, sign_numeral ht, hhex, hvalue]
  omega

theorem toInt_of_lt {n : Nat} (h : n < 2 ^ 31) : toInt n = n := by
  rw [toInt, Int.bmod_eq_of_le] <;> omega

end Sylar.Lib.Numerals
