import Mathlib.Data.List.TakeWhile
import Mathlib.Data.Nat.Digits.Lemmas
import Sylar.Lib.Numerals

/-!
# Integers as texts of a stream

An integer is written in decimal, or in hexadecimal after `std::hex`. It is read
with the base that its prefix asks for, `0x` for 16 and `0` for 8, and nothing but
white space may follow it.
-/

namespace Sylar.Lib.Numerals

/-- `stream << n`. -/
def decimal (n : Nat) : List UInt8 :=
  if n = 0 then [48] else (Nat.digits 10 n).reverse.map fun d => UInt8.ofNat (48 + d)

/-- A digit of base 16 in lower case. -/
def hexDigit (d : Nat) : UInt8 := UInt8.ofNat (if d < 10 then 48 + d else 87 + d)

/-- `stream << std::hex << n`. -/
def hexadecimal (n : Nat) : List UInt8 :=
  if n = 0 then [48] else (Nat.digits 16 n).reverse.map hexDigit

/-- `stream << n` for a signed integer. -/
def decimalInt (n : Int) : List UInt8 :=
  if n < 0 then 45 :: decimal n.natAbs else decimal n.natAbs

/-- The base that a prefix asks for, and what follows the prefix. -/
def radix (t : List UInt8) : Nat × List UInt8 :=
  if t[0]? = some 48 then
    if t[1]? = some 120 ∨ t[1]? = some 88 then (16, t.drop 2) else (8, t)
  else (10, t)

/-- `stream >> n` with no base set, for an integer between `lo` and `hi`. -/
def extract (lo hi : Int) (t : List UInt8) : Option Int :=
  let (s, rest) := sign t
  let (base, rest) := radix rest
  let digits := rest.takeWhile fun b => (digit base b).isSome
  let value := s * numeral base 0 digits
  if digits ≠ [] ∧ (rest.drop digits.length).all isSpace ∧ lo ≤ value ∧ value ≤ hi then
    some value
  else none

theorem digit_ofNat {d : Nat} (h : d < 10) : digit 10 (UInt8.ofNat (48 + d)) = some d := by
  have hd : (UInt8.ofNat (48 + d)).toNat = 48 + d := UInt8.toNat_ofNat_of_lt' (by
    change 48 + d < 256
    omega)
  rw [digit, hd, if_pos (by omega), Nat.add_sub_cancel_left]
  simp [Option.filter, h]

/-- The value of digits that are listed from the last one. -/
theorem numeral_reverse {base : Nat} {write : Nat → UInt8}
    (hwrite : ∀ d < base, digit base (write d) = some d) {ds : List Nat}
    (h : ∀ d ∈ ds, d < base) :
    numeral base 0 (ds.reverse.map write) = Nat.ofDigits base ds := by
  induction ds with
  | nil => rfl
  | cons d ds ih =>
      have hds : ∀ e ∈ ds, e < base := fun e he => h e (List.mem_cons_of_mem _ he)
      have hdigits : ∀ b ∈ ds.reverse.map write, (digit base b).isSome := by
        intro b hb
        obtain ⟨e, he, rfl⟩ := List.mem_map.mp hb
        rw [hwrite e (hds e (List.mem_reverse.mp he))]
        rfl
      rw [List.reverse_cons, List.map_append, numeral_append hdigits, ih hds, Nat.ofDigits_cons]
      simp only [List.map_cons, List.map_nil, numeral, hwrite d (h d List.mem_cons_self)]
      exact Nat.add_comm _ _

theorem isSome_digit_of_mem_decimal {n : Nat} {b : UInt8} (h : b ∈ decimal n) :
    (digit 10 b).isSome := by
  rw [decimal] at h
  split at h
  · rw [List.mem_singleton.mp h]
    decide
  · obtain ⟨d, hd, rfl⟩ := List.mem_map.mp h
    rw [digit_ofNat (Nat.digits_lt_base (by decide) (List.mem_reverse.mp hd))]
    rfl

theorem numeral_decimal (n : Nat) : numeral 10 0 (decimal n) = n := by
  rw [decimal]
  split
  · next h =>
      rw [h]
      decide
  · rw [numeral_reverse (fun _ => digit_ofNat) fun d hd => Nat.digits_lt_base (by decide) hd,
      Nat.ofDigits_digits]

theorem digit_hexDigit : ∀ d < 16, digit 16 (hexDigit d) = some d := by decide

theorem numeral_hexadecimal (n : Nat) : numeral 16 0 (hexadecimal n) = n := by
  rw [hexadecimal]
  split
  · next h =>
      rw [h]
      decide
  · rw [numeral_reverse digit_hexDigit fun d hd => Nat.digits_lt_base (by decide) hd,
      Nat.ofDigits_digits]

theorem isNumeral_hexadecimal (n : Nat) : IsNumeral 16 (hexadecimal n) := by
  rw [hexadecimal]
  split
  · refine ⟨List.cons_ne_nil _ _, fun b hb => ?_⟩
    rw [List.mem_singleton.mp hb]
    rfl
  · next h =>
      constructor
      · simpa using Nat.digits_ne_nil_iff_ne_zero.mpr h
      · intro b hb
        obtain ⟨d, hd, rfl⟩ := List.mem_map.mp hb
        rw [digit_hexDigit d (Nat.digits_lt_base (by decide) (List.mem_reverse.mp hd))]
        rfl

theorem length_hexadecimal_le {n k : Nat} (h : n < 16 ^ (k + 1)) :
    (hexadecimal n).length ≤ k + 1 := by
  rw [hexadecimal]
  split
  · exact Nat.le_add_left 1 k
  · rw [List.length_map, List.length_reverse]
    exact (Nat.digits_length_le_iff (by decide) n).mpr h

/-- A positive number does not start with a zero. -/
theorem decimal_head {n : Nat} (h : n ≠ 0) : ∃ b t, decimal n = b :: t ∧ b ≠ 48 := by
  have hne : Nat.digits 10 n ≠ [] := Nat.digits_ne_nil_iff_ne_zero.mpr h
  have hlast : (Nat.digits 10 n).getLast hne ≠ 0 := Nat.getLast_digit_ne_zero 10 h
  have hlt : (Nat.digits 10 n).getLast hne < 10 :=
    Nat.digits_lt_base (by decide) (List.getLast_mem hne)
  rw [decimal, if_neg h, ← List.dropLast_append_getLast hne, List.reverse_append]
  refine ⟨_, _, rfl, ?_⟩
  intro heq
  have hdigit := digit_ofNat hlt
  dsimp only at heq
  rw [heq] at hdigit
  exact hlast (Option.some.inj hdigit).symm

theorem decimal_ne_nil (n : Nat) : decimal n ≠ [] := by
  by_cases h : n = 0
  · rw [h]
    decide
  · obtain ⟨b, t, heq, -⟩ := decimal_head h
    rw [heq]
    exact List.cons_ne_nil b t

/-- A byte of a number is no sign. -/
theorem sign_decimal (n : Nat) : sign (decimal n) = (1, decimal n) := by
  have hhead : ∀ c, (decimal n).head? = some c → (digit 10 c).isSome := by
    intro c hc
    exact isSome_digit_of_mem_decimal (List.mem_of_head? hc)
  rw [sign, if_neg, if_neg]
  · intro h
    exact absurd (hhead 43 h) (by decide)
  · intro h
    exact absurd (hhead 45 h) (by decide)

/-- The digits are read to the end of the text. -/
theorem extract_of_digits {lo hi s value : Int} {base : Nat} {t rest digits : List UInt8}
    (hsign : sign t = (s, rest)) (hradix : radix rest = (base, digits)) (hne : digits ≠ [])
    (hdigits : ∀ b ∈ digits, (digit base b).isSome) (hvalue : s * numeral base 0 digits = value)
    (hlo : lo ≤ value) (hhi : value ≤ hi) : extract lo hi t = some value := by
  have htake : (digits.takeWhile fun b => (digit base b).isSome) = digits :=
    List.takeWhile_eq_self_iff.mpr hdigits
  simp only [extract, hsign, hradix, htake, hvalue]
  rw [if_pos]
  exact ⟨hne, by simp, hlo, hhi⟩

/-- A number behind its sign is read back. -/
theorem extract_sign_decimal {lo hi s : Int} {t : List UInt8} {n : Nat}
    (hsign : sign t = (s, decimal n)) (hlo : lo ≤ s * n) (hhi : s * n ≤ hi) :
    extract lo hi t = some (s * n) := by
  obtain rfl | hn := eq_or_ne n 0
  · -- the text `0` is read in base 8
    have hradix : radix (decimal 0) = (8, [48]) := by decide
    exact extract_of_digits hsign hradix (by decide) (by decide +kernel) rfl hlo hhi
  · obtain ⟨b, u, hcons, hb⟩ := decimal_head hn
    have hradix : radix (decimal n) = (10, decimal n) := by
      rw [radix, hcons, if_neg]
      intro h
      exact hb (Option.some.inj h)
    refine extract_of_digits hsign hradix ?_ (fun b hb => isSome_digit_of_mem_decimal hb) ?_ hlo hhi
    · rw [hcons]
      exact List.cons_ne_nil _ _
    · rw [numeral_decimal]

/-- What is written is read back. -/
theorem extract_decimalInt {lo hi n : Int} (hlo : lo ≤ n) (hhi : n ≤ hi) :
    extract lo hi (decimalInt n) = some n := by
  rw [decimalInt]
  split
  · next hneg =>
      have hn : -1 * (n.natAbs : Int) = n := by omega
      rw [← hn] at hlo hhi
      rw [extract_sign_decimal rfl hlo hhi, hn]
  · next hpos =>
      have hn : 1 * (n.natAbs : Int) = n := by omega
      rw [← hn] at hlo hhi
      rw [extract_sign_decimal (sign_decimal _) hlo hhi, hn]

end Sylar.Lib.Numerals
