import Mathlib.Algebra.Order.Ring.Nat
import Mathlib.Data.List.Infix
import Mathlib.Tactic.Common

/-!
# Numbers in groups of seven bits

A number is written in base 128, lowest digit first. Every byte but the last has 128 added
to its digit, so the end of a number shows in its bytes.
-/

namespace Sylar.Lib.Varints

/-- Bytes of 128 and more, and one byte below. -/
def IsVarint (bs : List UInt8) : Prop :=
  ∃ more last, bs = more ++ [last] ∧ (∀ b ∈ more, 128 ≤ b.toNat) ∧ last.toNat < 128

/-- The number with the given digits. -/
def value : List UInt8 → Nat
  | [] => 0
  | b :: bs => b.toNat % 128 + 128 * value bs

/-- The digits of a number, without zeros at the end. -/
def encode (n : Nat) : List UInt8 :=
  if n < 128 then [UInt8.ofNat n]
  else UInt8.ofNat (n % 128 + 128) :: encode (n / 128)

variable {n : Nat}

theorem encode_of_lt (h : n < 128) : encode n = [UInt8.ofNat n] := by
  rw [encode, if_pos h]

theorem encode_of_ge (h : 128 ≤ n) :
    encode n = UInt8.ofNat (n % 128 + 128) :: encode (n / 128) := by
  rw [encode, if_neg (Nat.not_lt.mpr h)]

theorem toNat_ofNat_of_lt (h : n < 256) : (UInt8.ofNat n).toNat = n := by
  rw [UInt8.toNat_ofNat']
  exact Nat.mod_eq_of_lt h

/-- The recursion of `encode`, as an induction. -/
theorem digits_induction {motive : Nat → Prop} (last : ∀ n < 128, motive n)
    (more : ∀ n, 128 ≤ n → motive (n / 128) → motive n) (n : Nat) : motive n := by
  induction n using Nat.strongRecOn with
  | ind n ih =>
      by_cases h : n < 128
      · exact last n h
      · exact more n (Nat.not_lt.mp h) (ih (n / 128) (by omega))

@[simp] theorem value_encode (n : Nat) : value (encode n) = n := by
  induction n using digits_induction with
  | last n h =>
      rw [encode_of_lt h, value, value, toNat_ofNat_of_lt (by omega)]
      omega
  | more n h ih =>
      rw [encode_of_ge h, value, ih, toNat_ofNat_of_lt (by omega)]
      omega

/-- The last digit is zero only for the number zero. -/
theorem encode_eq_concat (n : Nat) :
    ∃ more last, encode n = more ++ [last] ∧ (∀ b ∈ more, 128 ≤ b.toNat) ∧ last.toNat < 128 ∧
      (last.toNat = 0 → n = 0) := by
  induction n using digits_induction with
  | last n h =>
      have hbyte : (UInt8.ofNat n).toNat = n := toNat_ofNat_of_lt (by omega)
      refine ⟨[], UInt8.ofNat n, encode_of_lt h, ?_, ?_, ?_⟩
      · exact fun b hb => absurd hb List.not_mem_nil
      · rwa [hbyte]
      · rw [hbyte]
        exact id
  | more n h ih =>
      obtain ⟨more, last, heq, hmore, hlast, hzero⟩ := ih
      refine ⟨UInt8.ofNat (n % 128 + 128) :: more, last, ?_, ?_, hlast, ?_⟩
      · rw [encode_of_ge h, heq]
        rfl
      · rw [List.forall_mem_cons, toNat_ofNat_of_lt (by omega)]
        exact ⟨by omega, hmore⟩
      · intro hlastZero
        have hquotient := hzero hlastZero
        omega

theorem isVarint_encode (n : Nat) : IsVarint (encode n) := by
  obtain ⟨more, last, heq, hmore, hlast, -⟩ := encode_eq_concat n
  exact ⟨more, last, heq, hmore, hlast⟩

theorem value_lt (bs : List UInt8) : value bs < 128 ^ bs.length := by
  induction bs with
  | nil => exact Nat.one_pos
  | cons b bs ih =>
      rw [value, List.length_cons, Nat.pow_succ]
      omega

/-- A number below `128 ^ (k + 1)` has at most `k + 1` digits. -/
theorem length_encode_le {k : Nat} (h : n < 128 ^ (k + 1)) : (encode n).length ≤ k + 1 := by
  induction k generalizing n with
  | zero => rw [encode_of_lt (by simpa using h), List.length_singleton]
  | succ k ih =>
      by_cases hlt : n < 128
      · rw [encode_of_lt hlt, List.length_singleton]
        exact Nat.le_add_left 1 _
      · have hquotient : n / 128 < 128 ^ (k + 1) := by
          rw [Nat.div_lt_iff_lt_mul (by decide), ← Nat.pow_succ]
          exact h
        rw [encode_of_ge (Nat.not_lt.mp hlt), List.length_cons]
        exact Nat.succ_le_succ (ih hquotient)

/-- No other digits of a number are fewer. -/
theorem length_encode_value_le {bs : List UInt8} (h : IsVarint bs) :
    (encode (value bs)).length ≤ bs.length := by
  obtain ⟨more, last, rfl, -⟩ := h
  have hlt := value_lt (more ++ [last])
  rw [List.length_append, List.length_singleton] at hlt ⊢
  exact length_encode_le hlt

/-- The end of a number shows in its bytes. -/
theorem IsVarint.prefix_eq {as bs : List UInt8} (ha : IsVarint as) (hb : IsVarint bs)
    (h : as <+: bs) : as = bs := by
  obtain ⟨more, last, rfl, -, hlast⟩ := ha
  obtain ⟨more', last', rfl, hmore', -⟩ := hb
  rcases List.prefix_concat_iff.mp h with heq | hproper
  · exact heq
  · have hmem : last ∈ more' := hproper.subset (by simp)
    exact absurd (hmore' last hmem) (Nat.not_le.mpr hlast)

end Sylar.Lib.Varints
