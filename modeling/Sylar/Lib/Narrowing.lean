import Mathlib.Algebra.Group.Int.Defs
import Mathlib.Algebra.GroupWithZero.Nat
import Mathlib.Tactic.Common

/-!
# Machine integers: `int` and `long` beside 64 bit words

Narrowing keeps the low half of a 64 bit word and reads it as signed. Widening
repeats the sign in the upper half. A signed expression that overflows has no
value.
-/

namespace Sylar.Lib

/-- The conversion of a 64 bit word to `int`. -/
def narrow (t : UInt64) : Int32 := t.toInt64.toInt32

/-- The conversion of an `int` to a 64 bit word. -/
def widen (n : Int32) : UInt64 := n.toInt64.toUInt64

@[simp] theorem narrow_widen (n : Int32) : narrow (widen n) = n := by
  unfold narrow widen
  rw [Int64.toInt64_toUInt64, Int32.toInt32_toInt64]

theorem widen_injective : Function.Injective widen := fun n n' h => by
  rw [← narrow_widen n, h, narrow_widen]

theorem toInt_narrow (t : UInt64) : (narrow t).toInt = (t.toNat : Int).bmod (2 ^ 32) := by
  have hsigned : t.toInt64.toInt = (t.toNat : Int).bmod (2 ^ 64) :=
    BitVec.toInt_eq_toNat_bmod t.toBitVec
  rw [narrow, Int64.toInt_toInt32, hsigned]
  exact Int.bmod_bmod_of_dvd (by decide)

/-- The low half is not negative. -/
theorem toInt_narrow_of_lt {t : UInt64} (h : t.toNat % 2 ^ 32 < 2 ^ 31) :
    (narrow t).toInt = (t.toNat % 2 ^ 32 : Nat) := by
  rw [toInt_narrow, Int.bmod_def]
  omega

theorem toInt_narrow_of_le {t : UInt64} (h : 2 ^ 31 ≤ t.toNat % 2 ^ 32) :
    (narrow t).toInt = (t.toNat % 2 ^ 32 : Nat) - 2 ^ 32 := by
  rw [toInt_narrow, Int.bmod_def]
  omega

theorem narrow_nonneg_iff (t : UInt64) : 0 ≤ (narrow t).toInt ↔ t.toNat % 2 ^ 32 < 2 ^ 31 := by
  rw [toInt_narrow, Int.bmod_def]
  omega

theorem toNat_widen (n : Int32) : ((widen n).toNat : Int) = n.toInt % 2 ^ 64 := by
  have hsigned : n.toInt64.toInt = ((widen n).toNat : Int).bmod (2 ^ 64) :=
    BitVec.toInt_eq_toNat_bmod (widen n).toBitVec
  have hlt := (widen n).toNat_lt
  rw [← Int32.toInt_toInt64, hsigned, Int.bmod_def]
  omega

/-- What is left of a word that went through an `int`. -/
theorem toNat_widen_narrow (t : UInt64) :
    (widen (narrow t)).toNat =
      if t.toNat % 2 ^ 32 < 2 ^ 31 then t.toNat % 2 ^ 32
      else 2 ^ 64 - 2 ^ 32 + t.toNat % 2 ^ 32 := by
  have hwiden := toNat_widen (narrow t)
  split
  · next hlow =>
      rw [toInt_narrow_of_lt hlow] at hwiden
      omega
  · next hlow =>
      rw [toInt_narrow_of_le (Nat.not_lt.1 hlow)] at hwiden
      omega

/-- The value of an expression of type `long`. -/
def long (x : Int) : Option Int := if -2 ^ 63 ≤ x ∧ x < 2 ^ 63 then some x else none

theorem long_of_nonneg {x : Int} (h : 0 ≤ x) : long x = if x < 2 ^ 63 then some x else none := by
  have hlower : -2 ^ 63 ≤ x := by omega
  simp only [long, hlower, true_and]

theorem toNat_ofInt (x : Int) : ((UInt64.ofInt x).toNat : Int) = x % 2 ^ 64 := by
  rw [UInt64.ofInt, UInt64.toNat_ofNat']
  omega

end Sylar.Lib
