import Mathlib.Data.List.GetD
import Mathlib.Tactic.Common
import Mathlib.Algebra.Order.Ring.Nat

/-!
# Machine words as byte sequences

The bytes of a number are listed from the least significant one. A word of `n`
bytes is determined by its byte list, also after the list has been reversed.
-/

namespace Sylar.Lib.Words

/-- The `n` low bytes of `x`, least significant first. -/
def toBytes : Nat → Nat → List UInt8
  | 0, _ => []
  | n + 1, x => UInt8.ofNat x :: toBytes n (x / 256)

/-- The number whose bytes, least significant first, are given. -/
def ofBytes : List UInt8 → Nat
  | [] => 0
  | b :: bs => b.toNat + 256 * ofBytes bs

@[simp] theorem length_toBytes (n x : Nat) : (toBytes n x).length = n := by
  induction n generalizing x with
  | zero => rfl
  | succ n ih => simp [toBytes, ih]

theorem ofBytes_lt (bs : List UInt8) : ofBytes bs < 256 ^ bs.length := by
  induction bs with
  | nil => simp [ofBytes]
  | cons b bs ih =>
      have hb : b.toNat < 256 := b.toNat_lt
      rw [ofBytes, List.length_cons, Nat.pow_succ]
      omega

theorem ofBytes_toBytes (n x : Nat) : ofBytes (toBytes n x) = x % 256 ^ n := by
  induction n generalizing x with
  | zero => simp [toBytes, ofBytes, Nat.mod_one]
  | succ n ih =>
      rw [toBytes, ofBytes, ih, Nat.pow_succ, Nat.mul_comm (256 ^ n) 256, Nat.mod_mul]
      simp

theorem toBytes_ofBytes (bs : List UInt8) : toBytes bs.length (ofBytes bs) = bs := by
  induction bs with
  | nil => rfl
  | cons b bs ih =>
      have hb : b.toNat < 256 := b.toNat_lt
      have hdiv : (b.toNat + 256 * ofBytes bs) / 256 = ofBytes bs := by omega
      have hlow : UInt8.ofNat (b.toNat + 256 * ofBytes bs) = b := by
        apply UInt8.toNat_inj.mp
        simp only [UInt8.toNat_ofNat']
        omega
      rw [List.length_cons, toBytes, ofBytes, hdiv, hlow, ih]

/-- The word of `n` bytes with the given bytes. -/
def word (n : Nat) (bs : List UInt8) : BitVec (8 * n) := BitVec.ofNat _ (ofBytes bs)

/-- The bytes of a word, least significant first. -/
def bytes {n : Nat} (v : BitVec (8 * n)) : List UInt8 := toBytes n v.toNat

@[simp] theorem length_bytes {n : Nat} (v : BitVec (8 * n)) : (bytes v).length = n :=
  length_toBytes n v.toNat

theorem pow_bytes (n : Nat) : 2 ^ (8 * n) = 256 ^ n := by
  rw [Nat.pow_mul]

@[simp] theorem word_bytes {n : Nat} (v : BitVec (8 * n)) : word n (bytes v) = v := by
  apply BitVec.eq_of_toNat_eq
  have hlt : v.toNat < 256 ^ n := by
    rw [← pow_bytes]
    exact v.isLt
  rw [word, bytes, BitVec.toNat_ofNat, ofBytes_toBytes, pow_bytes, Nat.mod_mod,
    Nat.mod_eq_of_lt hlt]

theorem bytes_word {n : Nat} {bs : List UInt8} (h : bs.length = n) : bytes (word n bs) = bs := by
  subst h
  rw [bytes, word, BitVec.toNat_ofNat, pow_bytes, Nat.mod_eq_of_lt (ofBytes_lt bs),
    toBytes_ofBytes]

/-- The word with the bytes in the other order. -/
def swap {n : Nat} (v : BitVec (8 * n)) : BitVec (8 * n) := word n (bytes v).reverse

@[simp] theorem swap_swap {n : Nat} (v : BitVec (8 * n)) : swap (swap v) = v := by
  have hlen : (bytes v).reverse.length = n := by
    rw [List.length_reverse, length_bytes]
  rw [swap, swap, bytes_word hlen, List.reverse_reverse, word_bytes]

section Bits

variable {n i : Nat}

theorem testBit_ofBytes (bs : List UInt8) (i : Nat) :
    (ofBytes bs).testBit i = (bs.getD (i / 8) 0).toNat.testBit (i % 8) := by
  induction bs generalizing i with
  | nil => simp [ofBytes]
  | cons b bs ih =>
      have hb : b.toNat < 2 ^ 8 := b.toNat_lt
      rw [ofBytes, Nat.add_comm, show 256 = 2 ^ 8 from rfl, Nat.testBit_two_pow_mul_add _ hb]
      split
      · next hi => rw [Nat.div_eq_of_lt hi, Nat.mod_eq_of_lt hi, List.getD_cons_zero]
      · next hi =>
          have hdiv : i / 8 = (i - 8) / 8 + 1 := by omega
          have hmod : i % 8 = (i - 8) % 8 := by omega
          rw [ih, hdiv, hmod, List.getD_cons_succ]

/-- A bit of a byte of a word. -/
theorem testBit_bytes (v : BitVec (8 * n)) (hi : i < 8 * n) :
    ((bytes v).getD (i / 8) 0).toNat.testBit (i % 8) = v.getLsbD i := by
  rw [← testBit_ofBytes, bytes, ofBytes_toBytes, ← pow_bytes, Nat.testBit_mod_two_pow]
  simp [hi, BitVec.getLsbD]

/-- The bit of a word that is the bit `i` of the swapped word. -/
def swapIndex (n i : Nat) : Nat := 8 * (n - 1 - i / 8) + i % 8

theorem swapIndex_lt (hi : i < 8 * n) : swapIndex n i < 8 * n := by
  unfold swapIndex
  omega

theorem getLsbD_swap (v : BitVec (8 * n)) (hi : i < 8 * n) :
    (swap v).getLsbD i = v.getLsbD (swapIndex n i) := by
  have hbyte : i / 8 < (bytes v).length := by
    rw [length_bytes]
    omega
  have hdiv : swapIndex n i / 8 = (bytes v).length - 1 - i / 8 := by
    rw [length_bytes, swapIndex]
    omega
  have hmod : swapIndex n i % 8 = i % 8 := by
    rw [swapIndex]
    omega
  rw [← testBit_bytes v (swapIndex_lt hi), hdiv, hmod, ← List.getD_reverse _ hbyte, swap, word,
    BitVec.getLsbD_ofNat, testBit_ofBytes]
  simp [hi]

/-- The swap moves bits, so it goes past the operations on bits. -/
theorem swap_and (u v : BitVec (8 * n)) : swap (u &&& v) = swap u &&& swap v := by
  apply BitVec.eq_of_getLsbD_eq
  intro i hi
  rw [getLsbD_swap _ hi, BitVec.getLsbD_and, BitVec.getLsbD_and, getLsbD_swap _ hi,
    getLsbD_swap _ hi]

theorem swap_or (u v : BitVec (8 * n)) : swap (u ||| v) = swap u ||| swap v := by
  apply BitVec.eq_of_getLsbD_eq
  intro i hi
  rw [getLsbD_swap _ hi, BitVec.getLsbD_or, BitVec.getLsbD_or, getLsbD_swap _ hi,
    getLsbD_swap _ hi]

theorem swap_not (v : BitVec (8 * n)) : swap (~~~v) = ~~~swap v := by
  apply BitVec.eq_of_getLsbD_eq
  intro i hi
  rw [getLsbD_swap _ hi, BitVec.getLsbD_not, BitVec.getLsbD_not, getLsbD_swap _ hi]
  simp [hi, swapIndex_lt hi]

end Bits

end Sylar.Lib.Words
