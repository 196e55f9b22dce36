import Mathlib.Data.List.TakeDrop
import Mathlib.Tactic.Ring

/-!
# Equal blocks seen as one flat sequence

A list of blocks of one length `n` is read as the concatenation of the
blocks. Position `i * n + k` of the concatenation is position `k` of block
`i`, and writing inside a block is writing at that position.
-/

namespace Sylar.Lib.Blocks

variable {α : Type*} {n : Nat}

/-- Every block has length `n`. -/
def Uniform (n : Nat) (bs : List (List α)) : Prop := ∀ b ∈ bs, b.length = n

theorem Uniform.tail {b : List α} {bs : List (List α)} (h : Uniform n (b :: bs)) :
    Uniform n bs :=
  fun c hc => h c (List.mem_cons_of_mem _ hc)

theorem Uniform.take {bs : List (List α)} (h : Uniform n bs) (i : Nat) :
    Uniform n (bs.take i) :=
  fun b hb => h b (List.mem_of_mem_take hb)

theorem length_flatten {bs : List (List α)} (h : Uniform n bs) :
    bs.flatten.length = bs.length * n := by
  induction bs with
  | nil => simp
  | cons b bs ih =>
      rw [List.flatten_cons, List.length_append, ih h.tail, h b List.mem_cons_self,
        List.length_cons]
      ring

theorem drop_flatten {bs : List (List α)} (h : Uniform n bs) (i : Nat) :
    bs.flatten.drop (i * n) = (bs.drop i).flatten := by
  induction i generalizing bs with
  | zero => simp
  | succ i ih =>
      cases bs with
      | nil => simp
      | cons b bs =>
          have hb : b.length = n := h b List.mem_cons_self
          rw [List.flatten_cons, List.drop_succ_cons, ← ih h.tail, Nat.succ_mul,
            Nat.add_comm, ← hb, List.drop_length_add_append]

theorem take_flatten {bs : List (List α)} (h : Uniform n bs) (i : Nat) :
    bs.flatten.take (i * n) = (bs.take i).flatten := by
  induction i generalizing bs with
  | zero => simp
  | succ i ih =>
      cases bs with
      | nil => simp
      | cons b bs =>
          have hb : b.length = n := h b List.mem_cons_self
          rw [List.flatten_cons, List.take_succ_cons, List.flatten_cons, ← ih h.tail,
            Nat.succ_mul, Nat.add_comm, ← hb, List.take_length_add_append]

/-- The blocks can be told from their concatenation. -/
theorem eq_of_flatten_eq (hn : 0 < n) {bs cs : List (List α)} (hb : Uniform n bs)
    (hc : Uniform n cs) (h : bs.flatten = cs.flatten) : bs = cs := by
  have hlength : bs.length * n = cs.length * n := by
    rw [← length_flatten hb, ← length_flatten hc, h]
  induction bs generalizing cs with
  | nil =>
      rw [List.length_nil, Nat.zero_mul] at hlength
      obtain hzero | hzero := Nat.mul_eq_zero.1 hlength.symm
      · exact (List.length_eq_zero_iff.1 hzero).symm
      · omega
  | cons b bs ih =>
      cases cs with
      | nil =>
          rw [List.length_nil, Nat.zero_mul, List.length_cons, Nat.succ_mul] at hlength
          omega
      | cons c cs =>
          rw [List.flatten_cons, List.flatten_cons] at h
          obtain ⟨rfl, hrest⟩ := List.append_inj h
            ((hb b List.mem_cons_self).trans (hc c List.mem_cons_self).symm)
          rw [List.length_cons, List.length_cons, Nat.succ_mul, Nat.succ_mul] at hlength
          rw [ih hb.tail hc.tail hrest (by omega)]

/-- Replace the part of `l` that starts at `k` by `buf`. -/
def overwrite (l : List α) (k : Nat) (buf : List α) : List α :=
  l.take k ++ buf ++ l.drop (k + buf.length)

@[simp] theorem overwrite_nil (l : List α) (k : Nat) : overwrite l k [] = l := by
  simp [overwrite]

theorem length_overwrite {l : List α} {k : Nat} {buf : List α}
    (h : k + buf.length ≤ l.length) : (overwrite l k buf).length = l.length := by
  simp only [overwrite, List.length_append, List.length_take, List.length_drop]
  omega

theorem take_overwrite {l : List α} {k : Nat} (h : k ≤ l.length) (buf : List α) :
    (overwrite l k buf).take (k + buf.length) = l.take k ++ buf := by
  have hlen : (l.take k ++ buf).length = k + buf.length := by
    rw [List.length_append, List.length_take, Nat.min_eq_left h]
  rw [overwrite, ← hlen, List.take_left]

/-- What `overwrite` does to the first `m` elements, when it starts among them. -/
theorem take_overwrite_max (l : List α) {k m : Nat} (hk : k ≤ m) (hm : m ≤ l.length)
    (buf : List α) :
    (overwrite l k buf).take (max m (k + buf.length)) = overwrite (l.take m) k buf := by
  have hlen : (l.take k ++ buf).length = k + buf.length := by
    rw [List.length_append, List.length_take, Nat.min_eq_left (hk.trans hm)]
  have hrest : max m (k + buf.length) - (k + buf.length) = m - (k + buf.length) := by omega
  rw [overwrite, overwrite, List.take_append, hlen, hrest, List.take_of_length_le (by omega),
    List.take_take, Nat.min_eq_left hk, List.drop_take]

/-- What stands behind a write stays. -/
theorem overwrite_append {l : List α} {k : Nat} {buf : List α} (h : k + buf.length ≤ l.length)
    (more : List α) : overwrite l k buf ++ more = overwrite (l ++ more) k buf := by
  rw [overwrite, overwrite, List.take_append_of_le_length (by omega),
    List.drop_append_of_le_length h, List.append_assoc (l.take k ++ buf)]

/-- Two writes that follow each other are one write. -/
theorem overwrite_overwrite {l : List α} {k : Nat} {a b : List α}
    (h : k + a.length ≤ l.length) :
    overwrite (overwrite l k a) (k + a.length) b = overwrite l k (a ++ b) := by
  have hk : (l.take k).length = k := by
    rw [List.length_take]
    omega
  have hka : (l.take k ++ a).length = k + a.length := by
    rw [List.length_append, hk]
  have ht : (overwrite l k a).take (k + a.length) = l.take k ++ a :=
    take_overwrite (by omega) a
  have hd : (overwrite l k a).drop (k + a.length + b.length) =
      l.drop (k + (a ++ b).length) := by
    rw [overwrite, ← hka, List.drop_length_add_append, List.drop_drop]
    simp only [List.length_append, hk, Nat.add_assoc]
  rw [overwrite, ht, hd, overwrite, List.append_assoc (l.take k)]

/-- Writing inside block `i` is writing at its place in the flat sequence. -/
theorem flatten_set_overwrite {bs : List (List α)} (h : Uniform n bs) {i : Nat} {b : List α}
    (hi : bs[i]? = some b) {k : Nat} {buf : List α} (hk : k + buf.length ≤ n) :
    (bs.set i (overwrite b k buf)).flatten = overwrite bs.flatten (i * n + k) buf := by
  obtain ⟨hlt, hget⟩ := List.getElem?_eq_some_iff.mp hi
  have hb : b.length = n := h b (List.mem_of_getElem? hi)
  have hsplit : bs.flatten = (bs.take i).flatten ++ (b ++ (bs.drop (i + 1)).flatten) := by
    conv_lhs => rw [← List.take_append_drop i bs, List.drop_eq_getElem_cons hlt, hget]
    rw [List.flatten_append, List.flatten_cons]
  have hpre : (bs.take i).flatten.length = i * n := by
    rw [length_flatten (h.take i), List.length_take, Nat.min_eq_left hlt.le]
  have hkb : k ≤ b.length := by omega
  have hkb' : k + buf.length ≤ b.length := by omega
  rw [List.set_eq_take_append_cons_drop, if_pos hlt, List.flatten_append, List.flatten_cons,
    overwrite, overwrite, hsplit, ← hpre, List.take_length_add_append, Nat.add_assoc,
    List.drop_length_add_append, List.take_append_of_le_length hkb,
    List.drop_append_of_le_length hkb']
  simp only [List.append_assoc]

/-- Reading inside block `i` is reading at its place in the flat sequence. -/
theorem drop_take_block {bs : List (List α)} (h : Uniform n bs) {i : Nat} {b : List α}
    (hi : bs[i]? = some b) {k m : Nat} (hk : k + m ≤ n) :
    (bs.flatten.drop (i * n + k)).take m = (b.drop k).take m := by
  obtain ⟨hlt, hget⟩ := List.getElem?_eq_some_iff.mp hi
  have hb : b.length = n := h b (List.mem_of_getElem? hi)
  rw [← List.drop_drop, drop_flatten h, List.drop_eq_getElem_cons hlt, hget, List.flatten_cons,
    List.drop_append_of_le_length (by omega), List.take_append_of_le_length]
  rw [List.length_drop]
  omega

end Sylar.Lib.Blocks
