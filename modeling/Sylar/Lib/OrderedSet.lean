import Mathlib.Data.List.TakeWhile
import Mathlib.Data.List.Nodup
import Mathlib.Order.Lattice

/-!
# Sets that are kept in the order of a comparison

The elements stand in a list, and every operation finds its place by the
comparison alone. Where the comparison is that of a key in a linear order and
the list is strictly sorted by it, the operations are those of a set.
-/

namespace Sylar.Lib.OrderedSet

variable {α κ : Type*} [LinearOrder κ]

section Operations

variable (less : α → α → Bool) (x : α) (s : List α)

/-- The elements in front of the place of `x`. -/
def below : List α := s.takeWhile fun y => less y x

/-- The elements from the place of `x` on. -/
def lowerBound : List α := s.dropWhile fun y => less y x

def find : Option α :=
  match lowerBound less x s with
  | [] => none
  | y :: _ => if less x y then none else some y

/-- An element that is equivalent to `x` stays. -/
def insert : List α :=
  match lowerBound less x s with
  | [] => s ++ [x]
  | y :: ys => if less x y then below less x s ++ x :: y :: ys else s

/-- Remove the element at the place of `x`. -/
def erase : List α := below less x s ++ (lowerBound less x s).tail

end Operations

/-- The comparison is that of the keys. -/
def ComparesBy (less : α → α → Bool) (key : α → κ) : Prop :=
  ∀ a b, less a b = true ↔ key a < key b

/-- Strictly sorted by the key. -/
def Sorted (key : α → κ) (s : List α) : Prop := s.Pairwise fun a b => key a < key b

variable {less : α → α → Bool} {key : α → κ} {x y : α} {s : List α}

theorem below_append_lowerBound (less : α → α → Bool) (x : α) (s : List α) :
    below less x s ++ lowerBound less x s = s := List.takeWhile_append_dropWhile

theorem Sorted.nodup (h : Sorted key s) : s.Nodup :=
  h.imp fun hlt heq => absurd (congrArg key heq) hlt.ne

/-- Only the keys of the elements matter. -/
theorem Sorted.congr {key' : α → κ} (h : Sorted key s) (hkey : ∀ a ∈ s, key' a = key a) :
    Sorted key' s :=
  List.Pairwise.imp_of_mem (fun ha hb hlt => by rwa [hkey _ ha, hkey _ hb]) h

theorem lt_of_mem_below (h : ComparesBy less key) (hy : y ∈ below less x s) : key y < key x := by
  have hless := List.mem_takeWhile_imp (p := fun y => less y x) hy
  exact (h y x).1 hless

/-- Where a test that fails goes on failing, what it does not skip fails it. -/
theorem not_of_mem_dropWhile {p : α → Bool} (hs : Sorted key s)
    (hp : ∀ a ∈ s, ∀ b ∈ s, key a < key b → p b = true → p a = true)
    (hx : x ∈ s.dropWhile p) : ¬ p x = true := by
  induction s with
  | nil => cases hx
  | cons z zs ih =>
      obtain ⟨hz, hzs⟩ := List.pairwise_cons.1 hs
      rw [List.dropWhile_cons] at hx
      split at hx
      · apply ih hzs _ hx
        intro a ha b hb
        exact hp a (List.mem_cons_of_mem z ha) b (List.mem_cons_of_mem z hb)
      · next hpz =>
          intro hpx
          obtain rfl | hmem := List.mem_cons.1 hx
          · exact hpz hpx
          · exact hpz (hp z List.mem_cons_self x hx (hz x hmem) hpx)

theorem le_of_mem_lowerBound (h : ComparesBy less key) (hs : Sorted key s)
    (hy : y ∈ lowerBound less x s) : key x ≤ key y := by
  have hless : ¬ less y x = true := by
    apply not_of_mem_dropWhile hs _ hy
    intro a _ b _ hab hb
    exact (h a x).2 (hab.trans ((h b x).1 hb))
  exact not_lt.1 fun hlt => hless ((h y x).2 hlt)

/-- An element stands at its place. -/
theorem lowerBound_of_mem (h : ComparesBy less key) (hs : Sorted key s) (hx : x ∈ s) :
    ∃ rest, lowerBound less x s = x :: rest := by
  have hmem : x ∈ lowerBound less x s := by
    rw [← below_append_lowerBound less x s] at hx
    exact (List.mem_append.1 hx).resolve_left fun hb => lt_irrefl _ (lt_of_mem_below h hb)
  have hsorted : Sorted key (lowerBound less x s) := hs.sublist (List.dropWhile_sublist _)
  cases hl : lowerBound less x s with
  | nil =>
      rw [hl] at hmem
      cases hmem
  | cons z zs =>
      have hxz : key x ≤ key z := le_of_mem_lowerBound h hs (hl ▸ List.mem_cons_self)
      rw [hl] at hmem hsorted
      obtain rfl | hmem := List.mem_cons.1 hmem
      · exact ⟨zs, rfl⟩
      · exact absurd ((List.pairwise_cons.1 hsorted).1 x hmem) (not_lt.2 hxz)

theorem find_of_mem (h : ComparesBy less key) (hs : Sorted key s) (hx : x ∈ s) :
    find less x s = some x := by
  obtain ⟨rest, hl⟩ := lowerBound_of_mem h hs hx
  have hirrefl : less x x = false := by
    rw [← Bool.not_eq_true, h]
    exact lt_irrefl _
  simp only [find, hl, hirrefl, Bool.false_eq_true, if_false]

theorem mem_of_find (h : find less x s = some y) : y ∈ s := by
  unfold find at h
  split at h
  · cases h
  · next z zs hl =>
      have hz : z ∈ s := (List.dropWhile_sublist _).subset (hl ▸ List.mem_cons_self)
      split at h
      · cases h
      · cases h
        exact hz

/-- Only the key of the element decides what is found. -/
theorem find_congr (h : ComparesBy less key) (hkey : key x = key y) :
    find less x s = find less y s := by
  have hless : ∀ z, less z x = less z y := fun z => by rw [Bool.eq_iff_iff, h, h, hkey]
  have hgreater : ∀ z, less x z = less y z := fun z => by rw [Bool.eq_iff_iff, h, h, hkey]
  simp only [find, lowerBound, hless, hgreater]

theorem Sorted.erase (hs : Sorted key s) (less : α → α → Bool) (x : α) :
    Sorted key (erase less x s) := by
  refine List.Pairwise.sublist ?_ hs
  conv_rhs => rw [← below_append_lowerBound less x s]
  exact List.Sublist.append_left (List.tail_sublist _) _

theorem mem_erase (h : ComparesBy less key) (hs : Sorted key s) (hx : x ∈ s) :
    y ∈ OrderedSet.erase less x s ↔ y ∈ s ∧ y ≠ x := by
  obtain ⟨rest, hl⟩ := lowerBound_of_mem h hs hx
  have heq : s = below less x s ++ x :: rest := by
    rw [← hl, below_append_lowerBound]
  have hnodup := hs.nodup
  rw [heq, List.nodup_middle, List.nodup_cons] at hnodup
  rw [OrderedSet.erase, hl, List.tail_cons]
  constructor
  · intro hy
    refine ⟨?_, fun he => hnodup.1 (he ▸ hy)⟩
    rw [heq]
    exact List.mem_append.2 ((List.mem_append.1 hy).imp_right (List.mem_cons_of_mem x))
  · rintro ⟨hy, hne⟩
    rw [heq] at hy
    refine List.mem_append.2 ((List.mem_append.1 hy).imp_right fun hy => ?_)
    exact (List.mem_cons.1 hy).resolve_left hne

/-- An element with a key of its own is inserted at its place. -/
theorem insert_eq (h : ComparesBy less key) (hs : Sorted key s) (hx : ∀ y ∈ s, key y ≠ key x) :
    OrderedSet.insert less x s = below less x s ++ x :: lowerBound less x s := by
  unfold OrderedSet.insert
  split
  · next hl =>
      have hbelow := below_append_lowerBound less x s
      rw [hl, List.append_nil] at hbelow
      rw [hl, hbelow]
  · next y ys hl =>
      have hy : y ∈ lowerBound less x s := hl ▸ List.mem_cons_self
      have hlt : key x < key y :=
        lt_of_le_of_ne (le_of_mem_lowerBound h hs hy)
          fun he => hx y ((List.dropWhile_sublist _).subset hy) he.symm
      rw [if_pos ((h x y).2 hlt), hl]

theorem mem_insert (h : ComparesBy less key) (hs : Sorted key s)
    (hx : ∀ y ∈ s, key y ≠ key x) : y ∈ OrderedSet.insert less x s ↔ y = x ∨ y ∈ s := by
  rw [insert_eq h hs hx]
  conv_rhs => rw [← below_append_lowerBound less x s]
  simp only [List.mem_append, List.mem_cons]
  tauto

theorem Sorted.insert (h : ComparesBy less key) (hs : Sorted key s) (x : α) :
    Sorted key (insert less x s) := by
  have hsplit := below_append_lowerBound less x s
  unfold OrderedSet.insert
  split
  · next hl =>
      rw [hl, List.append_nil] at hsplit
      refine List.pairwise_append.2 ⟨hs, List.pairwise_singleton _ _, ?_⟩
      intro a ha b hb
      obtain rfl := List.mem_singleton.1 hb
      apply lt_of_mem_below h
      rwa [hsplit]
  · next y ys hl =>
      split
      · next hless =>
          have hxy : key x < key y := (h x y).1 hless
          rw [hl] at hsplit
          rw [Sorted, ← hsplit, List.pairwise_append] at hs
          obtain ⟨hbelow, hbound, hcross⟩ := hs
          refine List.pairwise_append.2 ⟨hbelow, List.pairwise_cons.2 ⟨?_, hbound⟩, ?_⟩
          · intro z hz
            obtain rfl | hz := List.mem_cons.1 hz
            · exact hxy
            · exact hxy.trans ((List.pairwise_cons.1 hbound).1 z hz)
          · intro a ha b hb
            have hax := lt_of_mem_below h ha
            obtain rfl | hb := List.mem_cons.1 hb
            · exact hax
            · exact hcross a ha b hb
      · exact hs

/-- An element whose key is there is not inserted. -/
theorem insert_eq_self (h : ComparesBy less key) (hs : Sorted key s) (hy : y ∈ s)
    (hkey : key y = key x) : OrderedSet.insert less x s = s := by
  have hless : ∀ z, less z x = less z y := fun z => by rw [Bool.eq_iff_iff, h, h, hkey]
  have hbound : lowerBound less x s = lowerBound less y s := by simp only [lowerBound, hless]
  have hnot : ¬ less x y = true := by
    rw [h, hkey]
    exact lt_irrefl _
  obtain ⟨rest, hl⟩ := lowerBound_of_mem h hs hy
  simp only [OrderedSet.insert, hbound, hl, if_neg hnot]

/-- An element behind all others is inserted at the end. -/
theorem insert_of_forall_lt (h : ComparesBy less key) (hx : ∀ y ∈ s, key y < key x) :
    OrderedSet.insert less x s = s ++ [x] := by
  have hl : lowerBound less x s = [] :=
    List.dropWhile_eq_nil_iff.2 fun y hy => (h y x).2 (hx y hy)
  simp only [OrderedSet.insert, hl]

section Folds

variable {l : List α} {e f : α}

/-- The first element of the list with its key. -/
def IsFirst {β : Type*} (key : α → β) (l : List α) (e : α) : Prop :=
  ∃ front back, l = front ++ e :: back ∧ ∀ d ∈ front, key d ≠ key e

theorem isFirst_cons {β : Type*} {key : α → β} :
    IsFirst key (x :: l) e ↔ e = x ∨ IsFirst key l e ∧ key x ≠ key e := by
  constructor
  · rintro ⟨front, back, heq, hfront⟩
    cases front with
    | nil =>
        cases heq
        exact Or.inl rfl
    | cons y front =>
        cases heq
        rw [List.forall_mem_cons] at hfront
        exact Or.inr ⟨⟨front, back, rfl, hfront.2⟩, hfront.1⟩
  · rintro (rfl | ⟨⟨front, back, rfl, hfront⟩, hne⟩)
    · exact ⟨[], l, rfl, fun d hd => absurd hd List.not_mem_nil⟩
    · exact ⟨x :: front, back, rfl, List.forall_mem_cons.2 ⟨hne, hfront⟩⟩

/-- Every key of the list has a first element. -/
theorem exists_isFirst {β : Type*} [DecidableEq β] (key : α → β) (he : e ∈ l) :
    ∃ f, IsFirst key l f ∧ key f = key e := by
  induction l with
  | nil => cases he
  | cons x l ih =>
      by_cases hx : key x = key e
      · exact ⟨x, isFirst_cons.2 (Or.inl rfl), hx⟩
      · obtain rfl | he := List.mem_cons.1 he
        · exact absurd rfl hx
        · obtain ⟨f, hf, hkey⟩ := ih he
          exact ⟨f, isFirst_cons.2 (Or.inr ⟨hf, hkey ▸ hx⟩), hkey⟩

theorem IsFirst.eq {β : Type*} {key : α → β} (he : IsFirst key l e) (hf : IsFirst key l f)
    (hkey : key e = key f) : e = f := by
  induction l with
  | nil =>
      obtain ⟨front, back, heq, -⟩ := he
      cases front <;> cases heq
  | cons x l ih =>
      rw [isFirst_cons] at he hf
      obtain rfl | ⟨he, hxe⟩ := he
      · obtain rfl | ⟨-, hxf⟩ := hf
        · rfl
        · exact absurd hkey hxf
      · obtain rfl | ⟨hf, -⟩ := hf
        · exact absurd hkey.symm hxe
        · exact ih he hf

/-- Two keys, one of which determines the other, have the same first elements if and only if
they tell the same elements of the list apart. -/
theorem isFirst_iff_isFirst_iff {β γ : Type*} [DecidableEq γ] {coarse : α → β} {fine : α → γ}
    (hfine : ∀ a b, fine a = fine b → coarse a = coarse b) :
    (∀ e, IsFirst coarse l e ↔ IsFirst fine l e) ↔
      ∀ a ∈ l, ∀ b ∈ l, coarse a = coarse b → fine a = fine b := by
  constructor
  · intro h a ha b hb hab
    obtain ⟨f, hf, hfa⟩ := exists_isFirst fine ha
    obtain ⟨g, hg, hgb⟩ := exists_isFirst fine hb
    have hfg : f = g := by
      apply ((h f).2 hf).eq ((h g).2 hg)
      rw [hfine f a hfa, hab, hfine g b hgb]
    rw [← hfa, hfg, hgb]
  · intro h e
    constructor
    · rintro ⟨front, back, rfl, hfront⟩
      exact ⟨front, back, rfl, fun d hd he => hfront d hd (hfine d e he)⟩
    · rintro ⟨front, back, rfl, hfront⟩
      refine ⟨front, back, rfl, fun d hd he => hfront d hd (h d ?_ e ?_ he)⟩
      · exact List.mem_append_left _ hd
      · exact List.mem_append_right _ List.mem_cons_self

/-- Of several insertions the first one of a key wins. -/
theorem mem_foldl_insert (h : ComparesBy less key) (hs : Sorted key s) :
    e ∈ l.foldl (fun s x => OrderedSet.insert less x s) s ↔
      e ∈ s ∨ IsFirst key l e ∧ ∀ y ∈ s, key y ≠ key e := by
  induction l generalizing s with
  | nil =>
      have hnone : ¬ IsFirst key [] e := by
        rintro ⟨front, back, heq, -⟩
        cases front <;> cases heq
      simp [hnone]
  | cons x l ih =>
      rw [List.foldl_cons, ih (hs.insert h x), isFirst_cons]
      by_cases hx : ∃ y ∈ s, key y = key x
      · obtain ⟨y, hy, hkey⟩ := hx
        rw [insert_eq_self h hs hy hkey]
        apply or_congr_right
        constructor
        · rintro ⟨hfirst, hnew⟩
          exact ⟨Or.inr ⟨hfirst, hkey ▸ hnew y hy⟩, hnew⟩
        · rintro ⟨rfl | ⟨hfirst, -⟩, hnew⟩
          · exact absurd hkey (hnew y hy)
          · exact ⟨hfirst, hnew⟩
      · have hx : ∀ y ∈ s, key y ≠ key x := fun y hy hkey => hx ⟨y, hy, hkey⟩
        have hmem : ∀ y, y ∈ OrderedSet.insert less x s ↔ y = x ∨ y ∈ s := fun y =>
          mem_insert h hs hx
        simp only [hmem, forall_eq_or_imp]
        constructor
        · rintro ((rfl | he) | ⟨hfirst, hne, hnew⟩)
          · exact Or.inr ⟨Or.inl rfl, hx⟩
          · exact Or.inl he
          · exact Or.inr ⟨Or.inr ⟨hfirst, hne⟩, hnew⟩
        · rintro (he | ⟨rfl | ⟨hfirst, hne⟩, hnew⟩)
          · exact Or.inl (Or.inr he)
          · exact Or.inl (Or.inl rfl)
          · exact Or.inr ⟨hfirst, hne, hnew⟩

end Folds

end Sylar.Lib.OrderedSet
