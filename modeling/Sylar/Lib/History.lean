import Mathlib.Data.List.Nodup

/-!
# What a history of operations leaves of each key

An operation may give a key a value or take the key away. The value that a key has after
a history is that of the last operation on the key. A list of keys and values in which
every operation moves its key to the end has the keys in the order of these operations.
-/

namespace Sylar.Lib.History

variable {ω κ ν : Type*} (effect : ω → Option (κ × Option ν))

/-- The operation at place `n` has given the key its value, and no later one has touched it. -/
def Current (h : List ω) (k : κ) (v : ν) (n : Nat) : Prop :=
  (∃ o, h[n]? = some o ∧ effect o = some (k, some v)) ∧
    ∀ m o, n < m → h[m]? = some o → ∀ w, effect o ≠ some (k, w)

variable {effect} {h : List ω} {o : ω} {k k' : κ} {v w : ν} {n m : Nat}

theorem Current.lt_length (hc : Current effect h k v n) : n < h.length := by
  obtain ⟨⟨o, ho, -⟩, -⟩ := hc
  exact (List.getElem?_eq_some_iff.mp ho).1

theorem not_current_nil : ¬Current effect [] k v n := by
  intro hc
  exact absurd hc.lt_length (Nat.not_lt_zero n)

/-- The value that a key has depends on the last operation only, if that touches the key. -/
theorem current_concat :
    Current effect (h ++ [o]) k v n ↔
      (n = h.length ∧ effect o = some (k, some v)) ∨
        ((∀ w, effect o ≠ some (k, w)) ∧ Current effect h k v n) := by
  have hold : ∀ {i}, i < h.length → (h ++ [o])[i]? = h[i]? := fun hi => List.getElem?_append_left hi
  have hlast : (h ++ [o])[h.length]? = some o := List.getElem?_concat_length
  constructor
  · intro hc
    obtain ⟨⟨p, hp, heffect⟩, hlater⟩ := hc
    have hn : n < h.length + 1 := by
      simpa using (List.getElem?_eq_some_iff.mp hp).1
    obtain hn | rfl := Nat.lt_succ_iff_lt_or_eq.mp hn
    · right
      refine ⟨fun w => hlater h.length o hn hlast w, ⟨p, hold hn ▸ hp, heffect⟩, ?_⟩
      intro m q hm hq
      have hlt : m < h.length := (List.getElem?_eq_some_iff.mp hq).1
      exact hlater m q hm (by rwa [hold hlt])
    · left
      rw [hlast] at hp
      cases hp
      exact ⟨rfl, heffect⟩
  · rintro (⟨rfl, heffect⟩ | ⟨hother, hc⟩)
    · refine ⟨⟨o, hlast, heffect⟩, ?_⟩
      intro m q hm hq
      have hlt := (List.getElem?_eq_some_iff.mp hq).1
      rw [List.length_append, List.length_singleton] at hlt
      omega
    · have hn := hc.lt_length
      obtain ⟨⟨p, hp, heffect⟩, hlater⟩ := hc
      refine ⟨⟨p, by rwa [hold hn], heffect⟩, ?_⟩
      intro m q hm hq
      have hlt := (List.getElem?_eq_some_iff.mp hq).1
      rw [List.length_append, List.length_singleton] at hlt
      obtain hlt | rfl := Nat.lt_succ_iff_lt_or_eq.mp hlt
      · exact hlater m q hm (by rwa [hold hlt] at hq)
      · rw [hlast] at hq
        cases hq
        exact hother

theorem current_of_touched {w : Option ν} (ho : effect o = some (k, w)) :
    Current effect (h ++ [o]) k v n ↔ n = h.length ∧ w = some v := by
  simp [current_concat, ho]

theorem current_of_untouched (ho : ∀ w, effect o ≠ some (k, w)) :
    Current effect (h ++ [o]) k v n ↔ Current effect h k v n := by
  simp [current_concat, ho]

/-- A key has one value. -/
theorem Current.unique (hv : Current effect h k v n) (hw : Current effect h k w m) :
    n = m ∧ v = w := by
  obtain ⟨⟨o, ho, hov⟩, hlater⟩ := hv
  obtain ⟨⟨p, hp, hpw⟩, hlater'⟩ := hw
  have hnm : n = m := by
    obtain hlt | heq | hgt := Nat.lt_trichotomy n m
    · exact absurd hpw (hlater m p hlt hp _)
    · exact heq
    · exact absurd hov (hlater' n o hgt ho _)
  subst hnm
  rw [ho] at hp
  cases hp
  rw [hov] at hpw
  cases hpw
  exact ⟨rfl, rfl⟩

/-- The list has the keys with their values, in the order in which they were given. -/
structure Keeps (effect : ω → Option (κ × Option ν)) (h : List ω) (l : List (κ × ν)) : Prop where
  mem_iff : ∀ k v, (k, v) ∈ l ↔ ∃ n, Current effect h k v n
  ordered : l.Pairwise fun a b =>
    ∀ n m, Current effect h a.1 a.2 n → Current effect h b.1 b.2 m → n < m

namespace Keeps

variable {l : List (κ × ν)}

theorem nil : Keeps effect [] [] := by
  constructor
  · intro k v
    refine iff_of_false List.not_mem_nil ?_
    rintro ⟨n, hc⟩
    exact not_current_nil hc
  · exact List.Pairwise.nil

theorem nodup_keys (hl : Keeps effect h l) : (l.map Prod.fst).Nodup := by
  refine List.pairwise_map.mpr (List.Pairwise.imp_of_mem ?_ hl.ordered)
  rintro ⟨k, v⟩ ⟨k', w⟩ ha hb hlt heq
  dsimp only at heq
  subst heq
  obtain ⟨n, hn⟩ := (hl.mem_iff k v).mp ha
  obtain ⟨m, hm⟩ := (hl.mem_iff k w).mp hb
  exact absurd (hn.unique hm).1 (Nat.ne_of_lt (hlt n m hn hm))

theorem skip (hl : Keeps effect h l) (ho : effect o = none) : Keeps effect (h ++ [o]) l := by
  have hsame : ∀ k v n, Current effect (h ++ [o]) k v n ↔ Current effect h k v n := by
    intro k v n
    simp [current_concat, ho]
  constructor
  · intro k v
    rw [hl.mem_iff]
    exact exists_congr fun n => (hsame k v n).symm
  · refine hl.ordered.imp fun {a b} hlt n m hn hm => ?_
    exact hlt n m ((hsame _ _ _).mp hn) ((hsame _ _ _).mp hm)

variable [DecidableEq κ]

/-- With each key once, to take away the first entry of a key is to take away the key. -/
theorem eraseP_eq_filter {l : List (κ × ν)} (hl : (l.map Prod.fst).Nodup) (k : κ) :
    (l.eraseP fun a => a.1 = k) = l.filter fun a => a.1 ≠ k := by
  induction l with
  | nil => rfl
  | cons a l ih =>
      obtain ⟨ha, hl⟩ := List.nodup_cons.mp hl
      by_cases hk : a.1 = k
      · subst hk
        rw [List.eraseP_cons_of_pos (by simp), List.filter_cons_of_neg (by simp)]
        refine (List.filter_eq_self.mpr fun b hb => ?_).symm
        rw [decide_eq_true_iff]
        intro heq
        exact ha (heq ▸ List.mem_map_of_mem hb)
      · rw [List.eraseP_cons_of_neg (by simpa using hk),
          List.filter_cons_of_pos (by simpa using hk), ih hl]

theorem remove (hl : Keeps effect h l) (ho : effect o = some (k, none)) :
    Keeps effect (h ++ [o]) (l.eraseP fun a => a.1 = k) := by
  rw [eraseP_eq_filter hl.nodup_keys]
  have hback : ∀ k' v n, Current effect (h ++ [o]) k' v n ↔ k' ≠ k ∧ Current effect h k' v n := by
    intro k' v n
    simp [current_concat, ho, eq_comm]
  constructor
  · intro k' v
    simp only [List.mem_filter, decide_eq_true_eq, ne_eq, hl.mem_iff, hback, exists_and_left]
    exact and_comm
  · refine (hl.ordered.filter _).imp fun {a b} hlt n m hn hm => ?_
    exact hlt n m ((hback _ _ _).mp hn).2 ((hback _ _ _).mp hm).2

/-- A key that is given a value goes to the end. -/
theorem write (hl : Keeps effect h l) (ho : effect o = some (k, some v)) :
    Keeps effect (h ++ [o]) ((l.eraseP fun a => a.1 = k) ++ [(k, v)]) := by
  rw [eraseP_eq_filter hl.nodup_keys]
  have hback : ∀ k' w n, Current effect (h ++ [o]) k' w n ↔
      (n = h.length ∧ k' = k ∧ w = v) ∨ (k' ≠ k ∧ Current effect h k' w n) := by
    intro k' w n
    simp [current_concat, ho, eq_comm]
  have hother : ∀ a ∈ l.filter fun a => a.1 ≠ k, ∀ n,
      Current effect (h ++ [o]) a.1 a.2 n → Current effect h a.1 a.2 n := by
    intro a ha n hn
    have hne : a.1 ≠ k := by simpa using (List.mem_filter.mp ha).2
    obtain ⟨-, heq, -⟩ | ⟨-, hc⟩ := (hback _ _ _).mp hn
    · exact absurd heq hne
    · exact hc
  constructor
  · intro k' w
    simp only [List.mem_append, List.mem_filter, decide_eq_true_eq, ne_eq, List.mem_singleton,
      Prod.mk.injEq, hl.mem_iff, hback, exists_or, exists_and_right, exists_eq, true_and,
      exists_and_left]
    tauto
  · refine List.pairwise_append.mpr ⟨?_, List.pairwise_singleton _ _, ?_⟩
    · refine List.Pairwise.imp_of_mem ?_ (hl.ordered.filter _)
      intro a b ha hb hlt n m hn hm
      exact hlt n m (hother a ha n hn) (hother b hb m hm)
    · intro a ha b hb n m hn hm
      obtain rfl := List.mem_singleton.mp hb
      have hm' : m = h.length := by
        obtain ⟨hm, -⟩ | ⟨hne, -⟩ := (hback _ _ _).mp hm
        · exact hm
        · exact absurd rfl hne
      rw [hm']
      exact (hother a ha n hn).lt_length

omit [DecidableEq κ] in
/-- The first entry that passes a test is that of the key that was given first. -/
theorem first_of_find (hl : Keeps effect h l) {p : κ × ν → Bool} {a : κ × ν}
    (ha : l.find? p = some a) :
    ∃ n, Current effect h a.1 a.2 n ∧ p a = true ∧
      ∀ k v m, Current effect h k v m → p (k, v) = true → n ≤ m := by
  obtain ⟨hpass, before, after, rfl, hbefore⟩ := List.find?_eq_some_iff_append.mp ha
  obtain ⟨n, hn⟩ := (hl.mem_iff a.1 a.2).mp (by simp)
  refine ⟨n, hn, hpass, ?_⟩
  intro k v m hm hp
  obtain hmem | hmem := List.mem_append.mp ((hl.mem_iff k v).mpr ⟨m, hm⟩)
  · have hfail := hbefore _ hmem
    rw [hp] at hfail
    cases hfail
  · obtain heq | hmem := List.mem_cons.mp hmem
    · subst heq
      exact Nat.le_of_eq (hn.unique hm).1
    · have hlt := (List.pairwise_cons.mp (List.pairwise_append.mp hl.ordered).2.1).1 _ hmem
      exact Nat.le_of_lt (hlt n m hn hm)

end Keeps

end Sylar.Lib.History
