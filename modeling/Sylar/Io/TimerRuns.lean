import Sylar.Io.Timers
import Mathlib.Algebra.GroupWithZero.Nat
import Mathlib.Algebra.Order.Monoid.Unbundled.WithTop

/-!
# Whole runs of timer operations

Every operation takes timers out of the set, changes them and puts them back, or
lets go of them. The invariant therefore speaks of the set together with the
timers that an operation has in its hands; each primitive moves timers between
the two. Between operations nothing is in hand.
-/

namespace Sylar.Io

open Sylar.Lib

namespace TimerManager

variable {P Q : Timer → Prop} {base s s' : TimerManager} {held todo : List Nat} {i : Nat}

/-- The timer is in the set or in hand. -/
def Tracks (s : TimerManager) (todo : List Nat) (i : Nat) : Prop := i ∈ s.timers ∨ i ∈ todo

/-- The timer exists, and will never be in the set again. -/
structure Dead (s : TimerManager) (todo : List Nat) (i : Nat) : Prop where
  lt : i < s.count
  gone : ¬ s.Tracks todo i
  cb : (s.heap i).cb = none

/-- The invariant, for timers with a property `P`, and what stays since the state `base`, in
which the timers `held` were in hand. -/
structure Kept (P : Timer → Prop) (base : TimerManager) (held : List Nat) (s : TimerManager)
    (todo : List Nat) : Prop where
  sorted : OrderedSet.Sorted s.key s.timers
  apart : ∀ i ∈ todo, i ∉ s.timers
  nodup : todo.Nodup
  inj : ∀ i j, s.Tracks todo i → s.Tracks todo j → (s.heap i).address = (s.heap j).address → i = j
  mem : ∀ i, (s.heap i).cb.isSome = true → s.Tracks todo i
  lt : ∀ i, s.Tracks todo i → i < s.count
  all : ∀ i, s.Tracks todo i → P (s.heap i)
  count : base.count ≤ s.count
  kind : ∀ i < base.count, (s.heap i).recurring = (base.heap i).recurring
  dead : ∀ i, base.Dead held i → s.Dead todo i

theorem tracks_nil : s.Tracks [] i ↔ i ∈ s.timers := by simp [Tracks]

theorem tracks_cons {j : Nat} : s.Tracks (j :: todo) i ↔ i = j ∨ s.Tracks todo i := by
  simp only [Tracks, List.mem_cons]
  tauto

theorem Kept.imp (h : Kept P base held s todo)
    (hPQ : ∀ i, s.Tracks todo i → P (s.heap i) → Q (s.heap i)) : Kept Q base held s todo :=
  { h with all := fun i hi => hPQ i hi (h.all i hi) }

theorem Kept.rebase (h : Kept P base held s todo) : Kept P s todo s todo :=
  { h with count := le_rfl, kind := fun _ _ => rfl, dead := fun _ hd => hd }

/-- Take a timer out of the set. -/
theorem Kept.erase (h : Kept P base held s todo) (hi : i ∈ s.timers) :
    Kept P base held (s.eraseTimer i) (i :: todo) := by
  have hmem : ∀ j, j ∈ (s.eraseTimer i).timers ↔ j ∈ s.timers ∧ j ≠ i := fun j =>
    OrderedSet.mem_erase s.comparesBy h.sorted hi
  have htracks : ∀ j, (s.eraseTimer i).Tracks (i :: todo) j ↔ s.Tracks todo j := by
    intro j
    rw [tracks_cons, Tracks, Tracks, hmem]
    by_cases hj : j = i
    · simp [hj, hi]
    · simp [hj]
  refine ⟨h.sorted.erase _ _, fun j hj => ?_, ?_, fun j k hj hk => ?_, fun j hj => ?_,
    fun j hj => h.lt j ((htracks j).1 hj), fun j hj => h.all j ((htracks j).1 hj), h.count, h.kind,
    fun j hj => ?_⟩
  · rw [hmem]
    obtain rfl | hj := List.mem_cons.1 hj
    · exact fun hj => hj.2 rfl
    · exact fun hj' => h.apart j hj hj'.1
  · exact List.nodup_cons.2 ⟨fun hi' => h.apart i hi' hi, h.nodup⟩
  · exact h.inj j k ((htracks j).1 hj) ((htracks k).1 hk)
  · exact (htracks j).2 (h.mem j hj)
  · obtain ⟨hlt, hgone, hcb⟩ := h.dead j hj
    exact ⟨hlt, fun hj' => hgone ((htracks j).1 hj'), hcb⟩

/-- Change a timer in hand. -/
theorem Kept.setTimer (h : Kept P base held s (i :: todo)) {t : Timer} (hP : P t)
    (haddress : t.address = (s.heap i).address) (hkind : t.recurring = (s.heap i).recurring) :
    Kept P base held (s.setTimer i t) (i :: todo) := by
  have hi : i ∉ s.timers := h.apart i List.mem_cons_self
  have heap : ∀ j, (s.setTimer i t).heap j = if j = i then t else s.heap j := fun j =>
    Function.update_apply ..
  have haddr : ∀ j, ((s.setTimer i t).heap j).address = (s.heap j).address := by
    intro j
    rw [heap]
    split
    · next hj => rw [hj, haddress]
    · rfl
  refine ⟨h.sorted.congr fun j hj => ?_, h.apart, h.nodup, fun j k hj hk he => ?_, fun j hj => ?_,
    h.lt, fun j hj => ?_, h.count, fun j hj => ?_, fun j hj => ?_⟩
  · have hne : j ≠ i := fun he => hi (he ▸ hj)
    rw [key, key, heap, if_neg hne]
  · rw [haddr, haddr] at he
    exact h.inj j k hj hk he
  · rw [heap] at hj
    split at hj
    · next hji => exact .inr (hji ▸ List.mem_cons_self)
    · exact h.mem j hj
  · rw [heap]
    split
    · exact hP
    · exact h.all j hj
  · rw [heap]
    split
    · next hji => rw [hkind, ← hji, h.kind j hj]
    · exact h.kind j hj
  · obtain ⟨hlt, hgone, hcb⟩ := h.dead j hj
    refine ⟨hlt, hgone, ?_⟩
    have hne : j ≠ i := fun he => hgone (.inr (he ▸ List.mem_cons_self))
    rw [heap, if_neg hne]
    exact hcb

/-- A timer in hand has a key of its own. -/
theorem Kept.mem_insertTimer (h : Kept P base held s (i :: todo)) (j : Nat) :
    j ∈ (s.insertTimer i).timers ↔ j = i ∨ j ∈ s.timers := by
  apply OrderedSet.mem_insert s.comparesBy h.sorted
  intro j hj
  refine Timer.key_ne_of_address fun he => ?_
  have hji := h.inj j i (.inl hj) (.inr List.mem_cons_self) he
  exact h.apart i List.mem_cons_self (hji ▸ hj)

/-- Put a timer back into the set. -/
theorem Kept.insert (h : Kept P base held s (i :: todo)) :
    Kept P base held (s.insertTimer i) todo := by
  obtain ⟨hi, hnodup⟩ := List.nodup_cons.1 h.nodup
  have hmem := h.mem_insertTimer
  have htracks : ∀ j, (s.insertTimer i).Tracks todo j ↔ s.Tracks (i :: todo) j := by
    intro j
    rw [tracks_cons, Tracks, Tracks, hmem, or_assoc]
  refine ⟨OrderedSet.Sorted.insert s.comparesBy h.sorted _, fun j hj => ?_, hnodup,
    fun j k hj hk => ?_, fun j hj => (htracks j).2 (h.mem j hj),
    fun j hj => h.lt j ((htracks j).1 hj), fun j hj => h.all j ((htracks j).1 hj), h.count, h.kind,
    fun j hj => ?_⟩
  · rw [hmem, not_or]
    exact ⟨fun he => hi (he ▸ hj), h.apart j (List.mem_cons_of_mem i hj)⟩
  · exact h.inj j k ((htracks j).1 hj) ((htracks k).1 hk)
  · obtain ⟨hlt, hgone, hcb⟩ := h.dead j hj
    exact ⟨hlt, fun hj' => hgone ((htracks j).1 hj'), hcb⟩

/-- Clear the callback of a timer in hand and let go of it. -/
theorem Kept.retire (h : Kept P base held s (i :: todo)) :
    Kept P base held (s.setTimer i { s.heap i with cb := none }) todo ∧
      (s.setTimer i { s.heap i with cb := none }).Dead todo i := by
  obtain ⟨hi, hnodup⟩ := List.nodup_cons.1 h.nodup
  have hself : s.Tracks (i :: todo) i := .inr List.mem_cons_self
  have hgone : ¬ s.Tracks todo i := fun ht => ht.elim (h.apart i List.mem_cons_self) hi
  have htracks : ∀ j, s.Tracks todo j → s.Tracks (i :: todo) j := fun j hj =>
    tracks_cons.2 (.inr hj)
  have heap : ∀ j, j ≠ i → (s.setTimer i { s.heap i with cb := none }).heap j = s.heap j :=
    fun j hj => Function.update_of_ne hj ..
  have hne : ∀ j, s.Tracks todo j → j ≠ i := fun j hj he => hgone (he ▸ hj)
  have hself' : (s.setTimer i { s.heap i with cb := none }).heap i =
      { s.heap i with cb := none } := Function.update_self ..
  have hcb : ((s.setTimer i { s.heap i with cb := none }).heap i).cb = none := by rw [hself']
  refine ⟨⟨h.sorted.congr fun j hj => ?_, fun j hj => h.apart j (List.mem_cons_of_mem i hj), hnodup,
    fun j k hj hk he => ?_, fun j hj => ?_, fun j hj => h.lt j (htracks j hj), fun j hj => ?_,
    h.count, fun j hj => ?_, fun j hj => ?_⟩, h.lt i hself, hgone, hcb⟩
  · rw [key, key, heap j (hne j (.inl hj))]
  · rw [heap j (hne j hj), heap k (hne k hk)] at he
    exact h.inj j k (htracks j hj) (htracks k hk) he
  · by_cases hji : j = i
    · rw [hji, hcb] at hj
      cases hj
    · rw [heap j hji] at hj
      exact (tracks_cons.1 (h.mem j hj)).resolve_left hji
  · rw [heap j (hne j hj)]
    exact h.all j (htracks j hj)
  · by_cases hji : j = i
    · subst hji
      rw [← h.kind j hj, hself']
    · rw [heap j hji]
      exact h.kind j hj
  · obtain ⟨hlt, hdead, hnone⟩ := h.dead j hj
    have hji : j ≠ i := fun he => hdead (he ▸ hself)
    refine ⟨hlt, fun ht => hdead (htracks j ht), ?_⟩
    rw [heap j hji]
    exact hnone

/-- A new timer is in hand. -/
theorem Kept.allocate (h : Kept P base held s todo) {ms now : UInt64} {cb : Option TimerCb}
    {recurring : Bool} {address : Nat} (hP : P ⟨recurring, ms, now + ms, cb, address⟩)
    (haddress : ∀ j, s.Tracks todo j → (s.heap j).address ≠ address) :
    Kept P base held (s.allocate ms cb recurring now address) (s.count :: todo) := by
  have hnew : ¬ s.Tracks todo s.count := fun ht => lt_irrefl _ (h.lt _ ht)
  have hne : ∀ j, s.Tracks todo j → j ≠ s.count := fun j hj he => hnew (he ▸ hj)
  have heap : ∀ j, j ≠ s.count → (s.allocate ms cb recurring now address).heap j = s.heap j :=
    fun j hj => Function.update_of_ne hj ..
  have hself : (s.allocate ms cb recurring now address).heap s.count =
      ⟨recurring, ms, now + ms, cb, address⟩ := Function.update_self ..
  refine ⟨h.sorted.congr fun j hj => ?_, fun j hj => ?_, ?_, fun j k hj hk he => ?_, fun j hj => ?_,
    fun j hj => ?_, fun j hj => ?_, h.count.trans (Nat.le_succ _), fun j hj => ?_, fun j hj => ?_⟩
  · rw [key, key, heap j (hne j (.inl hj))]
  · obtain rfl | hj := List.mem_cons.1 hj
    · exact fun hj => hnew (.inl hj)
    · exact h.apart j hj
  · exact List.nodup_cons.2 ⟨fun hc => hnew (.inr hc), h.nodup⟩
  · obtain rfl | hj := tracks_cons.1 hj <;> obtain rfl | hk := tracks_cons.1 hk
    · rfl
    · rw [hself, heap k (hne k hk)] at he
      exact absurd he.symm (haddress k hk)
    · rw [hself, heap j (hne j hj)] at he
      exact absurd he (haddress j hj)
    · rw [heap j (hne j hj), heap k (hne k hk)] at he
      exact h.inj j k hj hk he
  · refine tracks_cons.2 (or_iff_not_imp_left.2 fun hjc => ?_)
    rw [heap j hjc] at hj
    exact h.mem j hj
  · obtain rfl | hj := tracks_cons.1 hj
    · exact Nat.lt_succ_self _
    · exact (h.lt j hj).trans (Nat.lt_succ_self _)
  · obtain rfl | hj := tracks_cons.1 hj
    · rw [hself]
      exact hP
    · rw [heap j (hne j hj)]
      exact h.all j hj
  · rw [heap j (hj.trans_le h.count).ne]
    exact h.kind j hj
  · obtain ⟨hlt, hdead, hnone⟩ := h.dead j hj
    refine ⟨hlt.trans (Nat.lt_succ_self _), fun ht => ?_, ?_⟩
    · obtain rfl | ht := tracks_cons.1 ht
      · exact lt_irrefl _ hlt
      · exact hdead ht
    · rw [heap j hlt.ne]
      exact hnone

/-! ### The operations -/

/-- The flag and the clock do not matter. -/
theorem Kept.of_eq (h : Kept P base held s todo) (hheap : s'.heap = s.heap)
    (hcount : s'.count = s.count) (htimers : s'.timers = s.timers) : Kept P base held s' todo := by
  obtain ⟨heap, count, timers, tickled, time⟩ := s
  obtain ⟨heap', count', timers', tickled', time'⟩ := s'
  cases hheap
  cases hcount
  cases htimers
  exact ⟨h.sorted, h.apart, h.nodup, h.inj, h.mem, h.lt, h.all, h.count, h.kind, fun i hi =>
    ⟨(h.dead i hi).lt, (h.dead i hi).gone, (h.dead i hi).cb⟩⟩

theorem Kept.addTimerLocked (h : Kept P base held s (i :: todo)) :
    Kept P base held (s.addTimerLocked i).2 todo :=
  h.insert.of_eq rfl rfl rfl

theorem Kept.addTimer (h : Kept P base held s []) {ms now : UInt64} {cb : Option TimerCb}
    {recurring : Bool} {address : Nat} (hP : P ⟨recurring, ms, now + ms, cb, address⟩)
    (haddress : ∀ j ∈ s.timers, (s.heap j).address ≠ address) :
    Kept P base held (s.addTimer ms cb recurring now address).2 [] :=
  (h.allocate hP fun j hj => haddress j (tracks_nil.1 hj)).addTimerLocked

theorem Kept.mem_timers (h : Kept P base held s []) (hi : (s.heap i).cb.isSome = true) :
    i ∈ s.timers :=
  tracks_nil.1 (h.mem i hi)

/-- The search of the set for a timer with a callback succeeds. -/
theorem Kept.find (h : Kept P base held s []) (hi : (s.heap i).cb.isSome = true) :
    OrderedSet.find s.less i s.timers = some i :=
  OrderedSet.find_of_mem s.comparesBy h.sorted (h.mem_timers hi)

theorem less_setCb (s : TimerManager) (i : Nat) (cb : Option TimerCb) :
    (s.setTimer i { s.heap i with cb := cb }).less = s.less := by
  funext j k
  unfold less setTimer Timer.comparator
  simp only [Function.update_apply]
  split <;> split <;> simp_all

/-- `cancel` finds a timer with a callback in the set. -/
theorem Kept.cancel_eq (h : Kept P base held s []) (hi : (s.heap i).cb.isSome = true) :
    s.cancel i = some (true, (s.setTimer i { s.heap i with cb := none }).eraseTimer i) := by
  unfold TimerManager.cancel
  rw [if_pos hi]
  dsimp only
  rw [less_setCb, show (s.setTimer i { s.heap i with cb := none }).timers = s.timers from rfl,
    h.find hi]

/-- `refresh` takes the timer out, changes it and puts it back. -/
theorem Kept.refresh_eq (h : Kept P base held s []) (hi : (s.heap i).cb.isSome = true)
    (now : UInt64) :
    s.refresh i now =
      (true, ((s.eraseTimer i).setTimer i
        { s.heap i with next := now + (s.heap i).ms }).insertTimer i) := by
  unfold TimerManager.refresh
  rw [if_pos hi, h.find hi]
  rfl

/-- `cancel` never erases `end()`. A timer that it cancels never comes back. -/
theorem Kept.cancel (h : Kept P base held s []) (i : Nat) :
    ∃ r s', s.cancel i = some (r, s') ∧ Kept P base held s' [] ∧ (r = true → s'.Dead [] i) := by
  by_cases hi : (s.heap i).cb.isSome = true
  · have hretired := (h.erase (h.mem_timers hi)).retire
    have heq : (s.setTimer i { s.heap i with cb := none }).eraseTimer i =
        (s.eraseTimer i).setTimer i { (s.eraseTimer i).heap i with cb := none } := by
      unfold eraseTimer
      rw [less_setCb]
      rfl
    exact ⟨true, _, h.cancel_eq hi, heq ▸ hretired.1, fun _ => heq ▸ hretired.2⟩
  · exact ⟨false, s, if_neg hi, h, nofun⟩

/-- `refresh` moves a timer with a callback, and does nothing to another. -/
theorem Kept.refresh (h : Kept P base held s []) (i : Nat) (now : UInt64)
    (hP : (s.heap i).cb.isSome = true → P { s.heap i with next := now + (s.heap i).ms }) :
    Kept P base held (s.refresh i now).2 [] := by
  by_cases hi : (s.heap i).cb.isSome = true
  · rw [h.refresh_eq hi]
    exact ((h.erase (h.mem_timers hi)).setTimer (hP hi) rfl rfl).insert
  · rw [TimerManager.refresh, if_neg hi]
    exact h

/-- `reset` takes the timer out, changes it and adds it again. -/
theorem Kept.reset_eq (h : Kept P base held s []) (hi : (s.heap i).cb.isSome = true) {ms : UInt64}
    {fromNow : Bool} (hne : ¬ ((s.heap i).ms = ms ∧ fromNow = false)) (now : UInt64) :
    s.reset i ms fromNow now =
      (true, ((s.eraseTimer i).setTimer i { s.heap i with
        ms := ms
        next := ms + if fromNow then now else (s.heap i).next - (s.heap i).ms
        }).addTimerLocked i) := by
  unfold TimerManager.reset
  rw [if_neg hne, if_pos hi, h.find hi]
  rfl

theorem Kept.reset (h : Kept P base held s []) (i : Nat) (ms : UInt64) (fromNow : Bool)
    (now : UInt64)
    (hP : (s.heap i).cb.isSome = true → ¬ ((s.heap i).ms = ms ∧ fromNow = false) →
      P { s.heap i with
        ms := ms, next := ms + if fromNow then now else (s.heap i).next - (s.heap i).ms }) :
    Kept P base held (s.reset i ms fromNow now).2.2 [] := by
  by_cases hne : (s.heap i).ms = ms ∧ fromNow = false
  · rw [TimerManager.reset, if_pos hne]
    exact h
  by_cases hi : (s.heap i).cb.isSome = true
  · rw [h.reset_eq hi hne]
    exact ((h.erase (h.mem_timers hi)).setTimer (hP hi hne) rfl rfl).addTimerLocked
  · rw [TimerManager.reset, if_neg hne, if_neg hi]
    exact h

/-- `listExpiredCb` collects the timers at the front of the set. -/
theorem expired_append (s : TimerManager) (now : UInt64) (probe : Nat) (rollover : Bool) :
    (s.expired now probe rollover).1 ++ (s.expired now probe rollover).2 = s.timers := by
  unfold expired
  split
  · exact List.append_nil _
  · dsimp only
    rw [List.append_assoc, List.takeWhile_append_dropWhile, List.takeWhile_append_dropWhile]

theorem heap_rearm (s : TimerManager) (now : UInt64) {i j : Nat} (hj : j ≠ i) :
    (s.rearm now i).heap j = s.heap j := by
  unfold rearm
  split <;> exact Function.update_of_ne hj ..

theorem Kept.rearm (h : Kept P base held s (i :: todo)) (now : UInt64)
    (hP : (s.heap i).recurring = true → P { s.heap i with next := now + (s.heap i).ms }) :
    Kept P base held (s.rearm now i) todo ∧
      ((s.heap i).recurring = false → (s.rearm now i).Dead todo i) := by
  unfold TimerManager.rearm
  by_cases hi : (s.heap i).recurring = true
  · rw [if_pos hi]
    refine ⟨(h.setTimer (hP hi) rfl rfl).insert, fun hi' => ?_⟩
    rw [hi] at hi'
    cases hi'
  · rw [if_neg hi]
    exact ⟨h.retire.1, fun _ => h.retire.2⟩

/-- The loop of `listExpiredCb`: the timers in hand that are not recurring die. -/
theorem Kept.rearmAll (h : Kept P base held s todo) (now : UInt64)
    (hP : ∀ i ∈ todo, (s.heap i).recurring = true →
      P { s.heap i with next := now + (s.heap i).ms }) :
    Kept P base held (todo.foldl (TimerManager.rearm now) s) [] ∧
      ∀ i ∈ todo, (s.heap i).recurring = false →
        (todo.foldl (TimerManager.rearm now) s).Dead [] i := by
  induction todo generalizing s base held with
  | nil => exact ⟨h, nofun⟩
  | cons i todo ih =>
      obtain ⟨hi, -⟩ := List.nodup_cons.1 h.nodup
      obtain ⟨hrearm, hdead⟩ := h.rearm now (hP i List.mem_cons_self)
      have hheap : ∀ j ∈ todo, (s.rearm now i).heap j = s.heap j := fun j hj =>
        heap_rearm s now fun he => hi (he ▸ hj)
      have hP' : ∀ j ∈ todo, ((s.rearm now i).heap j).recurring = true →
          P { (s.rearm now i).heap j with next := now + ((s.rearm now i).heap j).ms } := by
        intro j hj
        rw [hheap j hj]
        exact hP j (List.mem_cons_of_mem i hj)
      obtain ⟨hkept, hdead'⟩ := ih hrearm hP'
      refine ⟨hkept, fun j hj hone => ?_⟩
      obtain rfl | hj := List.mem_cons.1 hj
      · exact (ih hrearm.rebase hP').1.dead j (hdead hone)
      · exact hdead' j hj (by rwa [hheap j hj])

/-- The timers that `listExpiredCb` collects are taken in hand. -/
theorem Kept.expired (h : Kept P base held s []) (now : UInt64) (probe : Nat) (rollover : Bool) :
    Kept P base held { s with timers := (s.expired now probe rollover).2 }
      (s.expired now probe rollover).1 := by
  have happend := s.expired_append now probe rollover
  generalize hd : (s.expired now probe rollover).1 = due at happend
  generalize hr : (s.expired now probe rollover).2 = rest at happend
  have htracks : ∀ j, { s with timers := rest }.Tracks due j ↔ s.Tracks [] j := by
    intro j
    rw [tracks_nil, ← happend, List.mem_append]
    exact or_comm
  have hnodup := h.sorted.nodup
  rw [← happend, List.nodup_append] at hnodup
  obtain ⟨hdue, -, hdisjoint⟩ := hnodup
  refine ⟨h.sorted.sublist (happend ▸ List.sublist_append_right due rest), fun j hj hj' => ?_,
    hdue, fun j k hj hk => ?_, fun j hj => (htracks j).2 (h.mem j hj),
    fun j hj => h.lt j ((htracks j).1 hj), fun j hj => h.all j ((htracks j).1 hj), h.count, h.kind,
    fun j hj => ?_⟩
  · exact hdisjoint j hj j hj' rfl
  · exact h.inj j k ((htracks j).1 hj) ((htracks k).1 hk)
  · obtain ⟨hlt, hgone, hcb⟩ := h.dead j hj
    exact ⟨hlt, fun hj' => hgone ((htracks j).1 hj'), hcb⟩

/-- `listExpiredCb` collects timers of the set, each of them once; one that is not recurring is
dead afterwards. -/
theorem Kept.listExpiredCb (h : Kept P base held s []) (now : UInt64) (probe : Nat)
    (hP : ∀ i ∈ s.timers, (s.heap i).recurring = true →
      P { s.heap i with next := now + (s.heap i).ms }) :
    Kept P base held (s.listExpiredCb now probe).2.2 [] ∧
      (s.listExpiredCb now probe).1.Nodup ∧
      ∀ i ∈ (s.listExpiredCb now probe).1, i ∈ s.timers ∧
        ((s.heap i).recurring = false → (s.listExpiredCb now probe).2.2.Dead [] i) := by
  unfold TimerManager.listExpiredCb
  split
  · exact ⟨h, List.nodup_nil, nofun⟩
  · next i _ _ =>
      dsimp only
      have h₁ : Kept P base held (s.detectClockRollover now).2 [] := h.of_eq rfl rfl rfl
      generalize hroll : (s.detectClockRollover now).1 = rollover
      split
      · exact ⟨h₁, List.nodup_nil, nofun⟩
      · have hexpired := h₁.expired now probe rollover
        have hmem : ∀ j ∈ ((s.detectClockRollover now).2.expired now probe rollover).1,
            j ∈ s.timers := by
          intro j hj
          have happend := (s.detectClockRollover now).2.expired_append now probe rollover
          rw [show (s.detectClockRollover now).2.timers = s.timers from rfl] at happend
          rw [← happend]
          exact List.mem_append_left _ hj
        obtain ⟨hkept, hdead⟩ := hexpired.rearmAll now fun j hj => hP j (hmem j hj)
        exact ⟨hkept, hexpired.nodup, fun j hj => ⟨hmem j hj, hdead j hj⟩⟩

end TimerManager

/-! ### Runs -/

/-- The operations, with the clock they read. The timer that `addTimer` creates gets an address. -/
inductive TimerOp where
  | addTimer (ms : UInt64) (cb : Option Nat) (recurring : Bool) (now : UInt64) (address : Nat)
  | addConditionTimer (ms : UInt64) (cb : Option Nat) (cond : Nat) (recurring : Bool)
      (now : UInt64) (address : Nat)
  | cancel (i : Nat)
  | refresh (i : Nat) (now : UInt64)
  | reset (i : Nat) (ms : UInt64) (fromNow : Bool) (now : UInt64)
  | getNextTimer (now : UInt64)
  | listExpiredCb (now : UInt64) (probe : Nat)
  deriving DecidableEq, Repr

/-- A run so far: the timers, the last reading of the clock, the timers collected, the earliest
deadline that the last `getNextTimer` saw, and whether `onTimerInsertedAtFront` was called since. -/
structure Timeline where
  tm : TimerManager
  clock : UInt64
  collected : List Nat
  deadline : WithTop ℕ
  announced : Bool

/-- The deadline of the first timer. -/
def TimerManager.earliest (s : TimerManager) : WithTop ℕ :=
  match s.timers with
  | [] => ⊤
  | i :: _ => ((s.heap i).next.toNat : WithTop ℕ)

namespace Timeline

def init (now : UInt64) : Timeline :=
  { tm := .init now, clock := now, collected := [], deadline := ⊤, announced := false }

/-- `none` if the operation erases `end()`. -/
def run (m : Timeline) : TimerOp → Option Timeline
  | .addTimer ms cb recurring now address =>
      let (atFront, tm) := m.tm.addTimer ms (cb.map .fn) recurring now address
      some { m with tm := tm, clock := now, announced := m.announced || atFront }
  | .addConditionTimer ms cb cond recurring now address =>
      let (atFront, tm) := m.tm.addConditionTimer ms cb cond recurring now address
      some { m with tm := tm, clock := now, announced := m.announced || atFront }
  | .cancel i => (m.tm.cancel i).map fun r => { m with tm := r.2 }
  | .refresh i now => some { m with tm := (m.tm.refresh i now).2, clock := now }
  | .reset i ms fromNow now =>
      let (_, atFront, tm) := m.tm.reset i ms fromNow now
      some { m with tm := tm, clock := now, announced := m.announced || atFront }
  | .getNextTimer now =>
      some { m with
        tm := (m.tm.getNextTimer now).2
        clock := now
        deadline := m.tm.earliest
        announced := false }
  | .listExpiredCb now probe =>
      let (due, _, tm) := m.tm.listExpiredCb now probe
      some { m with tm := tm, clock := now, collected := m.collected ++ due }

/-- A new timer is not at the address of one in the set. -/
def Admissible (m : Timeline) : TimerOp → Prop
  | .addTimer _ _ _ _ address | .addConditionTimer _ _ _ _ _ address =>
      ∀ j ∈ m.tm.timers, (m.tm.heap j).address ≠ address
  | _ => True

instance (m : Timeline) : DecidablePred m.Admissible
  | .addTimer _ _ _ _ address | .addConditionTimer _ _ _ _ _ address =>
      inferInstanceAs (Decidable (∀ j ∈ m.tm.timers, (m.tm.heap j).address ≠ address))
  | .cancel _ | .refresh .. | .reset .. | .getNextTimer _ | .listExpiredCb .. => .isTrue trivial

def Step (m : Timeline) (op : TimerOp) (m' : Timeline) : Prop :=
  m.Admissible op ∧ m.run op = some m'

/-- The operation puts the timer into the set. -/
def Writes (m : Timeline) (t : Timer) : TimerOp → Prop
  | .addTimer ms cb recurring now address =>
      t = ⟨recurring, ms, now + ms, cb.map .fn, address⟩
  | .addConditionTimer ms cb cond recurring now address =>
      t = ⟨recurring, ms, now + ms, some (.onTimer cond cb), address⟩
  | .refresh i now =>
      (m.tm.heap i).cb.isSome = true ∧
        t = { m.tm.heap i with next := now + (m.tm.heap i).ms }
  | .reset i ms fromNow now =>
      (m.tm.heap i).cb.isSome = true ∧ ¬ ((m.tm.heap i).ms = ms ∧ fromNow = false) ∧
        t = { m.tm.heap i with
          ms := ms
          next := ms + if fromNow then now else (m.tm.heap i).next - (m.tm.heap i).ms }
  | .listExpiredCb now _ =>
      ∃ i ∈ m.tm.timers, (m.tm.heap i).recurring = true ∧
        t = { m.tm.heap i with next := now + (m.tm.heap i).ms }
  | .cancel _ | .getNextTimer _ => False

/-- The timers that the operation adds to those collected. -/
structure Collects (m m' : Timeline) (due : List Nat) : Prop where
  eq : m'.collected = m.collected ++ due
  nodup : due.Nodup
  mem : ∀ i ∈ due, i ∈ m.tm.timers
  dead : ∀ i ∈ due, (m.tm.heap i).recurring = false → m'.tm.Dead [] i

theorem Collects.nothing {m m' : Timeline} (h : m'.collected = m.collected) : Collects m m' [] :=
  ⟨by rw [h, List.append_nil], List.nodup_nil, nofun, nofun⟩

variable {P : Timer → Prop} {m m' : Timeline} {op : TimerOp} {base : TimerManager}
  {held : List Nat}

/-- Every operation keeps the invariant for a property of the timers it writes. -/
theorem Step.kept (hs : Step m op m') (h : TimerManager.Kept P base held m.tm [])
    (hP : ∀ t, m.Writes t op → P t) :
    TimerManager.Kept P base held m'.tm [] ∧ ∃ due, Collects m m' due := by
  obtain ⟨hadm, hrun⟩ := hs
  cases op with
  | addTimer ms cb recurring now address =>
      cases hrun
      exact ⟨h.addTimer (hP _ rfl) hadm, [], .nothing rfl⟩
  | addConditionTimer ms cb cond recurring now address =>
      cases hrun
      exact ⟨h.addTimer (hP _ rfl) hadm, [], .nothing rfl⟩
  | cancel i =>
      obtain ⟨r, tm, hcancel, hkept, -⟩ := h.cancel i
      rw [run, hcancel] at hrun
      cases hrun
      exact ⟨hkept, [], .nothing rfl⟩
  | refresh i now =>
      cases hrun
      exact ⟨h.refresh i now fun hi => hP _ ⟨hi, rfl⟩, [], .nothing rfl⟩
  | reset i ms fromNow now =>
      cases hrun
      exact ⟨h.reset i ms fromNow now fun hi hne => hP _ ⟨hi, hne, rfl⟩, [], .nothing rfl⟩
  | getNextTimer now =>
      cases hrun
      refine ⟨h.of_eq ?_ ?_ ?_, [], .nothing rfl⟩ <;>
        · dsimp only [TimerManager.getNextTimer]
          split
          · rfl
          · split <;> rfl
  | listExpiredCb now probe =>
      cases hrun
      obtain ⟨hkept, hnodup, hdue⟩ :=
        h.listExpiredCb now probe fun i hi hrec => hP _ ⟨i, hi, hrec, rfl⟩
      exact ⟨hkept, _, rfl, hnodup, fun i hi => (hdue i hi).1, fun i hi => (hdue i hi).2⟩

/-- A callback that is added is not empty. -/
def NonEmpty : TimerOp → Prop
  | .addTimer _ cb _ _ _ => cb.isSome = true
  | _ => True

def FilledStep (m : Timeline) (op : TimerOp) (m' : Timeline) : Prop :=
  NonEmpty op ∧ Step m op m'

/-- Every timer in the set has a callback, and a timer that is not recurring is collected once
and dead from then on. -/
structure Inv (m : Timeline) : Prop where
  kept : TimerManager.Kept (fun t => t.cb.isSome = true) m.tm [] m.tm []
  once : ∀ i, (m.tm.heap i).recurring = false → m.collected.count i ≤ 1
  lt : ∀ i ∈ m.collected, i < m.tm.count
  spent : ∀ i ∈ m.collected, (m.tm.heap i).recurring = false → m.tm.Dead [] i

theorem init_inv (now : UInt64) : (init now).Inv := by
  refine ⟨⟨List.Pairwise.nil, nofun, List.nodup_nil, ?_, ?_, ?_, ?_, le_rfl, fun _ _ => rfl,
    fun _ h => h⟩, fun _ _ => Nat.zero_le _, nofun, nofun⟩
  · rintro i j (hi | hi) <;> cases hi
  · rintro i hi
    cases hi
  · rintro i (hi | hi) <;> cases hi
  · rintro i (hi | hi) <;> cases hi

/-- The callbacks that an operation writes are not empty. -/
theorem Inv.writes (hm : m.Inv) (hne : NonEmpty op) {t : Timer} (ht : m.Writes t op) :
    t.cb.isSome = true := by
  cases op with
  | addTimer ms cb recurring now address =>
      cases ht
      rw [Option.isSome_map]
      exact hne
  | addConditionTimer ms cb cond recurring now address =>
      cases ht
      rfl
  | cancel i => cases ht
  | refresh i now =>
      obtain ⟨hi, rfl⟩ := ht
      exact hi
  | reset i ms fromNow now =>
      obtain ⟨hi, -, rfl⟩ := ht
      exact hi
  | getNextTimer now => cases ht
  | listExpiredCb now probe =>
      obtain ⟨i, hi, -, rfl⟩ := ht
      exact hm.kept.all i (.inl hi)

/-- Along a step a dead timer stays dead and is not collected. -/
def Buries (m m' : Timeline) : Prop :=
  ∀ i, m.tm.Dead [] i → m'.tm.Dead [] i ∧ m'.collected.count i = m.collected.count i

theorem FilledStep.inv (hm : m.Inv) (hs : FilledStep m op m') : m'.Inv ∧ m.Buries m' := by
  obtain ⟨hne, hs⟩ := hs
  obtain ⟨hkept, due, hdue⟩ := hs.kept hm.kept fun t => hm.writes hne
  have hnot : ∀ i, m.tm.Dead [] i → i ∉ due := fun i hi hi' => hi.gone (.inl (hdue.mem i hi'))
  refine ⟨⟨hkept.rebase, fun i hone => ?_, fun i hi => ?_, fun i hi hone => ?_⟩, fun i hi => ?_⟩
  · rw [hdue.eq, List.count_append]
    by_cases hi : i ∈ due
    · -- it was in the set, so it was not collected before
      have hlt : i < m.tm.count := hm.kept.lt i (.inl (hdue.mem i hi))
      rw [hkept.kind i hlt] at hone
      have hnew : i ∉ m.collected := fun hi' =>
        (hm.spent i hi' hone).gone (.inl (hdue.mem i hi))
      rw [List.count_eq_zero_of_not_mem hnew, Nat.zero_add]
      exact List.nodup_iff_count_le_one.1 hdue.nodup i
    · rw [List.count_eq_zero_of_not_mem hi, Nat.add_zero]
      by_cases hi' : i ∈ m.collected
      · rw [hkept.kind i (hm.lt i hi')] at hone
        exact hm.once i hone
      · rw [List.count_eq_zero_of_not_mem hi']
        exact Nat.zero_le 1
  · rw [hdue.eq] at hi
    obtain hi | hi := List.mem_append.1 hi
    · exact (hm.lt i hi).trans_le hkept.count
    · exact (hm.kept.lt i (.inl (hdue.mem i hi))).trans_le hkept.count
  · rw [hdue.eq] at hi
    obtain hi | hi := List.mem_append.1 hi
    · rw [hkept.kind i (hm.lt i hi)] at hone
      exact hkept.dead i (hm.spent i hi hone)
    · rw [hkept.kind i (hm.kept.lt i (.inl (hdue.mem i hi)))] at hone
      exact hdue.dead i hi hone
  · refine ⟨hkept.dead i hi, ?_⟩
    rw [hdue.eq, List.count_append, List.count_eq_zero_of_not_mem (hnot i hi), Nat.add_zero]

theorem inv_of_run {ops : List TimerOp} (h : Transition.Run FilledStep m ops m') (hm : m.Inv) :
    m'.Inv := h.invariant (fun _ _ _ hm hs => (hs.inv hm).1) hm

theorem Buries.trans {m'' : Timeline} (h : m.Buries m') (h' : m'.Buries m'') : m.Buries m'' := by
  intro i hi
  obtain ⟨hi', hcount⟩ := h i hi
  obtain ⟨hi'', hcount'⟩ := h' i hi'
  exact ⟨hi'', hcount'.trans hcount⟩

theorem buries_of_run {ops : List TimerOp} (h : Transition.Run FilledStep m ops m')
    (hm : m.Inv) : m.Buries m' :=
  h.relates (R := Buries) (fun _ _ hi => ⟨hi, rfl⟩) (fun _ _ _ => Buries.trans)
    (fun _ _ _ hm hs => hs.inv hm) hm

end Timeline

/-- In every run the set is strictly sorted by deadline and address, a timer is in it exactly
while it has a callback, `cancel` finds its timer, the callback of a timer that is not recurring
is collected once at most, and never after a `cancel` that returned true. -/
theorem timers_deliver_once (now : UInt64) (ops : List TimerOp) (m : Timeline)
    (h : Transition.Run Timeline.FilledStep (.init now) ops m) :
    m.tm.timers.Pairwise (fun i j => m.tm.key i < m.tm.key j) ∧
      (∀ i, i ∈ m.tm.timers ↔ (m.tm.heap i).cb.isSome = true) ∧
      (∀ i, (m.tm.cancel i).isSome = true) ∧
      (∀ i, (m.tm.heap i).recurring = false → m.collected.count i ≤ 1) ∧
      ∀ i tm, m.tm.cancel i = some (true, tm) → ∀ ops' m',
        Transition.Run Timeline.FilledStep { m with tm := tm } ops' m' →
          m'.collected.count i = m.collected.count i := by
  have hm := Timeline.inv_of_run h (Timeline.init_inv now)
  refine ⟨hm.kept.sorted, fun i => ⟨fun hi => hm.kept.all i (.inl hi), hm.kept.mem_timers⟩,
    fun i => ?_, hm.once, fun i tm hcancel ops' m' hrun => ?_⟩
  · obtain ⟨r, tm, hcancel, -⟩ := hm.kept.cancel i
    rw [hcancel]
    rfl
  · have hstep : Timeline.FilledStep m (.cancel i) { m with tm := tm } := by
      refine ⟨trivial, trivial, ?_⟩
      rw [Timeline.run, hcancel]
      rfl
    obtain ⟨_, _, hcancel', -, hdead⟩ := hm.kept.cancel i
    rw [hcancel] at hcancel'
    cases hcancel'
    exact (Timeline.buries_of_run hrun (hstep.inv hm).1 i (hdead rfl)).2

/-- A recurring timer is collected three times, a timer that was cancelled not at all, though
deadlines wrap and the clock goes back. -/
theorem timers_deliver_once_wrapped :
    ∃ m : Timeline,
      Transition.Run Timeline.FilledStep (.init 100)
        [.addTimer 10 (some 1) true 100 7, .addTimer 5 (some 2) false 100 4,
          .addConditionTimer (-50) none 3 false 100 9, .cancel 1, .listExpiredCb 110 0,
          .listExpiredCb 20 0, .refresh 0 (-5), .listExpiredCb 6 0] m ∧
      m.collected = [2, 0, 0, 0] ∧ m.collected.count 1 ≤ 1 := by
  obtain ⟨m, h, hcollected, hone⟩ : ∃ m : Timeline,
      Transition.Run Timeline.FilledStep (.init 100)
        [.addTimer 10 (some 1) true 100 7, .addTimer 5 (some 2) false 100 4,
          .addConditionTimer (-50) none 3 false 100 9, .cancel 1, .listExpiredCb 110 0,
          .listExpiredCb 20 0, .refresh 0 (-5), .listExpiredCb 6 0] m ∧
      m.collected = [2, 0, 0, 0] ∧ (m.tm.heap 1).recurring = false :=
    ⟨_, .cons ⟨rfl, (by decide +kernel), rfl⟩ (.cons ⟨rfl, (by decide +kernel), rfl⟩
      (.cons ⟨trivial, (by decide +kernel), rfl⟩ (.cons ⟨trivial, trivial, rfl⟩
      (.cons ⟨trivial, trivial, rfl⟩ (.cons ⟨trivial, trivial, rfl⟩
      (.cons ⟨trivial, trivial, rfl⟩ (.cons ⟨trivial, trivial, rfl⟩ (.nil _)))))))), rfl, rfl⟩
  exact ⟨m, h, hcollected, (timers_deliver_once _ _ m h).2.2.2.1 1 hone⟩

end Sylar.Io
