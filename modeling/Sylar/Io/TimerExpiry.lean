import Sylar.Io.TimerDeadlines
import Mathlib.Algebra.GroupWithZero.Nat

/-!
# What `listExpiredCb` delivers

The place at which `listExpiredCb` cuts the set is found with a probe whose
address takes part in the order, and then moved over the timers with the same
deadline. In a sorted set the timers in front of the cut are those that are due,
whatever the address of the probe is. The loop then takes them one after the
other and may put them back into the set, but never collects one of them again.

A clock that was set back counts as a rollover if the reading is more than an
hour before the last one. The hour is subtracted from that reading, and the
difference wraps in the first hour of the clock.
-/

namespace Sylar.Io

open Sylar.Lib

namespace TimerManager

variable {P : Timer → Prop} {base s : TimerManager} {held todo : List Nat} {now : UInt64}
  {probe : Nat} {i : Nat}

/-- The timer is due, in a rollover as every other. -/
def Due (s : TimerManager) (now : UInt64) (rollover : Bool) (i : Nat) : Prop :=
  rollover = true ∨ (s.heap i).next ≤ now

/-- What became of a timer that was collected. -/
def Rearmed (s : TimerManager) (now : UInt64) (s' : TimerManager) (i : Nat) : Prop :=
  if (s.heap i).recurring then
    i ∈ s'.timers ∧ s'.heap i = { s.heap i with next := now + (s.heap i).ms }
  else
    i ∉ s'.timers ∧ s'.heap i = { s.heap i with cb := none }

/-- The result of `listExpiredCb` is the callbacks of exactly the timers that are due, and the
set with these timers rearmed. -/
structure Delivers (s : TimerManager) (now : UInt64) (rollover : Bool)
    (r : List Nat × List (Option TimerCb) × TimerManager) : Prop where
  callbacks : r.2.1 = r.1.map fun i => (s.heap i).cb
  ascending : OrderedSet.Sorted s.key r.1
  mem : ∀ i, i ∈ r.1 ↔ i ∈ s.timers ∧ s.Due now rollover i
  rearmed : ∀ i ∈ r.1, s.Rearmed now r.2.2 i
  others : ∀ i ∉ r.1, r.2.2.heap i = s.heap i ∧ (i ∈ r.2.2.timers ↔ i ∈ s.timers)

/-! ### The cut -/

theorem next_le_of_mem_expired (hi : i ∈ (s.expired now probe false).1) :
    (s.heap i).next ≤ now := by
  simp only [expired, Bool.false_eq_true, if_false, List.mem_append] at hi
  rw [UInt64.le_iff_toNat_le]
  obtain hless | hdue := hi
  · have hless := List.mem_takeWhile_imp hless
    exact Timer.next_le_of_key_lt ((Timer.comparator_iff _ _).1 hless)
  · have hdue := List.mem_takeWhile_imp hdue
    rw [beq_iff_eq] at hdue
    rw [hdue]

/-- The probe cuts the set in front of its address, the scan goes on behind the last timer that
is due now. -/
theorem lt_next_of_mem_rest (hs : OrderedSet.Sorted s.key s.timers)
    (hi : i ∈ (s.expired now probe false).2) : now < (s.heap i).next := by
  simp only [expired, Bool.false_eq_true, if_false] at hi
  generalize hl : s.timers.dropWhile (fun i => (s.heap i).comparator (.probe now probe)) = behind
    at hi
  have hge : ∀ j ∈ behind, now.toNat ≤ (s.heap j).next.toNat := by
    intro j hj
    subst hl
    have hless := OrderedSet.not_of_mem_dropWhile hs
      (fun a _ b _ hab hb =>
        (Timer.comparator_iff _ _).2 (hab.trans ((Timer.comparator_iff _ _).1 hb))) hj
    rw [Timer.comparator_iff, not_lt] at hless
    obtain heq | hlt := hless.eq_or_lt
    · exact le_of_eq (congrArg (fun k => (ofLex k).1) heq)
    · exact Timer.next_le_of_key_lt hlt
  have hbehind : OrderedSet.Sorted s.key behind := hl ▸ hs.sublist (List.dropWhile_sublist _)
  have hne : ¬ ((s.heap i).next == now) = true := by
    apply OrderedSet.not_of_mem_dropWhile hbehind _ hi
    -- A timer in front of one that is due now is behind the probe as well.
    intro a ha b _ hab hb
    rw [beq_iff_eq] at hb ⊢
    have hle := Timer.next_le_of_key_lt hab
    rw [hb] at hle
    exact UInt64.toNat_inj.1 (le_antisymm hle (hge a ha))
  have hle := hge i ((List.dropWhile_sublist _).subset hi)
  rw [UInt64.lt_iff_toNat_lt]
  refine lt_of_le_of_ne hle fun heq => hne ?_
  rw [beq_iff_eq]
  exact (UInt64.toNat_inj.1 heq).symm

/-- The timers in front of the cut are those that are due. -/
theorem mem_expired (hs : OrderedSet.Sorted s.key s.timers) (rollover : Bool) :
    i ∈ (s.expired now probe rollover).1 ↔ i ∈ s.timers ∧ s.Due now rollover i := by
  have happend := s.expired_append now probe rollover
  constructor
  · intro hi
    refine ⟨happend ▸ List.mem_append_left _ hi, ?_⟩
    cases rollover with
    | false => exact .inr (next_le_of_mem_expired hi)
    | true => exact .inl rfl
  · rintro ⟨hi, hdue⟩
    cases rollover with
    | false =>
        rw [← happend] at hi
        refine (List.mem_append.1 hi).resolve_right fun hrest => ?_
        have hlt := lt_next_of_mem_rest hs hrest
        have hle := hdue.resolve_left Bool.false_ne_true
        exact UInt64.lt_irrefl _ (UInt64.lt_of_lt_of_le hlt hle)
    | true => exact hi

/-! ### The loop -/

theorem heap_rearm_self (s : TimerManager) (now : UInt64) (i : Nat) :
    (s.rearm now i).heap i = if (s.heap i).recurring then
      { s.heap i with next := now + (s.heap i).ms } else { s.heap i with cb := none } := by
  unfold rearm
  split
  · exact Function.update_self ..
  · exact Function.update_self ..

/-- A recurring timer comes back into the set, another one does not. -/
theorem Kept.mem_rearm (h : Kept P base held s (i :: todo))
    (hP : (s.heap i).recurring = true → P { s.heap i with next := now + (s.heap i).ms }) (j : Nat) :
    j ∈ (s.rearm now i).timers ↔ (j = i ∧ (s.heap i).recurring = true) ∨ j ∈ s.timers := by
  unfold TimerManager.rearm
  by_cases hi : (s.heap i).recurring = true
  · rw [if_pos hi, (h.setTimer (hP hi) rfl rfl).mem_insertTimer]
    simp only [hi, and_true]
    rfl
  · rw [if_neg hi]
    exact ⟨.inr, fun hj => hj.resolve_left fun hrec => hi hrec.2⟩

/-- The loop rearms every timer in hand, and no other. -/
theorem Kept.rearmAll_spec (h : Kept P base held s todo) (now : UInt64)
    (hP : ∀ i ∈ todo, (s.heap i).recurring = true →
      P { s.heap i with next := now + (s.heap i).ms }) :
    (∀ i ∈ todo, s.Rearmed now (todo.foldl (TimerManager.rearm now) s) i) ∧
      ∀ i ∉ todo, (todo.foldl (TimerManager.rearm now) s).heap i = s.heap i ∧
        (i ∈ (todo.foldl (TimerManager.rearm now) s).timers ↔ i ∈ s.timers) := by
  induction todo generalizing s base held with
  | nil => exact ⟨by simp, by simp⟩
  | cons i todo ih =>
      obtain ⟨hi, -⟩ := List.nodup_cons.1 h.nodup
      have hset := h.mem_rearm (hP i List.mem_cons_self)
      have hheap : ∀ j, j ≠ i → (s.rearm now i).heap j = s.heap j := fun j hj =>
        heap_rearm s now hj
      have hne : ∀ j ∈ todo, j ≠ i := fun j hj he => hi (he ▸ hj)
      obtain ⟨hrearmed, hothers⟩ := ih (h.rearm now (hP i List.mem_cons_self)).1 (by
        intro j hj
        rw [hheap j (hne j hj)]
        exact hP j (List.mem_cons_of_mem i hj))
      rw [List.foldl_cons]
      constructor
      · intro j hj
        obtain rfl | hj := List.mem_cons.1 hj
        · -- The rest of the loop does not touch the timer again.
          obtain ⟨hsame, hmem⟩ := hothers j hi
          have hout : j ∉ s.timers := h.apart j List.mem_cons_self
          unfold Rearmed
          rw [hmem, hset, hsame, heap_rearm_self]
          by_cases hj : (s.heap j).recurring = true
          · simp [hj]
          · simp [hj, hout]
        · have hrearmed := hrearmed j hj
          unfold Rearmed at hrearmed ⊢
          rwa [hheap j (hne j hj)] at hrearmed
      · intro j hj
        obtain ⟨hji, hj⟩ := not_or.1 (mt List.mem_cons.2 hj)
        obtain ⟨hsame, hmem⟩ := hothers j hj
        rw [hsame, hmem, hset, hheap j hji]
        simp [hji]

/-! ### The whole function -/

/-- Before the first deadline nothing is due. -/
theorem not_due_of_lt (hs : OrderedSet.Sorted s.key (i :: todo)) (hlt : now < (s.heap i).next)
    {j : Nat} (hj : j ∈ i :: todo) : ¬ (s.heap j).next ≤ now := by
  rw [UInt64.lt_iff_toNat_lt] at hlt
  rw [UInt64.le_iff_toNat_le, not_le]
  obtain rfl | hj := List.mem_cons.1 hj
  · exact hlt
  · exact hlt.trans_le (Timer.next_le_of_key_lt ((List.pairwise_cons.1 hs).1 j hj))

/-- `listExpiredCb` delivers the timers that are due, all of them if it detects a rollover. -/
theorem Kept.delivers (h : Kept (fun _ => True) base held s []) (now : UInt64) (probe : Nat) :
    s.Delivers now (s.detectClockRollover now).1 (s.listExpiredCb now probe) := by
  unfold TimerManager.listExpiredCb
  split
  · next hnil => exact ⟨rfl, List.Pairwise.nil, by simp [hnil], by simp, by simp⟩
  · next i rest hcons =>
      dsimp only
      have h₁ : Kept (fun _ => True) base held (s.detectClockRollover now).2 [] :=
        h.of_eq rfl rfl rfl
      generalize (s.detectClockRollover now).1 = rollover
      split
      · next hcond =>
          rw [Bool.and_eq_true, Bool.not_eq_true', decide_eq_true_iff] at hcond
          obtain ⟨rfl, hlt⟩ := hcond
          have hs : OrderedSet.Sorted s.key (i :: rest) := hcons ▸ h.sorted
          refine ⟨rfl, List.Pairwise.nil, fun j => ?_, by simp, fun _ _ => ⟨rfl, Iff.rfl⟩⟩
          refine ⟨by rintro ⟨⟩, fun ⟨hj, hdue⟩ => ?_⟩
          have hle := hdue.resolve_left Bool.false_ne_true
          exact absurd hle (not_due_of_lt hs hlt (hcons ▸ hj))
      · have hmem : ∀ j, j ∈ ((s.detectClockRollover now).2.expired now probe rollover).1 ↔
            j ∈ s.timers ∧ s.Due now rollover j := fun _ => mem_expired h₁.sorted rollover
        have hexpired := h₁.expired now probe rollover
        have happend := (s.detectClockRollover now).2.expired_append now probe rollover
        obtain ⟨hrearmed, hothers⟩ := hexpired.rearmAll_spec now fun _ _ _ => trivial
        refine ⟨rfl, ?_, hmem, hrearmed, fun j hj => ?_⟩
        · exact h.sorted.sublist (happend ▸ List.sublist_append_left _ _)
        · obtain ⟨hsame, hset⟩ := hothers j hj
          refine ⟨hsame, hset.trans ?_⟩
          change _ ↔ j ∈ (s.detectClockRollover now).2.timers
          rw [← happend, List.mem_append]
          exact ⟨.inr, fun h => h.resolve_left hj⟩

/-! ### The rollover -/

/-- The reading is more than an hour before the last one. -/
def RolledOver (s : TimerManager) (now : UInt64) : Prop :=
  now.toNat + 60 * 60 * 1000 < s.previouseTime.toNat

instance (s : TimerManager) (now : UInt64) : Decidable (s.RolledOver now) :=
  inferInstanceAs (Decidable (_ < _))

/-- In the first hour of the clock every step back counts as a rollover. -/
theorem detectClockRollover_iff (s : TimerManager) (now : UInt64) :
    (s.detectClockRollover now).1 = true ↔
      s.RolledOver now ∨ now < s.previouseTime ∧ s.previouseTime < 60 * 60 * 1000 := by
  have hhour : (60 * 60 * 1000 : UInt64).toNat = 3600000 := by decide
  have hnow := now.toNat_lt
  have hprev := s.previouseTime.toNat_lt
  unfold detectClockRollover RolledOver
  simp only [Bool.and_eq_true, decide_eq_true_iff, UInt64.lt_iff_toNat_lt, UInt64.toNat_sub, hhour]
  omega

/-- The invariant between two operations. -/
def Valid (s : TimerManager) : Prop := Kept (fun _ => True) s [] s []

/-- The timers that are due are delivered, and all of them if the reading is more than an hour
before the last one, exactly if the clock did not step back in its first hour, or every timer is
due anyway. -/
theorem listExpiredCb_exact_iff (h : s.Valid) (now : UInt64) (probe : Nat) :
    s.Delivers now (decide (s.RolledOver now)) (s.listExpiredCb now probe) ↔
      (s.previouseTime ≤ now ∨ 60 * 60 * 1000 ≤ s.previouseTime) ∨
        ∀ i ∈ s.timers, (s.heap i).next ≤ now := by
  have hdelivers := h.delivers now probe
  have hiff := s.detectClockRollover_iff now
  by_cases hfirst : now < s.previouseTime ∧ s.previouseTime < 60 * 60 * 1000
  · have hflag : (s.detectClockRollover now).1 = true := hiff.2 (.inr hfirst)
    have hnot : ¬ s.RolledOver now := by
      have hhour := UInt64.lt_iff_toNat_lt.1 hfirst.2
      unfold RolledOver
      rw [show (60 * 60 * 1000 : UInt64).toNat = 3600000 by decide] at hhour
      omega
    have hcases : ¬ (s.previouseTime ≤ now ∨ 60 * 60 * 1000 ≤ s.previouseTime) := by
      rw [not_or, UInt64.not_le, UInt64.not_le]
      exact hfirst
    rw [hflag] at hdelivers
    rw [decide_eq_false hnot, or_iff_right hcases]
    -- All timers were collected.
    constructor
    · intro hexact i hi
      have hcollected := (hdelivers.mem i).2 ⟨hi, .inl rfl⟩
      exact ((hexact.mem i).1 hcollected).2.resolve_left Bool.false_ne_true
    · intro hall
      refine { hdelivers with mem := fun i => (hdelivers.mem i).trans ?_ }
      exact ⟨fun hi => ⟨hi.1, .inr (hall i hi.1)⟩, fun hi => ⟨hi.1, .inl rfl⟩⟩
  · have hflag : (s.detectClockRollover now).1 = decide (s.RolledOver now) := by
      rw [Bool.eq_iff_iff, hiff, decide_eq_true_iff]
      exact or_iff_left hfirst
    have hcases : s.previouseTime ≤ now ∨ 60 * 60 * 1000 ≤ s.previouseTime := by
      rw [← UInt64.not_lt, ← UInt64.not_lt]
      exact not_and_or.1 hfirst
    rw [hflag] at hdelivers
    exact iff_of_true hdelivers (.inl hcases)

end TimerManager

/-- Every state of a run satisfies the invariant. -/
theorem Timeline.valid_of_run {m : Timeline} {ops : List TimerOp} {now : UInt64}
    (h : Transition.Run Step (.init now) ops m) : m.tm.Valid := by
  apply h.invariant (P := fun m => m.tm.Valid)
  · intro m op m' hm hs
    exact (hs.kept hm fun _ _ => trivial).1.rebase
  · exact (init_inv now).kept.imp fun _ _ _ => trivial

/-- Two timers are due at the same time, on both sides of the address of the probe, and one of
them comes back into the set. -/
theorem TimerManager.listExpiredCb_exact_iff_tie :
    ∃ m : Timeline,
      Transition.Run Timeline.Step (.init 100)
        [.addTimer 10 (some 1) true 100 7, .addTimer 10 (some 2) false 100 4,
          .addTimer 20 (some 3) false 100 1] m ∧
      m.tm.Delivers 110 (decide (m.tm.RolledOver 110)) (m.tm.listExpiredCb 110 5) ∧
      (m.tm.listExpiredCb 110 5).1 = [1, 0] := by
  obtain ⟨m, h, hprev, hcollected⟩ : ∃ m : Timeline,
      Transition.Run Timeline.Step (.init 100)
        [.addTimer 10 (some 1) true 100 7, .addTimer 10 (some 2) false 100 4,
          .addTimer 20 (some 3) false 100 1] m ∧
      m.tm.previouseTime = 100 ∧ (m.tm.listExpiredCb 110 5).1 = [1, 0] :=
    ⟨_, .cons ⟨by decide +kernel, rfl⟩ (.cons ⟨by decide +kernel, rfl⟩
      (.cons ⟨by decide +kernel, rfl⟩ (.nil _))), rfl, by decide +kernel⟩
  refine ⟨m, h, ?_, hcollected⟩
  apply (listExpiredCb_exact_iff (Timeline.valid_of_run h) 110 5).2
  rw [hprev]
  exact .inl (.inl (by decide))

/-- Four seconds too early: the clock stands at one second and is set back by a millisecond. -/
theorem TimerManager.first_hour_rolls_over :
    ∃ m : Timeline,
      Transition.Run Timeline.Step (.init 1000) [.addTimer 4000 (some 1) false 1000 7] m ∧
      (m.tm.heap 0).next = 5000 ∧ ¬ m.tm.RolledOver 999 ∧
      (m.tm.listExpiredCb 999 0).1 = [0] ∧
      ¬ m.tm.Delivers 999 (decide (m.tm.RolledOver 999)) (m.tm.listExpiredCb 999 0) := by
  obtain ⟨m, h, hnext, hnot, hcollected⟩ : ∃ m : Timeline,
      Transition.Run Timeline.Step (.init 1000) [.addTimer 4000 (some 1) false 1000 7] m ∧
      (m.tm.heap 0).next = 5000 ∧ ¬ m.tm.RolledOver 999 ∧
      (m.tm.listExpiredCb 999 0).1 = [0] :=
    ⟨_, .cons ⟨by decide +kernel, rfl⟩ (.nil _), rfl, by decide +kernel, by decide +kernel⟩
  refine ⟨m, h, hnext, hnot, hcollected, fun hexact => ?_⟩
  have hdue := ((hexact.mem 0).1 (hcollected ▸ List.mem_singleton_self 0)).2
  rw [decide_eq_false hnot] at hdue
  have hle := hdue.resolve_left Bool.false_ne_true
  rw [hnext] at hle
  exact absurd hle (by decide)

end Sylar.Io
