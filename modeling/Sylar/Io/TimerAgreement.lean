import Sylar.Io.TimerExpiry

/-!
# `getNextTimer` and `listExpiredCb` agree

`getNextTimer` looks at the first timer of the set only, `listExpiredCb` cuts the
set. Both draw the line at the same reading: the time that `getNextTimer` returns
is the time until the first reading at which `listExpiredCb` collects a callback.

A reading that detects no rollover makes no later one detect it, so `listExpiredCb`
may be called any number of times in between.
-/

namespace Sylar.Io

open Sylar.Lib

namespace TimerManager

variable {s : TimerManager} {now r : UInt64} {probe i : Nat} {rest : List Nat}

/-- A later reading detects no rollover if an earlier one did not. -/
theorem no_rollover_mono (h : (s.detectClockRollover now).1 = false) (hle : now ≤ r) :
    (s.detectClockRollover r).1 = false := by
  apply Bool.eq_false_iff.2
  intro hr
  simp only [detectClockRollover, Bool.and_eq_true, decide_eq_true_iff] at hr
  have hnow : (s.detectClockRollover now).1 = true := by
    simp only [detectClockRollover, Bool.and_eq_true, decide_eq_true_iff]
    exact ⟨UInt64.lt_of_le_of_lt hle hr.1, UInt64.lt_of_le_of_lt hle hr.2⟩
  rw [h] at hnow
  cases hnow

/-- The first timer decides whether anything is collected. -/
theorem collects_iff (h : s.Valid) (hcons : s.timers = i :: rest)
    (hroll : (s.detectClockRollover now).1 = false) (probe : Nat) :
    (s.listExpiredCb now probe).2.1 ≠ [] ↔ (s.heap i).next ≤ now := by
  have hdelivers := h.delivers now probe
  rw [hroll] at hdelivers
  have hsorted : OrderedSet.Sorted s.key (i :: rest) := hcons ▸ h.sorted
  rw [hdelivers.callbacks, ne_eq, List.map_eq_nil_iff]
  constructor
  · intro hne
    obtain ⟨j, hj⟩ := List.exists_mem_of_ne_nil _ hne
    obtain ⟨hmem, hdue⟩ := (hdelivers.mem j).1 hj
    have hle := hdue.resolve_left Bool.false_ne_true
    rw [hcons] at hmem
    apply UInt64.not_lt.1
    intro hlt
    exact not_due_of_lt hsorted hlt hmem hle
  · intro hle hnil
    have hmem : i ∈ (s.listExpiredCb now probe).1 :=
      (hdelivers.mem i).2 ⟨hcons ▸ List.mem_cons_self, .inr hle⟩
    rw [hnil] at hmem
    cases hmem

/-- Before the first deadline `listExpiredCb` only remembers the reading. -/
theorem listExpiredCb_early (hcons : s.timers = i :: rest)
    (hroll : (s.detectClockRollover now).1 = false) (hlt : now < (s.heap i).next) :
    s.listExpiredCb now probe = ([], [], { s with previouseTime := now }) := by
  have hcond : (!(s.detectClockRollover now).1 && decide (now < (s.heap i).next)) = true := by
    rw [hroll, decide_eq_true hlt]
    rfl
  unfold listExpiredCb
  split
  · next hnil => cases hnil.symm.trans hcons
  · next i' rest' hcons' =>
      cases hcons'.symm.trans hcons
      exact if_pos hcond

/-- Calls of `listExpiredCb`, each with its reading and the address of its probe. -/
def polls (s : TimerManager) (rs : List (UInt64 × Nat)) : TimerManager :=
  rs.foldl (fun s r => (s.listExpiredCb r.1 r.2).2.2) s

/-- Calls before the first deadline, at readings that do not go back, leave everything but the
last reading as it is. -/
theorem polls_early {rs : List (UInt64 × Nat)} (hcons : s.timers = i :: rest)
    (hroll : (s.detectClockRollover now).1 = false)
    (hsteady : (now :: rs.map Prod.fst).Pairwise (· ≤ ·))
    (hlt : ∀ r ∈ rs, r.1 < (s.heap i).next) :
    ∃ last, (s.polls rs) = { s with previouseTime := last } ∧
      ∀ r, (∀ r' ∈ now :: rs.map Prod.fst, r' ≤ r) →
        ((s.polls rs).detectClockRollover r).1 = false := by
  induction rs generalizing s now with
  | nil =>
      refine ⟨s.previouseTime, rfl, fun r hr => ?_⟩
      exact no_rollover_mono hroll (hr now List.mem_cons_self)
  | cons a rs ih =>
      obtain ⟨hnow, hsteady⟩ := List.pairwise_cons.1 hsteady
      have ha : now ≤ a.1 := hnow a.1 List.mem_cons_self
      have hearly : s.listExpiredCb a.1 a.2 = ([], [], { s with previouseTime := a.1 }) :=
        listExpiredCb_early hcons (no_rollover_mono hroll ha) (hlt a List.mem_cons_self)
      have hroll' : (detectClockRollover a.1 { s with previouseTime := a.1 }).1 = false := by
        simp [detectClockRollover]
      obtain ⟨last, hpolls, hlater⟩ := ih (s := { s with previouseTime := a.1 }) hcons hroll'
        hsteady fun r hr => hlt r (List.mem_cons_of_mem a hr)
      have hstep : s.polls (a :: rs) = polls { s with previouseTime := a.1 } rs := by
        rw [polls, List.foldl_cons, hearly]
        rfl
      rw [hstep]
      exact ⟨last, hpolls, fun r hr => hlater r fun r' hr' => hr r' (List.mem_cons_of_mem now hr')⟩

theorem getNextTimer_cons (hcons : s.timers = i :: rest) :
    (s.getNextTimer now).1 = if (s.heap i).next ≤ now then 0 else (s.heap i).next - now := by
  unfold getNextTimer
  dsimp only
  rw [hcons]
  dsimp only
  split <;> rfl

/-- The time until the first deadline, where it has not come yet. -/
theorem toNat_getNextTimer (hcons : s.timers = i :: rest) (hlt : now < (s.heap i).next) :
    now.toNat + (s.getNextTimer now).1.toNat = (s.heap i).next.toNat := by
  have hle := UInt64.le_of_lt hlt
  rw [getNextTimer_cons hcons, if_neg (UInt64.not_le.2 hlt), UInt64.toNat_sub_of_le _ _ hle]
  exact Nat.add_sub_of_le (UInt64.le_iff_toNat_le.1 hle)

theorem getNextTimer_eq_zero_iff (hcons : s.timers = i :: rest) :
    (s.getNextTimer now).1 = 0 ↔ (s.heap i).next ≤ now := by
  constructor
  · intro hzero
    apply UInt64.not_lt.1
    intro hlt
    have hsum := toNat_getNextTimer hcons hlt
    rw [hzero] at hsum
    exact absurd hsum (Nat.ne_of_lt (UInt64.lt_iff_toNat_lt.1 hlt))
  · intro hle
    rw [getNextTimer_cons hcons, if_pos hle]

theorem Valid.of_tickled (h : s.Valid) (b : Bool) : Valid { s with tickled := b } := by
  have hkept : Kept (fun _ => True) s [] { s with tickled := b } [] := h.of_eq rfl rfl rfl
  exact hkept.rebase

theorem Valid.polls (h : s.Valid) (rs : List (UInt64 × Nat)) : (s.polls rs).Valid := by
  induction rs generalizing s with
  | nil => exact h
  | cons a rs ih =>
      rw [TimerManager.polls, List.foldl_cons]
      exact ih (h.listExpiredCb a.1 a.2 fun _ _ _ => trivial).1.rebase

/-- The result counts the time to the first reading at which a callback is collected. -/
theorem polls_until_deadline (h : s.Valid) (hcons : s.timers = i :: rest)
    (hroll : (s.detectClockRollover now).1 = false) (hnow : now < (s.heap i).next)
    {rs : List (UInt64 × Nat)} (hsteady : (now :: rs.map Prod.fst).Pairwise (· ≤ ·))
    (hlt : ∀ r ∈ rs, r.1 < (s.heap i).next) :
    (∀ r probe, (∀ r' ∈ now :: rs.map Prod.fst, r' ≤ r) → r < (s.heap i).next →
      ((s.polls rs).listExpiredCb r probe).2.1 = []) ∧
    ∀ probe, ((s.polls rs).listExpiredCb (s.heap i).next probe).2.1 ≠ [] := by
  obtain ⟨last, hpolls, hlater⟩ := polls_early hcons hroll hsteady hlt
  have hvalid := h.polls rs
  rw [hpolls] at hlater hvalid ⊢
  constructor
  · intro r probe hr hbefore
    apply not_not.1
    intro hne
    have hle := (collects_iff hvalid hcons (hlater r hr) probe).1 hne
    exact UInt64.not_le.2 hbefore hle
  · intro probe
    apply (collects_iff hvalid hcons (hlater _ _) probe).2 UInt64.le_rfl
    intro r' hr'
    obtain rfl | hr' := List.mem_cons.1 hr'
    · exact UInt64.le_of_lt hnow
    · obtain ⟨a, ha, rfl⟩ := List.mem_map.1 hr'
      exact UInt64.le_of_lt (hlt a ha)

/-- `getNextTimer` returns 0 exactly if `listExpiredCb` would collect a callback now. A time in
between is that until the first reading at which it collects one, whatever calls of it come
before, and without timers the result is the largest. -/
theorem getNextTimer_agrees (h : s.Valid) (hroll : (s.detectClockRollover now).1 = false) :
    (∀ probe, (s.getNextTimer now).1 = 0 ↔
      ((s.getNextTimer now).2.listExpiredCb now probe).2.1 ≠ []) ∧
    (0 < (s.getNextTimer now).1 → (s.getNextTimer now).1 < -1 →
      ∀ rs : List (UInt64 × Nat), (now :: rs.map Prod.fst).Pairwise (· ≤ ·) →
        (∀ r ∈ rs, r.1.toNat < now.toNat + (s.getNextTimer now).1.toNat) →
        (∀ r probe, (∀ r' ∈ now :: rs.map Prod.fst, r' ≤ r) →
          r.toNat < now.toNat + (s.getNextTimer now).1.toNat →
          (((s.getNextTimer now).2.polls rs).listExpiredCb r probe).2.1 = []) ∧
        ∃ r, r.toNat = now.toNat + (s.getNextTimer now).1.toNat ∧
          ∀ probe, (((s.getNextTimer now).2.polls rs).listExpiredCb r probe).2.1 ≠ []) ∧
    (s.timers = [] → (s.getNextTimer now).1 = -1) := by
  rw [getNextTimer_eq]
  have hvalid : Valid { s with tickled := false } := h.of_tickled false
  by_cases hnil : s.timers = []
  · have hlargest : (s.getNextTimer now).1 = -1 := by
      unfold getNextTimer
      dsimp only
      rw [hnil]
    rw [hlargest]
    refine ⟨fun probe => ?_, fun _ hlt => ?_, fun _ => rfl⟩
    · have hnone : (listExpiredCb now probe { s with tickled := false }).2.1 = [] := by
        unfold listExpiredCb
        dsimp only
        rw [hnil]
      exact iff_of_false (by decide) (not_not.2 hnone)
    · exact absurd hlt (UInt64.lt_irrefl _)
  · obtain ⟨i, rest, hcons⟩ := List.exists_cons_of_ne_nil hnil
    refine ⟨fun probe => ?_, fun hpos _ rs hsteady hlt => ?_, fun hempty => absurd hempty hnil⟩
    · have hcollects := collects_iff (s := { s with tickled := false }) hvalid hcons hroll probe
      exact (getNextTimer_eq_zero_iff hcons).trans hcollects.symm
    · have hnow : now < (s.heap i).next := by
        rw [← UInt64.not_le, ← getNextTimer_eq_zero_iff hcons]
        exact (UInt64.ne_of_lt hpos).symm
      have hsum := toNat_getNextTimer hcons hnow
      rw [hsum] at hlt ⊢
      obtain ⟨hnothing, hsome⟩ := polls_until_deadline (s := { s with tickled := false })
        hvalid hcons hroll hnow hsteady fun r hr => UInt64.lt_iff_toNat_lt.2 (hlt r hr)
      refine ⟨fun r probe hr hbefore => ?_, (s.heap i).next, rfl, hsome⟩
      exact hnothing r probe hr (UInt64.lt_iff_toNat_lt.2 hbefore)

/-- Two timers; the first is due in seven milliseconds, and the second does not matter. -/
theorem getNextTimer_agrees_seven :
    ∃ m : Timeline,
      Transition.Run Timeline.Step (.init 100)
        [.addTimer 20 (some 1) true 100 7, .addTimer 10 (some 2) false 100 4] m ∧
      (m.tm.getNextTimer 103).1 = 7 ∧
      (((m.tm.getNextTimer 103).2.polls [(105, 1)]).listExpiredCb 109 5).2.1 = [] ∧
      ∃ r : UInt64, r.toNat = 110 ∧
        (((m.tm.getNextTimer 103).2.polls [(105, 1)]).listExpiredCb r 5).2.1 ≠ [] := by
  obtain ⟨m, h, hroll, hnext⟩ : ∃ m : Timeline,
      Transition.Run Timeline.Step (.init 100)
        [.addTimer 20 (some 1) true 100 7, .addTimer 10 (some 2) false 100 4] m ∧
      (m.tm.detectClockRollover 103).1 = false ∧ (m.tm.getNextTimer 103).1 = 7 :=
    ⟨_, .cons ⟨by decide +kernel, rfl⟩ (.cons ⟨by decide +kernel, rfl⟩ (.nil _)),
      by decide +kernel, by decide +kernel⟩
  obtain ⟨-, huntil, -⟩ := getNextTimer_agrees (Timeline.valid_of_run h) hroll
  rw [hnext] at huntil
  obtain ⟨hnothing, r, hr, hsome⟩ := huntil (by decide) (by decide) [(105, 1)] (by decide)
    (by decide)
  have hlater : ∀ r' ∈ (103 : UInt64) :: [(105, 1)].map Prod.fst, r' ≤ 109 :=
    List.forall_mem_cons.2 ⟨by decide, List.forall_mem_singleton.2 (by decide)⟩
  exact ⟨m, h, hnext, hnothing 109 5 hlater (by decide), r, hr, hsome 5⟩

end TimerManager

end Sylar.Io
