import Sylar.Io.TimerRuns

/-!
# Earlier deadlines are announced

A thread sleeps until the earliest deadline that `getNextTimer` has seen. Timers
that are added, or reset, in front of all others are announced, once between
two calls of `getNextTimer`. Timers that are refreshed or that recur move
without an announcement, but only to a later deadline: a timer in the set was
armed no later than the last reading of the clock, and fires `ms` after that.
-/

namespace Sylar.Io

open Sylar.Lib

/-- The timer was armed at a time up to `clock`, and its deadline did not wrap. -/
def Timer.Armed (clock : UInt64) (t : Timer) : Prop :=
  ∃ start ≤ clock.toNat, t.next.toNat = start + t.ms.toNat

namespace Timer

variable {t : Timer} {clock now : UInt64}

theorem Armed.mono (h : t.Armed clock) (hle : clock ≤ now) : t.Armed now := by
  obtain ⟨start, hstart, hnext⟩ := h
  exact ⟨start, hstart.trans (UInt64.le_iff_toNat_le.1 hle), hnext⟩

theorem toNat_add_of_lt {a b : UInt64} (h : a.toNat + b.toNat < 2 ^ 64) :
    (a + b).toNat = a.toNat + b.toNat := by
  rw [UInt64.toNat_add]
  exact Nat.mod_eq_of_lt h

theorem armed_now (recurring : Bool) (ms : UInt64) (cb : Option TimerCb) (address : Nat)
    (h : now.toNat + ms.toNat < 2 ^ 64) : Armed now ⟨recurring, ms, now + ms, cb, address⟩ :=
  ⟨now.toNat, le_rfl, toNat_add_of_lt h⟩

/-- Arming a timer again at a later time does not bring its deadline forward. -/
theorem Armed.next_le (h : t.Armed clock) (hle : clock ≤ now)
    (hlt : now.toNat + t.ms.toNat < 2 ^ 64) : t.next.toNat ≤ (now + t.ms).toNat := by
  obtain ⟨start, hstart, hnext⟩ := h
  rw [toNat_add_of_lt hlt, hnext]
  exact Nat.add_le_add_right (hstart.trans (UInt64.le_iff_toNat_le.1 hle)) _

/-- A reset that is not from now keeps the time at which the timer was armed. -/
theorem Armed.reset (h : t.Armed clock) (hle : clock ≤ now) {ms : UInt64}
    (hlt : now.toNat + ms.toNat < 2 ^ 64) (fromNow : Bool) :
    Armed now { t with ms := ms, next := ms + if fromNow then now else t.next - t.ms } := by
  have hclock := UInt64.le_iff_toNat_le.1 hle
  cases fromNow with
  | true =>
      refine ⟨now.toNat, le_rfl, ?_⟩
      change (ms + now).toNat = now.toNat + ms.toNat
      rw [toNat_add_of_lt (Nat.add_comm _ _ ▸ hlt), Nat.add_comm]
  | false =>
      obtain ⟨start, hstart, hnext⟩ := h
      have hms : t.ms ≤ t.next := UInt64.le_iff_toNat_le.2 (by omega)
      have hsub : (t.next - t.ms).toNat = start := by
        rw [UInt64.toNat_sub_of_le _ _ hms]
        omega
      refine ⟨start, hstart.trans hclock, ?_⟩
      change (ms + (t.next - t.ms)).toNat = start + ms.toNat
      rw [toNat_add_of_lt (by omega), hsub, Nat.add_comm]

theorem next_le_of_key_lt {t' : Timer} (h : t.key < t'.key) : t.next.toNat ≤ t'.next.toNat := by
  obtain hlt | ⟨heq, -⟩ := Prod.Lex.toLex_lt_toLex.1 h
  · exact hlt.le
  · exact heq.le

end Timer

namespace TimerManager

variable {s : TimerManager} {i : Nat}

/-- A timer that is inserted without an announcement stands behind another one. -/
theorem exists_le_of_not_front (h : (s.addTimerLocked i).1 = false) (ht : s.tickled = false) :
    ∃ j ∈ s.timers, (s.heap j).next.toNat ≤ (s.heap i).next.toNat := by
  unfold addTimerLocked at h
  dsimp only at h
  rw [ht, Bool.not_false, Bool.and_true, List.isEmpty_eq_false_iff] at h
  obtain ⟨j, hj⟩ := List.exists_mem_of_ne_nil _ h
  refine ⟨j, (List.takeWhile_sublist _).subset hj, ?_⟩
  have hlt : s.key j < s.key i := OrderedSet.lt_of_mem_below s.comparesBy hj
  exact Timer.next_le_of_key_lt hlt

/-- The first timer of a sorted set has the earliest deadline. -/
theorem earliest_le (hs : OrderedSet.Sorted s.key s.timers) (hi : i ∈ s.timers) :
    s.earliest ≤ ((s.heap i).next.toNat : WithTop ℕ) := by
  unfold earliest
  split
  · next hnil =>
      rw [hnil] at hi
      cases hi
  · next j rest hcons =>
      rw [hcons] at hi hs
      apply WithTop.coe_le_coe.2
      obtain rfl | hi := List.mem_cons.1 hi
      · exact le_rfl
      · exact Timer.next_le_of_key_lt ((List.pairwise_cons.1 hs).1 i hi)

theorem tickled_reset (s : TimerManager) (i : Nat) (ms : UInt64) (fromNow : Bool) (now : UInt64) :
    (s.reset i ms fromNow now).2.2.tickled = (s.tickled || (s.reset i ms fromNow now).2.1) := by
  unfold reset
  split
  · exact (Bool.or_false _).symm
  · split
    · split
      · exact (Bool.or_false _).symm
      · rfl
    · exact (Bool.or_false _).symm

theorem tickled_cancel {s' : TimerManager} {r : Bool} (h : s.cancel i = some (r, s')) :
    s'.tickled = s.tickled := by
  unfold cancel at h
  split at h
  · dsimp only at h
    split at h <;> cases h
    rfl
  · cases h
    rfl

theorem tickled_refresh (s : TimerManager) (i : Nat) (now : UInt64) :
    (s.refresh i now).2.tickled = s.tickled := by
  unfold refresh
  split
  · split <;> rfl
  · rfl

theorem tickled_rearmAll (now : UInt64) (due : List Nat) (s : TimerManager) :
    (due.foldl (rearm now) s).tickled = s.tickled := by
  induction due generalizing s with
  | nil => rfl
  | cons i due ih =>
      rw [List.foldl_cons, ih]
      unfold rearm
      split <;> rfl

theorem tickled_listExpiredCb (s : TimerManager) (now : UInt64) (probe : Nat) :
    (s.listExpiredCb now probe).2.2.tickled = s.tickled := by
  unfold listExpiredCb
  split
  · rfl
  · dsimp only
    split
    · rfl
    · exact tickled_rearmAll now _ _

theorem getNextTimer_eq (s : TimerManager) (now : UInt64) :
    (s.getNextTimer now).2 = { s with tickled := false } := by
  unfold getNextTimer
  dsimp only
  split
  · rfl
  · split <;> rfl

end TimerManager

namespace Timeline

variable {m m' : Timeline} {op : TimerOp}

/-- The clock does not go back, and no sum of a time and a delay wraps. -/
def Steady (m : Timeline) : TimerOp → Prop
  | .addTimer ms _ _ now _ | .addConditionTimer ms _ _ _ now _ | .reset _ ms _ now =>
      m.clock ≤ now ∧ now.toNat + ms.toNat < 2 ^ 64
  | .refresh i now => m.clock ≤ now ∧ now.toNat + (m.tm.heap i).ms.toNat < 2 ^ 64
  | .listExpiredCb now _ =>
      m.clock ≤ now ∧ ∀ i ∈ m.tm.timers, now.toNat + (m.tm.heap i).ms.toNat < 2 ^ 64
  | .getNextTimer now => m.clock ≤ now
  | .cancel _ => True

def SteadyStep (m : Timeline) (op : TimerOp) (m' : Timeline) : Prop := m.Steady op ∧ Step m op m'

/-- The timer was armed, and its deadline is not before the one seen, unless there was an
announcement. -/
def Fits (m : Timeline) (t : Timer) : Prop :=
  t.Armed m.clock ∧ (m.announced = false → m.deadline ≤ (t.next.toNat : WithTop ℕ))

/-- The invariant of steady runs. -/
structure Watched (m : Timeline) : Prop where
  kept : TimerManager.Kept m.Fits m.tm [] m.tm []
  tickled : m.tm.tickled = true → m.announced = true

/-- A step that neither forgets the deadline nor takes back an announcement. -/
theorem Watched.step (hw : m.Watched) (hs : Step m op m') (hclock : m.clock ≤ m'.clock)
    (hdeadline : m'.deadline = m.deadline) (hann : m'.announced = false → m.announced = false)
    (hwrites : ∀ t, m.Writes t op → m'.Fits t)
    (htick : m'.tm.tickled = true → m'.announced = true) : m'.Watched := by
  have hfits : TimerManager.Kept m'.Fits m.tm [] m.tm [] := by
    refine hw.kept.imp fun i _ hi => ⟨hi.1.mono hclock, fun h => ?_⟩
    rw [hdeadline]
    exact hi.2 (hann h)
  exact ⟨(hs.kept hfits hwrites).1.rebase, htick⟩

/-- A timer that is added without an announcement does not come before the deadline seen. -/
theorem Watched.deadline_le (hw : m.Watched) {s : TimerManager} {i : Nat}
    (htick : s.tickled = m.tm.tickled)
    (hmem : ∀ j ∈ s.timers, j ∈ m.tm.timers ∧ s.heap j = m.tm.heap j)
    (hann : (m.announced || (s.addTimerLocked i).1) = false) :
    m.deadline ≤ ((s.heap i).next.toNat : WithTop ℕ) := by
  obtain ⟨hann, hfront⟩ := Bool.or_eq_false_iff.1 hann
  have htickled : s.tickled = false := by
    rw [htick, ← Bool.not_eq_true]
    intro h
    rw [hw.tickled h] at hann
    cases hann
  obtain ⟨j, hj, hle⟩ := TimerManager.exists_le_of_not_front hfront htickled
  obtain ⟨hj', hheap⟩ := hmem j hj
  rw [hheap] at hle
  exact ((hw.kept.all j (.inl hj')).2 hann).trans (WithTop.coe_le_coe.2 hle)

/-- `addTimer` with any callback. -/
theorem Watched.allocate (hw : m.Watched) {ms now : UInt64} {cb : Option TimerCb}
    {recurring : Bool} {address : Nat}
    (hann : (m.announced || (m.tm.addTimer ms cb recurring now address).1) = false) :
    m.deadline ≤ ((now + ms).toNat : WithTop ℕ) := by
  have hself : (m.tm.allocate ms cb recurring now address).heap m.tm.count =
      ⟨recurring, ms, now + ms, cb, address⟩ := Function.update_self ..
  have hle := hw.deadline_le (s := m.tm.allocate ms cb recurring now address) rfl
    (fun j hj => ⟨hj, Function.update_of_ne (hw.kept.lt j (.inl hj)).ne ..⟩) hann
  rwa [hself] at hle

theorem Watched.reset (hw : m.Watched) {i : Nat} {ms : UInt64} {fromNow : Bool} {now : UInt64}
    (hi : (m.tm.heap i).cb.isSome = true) (hne : ¬ ((m.tm.heap i).ms = ms ∧ fromNow = false))
    (hann : (m.announced || (m.tm.reset i ms fromNow now).2.1) = false) :
    m.deadline ≤
      ((ms + if fromNow then now else (m.tm.heap i).next - (m.tm.heap i).ms).toNat :
        WithTop ℕ) := by
  rw [hw.kept.reset_eq hi hne] at hann
  generalize ht : { m.tm.heap i with
    ms := ms
    next := ms + if fromNow then now else (m.tm.heap i).next - (m.tm.heap i).ms } = t at hann
  have hmem : ∀ j ∈ (m.tm.eraseTimer i).timers, j ∈ m.tm.timers ∧ j ≠ i := fun j =>
    (OrderedSet.mem_erase m.tm.comparesBy hw.kept.sorted (hw.kept.mem_timers hi)).1
  have hle := hw.deadline_le (s := (m.tm.eraseTimer i).setTimer i t) rfl
    (fun j hj => ⟨(hmem j hj).1, Function.update_of_ne (hmem j hj).2 ..⟩) hann
  have hself : ((m.tm.eraseTimer i).setTimer i t).heap i = t := Function.update_self ..
  rw [hself, ← ht] at hle
  exact hle

theorem SteadyStep.watched (hw : m.Watched) (hs : SteadyStep m op m') : m'.Watched := by
  obtain ⟨hsteady, hs⟩ := hs
  obtain ⟨-, hrun⟩ := id hs
  have hor : ∀ {a b : Bool}, (a || b) = false → a = false := fun h => (Bool.or_eq_false_iff.1 h).1
  have htick : ∀ {b : Bool}, (m.tm.tickled || b) = true → (m.announced || b) = true := by
    intro b h
    obtain h | h := Bool.or_eq_true_iff.1 h
    · rw [hw.tickled h, Bool.true_or]
    · rw [h, Bool.or_true]
  cases op with
  | addTimer ms cb recurring now address =>
      cases hrun
      refine hw.step hs hsteady.1 rfl hor ?_ htick
      rintro t rfl
      exact ⟨Timer.armed_now _ _ _ _ hsteady.2, hw.allocate⟩
  | addConditionTimer ms cb cond recurring now address =>
      cases hrun
      refine hw.step hs hsteady.1 rfl hor ?_ htick
      rintro t rfl
      exact ⟨Timer.armed_now _ _ _ _ hsteady.2, hw.allocate⟩
  | cancel i =>
      obtain ⟨r, tm, hcancel, -⟩ := hw.kept.cancel i
      rw [run, hcancel] at hrun
      cases hrun
      refine hw.step hs (UInt64.le_refl _) rfl id (by rintro t ⟨⟩) fun h => ?_
      exact hw.tickled (TimerManager.tickled_cancel hcancel ▸ h)
  | refresh i now =>
      cases hrun
      refine hw.step hs hsteady.1 rfl id ?_ fun h => ?_
      · rintro t ⟨hi, rfl⟩
        obtain ⟨harmed, hle⟩ := hw.kept.all i (hw.kept.mem i hi)
        refine ⟨Timer.armed_now _ _ _ _ hsteady.2, fun h => (hle h).trans ?_⟩
        exact WithTop.coe_le_coe.2 (harmed.next_le hsteady.1 hsteady.2)
      · exact hw.tickled (TimerManager.tickled_refresh m.tm i now ▸ h)
  | reset i ms fromNow now =>
      cases hrun
      refine hw.step hs hsteady.1 rfl hor ?_ fun h => ?_
      · rintro t ⟨hi, hne, rfl⟩
        obtain ⟨harmed, -⟩ := hw.kept.all i (hw.kept.mem i hi)
        exact ⟨harmed.reset hsteady.1 hsteady.2 fromNow, hw.reset hi hne⟩
      · exact htick (TimerManager.tickled_reset m.tm i ms fromNow now ▸ h)
  | getNextTimer now =>
      rw [run, TimerManager.getNextTimer_eq] at hrun
      have hm' := (Option.some.inj hrun).symm
      have hfits : TimerManager.Kept m'.Fits m.tm [] m.tm [] := by
        rw [hm']
        refine hw.kept.imp fun i hi hfits => ⟨hfits.1.mono hsteady, fun _ => ?_⟩
        exact TimerManager.earliest_le hw.kept.sorted (TimerManager.tracks_nil.1 hi)
      refine ⟨(hs.kept hfits (by rintro t ⟨⟩)).1.rebase, fun h => ?_⟩
      rw [hm'] at h
      cases h
  | listExpiredCb now probe =>
      cases hrun
      refine hw.step hs hsteady.1 rfl id ?_ fun h => ?_
      · rintro t ⟨i, hi, -, rfl⟩
        obtain ⟨harmed, hle⟩ := hw.kept.all i (.inl hi)
        refine ⟨Timer.armed_now _ _ _ _ (hsteady.2 i hi), fun h => (hle h).trans ?_⟩
        exact WithTop.coe_le_coe.2 (harmed.next_le hsteady.1 (hsteady.2 i hi))
      · exact hw.tickled (TimerManager.tickled_listExpiredCb m.tm now probe ▸ h)

theorem init_watched (now : UInt64) : (init now).Watched :=
  ⟨(init_inv now).kept.imp fun _ hi => (hi.elim nofun nofun), nofun⟩

end Timeline

/-- In every run with a clock that does not go back and without wrapping, the timers have
deadlines from the earliest one that the last `getNextTimer` saw on, or
`onTimerInsertedAtFront` was called since. -/
theorem earlier_deadline_announced (now : UInt64) (ops : List TimerOp) (m : Timeline)
    (h : Transition.Run Timeline.SteadyStep (.init now) ops m) :
    (∀ i ∈ m.tm.timers, m.deadline ≤ ((m.tm.heap i).next.toNat : WithTop ℕ)) ∨
      m.announced = true := by
  have hm : m.Watched :=
    h.invariant (fun _ _ _ hw hs => hs.watched hw) (Timeline.init_watched now)
  cases hann : m.announced with
  | true => exact .inr rfl
  | false => exact .inl fun i hi => (hm.kept.all i (.inl hi)).2 hann

/-- After `getNextTimer` has seen the deadline 110, the timer is reset in front of it, which is
announced, and moved back by a refresh, which is not. -/
theorem earlier_deadline_announced_reset :
    ∃ m : Timeline,
      Transition.Run Timeline.SteadyStep (.init 100)
        [.addTimer 10 (some 1) true 100 7, .getNextTimer 101, .reset 0 4 false 102,
          .refresh 0 103] m ∧
      m.deadline = ((110 : ℕ) : WithTop ℕ) ∧
      ((∀ i ∈ m.tm.timers, m.deadline ≤ ((m.tm.heap i).next.toNat : WithTop ℕ)) ∨
        m.announced = true) := by
  obtain ⟨m, h, hdeadline⟩ : ∃ m : Timeline,
      Transition.Run Timeline.SteadyStep (.init 100)
        [.addTimer 10 (some 1) true 100 7, .getNextTimer 101, .reset 0 4 false 102,
          .refresh 0 103] m ∧ m.deadline = ((110 : ℕ) : WithTop ℕ) :=
    ⟨_, .cons ⟨⟨by decide, by decide⟩, (by decide +kernel), rfl⟩
      (.cons ⟨show (100 : UInt64) ≤ 101 by decide, trivial, rfl⟩
      (.cons ⟨⟨by decide +kernel, by decide +kernel⟩, trivial, rfl⟩
      (.cons ⟨⟨by decide +kernel, by decide +kernel⟩, trivial, rfl⟩ (.nil _)))), rfl⟩
  exact ⟨m, h, hdeadline, earlier_deadline_announced _ _ m h⟩

end Sylar.Io
