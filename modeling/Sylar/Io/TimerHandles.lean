import Sylar.Io.TimerExpiry

/-!
# What the operations on a timer report

`cancel`, `refresh` and `reset` look at the callback of a timer before they look at
the set. A timer in the set has the callback that it was created with, so for one
created with a callback both tests say the same.

`reset` has a third test in front of the two. It compares the period and is made
before the lock is taken, whether the timer is in the set or not.
-/

namespace Sylar.Io

open Sylar.Lib

namespace TimerManager

variable {P : Timer → Prop} {base s s' : TimerManager} {held : List Nat} {i : Nat}
  {ms now : UInt64} {fromNow : Bool}

/-- The timer is in the set afterwards, with these fields, and every other timer is as before. -/
structure Moves (s : TimerManager) (i : Nat) (t : Timer) (s' : TimerManager) : Prop where
  mem : i ∈ s'.timers
  timer : s'.heap i = t
  others : ∀ j ≠ i, s'.heap j = s.heap j ∧ (j ∈ s'.timers ↔ j ∈ s.timers)
  count : s'.count = s.count

/-- A timer of the set may be moved to where it is. -/
theorem Moves.refl (hi : i ∈ s.timers) : s.Moves i (s.heap i) s :=
  ⟨hi, rfl, fun _ _ => ⟨rfl, Iff.rfl⟩, rfl⟩

theorem Moves.of_eq {s'' : TimerManager} {t : Timer} (h : s.Moves i t s')
    (hheap : s''.heap = s'.heap) (htimers : s''.timers = s'.timers)
    (hcount : s''.count = s'.count) : s.Moves i t s'' := by
  refine ⟨?_, ?_, fun j hj => ?_, ?_⟩
  · rw [htimers]
    exact h.mem
  · rw [hheap]
    exact h.timer
  · rw [hheap, htimers]
    exact h.others j hj
  · rw [hcount]
    exact h.count

/-- Take a timer out, change it and put it back. -/
theorem Kept.moves (h : Kept (fun _ => True) base held s []) (hi : i ∈ s.timers) {t : Timer}
    (haddress : t.address = (s.heap i).address) (hkind : t.recurring = (s.heap i).recurring) :
    s.Moves i t (((s.eraseTimer i).setTimer i t).insertTimer i) := by
  have hset := ((h.erase hi).setTimer trivial haddress hkind).mem_insertTimer
  have herase : ∀ j, j ∈ ((s.eraseTimer i).setTimer i t).timers ↔ j ∈ s.timers ∧ j ≠ i :=
    fun j => OrderedSet.mem_erase s.comparesBy h.sorted hi
  refine ⟨(hset i).2 (.inl rfl), Function.update_self .., fun j hj => ⟨?_, ?_⟩, rfl⟩
  · exact Function.update_of_ne hj ..
  · rw [hset, herase]
    simp [hj]

/-- No timer comes into the set, and those that stay keep their callbacks. -/
structure Preserves (s s' : TimerManager) : Prop where
  count : s'.count = s.count
  cb : ∀ j ∈ s'.timers, j ∈ s.timers ∧ (s'.heap j).cb = (s.heap j).cb

theorem Preserves.refl (s : TimerManager) : s.Preserves s := ⟨rfl, fun _ hj => ⟨hj, rfl⟩⟩

/-! ### The operations -/

/-- `cancel` takes a timer with a callback out of the set. -/
theorem Kept.cancel_cases (h : Kept P base held s []) (i : Nat) :
    ((s.heap i).cb.isSome = false ∧ s.cancel i = some (false, s)) ∨
      ((s.heap i).cb.isSome = true ∧ ∃ s', s.cancel i = some (true, s') ∧ s.Preserves s') := by
  by_cases hi : (s.heap i).cb.isSome = true
  · refine .inr ⟨hi, _, h.cancel_eq hi, rfl, fun j hj => ?_⟩
    unfold eraseTimer at hj
    rw [less_setCb] at hj
    obtain ⟨hmem, hne⟩ := (OrderedSet.mem_erase s.comparesBy h.sorted (h.mem_timers hi)).1 hj
    exact ⟨hmem, congrArg Timer.cb (Function.update_of_ne hne ..)⟩
  · exact .inl ⟨Bool.eq_false_iff.2 hi, if_neg hi⟩

/-- `refresh` moves a timer with a callback. -/
theorem Kept.refresh_cases (h : Kept (fun _ => True) base held s []) (i : Nat) (now : UInt64) :
    ((s.heap i).cb.isSome = false ∧ s.refresh i now = (false, s)) ∨
      ((s.heap i).cb.isSome = true ∧ ∃ s', s.refresh i now = (true, s') ∧
        s.Moves i { s.heap i with next := now + (s.heap i).ms } s') := by
  by_cases hi : (s.heap i).cb.isSome = true
  · exact .inr ⟨hi, _, h.refresh_eq hi now, h.moves (h.mem_timers hi) rfl rfl⟩
  · exact .inl ⟨Bool.eq_false_iff.2 hi, if_neg hi⟩

/-- The part of `reset` under the lock. -/
def resetLocked (i : Nat) (ms : UInt64) (fromNow : Bool) (now : UInt64) (s : TimerManager) :
    Bool × Bool × TimerManager :=
  if (s.heap i).cb.isSome then
    match OrderedSet.find s.less i s.timers with
    | none => (false, false, s)
    | some _ =>
        let s := s.eraseTimer i
        let start := if fromNow then now else (s.heap i).next - (s.heap i).ms
        (true, (s.setTimer i { s.heap i with ms := ms, next := ms + start }).addTimerLocked i)
  else (false, false, s)

theorem reset_eq_resetLocked (s : TimerManager) (i : Nat) (ms : UInt64) (fromNow : Bool)
    (now : UInt64) :
    s.reset i ms fromNow now =
      if (s.heap i).ms = ms ∧ fromNow = false then (true, false, s)
      else s.resetLocked i ms fromNow now := rfl

/-- The timer with a new period, from now on or from where it started. -/
def resetTimer (t : Timer) (ms : UInt64) (fromNow : Bool) (now : UInt64) : Timer :=
  { t with ms := ms, next := (if fromNow then now else t.next - t.ms) + ms }

/-- Under the lock `reset` moves a timer with a callback. -/
theorem Kept.resetLocked_cases (h : Kept (fun _ => True) base held s []) (i : Nat) (ms : UInt64)
    (fromNow : Bool) (now : UInt64) :
    ((s.heap i).cb.isSome = false ∧ s.resetLocked i ms fromNow now = (false, false, s)) ∨
      ((s.heap i).cb.isSome = true ∧ ∃ atFront s',
        s.resetLocked i ms fromNow now = (true, atFront, s') ∧
          s.Moves i (resetTimer (s.heap i) ms fromNow now) s') := by
  unfold resetLocked
  by_cases hi : (s.heap i).cb.isSome = true
  · have hmoves : s.Moves i (resetTimer (s.heap i) ms fromNow now) _ :=
      h.moves (h.mem_timers hi) rfl rfl
    rw [resetTimer, UInt64.add_comm] at hmoves ⊢
    rw [if_pos hi, h.find hi]
    exact .inr ⟨hi, _, _, rfl, hmoves.of_eq rfl rfl rfl⟩
  · rw [if_neg hi]
    exact .inl ⟨Bool.eq_false_iff.2 hi, rfl⟩

/-! ### What they report -/

/-- The result says whether the timer was in the set. If it was not, nothing changed, and if it
was, it is there with these fields now. -/
structure Reports (s : TimerManager) (i : Nat) (t : Timer) (r : Bool) (s' : TimerManager) :
    Prop where
  pending : r = true ↔ i ∈ s.timers
  unchanged : r = false → s' = s
  moved : r = true → s.Moves i t s'

/-- What the three operations on a timer are to report. -/
structure Truthful (s : TimerManager) (i : Nat) (ms : UInt64) (fromNow : Bool) (now : UInt64) :
    Prop where
  cancel : ∃ r s', s.cancel i = some (r, s') ∧ (r = true ↔ i ∈ s.timers) ∧ (r = false → s' = s)
  refresh : s.Reports i { s.heap i with next := now + (s.heap i).ms } (s.refresh i now).1
    (s.refresh i now).2
  reset : s.Reports i (resetTimer (s.heap i) ms fromNow now) (s.reset i ms fromNow now).1
    (s.reset i ms fromNow now).2.2

theorem Reports.of_not_mem {t : Timer} (hi : i ∉ s.timers) : s.Reports i t false s :=
  ⟨iff_of_false Bool.false_ne_true hi, fun _ => rfl, fun h => absurd h Bool.false_ne_true⟩

theorem Reports.of_moves {t : Timer} (hi : i ∈ s.timers) (h : s.Moves i t s') :
    s.Reports i t true s' :=
  ⟨iff_of_true rfl hi, fun h => absurd h.symm Bool.false_ne_true, fun _ => h⟩

section

variable (h : Kept (fun _ => True) base held s [])
  (hcb : i ∈ s.timers → (s.heap i).cb.isSome = true)

include h hcb

/-- The two tests agree. -/
theorem Kept.mem_iff : i ∈ s.timers ↔ (s.heap i).cb.isSome = true := ⟨hcb, h.mem_timers⟩

theorem Kept.not_mem (hi : (s.heap i).cb.isSome = false) : i ∉ s.timers := by
  rw [h.mem_iff hcb, hi]
  exact Bool.false_ne_true

theorem Kept.cancel_reports :
    ∃ r s', s.cancel i = some (r, s') ∧ (r = true ↔ i ∈ s.timers) ∧ (r = false → s' = s) := by
  obtain ⟨hnone, hcancel⟩ | ⟨hsome, s', hcancel, -⟩ := h.cancel_cases i
  · exact ⟨false, s, hcancel, iff_of_false Bool.false_ne_true (h.not_mem hcb hnone), fun _ => rfl⟩
  · exact ⟨true, s', hcancel, iff_of_true rfl (h.mem_timers hsome), fun hr => by cases hr⟩

theorem Kept.refresh_reports :
    s.Reports i { s.heap i with next := now + (s.heap i).ms } (s.refresh i now).1
      (s.refresh i now).2 := by
  obtain ⟨hnone, hrefresh⟩ | ⟨hsome, s', hrefresh, hmoves⟩ := h.refresh_cases i now
  · rw [hrefresh]
    exact .of_not_mem (h.not_mem hcb hnone)
  · rw [hrefresh]
    exact .of_moves (h.mem_timers hsome) hmoves

/-- Whatever changed since the first test, the part under the lock reports what it finds. -/
theorem Kept.resetLocked_reports :
    s.Reports i (resetTimer (s.heap i) ms fromNow now) (s.resetLocked i ms fromNow now).1
      (s.resetLocked i ms fromNow now).2.2 := by
  obtain ⟨hnone, hreset⟩ | ⟨hsome, _, s', hreset, hmoves⟩ := h.resetLocked_cases i ms fromNow now
  · rw [hreset]
    exact .of_not_mem (h.not_mem hcb hnone)
  · rw [hreset]
    exact .of_moves (h.mem_timers hsome) hmoves

/-- The test in front of the lock is right about a timer in the set. -/
theorem Kept.reset_reports_iff :
    s.Reports i (resetTimer (s.heap i) ms fromNow now) (s.reset i ms fromNow now).1
        (s.reset i ms fromNow now).2.2 ↔
      i ∈ s.timers ∨ (s.heap i).ms ≠ ms ∨ fromNow = true := by
  rw [reset_eq_resetLocked]
  by_cases htest : (s.heap i).ms = ms ∧ fromNow = false
  · obtain ⟨rfl, rfl⟩ := htest
    rw [if_pos ⟨rfl, rfl⟩]
    constructor
    · intro hreports
      exact .inl (hreports.pending.1 rfl)
    · intro hor
      have hi : i ∈ s.timers := by simpa using hor
      have hsame : resetTimer (s.heap i) (s.heap i).ms false now = s.heap i := by
        simp [resetTimer]
      rw [hsame]
      exact .of_moves hi (.refl hi)
  · rw [if_neg htest]
    apply iff_of_true (h.resetLocked_reports hcb)
    right
    rw [not_and_or, Bool.not_eq_false] at htest
    exact htest

end

/-! ### The callbacks of the timers in the set -/

theorem Moves.preserves {t : Timer} (h : s.Moves i t s') (hi : i ∈ s.timers)
    (hcb : t.cb = (s.heap i).cb) : s.Preserves s' := by
  refine ⟨h.count, fun j hj => ?_⟩
  by_cases hji : j = i
  · subst hji
    rw [h.timer]
    exact ⟨hi, hcb⟩
  · obtain ⟨hsame, hmem⟩ := h.others j hji
    exact ⟨hmem.1 hj, by rw [hsame]⟩

theorem Kept.refresh_preserves (h : Kept (fun _ => True) base held s []) (i : Nat)
    (now : UInt64) : s.Preserves (s.refresh i now).2 := by
  obtain ⟨-, hrefresh⟩ | ⟨hsome, s', hrefresh, hmoves⟩ := h.refresh_cases i now
  · rw [hrefresh]
    exact .refl s
  · rw [hrefresh]
    exact hmoves.preserves (h.mem_timers hsome) rfl

theorem Kept.reset_preserves (h : Kept (fun _ => True) base held s []) (i : Nat) (ms : UInt64)
    (fromNow : Bool) (now : UInt64) : s.Preserves (s.reset i ms fromNow now).2.2 := by
  rw [reset_eq_resetLocked]
  split
  · exact .refl s
  · obtain ⟨-, hreset⟩ | ⟨hsome, _, s', hreset, hmoves⟩ := h.resetLocked_cases i ms fromNow now
    · rw [hreset]
      exact .refl s
    · rw [hreset]
      exact hmoves.preserves (h.mem_timers hsome) rfl

theorem count_rearmAll (s : TimerManager) (now : UInt64) (due : List Nat) :
    (due.foldl (rearm now) s).count = s.count := by
  induction due generalizing s with
  | nil => rfl
  | cons i due ih =>
      rw [List.foldl_cons, ih]
      unfold rearm
      split <;> rfl

theorem count_listExpiredCb (s : TimerManager) (now : UInt64) (probe : Nat) :
    (s.listExpiredCb now probe).2.2.count = s.count := by
  unfold listExpiredCb
  split
  · rfl
  · dsimp only
    split
    · rfl
    · exact count_rearmAll _ _ _

/-- A timer that comes back into the set keeps its callback. -/
theorem Kept.listExpiredCb_preserves (h : Kept (fun _ => True) base held s []) (now : UInt64)
    (probe : Nat) : s.Preserves (s.listExpiredCb now probe).2.2 := by
  have hdelivers := h.delivers now probe
  refine ⟨count_listExpiredCb s now probe, fun i hi => ?_⟩
  by_cases hdue : i ∈ (s.listExpiredCb now probe).1
  · have hrearmed := hdelivers.rearmed i hdue
    unfold Rearmed at hrearmed
    split at hrearmed
    · exact ⟨((hdelivers.mem i).1 hdue).1, by rw [hrearmed.2]⟩
    · exact absurd hi hrearmed.1
  · obtain ⟨hsame, hmem⟩ := hdelivers.others i hdue
    exact ⟨hmem.1 hi, by rw [hsame]⟩

/-- A new timer comes into the set with its callback. -/
theorem Kept.addTimer_cases (h : Kept P base held s []) {cb : Option TimerCb} {recurring : Bool}
    {address j : Nat} (hP : P ⟨recurring, ms, now + ms, cb, address⟩)
    (haddress : ∀ j ∈ s.timers, (s.heap j).address ≠ address)
    (hj : j ∈ (s.addTimer ms cb recurring now address).2.timers) :
    (j ∈ s.timers ∧ (s.addTimer ms cb recurring now address).2.heap j = s.heap j) ∨
      (j = s.count ∧ ((s.addTimer ms cb recurring now address).2.heap j).cb = cb) := by
  have hheap : (s.addTimer ms cb recurring now address).2.heap =
      Function.update s.heap s.count ⟨recurring, ms, now + ms, cb, address⟩ := rfl
  have hin := h.allocate hP fun j hj => haddress j (tracks_nil.1 hj)
  rw [hheap]
  obtain rfl | hmem := (hin.mem_insertTimer j).1 hj
  · right
    rw [Function.update_self]
    exact ⟨rfl, rfl⟩
  · left
    have hlt : j < s.count := h.lt j (tracks_nil.2 hmem)
    exact ⟨hmem, Function.update_of_ne hlt.ne ..⟩

end TimerManager

/-! ### Runs -/

/-- The callback of the timer that the operation creates. -/
def TimerOp.creates : TimerOp → Option (Option TimerCb)
  | .addTimer _ cb _ _ _ => some (cb.map .fn)
  | .addConditionTimer _ cb cond _ _ _ => some (some (.onTimer cond cb))
  | _ => none

/-- The callbacks that the timers were created with, by their numbers. -/
def created (ops : List TimerOp) : List (Option TimerCb) := ops.filterMap TimerOp.creates

theorem created_concat (ops : List TimerOp) (op : TimerOp) :
    created (ops ++ [op]) = created ops ++ op.creates.toList := by
  unfold created
  rw [List.filterMap_append]
  cases h : op.creates with
  | none => rw [List.filterMap_cons_none h]; rfl
  | some cb => rw [List.filterMap_cons_some h]; rfl

namespace Timeline

variable {m m' : Timeline} {op : TimerOp} {ops : List TimerOp} {i : Nat}

/-- A timer that is in the set after the operation was there before with the same callback, or is
the one that the operation creates. -/
structure Descends (m : Timeline) (op : TimerOp) (m' : Timeline) : Prop where
  count : m'.tm.count = m.tm.count + op.creates.toList.length
  cb : ∀ i ∈ m'.tm.timers, (i ∈ m.tm.timers ∧ (m'.tm.heap i).cb = (m.tm.heap i).cb) ∨
    (i = m.tm.count ∧ op.creates = some (m'.tm.heap i).cb)

theorem Descends.of_preserves (hop : op.creates = none) (h : m.tm.Preserves m'.tm) :
    Descends m op m' := by
  refine ⟨?_, fun i hi => .inl (h.cb i hi)⟩
  rw [hop]
  exact h.count

theorem Step.descends (h : m.tm.Valid) (hs : Step m op m') : Descends m op m' := by
  obtain ⟨hadm, hrun⟩ := hs
  cases op with
  | addTimer ms cb recurring now address =>
      cases hrun
      refine ⟨rfl, fun i hi => ?_⟩
      obtain ⟨hmem, hsame⟩ | ⟨hnew, hcb⟩ := h.addTimer_cases trivial hadm hi
      · exact .inl ⟨hmem, congrArg Timer.cb hsame⟩
      · exact .inr ⟨hnew, congrArg some hcb.symm⟩
  | addConditionTimer ms cb cond recurring now address =>
      cases hrun
      refine ⟨rfl, fun i hi => ?_⟩
      obtain ⟨hmem, hsame⟩ | ⟨hnew, hcb⟩ := h.addTimer_cases trivial hadm hi
      · exact .inl ⟨hmem, congrArg Timer.cb hsame⟩
      · exact .inr ⟨hnew, congrArg some hcb.symm⟩
  | cancel i =>
      obtain ⟨-, hcancel⟩ | ⟨-, s', hcancel, hpreserves⟩ := h.cancel_cases i
      · rw [run, hcancel] at hrun
        cases hrun
        exact .of_preserves rfl (.refl m.tm)
      · rw [run, hcancel] at hrun
        cases hrun
        exact .of_preserves rfl hpreserves
  | refresh i now =>
      cases hrun
      exact .of_preserves rfl (h.refresh_preserves i now)
  | reset i ms fromNow now =>
      cases hrun
      exact .of_preserves rfl (h.reset_preserves i ms fromNow now)
  | getNextTimer now =>
      cases hrun
      apply Descends.of_preserves rfl
      rw [TimerManager.getNextTimer_eq]
      exact ⟨rfl, fun _ hj => ⟨hj, rfl⟩⟩
  | listExpiredCb now probe =>
      cases hrun
      exact .of_preserves rfl (h.listExpiredCb_preserves now probe)

/-- The invariant, and every timer in the set has the callback that it was created with. -/
structure Origin (ops : List TimerOp) (m : Timeline) : Prop where
  valid : m.tm.Valid
  count : m.tm.count = (created ops).length
  cb : ∀ i ∈ m.tm.timers, (created ops)[i]? = some (m.tm.heap i).cb

theorem Origin.step (h : Origin ops m) (hs : Step m op m') : Origin (ops ++ [op]) m' := by
  obtain ⟨hcount, hdescends⟩ := hs.descends h.valid
  refine ⟨(hs.kept h.valid fun _ _ => trivial).1.rebase, ?_, fun i hi => ?_⟩
  · rw [created_concat, List.length_append, hcount, h.count]
  · rw [created_concat]
    obtain ⟨hmem, hsame⟩ | ⟨rfl, hnew⟩ := hdescends i hi
    · rw [hsame, ← h.cb i hmem]
      apply List.getElem?_append_left
      rw [← h.count]
      exact h.valid.lt i (TimerManager.tracks_nil.2 hmem)
    · rw [hnew, h.count]
      exact List.getElem?_concat_length

theorem origin_of_run {now : UInt64} (h : Transition.Run Step (.init now) ops m) :
    Origin ops m := by
  have hinit : Origin [] (.init now) := ⟨valid_of_run (.nil _), rfl, nofun⟩
  exact h.history (P := Origin) (fun _ _ _ _ hm hs => hm.step hs) hinit

end Timeline

/-- In every state of a run the operations on a timer that was created with a callback report
whether it was pending, and leave the rest alone, exactly if it is pending or `reset` is called
with another period or from now on. -/
theorem timer_handles_truthful_iff {start now : UInt64} {ops : List TimerOp} {m : Timeline}
    (h : Transition.Run Timeline.Step (.init start) ops m) {i : Nat} {cb : TimerCb}
    (hcb : (created ops)[i]? = some (some cb)) (ms : UInt64) (fromNow : Bool) :
    m.tm.Truthful i ms fromNow now ↔
      i ∈ m.tm.timers ∨ (m.tm.heap i).ms ≠ ms ∨ fromNow = true := by
  have horigin := Timeline.origin_of_run h
  have hsome : i ∈ m.tm.timers → (m.tm.heap i).cb.isSome = true := by
    intro hi
    have horig := horigin.cb i hi
    rw [hcb] at horig
    rw [← Option.some.inj horig]
    rfl
  rw [← horigin.valid.reset_reports_iff hsome]
  constructor
  · intro htruthful
    exact htruthful.reset
  · intro hreset
    exact ⟨horigin.valid.cancel_reports hsome, horigin.valid.refresh_reports hsome, hreset⟩

/-- A recurring timer and one that has fired; the second is reset from now on. -/
theorem timer_handles_truthful_iff_fired :
    ∃ m : Timeline,
      Transition.Run Timeline.Step (.init 100)
        [.addTimer 10 (some 1) true 100 7, .addTimer 5 none false 100 4,
          .addTimer 5 (some 2) false 100 9, .listExpiredCb 106 0] m ∧
      m.tm.timers = [0] ∧ m.tm.Truthful 0 10 false 107 ∧ m.tm.Truthful 2 5 true 107 := by
  obtain ⟨m, h, htimers⟩ : ∃ m : Timeline,
      Transition.Run Timeline.Step (.init 100)
        [.addTimer 10 (some 1) true 100 7, .addTimer 5 none false 100 4,
          .addTimer 5 (some 2) false 100 9, .listExpiredCb 106 0] m ∧ m.tm.timers = [0] :=
    ⟨_, .cons ⟨by decide +kernel, rfl⟩ (.cons ⟨by decide +kernel, rfl⟩
      (.cons ⟨by decide +kernel, rfl⟩ (.cons ⟨trivial, rfl⟩ (.nil _)))), by decide +kernel⟩
  refine ⟨m, h, htimers, ?_, ?_⟩
  · apply (timer_handles_truthful_iff h rfl 10 false).2
    rw [htimers]
    exact .inl List.mem_cons_self
  · exact (timer_handles_truthful_iff h rfl 5 true).2 (.inr (.inr rfl))

/-- A timer that has fired is reset to its own period, and the result is true. -/
theorem reset_reports_fired_timer :
    ∃ m : Timeline,
      Transition.Run Timeline.Step (.init 100)
        [.addTimer 5 (some 1) false 100 4, .listExpiredCb 106 0] m ∧
      m.tm.timers = [] ∧ (m.tm.reset 0 5 false 107).1 = true ∧ ¬ m.tm.Truthful 0 5 false 107 := by
  obtain ⟨m, h, htimers, hreset⟩ : ∃ m : Timeline,
      Transition.Run Timeline.Step (.init 100)
        [.addTimer 5 (some 1) false 100 4, .listExpiredCb 106 0] m ∧
      m.tm.timers = [] ∧ (m.tm.reset 0 5 false 107).1 = true :=
    ⟨_, .cons ⟨by decide +kernel, rfl⟩ (.cons ⟨trivial, rfl⟩ (.nil _)),
      by decide +kernel, by decide +kernel⟩
  refine ⟨m, h, htimers, hreset, fun htruthful => ?_⟩
  have hmem := htruthful.reset.pending.1 hreset
  rw [htimers] at hmem
  cases hmem

end Sylar.Io
