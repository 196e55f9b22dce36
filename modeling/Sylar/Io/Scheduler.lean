import Sylar.Io.EventTable
import Sylar.Lib.Transition
import Mathlib.Data.Finset.Card
import Mathlib.Data.Fintype.Card
import Mathlib.Data.List.Perm.Basic

/-!
# The task queue of `Scheduler`

Submissions append to the queue under the mutex, and a worker takes the first
entry it may run under the same mutex. The counter of active workers goes up in
that critical section, and down outside of it after the task has run, on one of
three paths.

The states of fibers change while the scan reads them, so the scan is given what
it reads for each entry. Entries carry the number of their submission; the list
of all submissions and the list of what was taken record the history only. The
counter is an integer; the code's is unsigned, and would wrap where this one
becomes negative.
-/

namespace Sylar.Io

open Sylar.Lib

/-- A fiber or a callback; a null pointer or an empty function is `none`. -/
inductive FiberOrCb where
  | fiber (f : Option Nat)
  | cb (c : Option Nat)
  deriving DecidableEq, Repr

namespace FiberOrCb

def isEmpty : FiberOrCb → Bool
  | fiber f => f.isNone
  | cb c => c.isNone

/-- What a swap with a new object leaves in the variable of the caller. -/
def cleared : FiberOrCb → FiberOrCb
  | fiber _ => fiber none
  | cb _ => cb none

end FiberOrCb

/-- The argument of `schedule`: a value, which is copied, or the address of a variable, whose
content is swapped out. -/
inductive ScheduleArg where
  | value (fc : FiberOrCb)
  | pointer (fc : FiberOrCb)
  deriving DecidableEq, Repr

namespace ScheduleArg

def content : ScheduleArg → FiberOrCb
  | value fc => fc
  | pointer fc => fc

/-- What the caller still has afterwards. -/
def left : ScheduleArg → FiberOrCb
  | value fc => fc
  | pointer fc => fc.cleared

end ScheduleArg

/-- An entry of the queue, with the number of its submission. -/
structure FiberAndThread where
  fiber : Option Nat
  cb : Option Nat
  thread : Int
  id : Nat
  deriving DecidableEq, Repr

/-- The constructors of `FiberAndThread`. -/
def FiberAndThread.new (fc : FiberOrCb) (thread : Int) (id : Nat) : FiberAndThread :=
  match fc with
  | .fiber f => ⟨f, none, thread, id⟩
  | .cb c => ⟨none, c, thread, id⟩

/-- `fiber || cb`. -/
def FiberAndThread.isTask (ft : FiberAndThread) : Bool := ft.fiber.isSome || ft.cb.isSome

theorem FiberAndThread.isTask_new (fc : FiberOrCb) (thread : Int) (id : Nat) :
    (new fc thread id).isTask = !fc.isEmpty := by
  cases fc with
  | fiber f => cases f <;> rfl
  | cb c => cases c <;> rfl

/-- The queue, the counter, and the entry that each of the `n` workers has taken and not yet
accounted for. -/
structure Scheduler (n : Nat) where
  fibers : List FiberAndThread
  activateThreadCount : Int
  held : Fin n → Option FiberAndThread
  submitted : List FiberAndThread
  taken : List (FiberAndThread × Fin n)

namespace Scheduler

variable {n : Nat}

def init : Scheduler n := ⟨[], 0, fun _ => none, [], []⟩

/-- `scheduleNoLock`: whether to tickle, what the caller still has, and the queue. -/
def scheduleNoLock (arg : ScheduleArg) (thread : Int) (s : Scheduler n) :
    Bool × FiberOrCb × Scheduler n :=
  let ft := FiberAndThread.new arg.content thread s.submitted.length
  (s.fibers.isEmpty, arg.left,
    if ft.isTask then
      { s with fibers := s.fibers ++ [ft], submitted := s.submitted ++ [ft] }
    else s)

/-- `schedule(begin, end)`: every element is passed by address and for any thread. -/
def scheduleAll : List FiberOrCb → Scheduler n → Bool × List FiberOrCb × Scheduler n
  | [], s => (false, [], s)
  | fc :: fcs, s =>
      let (tickle, left, s) := s.scheduleNoLock (.pointer fc) (-1)
      let (tickle', lefts, s) := scheduleAll fcs s
      (tickle || tickle', left :: lefts, s)

/-- The scan of `run` by the thread `me`: whether to tickle, the entry it takes, and the rest.
`exec` says which fibers it finds in state `EXEC`. -/
def scan (me : Int) (exec : FiberAndThread → Bool) :
    List FiberAndThread → Except Stop (Bool × Option FiberAndThread × List FiberAndThread)
  | [] => .ok (false, none, [])
  | it :: rest =>
      if it.thread ≠ -1 ∧ it.thread ≠ me then
        (scan me exec rest).map fun r => (true, r.2.1, it :: r.2.2)
      else if it.isTask then
        if it.fiber.isSome && exec it then
          (scan me exec rest).map fun r => (r.1, r.2.1, it :: r.2.2)
        else .ok (false, some it, rest)
      else .error .assertFailed

/-- The critical section of `run` for the worker `w`. -/
def take (tid : Fin n → Int) (w : Fin n) (exec : FiberAndThread → Bool) (s : Scheduler n) :
    Except Stop (Bool × Option FiberAndThread × Scheduler n) :=
  (scan (tid w) exec s.fibers).map fun r =>
    match r.2.1 with
    | none => (r.1, none, s)
    | some ft =>
        (r.1, some ft,
          { s with
            fibers := r.2.2
            activateThreadCount := s.activateThreadCount + 1
            held := Function.update s.held w (some ft)
            taken := s.taken ++ [(ft, w)] })

/-- The branch of `run` that a worker follows with its entry. -/
inductive Path where
  | fiber (f : Nat)
  | cb (c : Nat)
  | nothing
  deriving DecidableEq, Repr

/-- The test for the first branch does not depend on the state: no state is both `TERM` and
`EXCEPT`. -/
def path (ft : FiberAndThread) : Path :=
  match ft.fiber, ft.cb with
  | some f, _ => .fiber f
  | none, some c => .cb c
  | none, none => .nothing

theorem path_eq_fiber {ft : FiberAndThread} {f : Nat} (h : path ft = .fiber f) :
    ft.fiber = some f := by
  obtain ⟨fiber, cb, thread, id⟩ := ft
  cases fiber with
  | some f' =>
      cases h
      rfl
  | none => cases cb <;> cases h

/-- `--m_activateThreadCount`, which stands on each of the three paths. -/
def decrement (w : Fin n) (s : Scheduler n) : Scheduler n :=
  { s with
    activateThreadCount := s.activateThreadCount - 1
    held := Function.update s.held w none }

/-- The critical sections and the decrement. -/
inductive Op (n : Nat) where
  | schedule (arg : ScheduleArg) (thread : Int)
  | scheduleAll (fcs : List FiberOrCb)
  | take (w : Fin n) (exec : FiberAndThread → Bool)
  | decrement (w : Fin n)

/-- A worker takes a task when it has none, and decrements when it has one. -/
inductive Step (tid : Fin n → Int) : Scheduler n → Op n → Scheduler n → Prop
  | schedule {s : Scheduler n} (arg : ScheduleArg) (thread : Int) :
      Step tid s (.schedule arg thread) (s.scheduleNoLock arg thread).2.2
  | scheduleAll {s : Scheduler n} (fcs : List FiberOrCb) :
      Step tid s (.scheduleAll fcs) (s.scheduleAll fcs).2.2
  | take {s s' : Scheduler n} {w : Fin n} {exec : FiberAndThread → Bool} {tickle : Bool}
      {ft : Option FiberAndThread} (h : s.held w = none)
      (ht : s.take tid w exec = .ok (tickle, ft, s')) : Step tid s (.take w exec) s'
  | decrement {s : Scheduler n} {w : Fin n} {ft : FiberAndThread} (h : s.held w = some ft) :
      Step tid s (.decrement w) (s.decrement w)

/-- The thread may run the entry, as far as the scan sees. -/
def Eligible (me : Int) (exec : FiberAndThread → Bool) (it : FiberAndThread) : Prop :=
  (it.thread = -1 ∨ it.thread = me) ∧ (it.fiber.isSome = true → exec it = false)

/-- The first eligible entry is taken out of the queue, if there is one. -/
def Takes (me : Int) (exec : FiberAndThread → Bool) (queue : List FiberAndThread) :
    Option FiberAndThread → List FiberAndThread → Prop
  | none, rest => rest = queue ∧ ∀ x ∈ queue, ¬ Eligible me exec x
  | some it, rest => ∃ before after, queue = before ++ it :: after ∧ rest = before ++ after ∧
      Eligible me exec it ∧ ∀ x ∈ before, ¬ Eligible me exec x

theorem Takes.cons {me : Int} {exec : FiberAndThread → Bool} {queue rest : List FiberAndThread}
    {ft : Option FiberAndThread} {it : FiberAndThread} (hit : ¬ Eligible me exec it)
    (h : Takes me exec queue ft rest) : Takes me exec (it :: queue) ft (it :: rest) := by
  cases ft with
  | none =>
      obtain ⟨rfl, hnone⟩ := h
      exact ⟨rfl, List.forall_mem_cons.2 ⟨hit, hnone⟩⟩
  | some ft =>
      obtain ⟨before, after, rfl, rfl, hft, hbefore⟩ := h
      exact ⟨it :: before, after, rfl, rfl, hft, List.forall_mem_cons.2 ⟨hit, hbefore⟩⟩

theorem scan_takes (me : Int) (exec : FiberAndThread → Bool) (queue : List FiberAndThread)
    (h : ∀ x ∈ queue, x.isTask = true) :
    ∃ tickle ft rest, scan me exec queue = .ok (tickle, ft, rest) ∧
      Takes me exec queue ft rest := by
  induction queue with
  | nil => exact ⟨false, none, [], rfl, rfl, nofun⟩
  | cons it queue ih =>
      obtain ⟨hit, hqueue⟩ := List.forall_mem_cons.1 h
      obtain ⟨tickle, ft, rest, hscan, htakes⟩ := ih hqueue
      by_cases hpinned : it.thread ≠ -1 ∧ it.thread ≠ me
      · refine ⟨true, ft, it :: rest, ?_, htakes.cons fun he => ?_⟩
        · rw [scan, if_pos hpinned, hscan]
          rfl
        · exact he.1.elim hpinned.1 hpinned.2
      have hfree : it.thread = -1 ∨ it.thread = me := by
        by_contra hne
        exact hpinned ⟨fun h => hne (.inl h), fun h => hne (.inr h)⟩
      cases hexec : it.fiber.isSome && exec it with
      | true =>
          obtain ⟨hfiber, hit'⟩ := Bool.and_eq_true_iff.1 hexec
          refine ⟨tickle, ft, it :: rest, ?_, htakes.cons fun he => ?_⟩
          · rw [scan, if_neg hpinned, if_pos hit, hexec, hscan]
            rfl
          · rw [he.2 hfiber] at hit'
            cases hit'
      | false =>
          refine ⟨false, some it, queue, ?_, [], queue, rfl, rfl, ⟨hfree, fun hfiber => ?_⟩, nofun⟩
          · rw [scan, if_neg hpinned, if_pos hit, hexec]
            rfl
          · rwa [hfiber, Bool.true_and] at hexec

/-- The bookkeeping of the scheduler: every submission is once in the queue or once among
those taken, only tasks are submitted, and the counter counts the workers with an entry. -/
structure Accounted (s : Scheduler n) : Prop where
  conserved : (s.fibers ++ s.taken.map Prod.fst).Perm s.submitted
  numbered : s.submitted.map FiberAndThread.id = List.range s.submitted.length
  tasks : ∀ ft ∈ s.submitted, ft.isTask = true
  held : ∀ w ft, s.held w = some ft → (ft, w) ∈ s.taken
  count : s.activateThreadCount = (Finset.univ.filter fun w => (s.held w).isSome = true).card

theorem Accounted.isTask {s : Scheduler n} (h : s.Accounted) :
    ∀ x ∈ s.fibers, x.isTask = true := by
  intro x hx
  exact h.tasks x (h.conserved.subset (List.mem_append_left _ hx))

/-- Numbered entries are distinct. -/
theorem Accounted.nodup {s : Scheduler n} (h : s.Accounted) : s.fibers.Nodup := by
  have hids : (s.submitted.map FiberAndThread.id).Nodup := h.numbered ▸ List.nodup_range
  have hall : (s.fibers ++ s.taken.map Prod.fst).Nodup := h.conserved.nodup_iff.2 hids.of_map
  exact hall.of_append_left

theorem mem_scheduleNoLock {s : Scheduler n} {arg : ScheduleArg} {thread : Int}
    {ft : FiberAndThread} (h : ft ∈ (s.scheduleNoLock arg thread).2.2.fibers) :
    ft ∈ s.fibers ∨ ft = .new arg.content thread s.submitted.length := by
  unfold scheduleNoLock at h
  dsimp only at h
  split at h
  · exact (List.mem_append.1 h).imp_right List.mem_singleton.1
  · exact .inl h

@[simp]
theorem held_scheduleNoLock (s : Scheduler n) (arg : ScheduleArg) (thread : Int) :
    (s.scheduleNoLock arg thread).2.2.held = s.held := by
  unfold scheduleNoLock
  dsimp only
  split <;> rfl

theorem init_accounted : (init : Scheduler n).Accounted := by
  refine ⟨.refl _, rfl, nofun, nofun, ?_⟩
  simp [init]

theorem Accounted.scheduleNoLock {s : Scheduler n} (h : s.Accounted) (arg : ScheduleArg)
    (thread : Int) : (s.scheduleNoLock arg thread).2.2.Accounted := by
  unfold Scheduler.scheduleNoLock
  dsimp only
  split
  · next htask =>
      refine ⟨?_, ?_, ?_, h.held, h.count⟩
      · rw [List.append_assoc]
        refine List.perm_middle.trans ?_
        exact (List.perm_append_singleton _ _).symm.trans (h.conserved.append_right _)
      · rw [List.map_append, h.numbered, List.length_append, List.length_singleton,
          List.range_succ]
        simp only [List.map_cons, List.map_nil]
        cases arg.content <;> rfl
      · intro ft hft
        obtain hft | hft := List.mem_append.1 hft
        · exact h.tasks ft hft
        · rw [List.mem_singleton.1 hft]
          exact htask
  · exact h

theorem Accounted.scheduleAll {s : Scheduler n} (h : s.Accounted) (fcs : List FiberOrCb) :
    (s.scheduleAll fcs).2.2.Accounted := by
  induction fcs generalizing s with
  | nil => exact h
  | cons fc fcs ih => exact ih (h.scheduleNoLock (.pointer fc) (-1))

/-- The workers with an entry. -/
def active (s : Scheduler n) : Finset (Fin n) :=
  Finset.univ.filter fun w => (s.held w).isSome = true

@[simp]
theorem mem_active {s : Scheduler n} {w : Fin n} : w ∈ s.active ↔ (s.held w).isSome = true := by
  simp [active]

/-- What the critical section of `run` does, for queues of tasks. -/
theorem take_takes {s : Scheduler n} (h : ∀ x ∈ s.fibers, x.isTask = true) (tid : Fin n → Int)
    (w : Fin n) (exec : FiberAndThread → Bool) :
    ∃ tickle ft s', s.take tid w exec = .ok (tickle, ft, s') ∧
      Takes (tid w) exec s.fibers ft s'.fibers ∧
      (ft = none → s' = s) ∧
      ∀ it, ft = some it → s' = { s with
        fibers := s'.fibers
        activateThreadCount := s.activateThreadCount + 1
        held := Function.update s.held w (some it)
        taken := s.taken ++ [(it, w)] } := by
  obtain ⟨tickle, ft, rest, hscan, htakes⟩ := scan_takes (tid w) exec s.fibers h
  unfold take
  rw [hscan]
  cases ft with
  | none =>
      obtain ⟨rfl, hnone⟩ := htakes
      exact ⟨tickle, none, s, rfl, ⟨rfl, hnone⟩, fun _ => rfl, nofun⟩
  | some it =>
      refine ⟨tickle, some it, _, rfl, htakes, nofun, fun it' hit => ?_⟩
      cases hit
      rfl

theorem Accounted.take {s s' : Scheduler n} (h : s.Accounted) {tid : Fin n → Int} {w : Fin n}
    {exec : FiberAndThread → Bool} {tickle : Bool} {ft : Option FiberAndThread}
    (hw : s.held w = none) (ht : s.take tid w exec = .ok (tickle, ft, s')) : s'.Accounted := by
  obtain ⟨_, _, s'', ht', htakes, hnone, hsome⟩ := take_takes h.isTask tid w exec
  rw [ht] at ht'
  cases ht'
  cases ft with
  | none =>
      rw [hnone rfl]
      exact h
  | some it =>
      obtain ⟨before, after, hqueue, hrest, -, -⟩ := htakes
      rw [hsome it rfl, hrest]
      refine ⟨?_, h.numbered, h.tasks, fun w' ft' hft' => ?_, ?_⟩
      · -- the entry moves from the middle of the queue to the end of the history
        have hmove : (before ++ after ++ (s.taken.map Prod.fst ++ [it])).Perm
            (before ++ it :: after ++ s.taken.map Prod.fst) := by
          refine List.Perm.trans ?_ (List.Perm.append_right _ List.perm_middle.symm)
          rw [← List.append_assoc]
          exact List.perm_append_comm
        rw [List.map_append]
        refine hmove.trans ?_
        rw [← hqueue]
        exact h.conserved
      · change Function.update s.held w (some it) w' = some ft' at hft'
        by_cases hww : w' = w
        · subst hww
          rw [Function.update_self] at hft'
          cases hft'
          exact List.mem_append_right _ (List.mem_singleton.2 rfl)
        · rw [Function.update_of_ne hww] at hft'
          exact List.mem_append_left _ (h.held w' ft' hft')
      · have hactive : (Finset.univ.filter fun w' =>
            (Function.update s.held w (some it) w').isSome = true) = insert w s.active := by
          ext w'
          by_cases hww : w' = w <;> simp [hww]
        rw [hactive, Finset.card_insert_of_notMem (by simp [hw]), h.count]
        rfl

theorem Accounted.decrement {s : Scheduler n} (h : s.Accounted) {w : Fin n}
    {ft : FiberAndThread} (hw : s.held w = some ft) : (s.decrement w).Accounted := by
  refine ⟨h.conserved, h.numbered, h.tasks, fun w' ft' hft' => ?_, ?_⟩
  · change Function.update s.held w none w' = some ft' at hft'
    by_cases hww : w' = w
    · subst hww
      rw [Function.update_self] at hft'
      cases hft'
    · rw [Function.update_of_ne hww] at hft'
      exact h.held w' ft' hft'
  · have hactive : (Finset.univ.filter fun w' =>
        (Function.update s.held w none w').isSome = true) = s.active.erase w := by
      ext w'
      by_cases hww : w' = w <;> simp [hww]
    have hmem : w ∈ s.active := by simp [hw]
    have hpos := Finset.card_pos.2 ⟨w, hmem⟩
    have hcount : s.activateThreadCount = s.active.card := h.count
    change s.activateThreadCount - 1 = ((Finset.univ.filter fun w' =>
      (Function.update s.held w none w').isSome = true).card : Int)
    rw [hactive, Finset.card_erase_of_mem hmem, hcount]
    omega

theorem Step.accounted {tid : Fin n → Int} {s s' : Scheduler n} {op : Op n} (h : s.Accounted)
    (hs : Step tid s op s') : s'.Accounted := by
  cases hs with
  | schedule arg thread => exact h.scheduleNoLock arg thread
  | scheduleAll fcs => exact h.scheduleAll fcs
  | take hw ht => exact h.take hw ht
  | decrement hw => exact h.decrement hw

theorem accounted_of_run {tid : Fin n → Int} {ops : List (Op n)} {s : Scheduler n}
    (h : Transition.Run (Step tid) init ops s) : s.Accounted :=
  h.invariant (fun _ _ _ hs hstep => hstep.accounted hs) init_accounted

end Scheduler

end Sylar.Io
