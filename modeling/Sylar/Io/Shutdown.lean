import Mathlib.Algebra.BigOperators.Pi
import Mathlib.Algebra.Order.BigOperators.Group.Finset
import Sylar.Io.FiberRuns

/-!
# Workers that leave `run`

A worker that finds nothing to run enters its idle fiber, which asks `stopping`
each time it is entered. Once the answer was yes the fiber is finished, and the
worker leaves the loop at its next scan that finds nothing. A thread that called
the constructor with `use_caller` enters the loop only inside of `stop`, if
`stopping` does not hold there already.

`stopping` can hold too early, while a fiber that came back `READY` is not in the
queue again. The worker that puts it there is still in its loop then.

`IOManager` asks for more in `stopping` and submits tasks from its idle fiber; both
are allowed here. After `stop` only workers submit. The scan and the step into or
out of the idle fiber that follows it are one step, as nothing that the others see
lies between them but the counter of idle workers.
-/

namespace Sylar.Io

open Sylar.Lib

/-- Where a worker stands with its idle fiber. -/
inductive IdlePhase where
  /-- The caller's thread, before `stop`. -/
  | waiting
  | looping
  /-- Inside of the idle fiber, before it asks `stopping`. -/
  | checking
  /-- Inside of the idle fiber, after the answer no. -/
  | polling
  /-- In the loop, with a finished idle fiber. -/
  | ended
  | left
  deriving DecidableEq, Repr

namespace IdlePhase

def inLoop : IdlePhase → Bool
  | looping | ended => true
  | waiting | checking | polling | left => false

/-- Whether the worker counts as idle. -/
def idlers : IdlePhase → Int
  | checking | polling => 1
  | waiting | looping | ended | left => 0

/-- The steps to the end that a worker has at most, if it finds no task. -/
def weight : IdlePhase → Nat
  | polling => 4
  | looping => 3
  | checking => 2
  | waiting | ended => 1
  | left => 0

end IdlePhase

/-- The worker that does a step, for the steps inside of `run`. -/
def Machine.Act.worker {n : Nat} : Machine.Act n → Option (Fin n)
  | .take w | .load w _ | .enter w | .arm w | .yield w _ | .switchOut w | .decrement w
  | .settle w => some w
  | .submit _ _ | .stop => none

/-- The machine, with the idle fibers and `m_idleThreadCount`. -/
structure Workers (n : Nat) where
  machine : Machine n
  phase : Fin n → IdlePhase
  idleThreadCount : Int

namespace Workers

variable {n : Nat}

/-- The workers after `start`; `root` is the caller's thread, if it takes part. -/
def init (root : Option (Fin n)) : Workers n where
  machine := .init
  phase w := if root = some w then .waiting else .looping
  idleThreadCount := 0

/-- A worker goes on to a phase. The counter of idle workers follows. -/
def move (w : Fin n) (p : IdlePhase) (s : Workers n) : Workers n :=
  { s with
    phase := Function.update s.phase w p
    idleThreadCount := s.idleThreadCount + p.idlers - (s.phase w).idlers }

/-- The idle fiber asks `stopping`; `quiet` is what `IOManager` asks before that. -/
def check (w : Fin n) (quiet : Bool) (s : Workers n) : Workers n :=
  s.move w (if quiet && s.machine.stopping then .ended else .polling)

/-- Who may submit: any thread before `stop`, then the tasks and the idle fibers. -/
def Submits (s : Workers n) : Option (Fin n) → Prop
  | none => s.machine.stopped = false
  | some w => s.phase w = .polling ∨ ∃ f b, s.machine.pc w = .running f b

inductive Act (n : Nat) where
  | work (a : Machine.Act n)
  | submit (who : Option (Fin n)) (arg : ScheduleArg) (thread : Int)
  | stop
  | idle (w : Fin n)
  | check (w : Fin n) (quiet : Bool)
  | resume (w : Fin n)
  | leave (w : Fin n)
  | call (w : Fin n)
  | skip (w : Fin n)
  deriving DecidableEq, Repr

/-- The scan of the worker finds nothing. -/
def FindsNothing (tid : Fin n → Int) (s : Workers n) (w : Fin n) : Prop :=
  s.machine.pc w = .free ∧
    ∃ tickle sched, s.machine.sched.take tid w s.machine.execs = .ok (tickle, none, sched)

inductive Step (tid : Fin n → Int) : Workers n → Act n → Workers n → Prop
  | work {s : Workers n} {m : Machine n} {a : Machine.Act n} {w : Fin n}
      (hw : a.worker = some w) (hphase : (s.phase w).inLoop = true)
      (h : Machine.Step tid s.machine a m) : Step tid s (.work a) { s with machine := m }
  | submit {s : Workers n} {who : Option (Fin n)} (arg : ScheduleArg) (thread : Int)
      (h : s.Submits who) :
      Step tid s (.submit who arg thread) { s with machine := s.machine.submit arg thread }
  | stop {s : Workers n} (h : s.machine.stopped = false) :
      Step tid s .stop { s with machine := { s.machine with stopped := true } }
  | idle {s : Workers n} {w : Fin n} (hphase : s.phase w = .looping)
      (hscan : s.FindsNothing tid w) : Step tid s (.idle w) (s.move w .checking)
  | check {s : Workers n} {w : Fin n} (quiet : Bool) (hphase : s.phase w = .checking) :
      Step tid s (.check w quiet) (s.check w quiet)
  | resume {s : Workers n} {w : Fin n} (hphase : s.phase w = .polling) :
      Step tid s (.resume w) (s.move w .looping)
  | leave {s : Workers n} {w : Fin n} (hphase : s.phase w = .ended)
      (hscan : s.FindsNothing tid w) : Step tid s (.leave w) (s.move w .left)
  | call {s : Workers n} {w : Fin n} (hphase : s.phase w = .waiting)
      (hstop : s.machine.stopped = true) (hmore : s.machine.stopping = false) :
      Step tid s (.call w) (s.move w .looping)
  | skip {s : Workers n} {w : Fin n} (hphase : s.phase w = .waiting)
      (hdone : s.machine.stopping = true) : Step tid s (.skip w) (s.move w .left)

end Workers

/-! ### What the steps of the machine keep -/

namespace Machine

variable {n : Nat} {tid : Fin n → Int} {m m' : Machine n} {a : Act n}

theorem stopping_iff : m.stopping = true ↔
    m.stopped = true ∧ m.sched.fibers = [] ∧ m.sched.activateThreadCount = 0 := by
  simp only [stopping, Bool.and_eq_true, List.isEmpty_iff, beq_iff_eq, and_assoc]

/-- A worker does not move the others. -/
theorem Step.pc_of_ne (hs : Step tid m a m') {w w' : Fin n} (hw : a.worker = some w)
    (hne : w' ≠ w) : m'.pc w' = m.pc w' := by
  cases hs with
  | submit arg thread => cases hw
  | stop => cases hw
  | arm _ => rfl
  | settle _ =>
      cases hw
      rw [pc_settle, Function.update_of_ne hne]
  | take _ _ | load _ _ _ _ | enter _ _ | yield _ _ | switchOut _ | decrement _ =>
      cases hw
      exact Function.update_of_ne hne _ _

theorem Step.keeps_stopped (hs : Step tid m a m') (h : m.stopped = true) : m'.stopped = true := by
  cases hs with
  | submit arg thread => rwa [stopped_submit]
  | settle _ => rwa [stopped_settle]
  | stop => rfl
  | _ => exact h

/-- A fiber in state `EXEC` is being run. -/
def Executed (m : Machine n) : Prop := ∀ f, m.state f = .EXEC → ∃ w b, m.pc w = .running f b

/-- A worker that runs nothing moves, and no fiber comes to be in state `EXEC`. -/
theorem Executed.of_worker (h : m.Executed) {w : Fin n} {pc : Pc}
    (hpc : m'.pc = Function.update m.pc w pc) (hidle : ∀ f b, m.pc w ≠ .running f b)
    (hstate : ∀ f, m'.state f = .EXEC → m.state f = .EXEC) : m'.Executed := by
  intro f hf
  obtain ⟨w', b, hrun⟩ := h f (hstate f hf)
  have hne : w' ≠ w := by
    rintro rfl
    exact hidle f b hrun
  exact ⟨w', b, by rw [hpc, Function.update_of_ne hne, hrun]⟩

/-- A worker starts or ends the run of a fiber. -/
theorem Executed.of_fiber (h : m.Executed) {w : Fin n} {f : Nat} {st : FiberState} {pc : Pc}
    (hw : ∀ f' b, m.pc w = .running f' b → f' = f)
    (hf : st = .EXEC → ∃ b, pc = .running f b) :
    ((m.setState f st).setPc w pc).Executed := by
  intro f' hf'
  change Function.update m.state f st f' = .EXEC at hf'
  change ∃ w' b, Function.update m.pc w pc w' = .running f' b
  by_cases hff : f' = f
  · subst hff
    rw [Function.update_self] at hf'
    obtain ⟨b, hb⟩ := hf hf'
    exact ⟨w, b, by rw [Function.update_self, hb]⟩
  · rw [Function.update_of_ne hff] at hf'
    obtain ⟨w', b, hrun⟩ := h f' hf'
    have hne : w' ≠ w := by
      rintro rfl
      exact hff (hw f' b hrun)
    exact ⟨w', b, by rw [Function.update_of_ne hne, hrun]⟩

theorem state_settle_ne_EXEC {w : Fin n} {f f' : Nat} {b : Branch}
    (h : (m.settle w f b).state f' = .EXEC) : m.state f' = .EXEC := by
  by_cases hf : f' = f
  · subst hf
    unfold settle at h
    dsimp only at h
    split at h <;> simp_all [Machine.setPc, setCbFiber, Machine.setState]
  · unfold settle at h
    dsimp only at h
    split at h <;> simpa [Machine.setPc, setCbFiber, Machine.setState, hf] using h

theorem Step.executed (hs : Step tid m a m') (h : m.Executed) : m'.Executed := by
  have hidle : ∀ {w : Fin n} {pc : Pc}, m.pc w = pc → (∀ f b, pc ≠ .running f b) →
      ∀ f b, m.pc w ≠ .running f b := by
    rintro w _ rfl hne
    exact hne
  cases hs with
  | submit arg thread =>
      intro f hf
      rw [state_submit] at hf
      obtain ⟨w, b, hrun⟩ := h f hf
      exact ⟨w, b, (congrArg View.pc (view_submit m arg thread w)).trans hrun⟩
  | take hpc _ => exact h.of_worker rfl (hidle hpc nofun) fun _ hf => hf
  | load hpc _ _ _ =>
      refine h.of_worker rfl (hidle hpc nofun) fun f' hf' => ?_
      change Function.update m.state _ .INIT f' = .EXEC at hf'
      rw [Function.update_apply] at hf'
      split at hf'
      · cases hf'
      · exact hf'
  | enter he _ =>
      refine h.of_fiber (fun f' b' hrun => absurd hrun ?_) fun _ => ⟨_, rfl⟩
      cases he with
      | fiber hpc _ _ _ => exact hidle hpc nofun f' b'
      | cb hpc => exact hidle hpc nofun f' b'
  | arm _ => exact h
  | yield hpc hst =>
      refine h.of_fiber (fun f' b' hrun => ?_) ?_
      · rw [hpc] at hrun
        cases hrun
        rfl
      · rintro rfl
        obtain hst | hst | hst := hst <;> cases hst
  | switchOut hpc => exact h.of_worker rfl (hidle hpc nofun) fun _ hf => hf
  | decrement hpc => exact h.of_worker rfl (hidle hpc nofun) fun _ hf => hf
  | settle hpc =>
      exact h.of_worker (pc_settle ..) (hidle hpc nofun) fun _ hf => state_settle_ne_EXEC hf
  | stop => exact h

/-- With all workers free, the scan of one passes over nothing but entries for one thread. -/
theorem take_none (hm : m.Manned) (hexec : m.Executed) (hfree : ∀ w, m.pc w = .free) {w : Fin n}
    {tickle : Bool} {sched : Scheduler n}
    (ht : m.sched.take tid w m.execs = .ok (tickle, none, sched)) :
    ∀ ft ∈ m.sched.fibers, ft.thread ≠ -1 := by
  obtain ⟨_, _, _, ht', htakes, -, -⟩ := Scheduler.take_takes hm.accounted.isTask tid w m.execs
  rw [ht] at ht'
  cases ht'
  intro ft hft hthread
  have hexecs : m.execs ft = false := by
    unfold execs
    split
    · next f _ =>
        refine beq_eq_false_iff_ne.mpr fun hf => ?_
        obtain ⟨w', b, hrun⟩ := hexec f hf
        rw [hfree w'] at hrun
        cases hrun
    · rfl
  exact htakes.2 ft hft ⟨.inl hthread, fun _ => hexecs⟩

end Machine

namespace Workers

variable {n : Nat} {tid : Fin n → Int} {s t : Workers n} {a : Act n} {w : Fin n}

theorem phase_move_self (s : Workers n) (w : Fin n) (p : IdlePhase) :
    (s.move w p).phase w = p := Function.update_self ..

theorem phase_move_of_ne {w' : Fin n} {p : IdlePhase} (hww : w' ≠ w) :
    (s.move w p).phase w' = s.phase w' := Function.update_of_ne hww ..

/-- One summand of a sum over the workers changes. -/
theorem sum_update {M : Type*} [AddCommMonoid M] (f : IdlePhase → M) (phase : Fin n → IdlePhase)
    (w : Fin n) (p : IdlePhase) :
    ∑ w', f (Function.update phase w p w') + f (phase w) = ∑ w', f (phase w') + f p := by
  have hrest : ∑ w' ∈ Finset.univ.erase w, f (Function.update phase w p w') =
      ∑ w' ∈ Finset.univ.erase w, f (phase w') :=
    Finset.sum_congr rfl fun w' hw' => by rw [Function.update_of_ne (Finset.ne_of_mem_erase hw')]
  have hmem := Finset.mem_univ w
  rw [← Finset.add_sum_erase _ _ hmem, ← Finset.add_sum_erase _ (fun w' => f (phase w')) hmem,
    hrest, Function.update_self]
  ac_rfl

/-- The invariant of runs: a worker outside of the loop has nothing to do, a worker that has
seen its idle fiber end has seen `stop`, and the last one to leave leaves no entry that is for
any thread. -/
structure Inv (s : Workers n) : Prop where
  manned : s.machine.Manned
  executed : s.machine.Executed
  free : ∀ w, (s.phase w).inLoop = false → s.machine.pc w = .free
  stopped : ∀ w, s.phase w = .ended ∨ s.phase w = .left → s.machine.stopped = true
  idle : s.idleThreadCount = ∑ w, (s.phase w).idlers
  drained : (∀ w, s.phase w = .left) → ∀ ft ∈ s.machine.sched.fibers, ft.thread ≠ -1

/-- A worker that is free moves. -/
theorem Inv.move (h : s.Inv) {p : IdlePhase} (hpc : s.machine.pc w = .free)
    (hstop : p = .ended ∨ p = .left → s.machine.stopped = true)
    (hdrained : (∀ w', w' ≠ w → s.phase w' = .left) → p = .left →
      ∀ ft ∈ s.machine.sched.fibers, ft.thread ≠ -1) : (s.move w p).Inv := by
  refine ⟨h.manned, h.executed, fun w' hw' => ?_, fun w' hw' => ?_, ?_, fun hleft => ?_⟩
  · by_cases hww : w' = w
    · rw [hww]
      exact hpc
    · rw [phase_move_of_ne hww] at hw'
      exact h.free w' hw'
  · by_cases hww : w' = w
    · rw [hww, phase_move_self] at hw'
      exact hstop hw'
    · rw [phase_move_of_ne hww] at hw'
      exact h.stopped w' hw'
  · have hsum := sum_update IdlePhase.idlers s.phase w p
    have hcount := h.idle
    change s.idleThreadCount + p.idlers - (s.phase w).idlers =
      ∑ w', (Function.update s.phase w p w').idlers
    omega
  · refine hdrained (fun w' hww => ?_) ((phase_move_self s w p).symm.trans (hleft w))
    exact (phase_move_of_ne hww).symm.trans (hleft w')

/-- Somebody who has not left changes the machine. -/
theorem Inv.setMachine (h : s.Inv) {m : Machine n} (hm : m.Manned) (hexec : m.Executed)
    (hpc : ∀ w, (s.phase w).inLoop = false → m.pc w = s.machine.pc w)
    (hstop : s.machine.stopped = true → m.stopped = true)
    (hstays : ¬ ∀ w, s.phase w = .left) : { s with machine := m }.Inv :=
  ⟨hm, hexec, fun w hw => (hpc w hw).trans (h.free w hw), fun w hw => hstop (h.stopped w hw),
    h.idle, fun hleft => absurd hleft hstays⟩

theorem Step.inv (hn : 0 < n) (hs : Step tid s a t) (h : s.Inv) : t.Inv := by
  -- once all have left, `stop` was called, so there is nobody who could submit or call it
  have hstopped : (∀ w, s.phase w = .left) → s.machine.stopped = true := fun hleft =>
    h.stopped ⟨0, hn⟩ (.inr (hleft _))
  have hfree : ∀ {w p}, s.phase w = p → p.inLoop = false → s.machine.pc w = .free := by
    rintro w _ rfl hp
    exact h.free w hp
  cases hs with
  | @work m a w hw hphase hstep =>
      refine h.setMachine (hstep.manned h.manned) (hstep.executed h.executed) (fun w' hw' => ?_)
        hstep.keeps_stopped fun hleft => ?_
      · refine hstep.pc_of_ne hw ?_
        rintro rfl
        rw [hphase] at hw'
        cases hw'
      · rw [hleft w] at hphase
        cases hphase
  | @submit who arg thread hwho =>
      have hstep : Machine.Step tid s.machine _ _ := .submit arg thread
      refine h.setMachine (hstep.manned h.manned) (hstep.executed h.executed)
        (fun w _ => congrArg Machine.View.pc (Machine.view_submit s.machine arg thread w))
        hstep.keeps_stopped fun hleft => ?_
      cases who with
      | none => cases (hstopped hleft).symm.trans hwho
      | some w =>
          obtain hwho | ⟨f, b, hwho⟩ := hwho
          · rw [hleft w] at hwho
            cases hwho
          · rw [hfree (hleft w) rfl] at hwho
            cases hwho
  | stop hstop =>
      have hstep : Machine.Step tid s.machine _ _ := .stop
      refine h.setMachine (hstep.manned h.manned) (hstep.executed h.executed) (fun _ _ => rfl)
        (fun _ => rfl) fun hleft => ?_
      cases (hstopped hleft).symm.trans hstop
  | idle _ hscan => exact h.move hscan.1 (by rintro (hp | hp) <;> cases hp) nofun
  | check quiet hphase =>
      refine h.move (hfree hphase rfl) (fun hp => ?_) fun _ hp => ?_
      · by_cases hasked : (quiet && s.machine.stopping) = true
        · exact (Machine.stopping_iff.mp (Bool.and_eq_true_iff.mp hasked).2).1
        · rw [if_neg hasked] at hp
          obtain hp | hp := hp <;> cases hp
      · split at hp <;> cases hp
  | resume hphase =>
      exact h.move (hfree hphase rfl) (by rintro (hp | hp) <;> cases hp) nofun
  | @leave w hphase hscan =>
      obtain ⟨hpc, tickle, sched, ht⟩ := hscan
      refine h.move hpc (fun _ => h.stopped w (.inl hphase)) fun hothers _ ft hft => ?_
      have hall : ∀ w', s.machine.pc w' = .free := by
        intro w'
        by_cases hww : w' = w
        · rw [hww]
          exact hpc
        · exact hfree (hothers w' hww) rfl
      exact Machine.take_none h.manned h.executed hall ht ft hft
  | call hphase _ _ =>
      exact h.move (hfree hphase rfl) (by rintro (hp | hp) <;> cases hp) nofun
  | skip hphase hdone =>
      obtain ⟨hstop, hqueue, -⟩ := Machine.stopping_iff.mp hdone
      refine h.move (hfree hphase rfl) (fun _ => hstop) fun _ _ ft hft => ?_
      rw [hqueue] at hft
      cases hft

theorem init_inv (hn : 0 < n) (root : Option (Fin n)) : (init root).Inv := by
  have hphase : ∀ w, (init root).phase w = .waiting ∨ (init root).phase w = .looping := by
    intro w
    simp only [init]
    split
    · exact .inl rfl
    · exact .inr rfl
  refine ⟨Machine.init_manned, fun _ hf => (by cases hf), fun _ _ => rfl, fun w hw => ?_, ?_,
    fun hleft => ?_⟩
  · obtain h | h := hphase w <;> (rw [h] at hw; obtain hw | hw := hw <;> cases hw)
  · refine (Finset.sum_eq_zero fun w _ => ?_).symm
    obtain h | h := hphase w <;> rw [h] <;> rfl
  · obtain h | h := hphase ⟨0, hn⟩ <;> cases h.symm.trans (hleft _)

theorem inv_of_run (hn : 0 < n) {root : Option (Fin n)} {acts : List (Act n)}
    (h : Transition.Run (Step tid) (init root) acts s) : s.Inv :=
  h.invariant (fun _ _ _ hs hstep => hstep.inv hn hs) (init_inv hn root)

theorem Inv.held (h : s.Inv) (hpc : s.machine.pc w = .free) : s.machine.sched.held w = none :=
  Option.not_isSome_iff_eq_none.mp (by rw [h.manned.isSome hpc]; exact Bool.false_ne_true)

theorem Inv.activateThreadCount (h : s.Inv) (hfree : ∀ w, s.machine.pc w = .free) :
    s.machine.sched.activateThreadCount = 0 := by
  rw [h.manned.accounted.count, Int.natCast_eq_zero, Finset.card_eq_zero,
    Finset.filter_eq_empty_iff]
  intro w _
  rw [h.held (hfree w)]
  exact Bool.false_ne_true

end Workers

/-- An entry that is in the history once was taken by one worker. -/
theorem Scheduler.Accounted.taken_unique {n : Nat} {s : Scheduler n} (h : s.Accounted)
    {ft : FiberAndThread} {w w' : Fin n} (hw : (ft, w) ∈ s.taken) (hw' : (ft, w') ∈ s.taken) :
    w' = w := by
  have hids : (s.submitted.map FiberAndThread.id).Nodup := h.numbered ▸ List.nodup_range
  have hall : (s.fibers ++ s.taken.map Prod.fst).Nodup := h.conserved.nodup_iff.2 hids.of_map
  exact congrArg Prod.snd (List.inj_on_of_nodup_map hall.of_append_right hw' hw rfl)

namespace Workers

variable {n : Nat} {tid : Fin n → Int} {s t : Workers n} {a : Act n}

/-- The steps of workers that find no task and no reason to wait. -/
def Act.Quiet : Act n → Prop
  | .submit .. => False
  | .check _ quiet => quiet = true
  | _ => True

def QuietStep (tid : Fin n → Int) (s : Workers n) (a : Act n) (t : Workers n) : Prop :=
  a.Quiet ∧ Step tid s a t

/-- `stop` was called and all work is done. -/
structure Idle (s : Workers n) : Prop where
  stopping : s.machine.stopping = true
  free : ∀ w, s.machine.pc w = .free

/-- The steps that the workers still have. -/
def remaining (s : Workers n) : Nat := ∑ w, (s.phase w).weight

theorem remaining_le (s : Workers n) : s.remaining ≤ 4 * n := by
  have hweight : ∀ p : IdlePhase, p.weight ≤ 4 := by
    intro p
    cases p <;> decide
  calc
    s.remaining ≤ ∑ _w : Fin n, 4 := Finset.sum_le_sum fun w _ => hweight (s.phase w)
    _ = 4 * n := by simp [Nat.mul_comm]

theorem Idle.move (h : s.Idle) {w : Fin n} {p q : IdlePhase} (hphase : s.phase w = q)
    (hlt : p.weight < q.weight) :
    (s.move w p).Idle ∧ (s.move w p).remaining < s.remaining := by
  refine ⟨⟨h.stopping, h.free⟩, ?_⟩
  have hsum := sum_update IdlePhase.weight s.phase w p
  rw [hphase] at hsum
  change ∑ w', (Function.update s.phase w p w').weight < ∑ w', (s.phase w').weight
  omega

/-- A worker that is free can do nothing but take a task, and there is none. -/
theorem Idle.not_work (h : s.Idle) {m : Machine n} {a : Machine.Act n} {w : Fin n}
    (hw : a.worker = some w) (hs : Machine.Step tid s.machine a m) : False := by
  have hqueue := (Machine.stopping_iff.mp h.stopping).2.1
  cases hs with
  | submit arg thread => cases hw
  | stop => cases hw
  | take _ ht =>
      rw [Scheduler.take, hqueue] at ht
      cases ht
  | enter he _ =>
      cases he with
      | fiber hpc _ _ _ => cases (h.free _).symm.trans hpc
      | cb hpc => cases (h.free _).symm.trans hpc
  | load hpc _ _ _ | arm hpc | yield hpc _ | switchOut hpc | decrement hpc | settle hpc =>
      cases (h.free _).symm.trans hpc

theorem QuietStep.idle (hs : QuietStep tid s a t) (h : s.Idle) :
    t.Idle ∧ t.remaining < s.remaining := by
  obtain ⟨hquiet, hs⟩ := hs
  obtain ⟨hstopped, -, -⟩ := Machine.stopping_iff.mp h.stopping
  cases hs with
  | work hw _ hstep => exact (h.not_work hw hstep).elim
  | submit arg thread _ => exact hquiet.elim
  | stop hstop => cases hstopped.symm.trans hstop
  | idle hphase _ => exact h.move hphase (by decide)
  | check quiet hphase =>
      have hasked : (quiet && s.machine.stopping) = true :=
        Bool.and_eq_true_iff.mpr ⟨hquiet, h.stopping⟩
      rw [Workers.check, if_pos hasked]
      exact h.move hphase (by decide)
  | resume hphase => exact h.move hphase (by decide)
  | leave hphase _ => exact h.move hphase (by decide)
  | call _ _ hmore => cases h.stopping.symm.trans hmore
  | skip hphase _ => exact h.move hphase (by decide)

/-- A worker that has not left has a step. -/
theorem Idle.step (h : s.Idle) (tid : Fin n → Int) {w : Fin n} (hw : s.phase w ≠ .left) :
    ∃ a t, QuietStep tid s a t := by
  have hscan : s.FindsNothing tid w := by
    refine ⟨h.free w, false, s.machine.sched, ?_⟩
    rw [Scheduler.take, (Machine.stopping_iff.mp h.stopping).2.1]
    rfl
  cases hphase : s.phase w with
  | waiting => exact ⟨.skip w, _, trivial, .skip hphase h.stopping⟩
  | looping => exact ⟨.idle w, _, trivial, .idle hphase hscan⟩
  | checking => exact ⟨.check w true, _, rfl, .check true hphase⟩
  | polling => exact ⟨.resume w, _, trivial, .resume hphase⟩
  | ended => exact ⟨.leave w, _, trivial, .leave hphase hscan⟩
  | left => exact absurd hphase hw

end Workers

end Sylar.Io
