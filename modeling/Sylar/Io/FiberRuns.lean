import Sylar.Io.FiberMachine

/-!
# Shutdown and finished fibers

`stopping` looks at the queue and at the counter of active workers. A worker is
counted until its fiber has switched back, but a fiber that came back `READY` is
put into the queue only after that.

`run` resumes what it takes from the queue: its test for finished fibers is true
of every state.
-/

namespace Sylar.Io

open Sylar.Lib

/-- The worker is between its take and its decrement. -/
def Pc.counted : Pc → Bool
  | free | settling .. => false
  | taken | loaded _ | running .. | leaving .. | returned .. => true

/-- The fiber of the worker yielded in state `READY` and is not in the queue yet. -/
def Pc.waitsReady : Pc → Bool
  | leaving _ _ st | returned _ _ st | settling _ _ st => st == .READY
  | free | taken | loaded _ | running .. => false

namespace Machine

variable {n : Nat}

/-- A worker has an entry exactly while it is counted, in every run. -/
structure Manned (m : Machine n) : Prop where
  accounted : m.sched.Accounted
  counted : ∀ w, (m.view w).ft.isSome = (m.view w).pc.counted

theorem Manned.of_worker {m m' : Machine n} (h : m.Manned) (w : Fin n)
    (hacc : m'.sched.Accounted) (hother : ∀ w', w' ≠ w → m'.view w' = m.view w')
    (hw : (m'.view w).ft.isSome = (m'.view w).pc.counted) : m'.Manned := by
  refine ⟨hacc, fun w' => ?_⟩
  by_cases hww : w' = w
  · subst hww
    exact hw
  · rw [hother w' hww]
    exact h.counted w'

theorem Manned.isSome {m : Machine n} (h : m.Manned) {w : Fin n} {pc : Pc} (hpc : m.pc w = pc) :
    (m.sched.held w).isSome = pc.counted := hpc ▸ h.counted w

/-- A worker goes on to a place that is counted alike. -/
theorem Manned.setPc {m : Machine n} (h : m.Manned) {w : Fin n} {pc pc' : Pc}
    (hpc : m.pc w = pc) (hc : pc'.counted = pc.counted) : (m.setPc w pc').Manned := by
  refine h.of_worker w h.accounted (fun w' hw' => by rw [view_setPc, if_neg hw']) ?_
  rw [view_setPc, if_pos rfl]
  exact (h.isSome hpc).trans hc.symm

theorem Manned.setState {m : Machine n} (h : m.Manned) (f : Nat) (st : FiberState) :
    (m.setState f st).Manned := ⟨h.accounted, h.counted⟩

theorem Manned.take {m : Machine n} (h : m.Manned) {tid : Fin n → Int} {w : Fin n}
    {tickle : Bool} {it : FiberAndThread} {sched : Scheduler n} (hpc : m.pc w = .free)
    (ht : m.sched.take tid w m.execs = .ok (tickle, some it, sched)) :
    ({ m with sched := sched }.setPc w .taken).Manned := by
  have hfree : m.sched.held w = none := by
    rw [← Option.not_isSome_iff_eq_none, h.isSome hpc]
    exact Bool.false_ne_true
  obtain ⟨_, _, _, ht', -, -, hsched⟩ := Scheduler.take_takes h.accounted.isTask tid w m.execs
  rw [ht] at ht'
  cases ht'
  have hheld : sched.held = Function.update m.sched.held w (some it) := by rw [hsched it rfl]
  refine h.of_worker w (h.accounted.take hfree ht) (fun w' hw' => ?_) ?_
  · simp only [view, Machine.setPc, hheld, Function.update_of_ne hw']
  · simp only [view, Machine.setPc, hheld, Function.update_self, Option.isSome_some, Pc.counted]

theorem Step.manned {tid : Fin n → Int} {m m' : Machine n} {a : Act n} (h : m.Manned)
    (hs : Step tid m a m') : m'.Manned := by
  cases hs with
  | submit arg thread =>
      refine ⟨sched_submit m arg thread ▸ h.accounted.scheduleNoLock arg thread, fun w => ?_⟩
      rw [view_submit]
      exact h.counted w
  | take hpc ht => exact h.take hpc ht
  | @load w f c ft hpc hft hc hf =>
      refine h.of_worker w h.accounted (fun w' hw' => ?_) ?_
      · simp only [view, Machine.load, Machine.setPc, setCbFiber, Machine.setState,
          Function.update_of_ne hw']
      · simp only [view, Machine.load, Machine.setPc, setCbFiber, Machine.setState,
          Function.update_self, hft, Option.isSome_some, Pc.counted]
  | enter he _ =>
      cases he with
      | fiber hpc _ _ _ => exact (h.setState _ _).setPc hpc rfl
      | cb hpc => exact (h.setState _ _).setPc hpc rfl
  | arm _ => exact ⟨h.accounted, h.counted⟩
  | yield hpc _ => exact (h.setState _ _).setPc hpc rfl
  | switchOut hpc => exact h.setPc hpc rfl
  | @decrement w f b st hpc =>
      obtain ⟨ft, hft⟩ := Option.isSome_iff_exists.1 (h.isSome hpc)
      refine h.of_worker w (h.accounted.decrement hft) (fun w' hw' => ?_) ?_
      · simp only [view, Machine.setPc, Scheduler.decrement, Function.update_of_ne hw']
      · simp only [view, Machine.setPc, Scheduler.decrement, Function.update_self,
          Option.isSome_none, Pc.counted]
  | @settle w f b st hpc =>
      obtain ⟨hother, hself⟩ := view_settle m w f b
      have hacc : (m.settle w f b).sched.Accounted := by
        obtain ⟨-, hsched⟩ | ⟨-, hsched⟩ := sched_settle m w f b
        · exact hsched ▸ h.accounted.scheduleNoLock _ _
        · exact hsched ▸ h.accounted
      have hsome := h.isSome hpc
      refine h.of_worker w hacc hother ?_
      obtain ⟨hself, -⟩ | ⟨hself, -⟩ := hself
      · rw [hself]
        exact hsome
      · rw [hself]
        exact hsome
  | stop => exact ⟨h.accounted, h.counted⟩

theorem init_manned : (init : Machine n).Manned :=
  ⟨Scheduler.init_accounted, fun _ => rfl⟩

def WaitsReady (m : Machine n) (w : Fin n) : Prop := (m.pc w).waitsReady = true

/-- No fiber yields `READY` after `stop`, and none that did is waiting when it is called. -/
def Quiet (m : Machine n) : Act n → Prop
  | .yield _ .READY => m.stopped = false
  | .stop => ∀ w, ¬ m.WaitsReady w
  | _ => True

def QuietStep (tid : Fin n → Int) (m : Machine n) (a : Act n) (m' : Machine n) : Prop :=
  m.Quiet a ∧ Step tid m a m'

theorem pc_settle (m : Machine n) (w : Fin n) (f : Nat) (b : Branch) :
    (m.settle w f b).pc = Function.update m.pc w .free := by
  unfold settle
  dsimp only
  split <;> rfl

/-- When one worker moves, the others wait as before. -/
theorem WaitsReady.of_update {m m' : Machine n} {w w₀ : Fin n} {pc : Pc} (h : m'.WaitsReady w)
    (hpc : m'.pc = Function.update m.pc w₀ pc) :
    m.WaitsReady w ∨ (w = w₀ ∧ pc.waitsReady = true) := by
  unfold WaitsReady at h ⊢
  rw [hpc, Function.update_apply] at h
  split at h
  · next hw => exact .inr ⟨hw, h⟩
  · exact .inl h

/-- A worker comes to wait only by the yield of its fiber. -/
theorem Step.waitsReady {tid : Fin n → Int} {m m' : Machine n} {a : Act n} (hs : Step tid m a m')
    {w : Fin n} (h : m'.WaitsReady w) : m.WaitsReady w ∨ a = .yield w .READY := by
  cases hs with
  | submit arg thread =>
      have hpc : (m.submit arg thread).pc w = m.pc w :=
        congrArg View.pc (view_submit m arg thread w)
      rw [WaitsReady, hpc] at h
      exact .inl h
  | take _ _ =>
      obtain h | ⟨-, h⟩ := h.of_update rfl
      · exact .inl h
      · cases h
  | load _ _ _ _ =>
      obtain h | ⟨-, h⟩ := h.of_update rfl
      · exact .inl h
      · cases h
  | enter _ _ =>
      obtain h | ⟨-, h⟩ := h.of_update rfl
      · exact .inl h
      · cases h
  | arm _ => exact .inl h
  | yield _ _ =>
      obtain h | ⟨rfl, hready⟩ := h.of_update rfl
      · exact .inl h
      · rw [beq_iff_eq.1 hready]
        exact .inr rfl
  | switchOut hpc =>
      obtain h | ⟨rfl, hready⟩ := h.of_update rfl
      · exact .inl h
      · refine .inl ?_
        rw [WaitsReady, hpc]
        exact hready
  | decrement hpc =>
      obtain h | ⟨rfl, hready⟩ := h.of_update rfl
      · exact .inl h
      · refine .inl ?_
        rw [WaitsReady, hpc]
        exact hready
  | settle _ =>
      obtain h | ⟨-, h⟩ := h.of_update (pc_settle ..)
      · exact .inl h
      · cases h
  | stop => exact .inl h

theorem stopped_settle (m : Machine n) (w : Fin n) (f : Nat) (b : Branch) :
    (m.settle w f b).stopped = m.stopped := by
  unfold settle
  dsimp only
  split <;> rfl

theorem stopped_submit (m : Machine n) (arg : ScheduleArg) (thread : Int) :
    (m.submit arg thread).stopped = m.stopped := by
  unfold submit
  dsimp only
  split <;> rfl

theorem Step.stopped {tid : Fin n → Int} {m m' : Machine n} {a : Act n} (hs : Step tid m a m')
    (h : m'.stopped = true) : m.stopped = true ∨ a = .stop := by
  cases hs with
  | submit arg thread => exact .inl (stopped_submit m arg thread ▸ h)
  | settle _ => exact .inl (stopped_settle m _ _ _ ▸ h)
  | stop => exact .inr rfl
  | _ => exact .inl h

/-- Once `stop` was called, no fiber waits to be put into the queue. -/
structure Drained (m : Machine n) : Prop where
  manned : m.Manned
  quiet : m.stopped = true → ∀ w, ¬ m.WaitsReady w

theorem QuietStep.drained {tid : Fin n → Int} {m m' : Machine n} {a : Act n} (h : m.Drained)
    (hs : QuietStep tid m a m') : m'.Drained := by
  obtain ⟨hquiet, hs⟩ := hs
  refine ⟨hs.manned h.manned, fun hstop w hw => ?_⟩
  obtain hw | rfl := hs.waitsReady hw
  · obtain hstop | rfl := hs.stopped hstop
    · exact h.quiet hstop w hw
    · exact hquiet w hw
  · obtain hstop | hstop := hs.stopped hstop
    · rw [show m.stopped = false from hquiet] at hstop
      cases hstop
    · cases hstop

theorem init_drained : (init : Machine n).Drained :=
  ⟨init_manned, fun h => by cases h⟩

end Machine

/-- In every run in which no fiber yields `READY` from `stop` on or waits for the queue when it
is called, `stopping` is true only if the queue is empty, no worker has a task, and no fiber
waits to be put into the queue. -/
theorem quiet_runs_stop_clean {n : Nat} (tid : Fin n → Int) (acts : List (Machine.Act n))
    (m : Machine n) (h : Transition.Run (Machine.QuietStep tid) Machine.init acts m)
    (hstopping : m.stopping = true) :
    m.sched.fibers = [] ∧ (∀ w, m.sched.held w = none) ∧ (∀ f w, ¬ m.Executes w f) ∧
      ∀ w, ¬ m.WaitsReady w := by
  have hm : m.Drained := h.invariant (fun _ _ _ hm hs => hs.drained hm) Machine.init_drained
  simp only [Machine.stopping, Bool.and_eq_true, List.isEmpty_iff, beq_iff_eq] at hstopping
  obtain ⟨⟨hstop, hqueue⟩, hcount⟩ := hstopping
  have hheld : ∀ w, m.sched.held w = none := by
    intro w
    have hcard := hm.manned.accounted.count
    rw [hcount] at hcard
    have hempty := Finset.card_eq_zero.1 (Int.natCast_eq_zero.1 hcard.symm)
    have hnot := Finset.filter_eq_empty_iff.1 hempty (Finset.mem_univ w)
    exact Option.not_isSome_iff_eq_none.1 hnot
  refine ⟨hqueue, hheld, fun f w hw => ?_, hm.quiet hstop⟩
  have hnone := hheld w
  cases hw with
  | running hpc =>
      have hsome := hm.manned.isSome hpc
      rw [hnone] at hsome
      cases hsome
  | leaving hpc =>
      have hsome := hm.manned.isSome hpc
      rw [hnone] at hsome
      cases hsome

/-- A fiber yields `READY` and is in the queue again and finished before `stop`. -/
theorem quiet_runs_stop_clean_finished :
    ∃ m : Machine 1,
      Transition.Run (Machine.QuietStep fun w => 10 + (w.val : Int)) Machine.init
        [.submit (.value (.fiber (some 5))) (-1), .take 0, .enter 0, .yield 0 .READY,
          .switchOut 0, .decrement 0, .settle 0, .stop, .take 0, .enter 0, .yield 0 .TERM,
          .switchOut 0, .decrement 0, .settle 0] m ∧
      m.stopping = true ∧ m.sched.fibers = [] ∧ ∀ w, ¬ m.WaitsReady w := by
  obtain ⟨m, h, hstop⟩ : ∃ m : Machine 1,
      Transition.Run (Machine.QuietStep fun w => 10 + (w.val : Int)) Machine.init
        [.submit (.value (.fiber (some 5))) (-1), .take 0, .enter 0, .yield 0 .READY,
          .switchOut 0, .decrement 0, .settle 0, .stop, .take 0, .enter 0, .yield 0 .TERM,
          .switchOut 0, .decrement 0, .settle 0] m ∧ m.stopping = true :=
    ⟨_, .cons ⟨trivial, .submit _ _⟩ (.cons ⟨trivial, .take rfl rfl⟩
      (.cons ⟨trivial, .enter (.fiber rfl rfl rfl rfl) nofun⟩
      (.cons ⟨rfl, .yield rfl (.inr (.inl rfl))⟩ (.cons ⟨trivial, .switchOut rfl⟩
      (.cons ⟨trivial, .decrement rfl⟩ (.cons ⟨trivial, .settle rfl⟩
      (.cons ⟨by unfold Machine.Quiet Machine.WaitsReady; decide +kernel, .stop⟩
      (.cons ⟨trivial, .take rfl rfl⟩
      (.cons ⟨trivial, .enter (.fiber rfl rfl rfl rfl) nofun⟩
      (.cons ⟨trivial, .yield rfl (.inr (.inr rfl))⟩ (.cons ⟨trivial, .switchOut rfl⟩
      (.cons ⟨trivial, .decrement rfl⟩ (.cons ⟨trivial, .settle rfl⟩ (.nil _)))))))))))))),
      rfl⟩
  obtain ⟨hqueue, -, -, hwaits⟩ := quiet_runs_stop_clean _ _ m h hstop
  exact ⟨m, h, hstop, hqueue, hwaits⟩

/-- The worker has decremented the counter and not yet put the fiber that came back `READY`
into the queue: `stopping` is true. -/
theorem stopping_with_ready_fiber :
    ∃ m : Machine 2,
      Transition.Run (Machine.Step fun w => 10 + (w.val : Int)) Machine.init
        [.submit (.value (.fiber (some 5))) (-1), .take 0, .enter 0, .stop, .yield 0 .READY,
          .switchOut 0, .decrement 0] m ∧
      m.stopping = true ∧ m.WaitsReady 0 :=
  ⟨_, .cons (.submit _ _) (.cons (.take rfl rfl) (.cons (.enter (.fiber rfl rfl rfl rfl) nofun)
    (.cons .stop (.cons (.yield rfl (.inr (.inl rfl))) (.cons (.switchOut rfl)
    (.cons (.decrement rfl) (.nil _))))))), rfl, rfl⟩

namespace Machine

variable {n : Nat}

/-- The worker has chosen to run the fiber and has not called `swapIn` yet. -/
def View.Due (v : View) (f : Nat) : Prop :=
  match v.pc with
  | .taken => ∃ ft, v.ft = some ft ∧ ft.fiber = some f
  | .loaded f' => f' = f
  | _ => False

/-- The fiber will be resumed from the place. -/
def Due (m : Machine n) (f : Nat) : Place n → Prop
  | .queue ft => ft ∈ m.sched.fibers ∧ ft.fiber = some f
  | .worker w => (m.view w).Due f

theorem due_worker {m : Machine n} {f : Nat} {w : Fin n} :
    m.Due f (.worker w) ↔ (m.view w).Due f := Iff.rfl

theorem Due.at {m : Machine n} {f : Nat} {p : Place n} (h : m.Due f p) : m.At f p := by
  cases p with
  | queue ft => exact h
  | worker w =>
      rw [due_worker, View.Due] at h
      rw [at_worker]
      split at h
      · exact .inr (.inr h)
      · next hpc => exact .inl (by rw [hpc, ← h]; rfl)
      · exact h.elim

theorem Enters.due {m : Machine n} {w : Fin n} {f : Nat} {b : Branch} (h : m.Enters w f b) :
    m.Due f (.worker w) := by
  cases h with
  | fiber hpc hft hf _ =>
      simp only [due_worker, View.Due, view, hpc]
      exact ⟨_, hft, Scheduler.path_eq_fiber hf⟩
  | cb hpc => simp only [due_worker, View.Due, view, hpc]

/-- A step of one worker after which that worker is not about to resume the fiber. -/
theorem Due.of_worker {m m' : Machine n} {f : Nat} {p : Place n} (h : m'.Due f p) (w : Fin n)
    (hq : ∀ ft ∈ m'.sched.fibers, ft.fiber = some f → ft ∈ m.sched.fibers)
    (hother : ∀ w', w' ≠ w → m'.view w' = m.view w') (hw : ¬ (m'.view w).Due f) :
    m.Due f p ∧ p ≠ .worker w := by
  cases p with
  | queue ft => exact ⟨⟨hq ft h.1 h.2, h.2⟩, nofun⟩
  | worker w' =>
      have hww : w' ≠ w := by
        rintro rfl
        exact hw h
      refine ⟨?_, fun he => hww (by cases he; rfl)⟩
      rwa [due_worker, hother w' hww] at h

theorem Due.of_setPc {m : Machine n} {f : Nat} {p : Place n} {w : Fin n} {pc : Pc}
    (h : (m.setPc w pc).Due f p) (hpc : ∀ cb ft, ¬ View.Due ⟨pc, cb, ft⟩ f) :
    m.Due f p ∧ p ≠ .worker w := by
  refine h.of_worker w (fun _ hft _ => hft) (fun w' hw' => by rw [view_setPc, if_neg hw']) ?_
  rw [view_setPc, if_pos rfl]
  exact hpc _ _

/-- No fiber that will be resumed has finished. -/
def Alive (m : Machine n) : Prop := ∀ f p, m.Due f p → (m.state f).finished = false

theorem Alive.of_due {m m' : Machine n} (h : m.Alive) (hstate : m'.state = m.state)
    (hdue : ∀ f p, m'.Due f p → ∃ p', m.Due f p') : m'.Alive := by
  intro f p hp
  obtain ⟨p', hp'⟩ := hdue f p hp
  rw [hstate]
  exact h f p' hp'

/-- The state of one fiber changes, which is unfinished then or will not be resumed. -/
theorem Alive.setState {m m' : Machine n} (h : m.Alive) (f₀ : Nat) (st : FiberState)
    (hstate : m'.state = Function.update m.state f₀ st)
    (hdue : ∀ f p, f ≠ f₀ → m'.Due f p → m.Due f p)
    (hf₀ : ∀ p, m'.Due f₀ p → st.finished = false) : m'.Alive := by
  intro f p hp
  by_cases hf : f = f₀
  · subst hf
    rw [hstate, Function.update_self]
    exact hf₀ p hp
  · rw [hstate, Function.update_of_ne hf]
    exact h f p (hdue f p hf hp)

theorem state_submit (m : Machine n) (arg : ScheduleArg) (thread : Int) :
    (m.submit arg thread).state = m.state := by
  unfold submit
  dsimp only
  split <;> rfl

theorem due_of_submit {m : Machine n} {arg : ScheduleArg} {thread : Int} {f : Nat} {p : Place n}
    (h : (m.submit arg thread).Due f p) : m.Due f p ∨ arg.content = .fiber (some f) := by
  cases p with
  | queue ft =>
      have hat : { m with sched := (m.sched.scheduleNoLock arg thread).2.2 }.At f (.queue ft) := by
        rw [← sched_submit]
        exact h
      exact (at_of_scheduleNoLock hat).imp id And.left
  | worker w =>
      refine .inl ?_
      rwa [due_worker, view_submit] at h

theorem Alive.take {m : Machine n} (h : m.Alive) (hm : m.Inv) {tid : Fin n → Int} {w : Fin n}
    {tickle : Bool} {it : FiberAndThread} {sched : Scheduler n}
    (ht : m.sched.take tid w m.execs = .ok (tickle, some it, sched)) :
    ({ m with sched := sched }.setPc w .taken).Alive := by
  obtain ⟨_, _, _, ht', htakes, -, hsched⟩ := Scheduler.take_takes hm.accounted.isTask tid w m.execs
  rw [ht] at ht'
  cases ht'
  obtain ⟨before, after, hqueue, hrest, -, -⟩ := htakes
  have hheld : sched.held = Function.update m.sched.held w (some it) := by rw [hsched it rfl]
  refine h.of_due rfl fun f p hp => ?_
  cases p with
  | queue ft =>
      obtain ⟨hft, hf⟩ := hp
      change ft ∈ sched.fibers at hft
      rw [hrest] at hft
      refine ⟨.queue ft, ?_, hf⟩
      rw [hqueue]
      exact List.mem_append.2 ((List.mem_append.1 hft).imp_right (List.mem_cons_of_mem it))
  | worker w' =>
      by_cases hww : w' = w
      · -- the entry was in the queue before
        subst hww
        simp only [due_worker, View.Due, view, Machine.setPc, hheld, Function.update_self] at hp
        obtain ⟨_, heq, hf⟩ := hp
        cases heq
        exact ⟨.queue it, by simp [hqueue], hf⟩
      · refine ⟨.worker w', ?_⟩
        simpa only [due_worker, view, Machine.setPc, hheld, Function.update_of_ne hww] using hp

/-- The worker writes the state only of a fiber that is unfinished afterwards. -/
theorem state_settle (m : Machine n) (w : Fin n) (f f' : Nat) (b : Branch) :
    (m.settle w f b).state f' = m.state f' ∨
      ((m.settle w f b).state f').finished = false := by
  by_cases hf : f' = f
  · subst hf
    unfold settle
    dsimp only
    split <;> simp_all [Machine.setPc, setCbFiber, Machine.setState, FiberState.finished]
  · refine .inl ?_
    unfold settle
    dsimp only
    split <;> simp [Machine.setPc, setCbFiber, Machine.setState, hf]

theorem Alive.settle {m : Machine n} (h : m.Alive) (w : Fin n) (f : Nat) (b : Branch) :
    (m.settle w f b).Alive := by
  intro f' p hp
  obtain hstate | hstate := state_settle m w f f' b
  · rw [hstate]
    obtain ⟨hother, hself⟩ := view_settle m w f b
    have hfree : ((m.settle w f b).view w).pc = .free := by
      obtain ⟨hself, -⟩ | ⟨hself, -⟩ := hself <;> rw [hself]
    have hnot : ¬ ((m.settle w f b).view w).Due f' := by
      unfold View.Due
      rw [hfree]
      exact id
    obtain ⟨hready, hsched⟩ | ⟨-, hsched⟩ := sched_settle m w f b
    · by_cases hf : f' = f
      · rw [hf, hready]
        rfl
      · refine h f' p (hp.of_worker w (fun ft hft hfiber => ?_) hother hnot).1
        rw [hsched] at hft
        refine (Scheduler.mem_scheduleNoLock hft).resolve_right ?_
        rintro rfl
        exact hf (Option.some.inj hfiber).symm
    · exact h f' p (hp.of_worker w (fun ft hft _ => hsched ▸ hft) hother hnot).1
  · exact hstate

/-- Fibers are submitted only where nothing refers to them, and before they have finished. -/
def Fresh (m : Machine n) (a : Act n) : Prop :=
  m.Calm a ∧ ∀ arg thread f, a = .submit arg thread → arg.content = .fiber (some f) →
    (m.state f).finished = false

def FreshStep (tid : Fin n → Int) (m : Machine n) (a : Act n) (m' : Machine n) : Prop :=
  m.Fresh a ∧ Step tid m a m'

theorem Step.alive {tid : Fin n → Int} {m m' : Machine n} {a : Act n} (hm : m.Inv)
    (h : m.Alive) (hfresh : m.Fresh a) (hs : Step tid m a m') : m'.Alive := by
  cases hs with
  | submit arg thread =>
      intro f p hp
      rw [state_submit]
      obtain hp | hc := due_of_submit hp
      · exact h f p hp
      · exact hfresh.2 arg thread f rfl hc
  | take _ ht => exact h.take hm ht
  | @load w f _ _ _ _ _ _ =>
      refine h.setState f .INIT rfl (fun f' p hf hp => ?_) fun _ _ => rfl
      refine (hp.of_worker (m := m) w (fun _ hft _ => hft) (fun w' hw' => ?_) ?_).1
      · simp only [view, Machine.load, Machine.setPc, setCbFiber, Machine.setState,
          Function.update_of_ne hw']
      · simp only [view, Machine.load, Machine.setPc, setCbFiber, Machine.setState,
          Function.update_self, View.Due]
        exact fun he => hf he.symm
  | @enter w f b _ _ =>
      refine h.setState f .EXEC rfl (fun f' p _ hp => ?_) fun _ _ => rfl
      exact (hp.of_setPc fun _ _ => id).1
  | arm _ => exact h
  | @yield w f b st hpc _ =>
      refine h.setState f st rfl (fun f' p _ hp => (hp.of_setPc fun _ _ => id).1) fun p hp => ?_
      -- the worker is the only place of the fiber, and it has just run it
      obtain ⟨hdue, hne⟩ := hp.of_setPc fun _ _ => id
      exact absurd (hm.unique f p (.worker w) hdue.at (Executes.running hpc).keeps) hne
  | switchOut _ => exact h.of_due rfl fun f p hp => ⟨p, (hp.of_setPc fun _ _ => id).1⟩
  | @decrement w f b st _ =>
      refine h.of_due rfl fun f' p hp => ⟨p, (hp.of_worker (m := m) w (fun _ hft _ => hft)
        (fun w' hw' => ?_) ?_).1⟩
      · simp only [view, Machine.setPc, Scheduler.decrement, Function.update_of_ne hw']
      · simp only [view, Machine.setPc, Function.update_self, View.Due, not_false_iff]
  | settle _ => exact h.settle _ _ _
  | stop => exact h

theorem init_alive : (init : Machine n).Alive := fun _ _ _ => rfl

theorem alive_of_run {tid : Fin n → Int} {acts : List (Act n)} {m : Machine n}
    (h : Transition.Run (FreshStep tid) init acts m) : m.Inv ∧ m.Alive := by
  refine h.invariant (P := fun m => m.Inv ∧ m.Alive) ?_ ⟨init_inv, init_alive⟩
  rintro m a m' ⟨hinv, halive⟩ ⟨hfresh, hs⟩
  exact ⟨hs.inv hinv hfresh.1, hs.alive hinv halive hfresh⟩

end Machine

/-- In every run that submits a fiber only while nothing refers to it and before it has
finished, `swapIn` is not called on a finished fiber. -/
theorem fresh_runs_resume_unfinished {n : Nat} (tid : Fin n → Int) (acts : List (Machine.Act n))
    (m : Machine n) (h : Transition.Run (Machine.FreshStep tid) Machine.init acts m) (w : Fin n)
    (f : Nat) (b : Branch) (he : m.Enters w f b) : (m.state f).finished = false :=
  (Machine.alive_of_run h).2 f _ he.due

/-- A fiber that was woken is about to be resumed. -/
theorem fresh_runs_resume_unfinished_woken :
    ∃ m : Machine 2,
      Transition.Run (Machine.FreshStep fun w => 10 + (w.val : Int)) Machine.init
        [.submit (.value (.fiber (some 5))) (-1), .take 0, .enter 0, .arm 0, .yield 0 .HOLD,
          .switchOut 0, .decrement 0, .settle 0, .submit (.pointer (.fiber (some 5))) (-1),
          .take 1] m ∧
      m.Enters 1 5 .fiber ∧ (m.state 5).finished = false := by
  obtain ⟨m, h, he⟩ : ∃ m : Machine 2,
      Transition.Run (Machine.FreshStep fun w => 10 + (w.val : Int)) Machine.init
        [.submit (.value (.fiber (some 5))) (-1), .take 0, .enter 0, .arm 0, .yield 0 .HOLD,
          .switchOut 0, .decrement 0, .settle 0, .submit (.pointer (.fiber (some 5))) (-1),
          .take 1] m ∧ m.Enters 1 5 .fiber :=
    ⟨_, .cons ⟨⟨fun f p _ => Machine.not_at_of_free rfl (fun _ => rfl) (fun _ => rfl)
        (fun _ => rfl) f p, by rintro _ _ _ ⟨⟩ ⟨⟩; rfl⟩, .submit _ _⟩
      (.cons ⟨⟨trivial, nofun⟩, .take rfl rfl⟩
      (.cons ⟨⟨trivial, nofun⟩, .enter (.fiber rfl rfl rfl rfl) nofun⟩
      (.cons ⟨⟨trivial, nofun⟩, .arm rfl⟩ (.cons ⟨⟨trivial, nofun⟩, .yield rfl (.inl rfl)⟩
      (.cons ⟨⟨trivial, nofun⟩, .switchOut rfl⟩ (.cons ⟨⟨trivial, nofun⟩, .decrement rfl⟩
      (.cons ⟨⟨trivial, nofun⟩, .settle rfl⟩
      (.cons ⟨⟨fun f p _ => Machine.not_at_of_free rfl (by decide +kernel) (by decide +kernel)
        (by decide +kernel) f p, by rintro _ _ _ ⟨⟩ ⟨⟩; rfl⟩, .submit _ _⟩
      (.cons ⟨⟨trivial, nofun⟩, .take rfl rfl⟩ (.nil _)))))))))), .fiber rfl rfl rfl rfl⟩
  exact ⟨m, h, he, fresh_runs_resume_unfinished _ _ m h 1 5 .fiber he⟩

/-- A fiber that is submitted twice finishes, and the second entry is taken: the test before
`swapIn` does not stop it. -/
theorem finished_fiber_is_resumed :
    ∃ m : Machine 1,
      Transition.Run (Machine.Step fun w => 10 + (w.val : Int)) Machine.init
        [.submit (.value (.fiber (some 5))) (-1), .submit (.value (.fiber (some 5))) (-1),
          .take 0, .enter 0, .yield 0 .TERM, .switchOut 0, .decrement 0, .settle 0, .take 0] m ∧
      m.Enters 0 5 .fiber ∧ m.state 5 = .TERM :=
  ⟨_, .cons (.submit _ _) (.cons (.submit _ _) (.cons (.take rfl rfl)
    (.cons (.enter (.fiber rfl rfl rfl rfl) nofun) (.cons (.yield rfl (.inr (.inr rfl)))
    (.cons (.switchOut rfl) (.cons (.decrement rfl) (.cons (.settle rfl)
    (.cons (.take rfl rfl) (.nil _))))))))), .fiber rfl rfl rfl rfl, rfl⟩

end Sylar.Io
