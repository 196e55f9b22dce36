import Sylar.Io.Scheduler

/-!
# Workers that switch between fibers

The loop of `Scheduler::run` over the task queue, with the states of the fibers
it runs. A fiber writes its state before its context is saved, and its worker
reads the state, and may write it, after the switch back; in between the fiber
may already be in the queue again, if something woke it.

Any thread may submit anything at any time. A worker's own callback fiber is an
object it keeps for the next callback, unless the callback yielded. The idle
fibers of the workers are never submitted and left out.
-/

namespace Sylar.Io

open Sylar.Lib

/-- `Fiber::State`. -/
inductive FiberState where
  | INIT
  | HOLD
  | EXEC
  | TERM
  | READY
  | EXCEPT
  deriving DecidableEq, Repr

/-- The function of the fiber has returned or thrown. -/
def FiberState.finished (st : FiberState) : Bool := st == .TERM || st == .EXCEPT

/-- The test of `run` before `swapIn`. -/
def FiberState.runTest (st : FiberState) : Bool := st != .TERM || st != .EXCEPT

/-- The branch of `run` in which a worker runs a fiber. -/
inductive Branch where
  | fiber
  | cb
  deriving DecidableEq, Repr

/-- Where a worker stands in the loop. From `leaving` on, the last argument is the state
that the fiber wrote before it switched out. -/
inductive Pc where
  | free
  | taken
  | loaded (f : Nat)
  | running (f : Nat) (b : Branch)
  | leaving (f : Nat) (b : Branch) (st : FiberState)
  | returned (f : Nat) (b : Branch) (st : FiberState)
  | settling (f : Nat) (b : Branch) (st : FiberState)
  deriving DecidableEq, Repr

/-- The fiber that a worker has chosen to run. -/
def Pc.fiber : Pc → Option Nat
  | free | taken => none
  | loaded f | running f _ | leaving f _ _ | returned f _ _ | settling f _ _ => some f

structure Machine (n : Nat) where
  sched : Scheduler n
  state : Nat → FiberState
  known : Nat → Bool
  armed : Nat → Bool
  pc : Fin n → Pc
  cbFiber : Fin n → Option Nat
  stopped : Bool

namespace Machine

variable {n : Nat}

def init : Machine n :=
  { sched := .init, state := fun _ => .INIT, known := fun _ => false, armed := fun _ => false
    pc := fun _ => .free, cbFiber := fun _ => none, stopped := false }

/-- `schedule` by any thread. -/
def submit (arg : ScheduleArg) (thread : Int) (m : Machine n) : Machine n :=
  let m := { m with sched := (m.sched.scheduleNoLock arg thread).2.2 }
  match arg.content with
  | .fiber (some f) =>
      { m with
        known := Function.update m.known f true
        armed := Function.update m.armed f false }
  | _ => m

/-- What the scan reads for an entry. -/
def execs (m : Machine n) (ft : FiberAndThread) : Bool :=
  match ft.fiber with
  | some f => m.state f == .EXEC
  | none => false

def setPc (w : Fin n) (pc : Pc) (m : Machine n) : Machine n :=
  { m with pc := Function.update m.pc w pc }

def setState (f : Nat) (st : FiberState) (m : Machine n) : Machine n :=
  { m with state := Function.update m.state f st }

def setCbFiber (w : Fin n) (f : Option Nat) (m : Machine n) : Machine n :=
  { m with cbFiber := Function.update m.cbFiber w f }

/-- `cb_fiber->reset(ft.cb)`, or a new fiber for the callback. -/
def load (w : Fin n) (f : Nat) (m : Machine n) : Machine n :=
  { (m.setState f .INIT).setCbFiber w (some f) with
    known := Function.update m.known f true }.setPc w (.loaded f)

/-- `swapIn`. -/
def enter (w : Fin n) (f : Nat) (b : Branch) (m : Machine n) : Machine n :=
  (m.setState f .EXEC).setPc w (.running f b)

/-- The worker looks at the state of the fiber after the switch back. -/
def settle (w : Fin n) (f : Nat) (b : Branch) (m : Machine n) : Machine n :=
  let m' :=
    match m.state f, b with
    | .READY, .fiber =>
        { m with sched := (m.sched.scheduleNoLock (.value (.fiber (some f))) (-1)).2.2 }
    | .READY, .cb =>
        { m with sched := (m.sched.scheduleNoLock (.value (.fiber (some f))) (-1)).2.2
          }.setCbFiber w none
    | .TERM, .fiber | .EXCEPT, .fiber => m
    | .TERM, .cb | .EXCEPT, .cb => m.setState f .INIT
    | _, .fiber => m.setState f .HOLD
    | _, .cb => (m.setState f .HOLD).setCbFiber w none
  m'.setPc w .free

/-- `Scheduler::stopping`. -/
def stopping (m : Machine n) : Bool :=
  m.stopped && m.sched.fibers.isEmpty && m.sched.activateThreadCount == 0

inductive Act (n : Nat) where
  | submit (arg : ScheduleArg) (thread : Int)
  | take (w : Fin n)
  | load (w : Fin n) (f : Nat)
  | enter (w : Fin n)
  | arm (w : Fin n)
  | yield (w : Fin n) (st : FiberState)
  | switchOut (w : Fin n)
  | decrement (w : Fin n)
  | settle (w : Fin n)
  | stop
  deriving DecidableEq, Repr

/-- The worker is about to call `swapIn` on the fiber. -/
inductive Enters (m : Machine n) (w : Fin n) : Nat → Branch → Prop
  | fiber {f : Nat} {ft : FiberAndThread} (hpc : m.pc w = .taken) (hft : m.sched.held w = some ft)
      (hf : Scheduler.path ft = .fiber f) (htest : (m.state f).runTest = true) : Enters m w f .fiber
  | cb {f : Nat} (hpc : m.pc w = .loaded f) : Enters m w f .cb

/-- The object that runs a callback: the worker's own, which must not be in use, or a new one. -/
def Loads (m : Machine n) (w : Fin n) (f : Nat) : Prop :=
  (m.cbFiber w = some f ∧ (m.state f = .INIT ∨ (m.state f).finished = true)) ∨
    (m.cbFiber w = none ∧ m.known f = false)

inductive Step (tid : Fin n → Int) : Machine n → Act n → Machine n → Prop
  | submit {m : Machine n} (arg : ScheduleArg) (thread : Int) :
      Step tid m (.submit arg thread) (m.submit arg thread)
  | take {m : Machine n} {w : Fin n} {tickle : Bool} {ft : FiberAndThread} {sched : Scheduler n}
      (hpc : m.pc w = .free) (ht : m.sched.take tid w m.execs = .ok (tickle, some ft, sched)) :
      Step tid m (.take w) ({ m with sched := sched }.setPc w .taken)
  | load {m : Machine n} {w : Fin n} {f c : Nat} {ft : FiberAndThread} (hpc : m.pc w = .taken)
      (hft : m.sched.held w = some ft) (hc : Scheduler.path ft = .cb c) (hf : m.Loads w f) :
      Step tid m (.load w f) (m.load w f)
  | enter {m : Machine n} {w : Fin n} {f : Nat} {b : Branch} (h : m.Enters w f b)
      (hexec : m.state f ≠ .EXEC) : Step tid m (.enter w) (m.enter w f b)
  | arm {m : Machine n} {w : Fin n} {f : Nat} {b : Branch} (hpc : m.pc w = .running f b) :
      Step tid m (.arm w) { m with armed := Function.update m.armed f true }
  | yield {m : Machine n} {w : Fin n} {f : Nat} {b : Branch} {st : FiberState}
      (hpc : m.pc w = .running f b) (hst : st = .HOLD ∨ st = .READY ∨ st.finished = true) :
      Step tid m (.yield w st) ((m.setState f st).setPc w (.leaving f b st))
  | switchOut {m : Machine n} {w : Fin n} {f : Nat} {b : Branch} {st : FiberState}
      (hpc : m.pc w = .leaving f b st) : Step tid m (.switchOut w) (m.setPc w (.returned f b st))
  | decrement {m : Machine n} {w : Fin n} {f : Nat} {b : Branch} {st : FiberState}
      (hpc : m.pc w = .returned f b st) :
      Step tid m (.decrement w)
        ({ m with sched := m.sched.decrement w }.setPc w (.settling f b st))
  | settle {m : Machine n} {w : Fin n} {f : Nat} {b : Branch} {st : FiberState}
      (hpc : m.pc w = .settling f b st) : Step tid m (.settle w) (m.settle w f b)
  | stop {m : Machine n} : Step tid m .stop { m with stopped := true }

/-- What belongs to one worker: its place in the loop, its callback fiber and its entry. -/
@[ext]
structure View where
  pc : Pc
  cb : Option Nat
  ft : Option FiberAndThread

namespace View

/-- The worker has a reference to the fiber that it will or may still use. -/
def Keeps (v : View) (f : Nat) : Prop :=
  v.pc.fiber = some f ∨ v.cb = some f ∨ ∃ ft, v.ft = some ft ∧ ft.fiber = some f

/-- In its branch, the fiber that runs is the callback fiber of the worker or not. -/
def Owns (v : View) (f : Nat) : Branch → Prop
  | .fiber => v.cb ≠ some f
  | .cb => v.cb = some f

/-- The entry and the callback fiber fit the place in the loop. -/
def Linked (v : View) : Prop :=
  match v.pc with
  | .free => v.ft = none
  | .taken => ∃ ft, v.ft = some ft ∧ ∀ f, ft.fiber = some f → v.cb ≠ some f
  | .loaded f => v.cb = some f ∧ v.ft.isSome = true
  | .running f b | .leaving f b _ | .returned f b _ => v.Owns f b ∧ v.ft.isSome = true
  | .settling f b _ => v.Owns f b ∧ v.ft = none

end View

def view (m : Machine n) (w : Fin n) : View := ⟨m.pc w, m.cbFiber w, m.sched.held w⟩

@[simp]
theorem view_setPc (w w' : Fin n) (pc : Pc) (m : Machine n) :
    (m.setPc w pc).view w' = if w' = w then { m.view w' with pc := pc } else m.view w' := by
  by_cases h : w' = w <;> simp [view, setPc, h]

@[simp]
theorem view_setState (f : Nat) (st : FiberState) (w : Fin n) (m : Machine n) :
    (m.setState f st).view w = m.view w := rfl

@[simp]
theorem view_setCbFiber (w w' : Fin n) (f : Option Nat) (m : Machine n) :
    (m.setCbFiber w f).view w' = if w' = w then { m.view w' with cb := f } else m.view w' := by
  by_cases h : w' = w <;> simp [view, setCbFiber, h]

/-- The places that refer to a fiber. -/
inductive Place (n : Nat) where
  | queue (ft : FiberAndThread)
  | worker (w : Fin n)

def At (m : Machine n) (f : Nat) : Place n → Prop
  | .queue ft => ft ∈ m.sched.fibers ∧ ft.fiber = some f
  | .worker w => (m.view w).Keeps f

/-- Every fiber is at one place at most. -/
def Unique (m : Machine n) : Prop := ∀ f p q, m.At f p → m.At f q → p = q

/-- References may disappear. -/
theorem Unique.mono {m m' : Machine n} (h : m.Unique) (hle : ∀ f p, m'.At f p → m.At f p) :
    m'.Unique := fun f p q hp hq => h f p q (hle f p hp) (hle f q hq)

/-- One fiber may come to a new place, if it is nowhere else. -/
theorem Unique.move {m m' : Machine n} (h : m.Unique) (f₀ : Nat) (p₀ : Place n)
    (hle : ∀ f p, f ≠ f₀ → m'.At f p → m.At f p) (hf₀ : ∀ p, m'.At f₀ p → p = p₀) :
    m'.Unique := by
  intro f p q hp hq
  by_cases hf : f = f₀
  · subst hf
    rw [hf₀ p hp, hf₀ q hq]
  · exact h f p q (hle f p hf hp) (hle f q hf hq)

theorem at_queue {m : Machine n} {f : Nat} {ft : FiberAndThread} :
    m.At f (.queue ft) ↔ ft ∈ m.sched.fibers ∧ ft.fiber = some f := Iff.rfl

theorem at_worker {m : Machine n} {f : Nat} {w : Fin n} :
    m.At f (.worker w) ↔ (m.view w).Keeps f := Iff.rfl

theorem not_at_of_free {m : Machine n} (hq : m.sched.fibers = []) (hpc : ∀ w, m.pc w = .free)
    (hcb : ∀ w, m.cbFiber w = none) (hft : ∀ w, m.sched.held w = none) (f : Nat) (p : Place n) :
    ¬ m.At f p := by
  intro hp
  cases p with
  | queue ft =>
      rw [at_queue, hq] at hp
      exact absurd hp.1 List.not_mem_nil
  | worker w =>
      simp [at_worker, view, View.Keeps, hpc, hcb, hft, Pc.fiber] at hp

/-- The invariant of runs in which fibers are only submitted where nothing refers to them. -/
structure Inv (m : Machine n) : Prop where
  accounted : m.sched.Accounted
  unique : m.Unique
  known : ∀ f p, m.At f p → m.known f = true
  linked : ∀ w, (m.view w).Linked

/-- A step of one worker, which may come to refer to one fiber that is nowhere else then. -/
theorem Inv.gain {m m' : Machine n} (h : m.Inv) (w : Fin n) (f₀ : Option Nat)
    (hacc : m'.sched.Accounted) (hq : ∀ ft ∈ m'.sched.fibers, ft ∈ m.sched.fibers)
    (hknown : ∀ f, m.known f = true ∨ f₀ = some f → m'.known f = true)
    (hother : ∀ w', w' ≠ w → m'.view w' = m.view w')
    (hw : ∀ f, f₀ ≠ some f → (m'.view w).Keeps f → (m.view w).Keeps f)
    (hgone : ∀ f, f₀ = some f → (∀ ft ∈ m'.sched.fibers, ft.fiber ≠ some f) ∧
      ∀ w', w' ≠ w → ¬ (m.view w').Keeps f)
    (hl : (m'.view w).Linked) : m'.Inv := by
  have hle : ∀ f p, f₀ ≠ some f → m'.At f p → m.At f p := by
    intro f p hf hp
    cases p with
    | queue ft => exact ⟨hq ft hp.1, hp.2⟩
    | worker w' =>
        by_cases hww : w' = w
        · subst hww
          exact hw f hf hp
        · rw [at_worker, hother w' hww] at hp
          exact hp
  have hmoved : ∀ f p, f₀ = some f → m'.At f p → p = .worker w := by
    intro f p hf hp
    obtain ⟨hqueue, hworkers⟩ := hgone f hf
    cases p with
    | queue ft => exact absurd hp.2 (hqueue ft hp.1)
    | worker w' =>
        by_cases hww : w' = w
        · rw [hww]
        · rw [at_worker, hother w' hww] at hp
          exact absurd hp (hworkers w' hww)
  refine ⟨hacc, fun f p q hp hq => ?_, fun f p hp => ?_, fun w' => ?_⟩
  · by_cases hf : f₀ = some f
    · rw [hmoved f p hf hp, hmoved f q hf hq]
    · exact h.unique f p q (hle f p hf hp) (hle f q hf hq)
  · by_cases hf : f₀ = some f
    · exact hknown f (.inr hf)
    · exact hknown f (.inl (h.known f p (hle f p hf hp)))
  · by_cases hww : w' = w
    · subst hww
      exact hl
    · rw [hother w' hww]
      exact h.linked w'

/-- A step of one worker that adds no reference. -/
theorem Inv.of_worker {m m' : Machine n} (h : m.Inv) (w : Fin n)
    (hacc : m'.sched.Accounted) (hq : m'.sched.fibers = m.sched.fibers)
    (hknown : m'.known = m.known) (hother : ∀ w', w' ≠ w → m'.view w' = m.view w')
    (hw : ∀ f, (m'.view w).Keeps f → (m.view w).Keeps f) (hl : (m'.view w).Linked) : m'.Inv :=
  h.gain w none hacc (fun _ hft => hq ▸ hft)
    (fun f hf => hknown ▸ hf.resolve_right fun he => by cases he) hother (fun f _ => hw f)
    (fun f hf => by cases hf) hl

theorem Inv.view_linked {m : Machine n} (h : m.Inv) {w : Fin n} {pc : Pc} (hpc : m.pc w = pc) :
    View.Linked ⟨pc, m.cbFiber w, m.sched.held w⟩ := hpc ▸ h.linked w

theorem init_inv : (init : Machine n).Inv := by
  have hnot : ∀ f p, ¬ (init : Machine n).At f p :=
    not_at_of_free rfl (fun _ => rfl) (fun _ => rfl) (fun _ => rfl)
  exact ⟨Scheduler.init_accounted, fun f p _ hp => absurd hp (hnot f p),
    fun f p hp => absurd hp (hnot f p), fun _ => rfl⟩

/-- A submission adds a reference to its fiber only. -/
theorem at_of_scheduleNoLock {m : Machine n} {arg : ScheduleArg} {thread : Int} {f : Nat}
    {p : Place n} (h : { m with sched := (m.sched.scheduleNoLock arg thread).2.2 }.At f p) :
    m.At f p ∨ (arg.content = .fiber (some f) ∧
      p = .queue (.new arg.content thread m.sched.submitted.length)) := by
  cases p with
  | queue ft =>
      obtain ⟨hmem, hf⟩ := h
      obtain hmem | rfl := Scheduler.mem_scheduleNoLock hmem
      · exact .inl ⟨hmem, hf⟩
      · refine .inr ⟨?_, rfl⟩
        cases hc : arg.content with
        | fiber f' =>
            rw [hc] at hf
            exact congrArg _ hf
        | cb c =>
            rw [hc] at hf
            cases hf
  | worker w =>
      refine .inl ?_
      unfold At view at h ⊢
      rwa [Scheduler.held_scheduleNoLock] at h

/-- A fiber that nothing refers to, apart from the worker that submits it and lets go, comes
to the end of the queue. -/
theorem Inv.scheduleNoLock {m m' : Machine n} (h : m.Inv) (arg : ScheduleArg) (thread : Int)
    (hsched : m'.sched = (m.sched.scheduleNoLock arg thread).2.2)
    (hknown : ∀ f, m.known f = true ∨ arg.content = .fiber (some f) → m'.known f = true)
    (hkeeps : ∀ w f, (m'.view w).Keeps f → (m.view w).Keeps f)
    (hlinked : ∀ w, (m'.view w).Linked)
    (hcalm : ∀ f p, arg.content = .fiber (some f) → m.At f p → ¬ m'.At f p) : m'.Inv := by
  have hle : ∀ f p, m'.At f p → m.At f p ∨ (arg.content = .fiber (some f) ∧
      p = .queue (.new arg.content thread m.sched.submitted.length)) := by
    intro f p hp
    cases p with
    | queue ft =>
        refine at_of_scheduleNoLock (m := m) (p := .queue ft) ⟨?_, hp.2⟩
        rw [← hsched]
        exact hp.1
    | worker w => exact .inl (hkeeps w f hp)
  refine ⟨hsched ▸ h.accounted.scheduleNoLock arg thread, ?_, fun f p hp => ?_, hlinked⟩
  · cases hc : arg.content with
    | cb c => exact h.unique.mono fun f p hp => (hle f p hp).resolve_right (by simp [hc])
    | fiber f =>
        cases f with
        | none => exact h.unique.mono fun f p hp => (hle f p hp).resolve_right (by simp [hc])
        | some f₀ =>
            refine h.unique.move f₀ _ (fun f p hf hp => (hle f p hp).resolve_right ?_)
              fun p hp => ((hle f₀ p hp).resolve_left fun hold => hcalm f₀ p hc hold hp).2
            rintro ⟨hf', -⟩
            rw [hc] at hf'
            cases hf'
            exact hf rfl
  · obtain hold | ⟨hc, -⟩ := hle f p hp
    · exact hknown f (.inl (h.known f p hold))
    · exact hknown f (.inr hc)

theorem known_submit {m : Machine n} {arg : ScheduleArg} {thread : Int} {f : Nat}
    (h : m.known f = true ∨ arg.content = .fiber (some f)) :
    (m.submit arg thread).known f = true := by
  unfold submit
  dsimp only
  split
  · next f' hc =>
      by_cases hf : f = f'
      · simp [hf]
      · rw [hc] at h
        change Function.update m.known f' true f = true
        rw [Function.update_of_ne hf]
        exact h.resolve_right fun he => hf (by cases he; rfl)
  · next hc => exact h.resolve_right (hc f)

theorem sched_submit (m : Machine n) (arg : ScheduleArg) (thread : Int) :
    (m.submit arg thread).sched = (m.sched.scheduleNoLock arg thread).2.2 := by
  unfold submit
  dsimp only
  split <;> rfl

theorem view_submit (m : Machine n) (arg : ScheduleArg) (thread : Int) (w : Fin n) :
    (m.submit arg thread).view w = m.view w := by
  have hsched := sched_submit m arg thread
  unfold view
  rw [hsched, Scheduler.held_scheduleNoLock]
  unfold submit
  dsimp only
  split <;> rfl

theorem Inv.submit {m : Machine n} (h : m.Inv) (arg : ScheduleArg) (thread : Int)
    (hcalm : ∀ f p, arg.content = .fiber (some f) → ¬ m.At f p) : (m.submit arg thread).Inv := by
  refine h.scheduleNoLock arg thread (sched_submit m arg thread) (fun _ => known_submit)
    (fun w f => ?_) (fun w => ?_) fun f p hc hp => absurd hp (hcalm f p hc)
  · rw [view_submit]
    exact id
  · rw [view_submit]
    exact h.linked w

/-- The entry that a worker takes moves from the queue to the worker. -/
theorem Inv.take {m : Machine n} (h : m.Inv) {tid : Fin n → Int} {w : Fin n} {tickle : Bool}
    {it : FiberAndThread} {sched : Scheduler n} (hpc : m.pc w = .free)
    (ht : m.sched.take tid w m.execs = .ok (tickle, some it, sched)) :
    ({ m with sched := sched }.setPc w .taken).Inv := by
  have hfree : m.sched.held w = none := h.view_linked hpc
  obtain ⟨_, _, _, ht', htakes, -, hsched⟩ := Scheduler.take_takes h.accounted.isTask tid w m.execs
  rw [ht] at ht'
  cases ht'
  obtain ⟨before, after, hqueue, hrest, -, -⟩ := htakes
  have hheld : sched.held = Function.update m.sched.held w (some it) := by rw [hsched it rfl]
  have hit : it ∈ m.sched.fibers := by simp [hqueue]
  have hmem : ∀ ft ∈ sched.fibers, ft ∈ m.sched.fibers := by
    intro ft hft
    rw [hrest] at hft
    rw [hqueue]
    exact List.mem_append.2 ((List.mem_append.1 hft).imp_right (List.mem_cons_of_mem it))
  have hnot : it ∉ sched.fibers := by
    have hnodup := h.accounted.nodup
    rw [hqueue, List.nodup_middle] at hnodup
    rw [hrest]
    exact (List.nodup_cons.1 hnodup).1
  have hself : ({ m with sched := sched }.setPc w .taken).view w =
      ⟨.taken, m.cbFiber w, some it⟩ := by
    simp only [view, setPc, hheld, Function.update_self]
  refine h.gain w it.fiber (h.accounted.take hfree ht) hmem (fun f hf => ?_) (fun w' hw' => ?_)
    (fun f hf hk => ?_) (fun f hf => ⟨fun ft hft hf' => ?_, fun w' _ hk => ?_⟩) ?_
  · exact hf.elim id fun hf => h.known f (.queue it) ⟨hit, hf⟩
  · simp only [view, setPc, hheld, Function.update_of_ne hw']
  · rw [hself] at hk
    obtain hk | hk | ⟨ft, hft, hk⟩ := hk
    · cases hk
    · exact .inr (.inl hk)
    · cases hft
      exact absurd hk hf
  · -- entries are distinct, so no other one in the queue has the fiber
    have heq := h.unique f (.queue it) (.queue ft) ⟨hit, hf⟩ ⟨hmem ft hft, hf'⟩
    cases heq
    exact hnot hft
  · cases h.unique f (.queue it) (.worker w') ⟨hit, hf⟩ hk
  · rw [hself]
    refine ⟨it, rfl, fun f hf hcb => ?_⟩
    cases h.unique f (.queue it) (.worker w) ⟨hit, hf⟩ (.inr (.inl hcb))

/-- The callback fiber is the one that the worker has, or one that nothing refers to. -/
theorem Inv.load {m : Machine n} (h : m.Inv) {w : Fin n} {f : Nat} {ft : FiberAndThread}
    (hft : m.sched.held w = some ft) (hf : m.Loads w f) : (m.load w f).Inv := by
  have hself : (m.load w f).view w = ⟨.loaded f, some f, some ft⟩ := by
    simp only [view, Machine.load, setPc, setCbFiber, setState, Function.update_self, hft]
  -- the worker is the only one that refers to the fiber, if anything does
  have honly : ∀ p, m.At f p → p = .worker w := by
    intro p hp
    obtain ⟨hcb, -⟩ | ⟨-, hnew⟩ := hf
    · exact h.unique f p _ hp (.inr (.inl hcb))
    · rw [h.known f p hp] at hnew
      cases hnew
  refine h.gain w (some f) h.accounted (fun _ hx => hx) (fun f' hf' => ?_) (fun w' hw' => ?_)
    (fun f' hne hk => ?_) (fun f' hf' => ?_) ?_
  · change Function.update m.known f true f' = true
    rw [Function.update_apply]
    split
    · rfl
    · next hne => exact hf'.resolve_right fun he => hne (Option.some.inj he).symm
  · simp only [view, Machine.load, setPc, setCbFiber, setState, Function.update_of_ne hw']
  · rw [hself] at hk
    obtain hk | hk | ⟨x, hx, hk⟩ := hk
    · exact absurd hk hne
    · exact absurd hk hne
    · exact .inr (.inr ⟨x, hx ▸ hft, hk⟩)
  · cases hf'
    refine ⟨fun x hx hfx => ?_, fun w' hw' hk => hw' ?_⟩
    · cases honly (.queue x) ⟨hx, hfx⟩
    · cases honly (.worker w') hk
      rfl
  · rw [hself]
    exact ⟨rfl, rfl⟩

/-- The invariant does not depend on the states. -/
theorem Inv.setState {m : Machine n} (h : m.Inv) (f : Nat) (st : FiberState) :
    (m.setState f st).Inv :=
  ⟨h.accounted, h.unique, h.known, h.linked⟩

theorem Inv.setPc {m : Machine n} (h : m.Inv) {w : Fin n} {pc : Pc}
    (hk : ∀ f, pc.fiber = some f → (m.view w).Keeps f)
    (hl : View.Linked ⟨pc, m.cbFiber w, m.sched.held w⟩) : (m.setPc w pc).Inv := by
  have hself : (m.setPc w pc).view w = ⟨pc, m.cbFiber w, m.sched.held w⟩ := by
    rw [view_setPc, if_pos rfl]
    rfl
  refine h.of_worker w h.accounted rfl rfl (fun w' hw' => by simp [hw']) (fun f hf => ?_) ?_
  · rw [hself] at hf
    obtain hf | hf := hf
    · exact hk f hf
    · exact .inr hf
  · rw [hself]
    exact hl

theorem Inv.enter {m : Machine n} (h : m.Inv) {w : Fin n} {f : Nat} {b : Branch}
    (he : m.Enters w f b) : (m.enter w f b).Inv := by
  refine Inv.setPc (h.setState f .EXEC) (fun f' hf' => ?_) ?_
  · cases hf'
    cases he with
    | fiber _ hft hf _ => exact .inr (.inr ⟨_, hft, Scheduler.path_eq_fiber hf⟩)
    | cb hpc => exact .inl (by simp only [view, Machine.setState, hpc, Pc.fiber])
  · cases he with
    | fiber hpc hft hf _ =>
        obtain ⟨ft', hft', hcb⟩ := h.view_linked hpc
        change m.sched.held w = some ft' at hft'
        rw [hft] at hft'
        cases hft'
        refine ⟨hcb f (Scheduler.path_eq_fiber hf), ?_⟩
        change (m.sched.held w).isSome = true
        rw [hft]
        rfl
    | cb hpc =>
        have hlinked := h.view_linked hpc
        exact hlinked

/-- A worker goes on to a place with the same fiber and the same requirements. -/
theorem Inv.advance {m : Machine n} (h : m.Inv) {w : Fin n} {pc pc' : Pc} (hpc : m.pc w = pc)
    (hf : pc'.fiber = pc.fiber)
    (hl : ∀ cb ft, View.Linked ⟨pc, cb, ft⟩ → View.Linked ⟨pc', cb, ft⟩) : (m.setPc w pc').Inv :=
  h.setPc (fun f hf' => .inl (by rw [← hf', hf, ← hpc]; rfl)) (hl _ _ (h.view_linked hpc))

theorem Inv.decrement {m : Machine n} (h : m.Inv) {w : Fin n} {f : Nat} {b : Branch}
    {st : FiberState} (hpc : m.pc w = .returned f b st) :
    ({ m with sched := m.sched.decrement w }.setPc w (.settling f b st)).Inv := by
  obtain ⟨howns, hft⟩ := h.view_linked hpc
  obtain ⟨ft, hft⟩ := Option.isSome_iff_exists.1 hft
  have hself : ({ m with sched := m.sched.decrement w }.setPc w (.settling f b st)).view w =
      ⟨.settling f b st, m.cbFiber w, none⟩ := by
    simp only [view, Machine.setPc, Scheduler.decrement, Function.update_self]
  refine h.of_worker w (h.accounted.decrement hft) rfl rfl (fun w' hw' => ?_) (fun f' hf' => ?_) ?_
  · simp only [view, Machine.setPc, Scheduler.decrement, Function.update_of_ne hw']
  · rw [hself] at hf'
    obtain hf' | hf' | ⟨_, hnone, -⟩ := hf'
    · exact .inl (by rw [← hf']; simp only [view, hpc, Pc.fiber])
    · exact .inr (.inl hf')
    · cases hnone
  · rw [hself]
    exact ⟨howns, rfl⟩

/-- What a worker has after it looked at the state. -/
theorem view_settle (m : Machine n) (w : Fin n) (f : Nat) (b : Branch) :
    (∀ w', w' ≠ w → (m.settle w f b).view w' = m.view w') ∧
      ((m.settle w f b).view w = ⟨.free, m.cbFiber w, m.sched.held w⟩ ∧
          (b = .cb → m.state f ≠ .READY) ∨
        (m.settle w f b).view w = ⟨.free, none, m.sched.held w⟩ ∧ b = .cb) := by
  unfold settle
  dsimp only
  split <;> refine ⟨fun w' hw' => ?_, ?_⟩ <;>
    simp_all [view, Machine.setPc, setCbFiber, Machine.setState]

theorem sched_settle (m : Machine n) (w : Fin n) (f : Nat) (b : Branch) :
    m.state f = .READY ∧
        (m.settle w f b).sched = (m.sched.scheduleNoLock (.value (.fiber (some f))) (-1)).2.2 ∨
      m.state f ≠ .READY ∧ (m.settle w f b).sched = m.sched := by
  unfold settle
  dsimp only
  split <;> simp_all [Machine.setPc, setCbFiber, Machine.setState]

theorem known_settle (m : Machine n) (w : Fin n) (f : Nat) (b : Branch) :
    (m.settle w f b).known = m.known := by
  unfold settle
  dsimp only
  split <;> rfl

theorem Inv.settle {m : Machine n} (h : m.Inv) {w : Fin n} {f : Nat} {b : Branch}
    {st : FiberState} (hpc : m.pc w = .settling f b st) : (m.settle w f b).Inv := by
  obtain ⟨howns, hft⟩ := h.view_linked hpc
  change m.sched.held w = none at hft
  obtain ⟨hother, hself⟩ := view_settle m w f b
  rw [hft] at hself
  have hkeeps : ∀ f', ((m.settle w f b).view w).Keeps f' → (m.view w).Keeps f' := by
    intro f' hf'
    obtain ⟨hself, -⟩ | ⟨hself, -⟩ := hself
    · rw [hself] at hf'
      obtain hf' | hf' | ⟨_, hnone, -⟩ := hf'
      · cases hf'
      · exact .inr (.inl hf')
      · cases hnone
    · rw [hself] at hf'
      obtain hf' | hf' | ⟨_, hnone, -⟩ := hf' <;> contradiction
  have hlinked : ((m.settle w f b).view w).Linked := by
    obtain ⟨hself, -⟩ | ⟨hself, -⟩ := hself
    · rw [hself]
      rfl
    · rw [hself]
      rfl
  obtain ⟨hready, hsched⟩ | ⟨-, hsched⟩ := sched_settle m w f b
  · refine h.scheduleNoLock _ _ hsched (fun f' hf' => ?_) (fun w' f' hf' => ?_) (fun w' => ?_)
      fun f' p hf' hp hp' => ?_
    · rw [known_settle]
      obtain hf' | hf' := hf'
      · exact hf'
      · cases hf'
        exact h.known f (.worker w) (.inl (by simp only [view, hpc, Pc.fiber]))
    · by_cases hww : w' = w
      · subst hww
        exact hkeeps f' hf'
      · rwa [hother w' hww] at hf'
    · by_cases hww : w' = w
      · subst hww
        exact hlinked
      · rw [hother w' hww]
        exact h.linked w'
    · -- the worker was the only place of the fiber, and has let go of it
      cases hf'
      have hp₀ : m.At f (.worker w) := .inl (by simp only [view, hpc, Pc.fiber])
      cases h.unique f p _ hp hp₀
      obtain ⟨hself, hb⟩ | ⟨hself, -⟩ := hself
      · rw [at_worker, hself] at hp'
        obtain hp' | hp' | ⟨_, hnone, -⟩ := hp'
        · cases hp'
        · cases b with
          | fiber => exact howns hp'
          | cb => exact hb rfl hready
        · cases hnone
      · rw [at_worker, hself] at hp'
        obtain hp' | hp' | ⟨_, hnone, -⟩ := hp' <;> contradiction
  · exact h.of_worker w (hsched ▸ h.accounted) (by rw [hsched]) (known_settle m w f b) hother
      hkeeps hlinked

/-- Fibers are submitted only where nothing refers to them. -/
def Calm (m : Machine n) : Act n → Prop
  | .submit arg _ => ∀ f p, arg.content = .fiber (some f) → ¬ m.At f p
  | _ => True

theorem Step.inv {tid : Fin n → Int} {m m' : Machine n} {a : Act n} (h : m.Inv)
    (hcalm : m.Calm a) (hs : Step tid m a m') : m'.Inv := by
  cases hs with
  | submit arg thread => exact h.submit arg thread hcalm
  | take hpc ht => exact h.take hpc ht
  | load _ hft _ hf => exact h.load hft hf
  | enter he _ => exact h.enter he
  | arm _ => exact ⟨h.accounted, h.unique, h.known, h.linked⟩
  | yield hpc _ => exact (h.setState _ _).advance hpc rfl fun _ _ hl => hl
  | switchOut hpc => exact h.advance hpc rfl fun _ _ hl => hl
  | decrement hpc => exact h.decrement hpc
  | settle hpc => exact h.settle hpc
  | stop => exact ⟨h.accounted, h.unique, h.known, h.linked⟩

def CalmStep (tid : Fin n → Int) (m : Machine n) (a : Act n) (m' : Machine n) : Prop :=
  m.Calm a ∧ Step tid m a m'

theorem inv_of_run {tid : Fin n → Int} {acts : List (Act n)} {m : Machine n}
    (h : Transition.Run (CalmStep tid) init acts m) : m.Inv :=
  h.invariant (fun _ _ _ hm hs => hs.2.inv hm hs.1) init_inv

/-- A fiber is submitted when it is new or after it has armed an event or a timer. -/
def Awaited (m : Machine n) : Act n → Prop
  | .submit arg _ => ∀ f, arg.content = .fiber (some f) → m.known f = false ∨ m.armed f = true
  | _ => True

def AwaitedStep (tid : Fin n → Int) (m : Machine n) (a : Act n) (m' : Machine n) : Prop :=
  m.Awaited a ∧ Step tid m a m'

/-- The worker executes code of the fiber: its context is not saved yet. -/
inductive Executes (m : Machine n) (w : Fin n) (f : Nat) : Prop
  | running {b : Branch} (hpc : m.pc w = .running f b)
  | leaving {b : Branch} {st : FiberState} (hpc : m.pc w = .leaving f b st)

theorem Executes.keeps {m : Machine n} {w : Fin n} {f : Nat} (h : m.Executes w f) :
    m.At f (.worker w) := by
  cases h with
  | running hpc => exact .inl (by simp only [view, hpc, Pc.fiber])
  | leaving hpc => exact .inl (by simp only [view, hpc, Pc.fiber])

theorem Enters.keeps {m : Machine n} {w : Fin n} {f : Nat} {b : Branch} (h : m.Enters w f b) :
    m.At f (.worker w) := by
  cases h with
  | fiber _ hft hf _ => exact .inr (.inr ⟨_, hft, Scheduler.path_eq_fiber hf⟩)
  | cb hpc => exact .inl (by simp only [view, hpc, Pc.fiber])

theorem Enters.not_executes {m : Machine n} {w : Fin n} {f : Nat} {b : Branch}
    (h : m.Enters w f b) : ¬ m.Executes w f := by
  intro he
  cases h with
  | fiber hpc _ _ _ => cases he <;> simp_all
  | cb hpc => cases he <;> simp_all

end Machine

/-- In every run that submits fibers only where nothing refers to them, at most one thread
executes a fiber, and `swapIn` is not called on a fiber that a thread still executes. -/
theorem calm_runs_execute_once {n : Nat} (tid : Fin n → Int) (acts : List (Machine.Act n))
    (m : Machine n) (h : Transition.Run (Machine.CalmStep tid) Machine.init acts m) :
    (∀ f w w', m.Executes w f → m.Executes w' f → w = w') ∧
      ∀ f w b, m.Enters w f b → ∀ w', ¬ m.Executes w' f := by
  have hm := Machine.inv_of_run h
  refine ⟨fun f w w' hw hw' => ?_, fun f w b hw w' hw' => ?_⟩
  · cases hm.unique f _ _ hw.keeps hw'.keeps
    rfl
  · cases hm.unique f _ _ hw.keeps hw'.keeps
    exact hw.not_executes hw'

/-- A fiber arms an event, holds, and is woken after its worker is done with it. -/
theorem calm_runs_execute_once_woken :
    ∃ m : Machine 2,
      Transition.Run (Machine.CalmStep fun w => 10 + (w.val : Int)) Machine.init
        [.submit (.value (.fiber (some 5))) (-1), .take 0, .enter 0, .arm 0, .yield 0 .HOLD,
          .switchOut 0, .decrement 0, .settle 0, .submit (.pointer (.fiber (some 5))) (-1),
          .take 1, .enter 1] m ∧
      m.Executes 1 5 ∧ ∀ w, m.Executes w 5 → w = 1 := by
  obtain ⟨m, h, hpc⟩ : ∃ m : Machine 2,
      Transition.Run (Machine.CalmStep fun w => 10 + (w.val : Int)) Machine.init
        [.submit (.value (.fiber (some 5))) (-1), .take 0, .enter 0, .arm 0, .yield 0 .HOLD,
          .switchOut 0, .decrement 0, .settle 0, .submit (.pointer (.fiber (some 5))) (-1),
          .take 1, .enter 1] m ∧ m.pc 1 = .running 5 .fiber :=
    ⟨_, .cons ⟨fun f p _ => Machine.not_at_of_free rfl (fun _ => rfl) (fun _ => rfl)
        (fun _ => rfl) f p, .submit _ _⟩
      (.cons ⟨trivial, .take rfl rfl⟩ (.cons ⟨trivial, .enter (.fiber rfl rfl rfl rfl) nofun⟩
      (.cons ⟨trivial, .arm rfl⟩ (.cons ⟨trivial, .yield rfl (.inl rfl)⟩
      (.cons ⟨trivial, .switchOut rfl⟩ (.cons ⟨trivial, .decrement rfl⟩
      (.cons ⟨trivial, .settle rfl⟩
      (.cons ⟨fun f p _ => Machine.not_at_of_free rfl (by decide +kernel) (by decide +kernel)
        (by decide +kernel) f p, .submit _ _⟩
      (.cons ⟨trivial, .take rfl rfl⟩ (.cons ⟨trivial, .enter (.fiber rfl rfl rfl rfl) nofun⟩
      (.nil _))))))))))), rfl⟩
  have hexec : m.Executes 1 5 := .running hpc
  exact ⟨m, h, hexec, fun w hw => (calm_runs_execute_once _ _ m h).1 5 w 1 hw hexec⟩

/-- The event fires between the registration and the switch: the fiber has written `HOLD`, so
another worker takes it and resumes it while the first one still executes it. -/
theorem early_wake_executes_twice :
    ∃ m : Machine 2,
      Transition.Run (Machine.AwaitedStep fun w => 10 + (w.val : Int)) Machine.init
        [.submit (.value (.fiber (some 5))) (-1), .take 0, .enter 0, .arm 0,
          .submit (.pointer (.fiber (some 5))) (-1), .yield 0 .HOLD, .take 1, .enter 1] m ∧
      m.Executes 0 5 ∧ m.Executes 1 5 := by
  refine ⟨_, .cons ⟨fun f _ => .inl rfl, .submit _ _⟩ (.cons ⟨trivial, .take rfl rfl⟩
    (.cons ⟨trivial, .enter (.fiber rfl rfl rfl rfl) nofun⟩ (.cons ⟨trivial, .arm rfl⟩
    (.cons ⟨fun f hf => ?_, .submit _ _⟩ (.cons ⟨trivial, .yield rfl (.inl rfl)⟩
    (.cons ⟨trivial, .take rfl rfl⟩ (.cons ⟨trivial, .enter (.fiber rfl rfl rfl rfl) nofun⟩
    (.nil _)))))))), .leaving rfl, .running rfl⟩
  cases hf
  exact .inr rfl

end Sylar.Io
