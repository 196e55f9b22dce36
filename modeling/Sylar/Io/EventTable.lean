import Sylar.Lib.Method
import Sylar.Lib.Numerals

/-!
# The event table of `IOManager`

A descriptor has a context with the mask of its registered events and, for each
event, whom to wake. The table maps descriptors to contexts by address, since a
thread keeps the address of a context between two critical sections and the
kernel keeps it with the descriptor.

The definitions are the critical sections of the code: the lookup under the read
lock, the resize under the write lock, and the part of each call under the mutex
of the context. A failed assertion ends the process. The pipe that wakes `idle`
is not in the model: the table never registers it.

The counter is an integer; the code's is unsigned, and would wrap where this one
becomes negative. The numbers of registrations, the list of deleted ones and the
list of what was handed to the schedulers record the history only.
-/

namespace Sylar.Io

open Sylar.Lib

/-- `IOManager::Event` without `NONE`. -/
inductive Event where
  | READ
  | WRITE
  deriving DecidableEq, Repr

/-- A mask of events. -/
@[ext]
structure Events where
  read : Bool
  write : Bool
  deriving DecidableEq, Repr

namespace Events

def none : Events := ⟨false, false⟩

def has (m : Events) : Event → Bool
  | .READ => m.read
  | .WRITE => m.write

/-- `m | e`. -/
def insert (m : Events) : Event → Events
  | .READ => { m with read := true }
  | .WRITE => { m with write := true }

/-- The mask of one event. -/
def single (e : Event) : Events := none.insert e

/-- `m & n`. -/
def inter (m n : Events) : Events := ⟨m.read && n.read, m.write && n.write⟩

/-- `m | n`. -/
def union (m n : Events) : Events := ⟨m.read || n.read, m.write || n.write⟩

/-- `m & ~n`. -/
def diff (m n : Events) : Events := ⟨m.read && !n.read, m.write && !n.write⟩

/-- The number of events. -/
def count (m : Events) : Nat := m.read.toNat + m.write.toNat

/-- Every event of `m` is in `n`. -/
def Subset (m n : Events) : Prop := ∀ e, m.has e = true → n.has e = true

theorem ext_has {m n : Events} (h : ∀ e, m.has e = n.has e) : m = n :=
  Events.ext (h .READ) (h .WRITE)

@[simp]
theorem has_none (e : Event) : none.has e = false := by cases e <;> rfl

@[simp]
theorem has_insert (m : Events) (e e' : Event) :
    (m.insert e).has e' = (decide (e' = e) || m.has e') := by
  cases e <;> cases e' <;> simp [insert, has]

@[simp]
theorem has_single (e e' : Event) : (single e).has e' = decide (e' = e) := by
  simp [single]

@[simp]
theorem has_inter (m n : Events) (e : Event) : (m.inter n).has e = (m.has e && n.has e) := by
  cases e <;> rfl

@[simp]
theorem has_union (m n : Events) (e : Event) : (m.union n).has e = (m.has e || n.has e) := by
  cases e <;> rfl

@[simp]
theorem has_diff (m n : Events) (e : Event) : (m.diff n).has e = (m.has e && !n.has e) := by
  cases e <;> rfl

theorem eq_none_iff {m : Events} : m = none ↔ ∀ e, m.has e = false := by
  constructor
  · rintro rfl e
    exact has_none e
  · intro h
    exact ext_has fun e => by rw [h, has_none]

theorem insert_ne_none (m : Events) (e : Event) : m.insert e ≠ none := by
  intro h
  have := eq_none_iff.1 h e
  simp at this

end Events

/-- What a scheduler is given. -/
inductive Task where
  | fiber (id : Nat)
  | cb (id : Nat)
  deriving DecidableEq, Repr

/-- `EventContext`, with the number of the registration it belongs to. -/
structure EventContext where
  scheduler : Option Nat
  fiber : Option Nat
  cb : Option Nat
  registration : Option Nat
  deriving DecidableEq, Repr

def EventContext.empty : EventContext := ⟨none, none, none, none⟩

/-- `FdContext` without its mutex. -/
structure FdContext where
  read : EventContext
  write : EventContext
  fd : Nat
  events : Events
  deriving DecidableEq, Repr

/-- `new FdContext` with its descriptor. -/
def FdContext.new (fd : Nat) : FdContext := ⟨.empty, .empty, fd, .none⟩

/-- A task handed to a scheduler, and the registration it comes from. -/
structure Submission where
  registration : Option Nat
  scheduler : Nat
  task : Task
  deriving DecidableEq, Repr

/-- What ends the process: an assertion that fails, an index outside the table, a call
on a null scheduler. -/
inductive Stop where
  | assertFailed
  | outsideTable
  | nullScheduler
  deriving DecidableEq, Repr

namespace FdContext

def getContext (c : FdContext) : Event → EventContext
  | .READ => c.read
  | .WRITE => c.write

def setContext (c : FdContext) (e : Event) (x : EventContext) : FdContext :=
  match e with
  | .READ => { c with read := x }
  | .WRITE => { c with write := x }

@[simp]
theorem getContext_setContext (c : FdContext) (e e' : Event) (x : EventContext) :
    (c.setContext e x).getContext e' = if e' = e then x else c.getContext e' := by
  cases e <;> cases e' <;> rfl

@[simp]
theorem events_setContext (c : FdContext) (e : Event) (x : EventContext) :
    (c.setContext e x).events = c.events := by cases e <;> rfl

@[simp]
theorem fd_setContext (c : FdContext) (e : Event) (x : EventContext) :
    (c.setContext e x).fd = c.fd := by cases e <;> rfl

@[simp]
theorem getContext_withEvents (c : FdContext) (m : Events) (e : Event) :
    { c with events := m }.getContext e = c.getContext e := by cases e <;> rfl

@[simp]
theorem getContext_new (fd : Nat) (e : Event) : (new fd).getContext e = .empty := by
  cases e <;> rfl

end FdContext

/-- What `schedule(&ctx.cb)` or `schedule(&ctx.fiber)` submits; an empty task is dropped. -/
def EventContext.submission (x : EventContext) (scheduler : Nat) : List Submission :=
  match x.cb, x.fiber with
  | some c, _ => [⟨x.registration, scheduler, .cb c⟩]
  | none, some f => [⟨x.registration, scheduler, .fiber f⟩]
  | none, none => []

/-- The context after it was triggered: the task was swapped out. -/
def EventContext.triggered (x : EventContext) : EventContext :=
  if x.cb.isSome then { x with cb := none, scheduler := none, registration := none }
  else { x with fiber := none, scheduler := none, registration := none }

/-- `FdContext::triggerEvent`. -/
def FdContext.triggerEvent (e : Event) (c : FdContext) :
    Except Stop (FdContext × List Submission) :=
  if c.events.has e then
    let x := c.getContext e
    match x.scheduler with
    | none => .error .nullScheduler
    | some w =>
        .ok ({ c with events := c.events.diff (.single e) }.setContext e x.triggered,
          x.submission w)
  else .error .assertFailed

theorem FdContext.triggerEvent_eq_ok {c c' : FdContext} {e : Event}
    {submitted : List Submission} (h : c.triggerEvent e = .ok (c', submitted)) :
    c.events.has e = true ∧
      ∃ w, c' = { c with events := c.events.diff (.single e) }.setContext e
        (c.getContext e).triggered ∧ submitted = (c.getContext e).submission w := by
  unfold FdContext.triggerEvent at h
  split at h
  · next hbit =>
      dsimp only at h
      split at h
      · cases h
      · next w _ =>
          cases h
          exact ⟨hbit, w, rfl, rfl⟩
  · cases h

/-- `FdContext::resetContext`. -/
def FdContext.resetContext (e : Event) (c : FdContext) : FdContext := c.setContext e .empty

inductive CtlOp where
  | add
  | mod
  | del
  deriving DecidableEq, Repr

/-- What the kernel knows of a descriptor: its mask and `data.ptr`. -/
abbrev Kernel := Nat → Option (Events × Nat)

/-- `epoll_ctl`; `none` is a failure, which may come at any call. -/
def epollCtl (op : CtlOp) (fd : Nat) (mask : Events) (ptr : Nat) (fails : Bool)
    (kernel : Kernel) : Option Kernel :=
  if fails then none
  else
    match op, kernel fd with
    | .add, none => some (Function.update kernel fd (some (mask, ptr)))
    | .mod, some _ => some (Function.update kernel fd (some (mask, ptr)))
    | .del, some _ => some (Function.update kernel fd none)
    | _, _ => none

/-- The part of `IOManager` that the calls read and write. -/
structure IOManager where
  size : Nat
  table : Nat → Nat
  next : Nat
  heap : Nat → FdContext
  kernel : Kernel
  pendingEventCount : Int
  registrations : Nat
  scheduled : List Submission
  deleted : List Nat

/-- `Scheduler::GetThis()` and `Fiber::GetThis()` of the calling thread. -/
structure Caller where
  scheduler : Nat
  fiber : Nat
  deriving DecidableEq, Repr

namespace IOManager

/-- `contextResize`: new slots get new contexts, slots behind the end are dropped. -/
def contextResize (n : Nat) (s : IOManager) : IOManager :=
  { s with
    size := n
    table := fun i => if i < s.size then s.table i else s.next + (i - s.size)
    next := s.next + (n - s.size)
    heap := fun p => if s.next ≤ p then .new (s.size + (p - s.next)) else s.heap p }

/-- The constructor: 32 contexts, no events. -/
def init : IOManager :=
  contextResize 32
    { size := 0, table := fun _ => 0, next := 0, heap := fun _ => .new 0, kernel := fun _ => none,
      pendingEventCount := 0, registrations := 0, scheduled := [], deleted := [] }

/-- `(int)m_fdContexts.size() > fd`, on the low 32 bits of the size. -/
def sizeAbove (s : IOManager) (fd : Nat) : Bool :=
  s.size % 2 ^ 32 < 2 ^ 31 && fd < s.size % 2 ^ 32

theorem sizeAbove_of_lt {s : IOManager} (h : s.size < 2 ^ 31) (fd : Nat) :
    s.sizeAbove fd = decide (fd < s.size) := by
  have hmod : s.size % 2 ^ 32 = s.size := Nat.mod_eq_of_lt (by omega)
  rw [sizeAbove, hmod, decide_eq_true h, Bool.true_and]

/-- The lookup under the read lock. -/
def lookup (fd : Nat) (s : IOManager) : Option Nat :=
  if s.sizeAbove fd then some (s.table fd) else none

theorem lookup_of_size_lt {s : IOManager} (h : s.size < 2 ^ 31) (fd : Nat) :
    s.lookup fd = if fd < s.size then some (s.table fd) else none := by
  simp only [lookup, sizeAbove_of_lt h, decide_eq_true_eq]

/-- The resize of `addEvent` under the write lock, and the fetch after it. -/
def resize (fd : Nat) (s : IOManager) : Except Stop (Nat × IOManager) :=
  let s := s.contextResize (fd * 3 / 2)
  if fd < s.size then .ok (s.table fd, s) else .error .outsideTable

/-- The rest of `addEvent`, with the context at `p` locked. The result is 0 or -1. -/
def addSection (caller : Caller) (p fd : Nat) (e : Event) (cb : Option Nat) (fails : Bool)
    (s : IOManager) : Except Stop (Int × IOManager) :=
  let c := s.heap p
  if c.events.has e then .error .assertFailed
  else
    let op := if c.events = .none then .add else .mod
    match epollCtl op fd (c.events.insert e) p fails s.kernel with
    | none => .ok (-1, s)
    | some kernel =>
        let x := c.getContext e
        if x.scheduler.isSome || x.fiber.isSome || x.cb.isSome then .error .assertFailed
        else
          let x : EventContext :=
            { scheduler := some caller.scheduler
              fiber := if cb.isSome then x.fiber else some caller.fiber
              cb := cb
              registration := some s.registrations }
          .ok (0, { s with
            kernel := kernel
            pendingEventCount := s.pendingEventCount + 1
            registrations := s.registrations + 1
            heap := Function.update s.heap p
              ({ c with events := c.events.insert e }.setContext e x) })

/-- The operation of `epoll_ctl` that leaves the given events. -/
def leaveOp (left : Events) : CtlOp := if left = .none then .del else .mod

/-- The rest of `delEvent`. -/
def delSection (p fd : Nat) (e : Event) (fails : Bool) (s : IOManager) : Bool × IOManager :=
  let c := s.heap p
  if c.events.has e then
    let left := c.events.diff (.single e)
    match epollCtl (leaveOp left) fd left p fails s.kernel with
    | none => (false, s)
    | some kernel =>
        (true, { s with
          kernel := kernel
          pendingEventCount := s.pendingEventCount - 1
          heap := Function.update s.heap p ({ c with events := left }.resetContext e)
          deleted := s.deleted ++ (c.getContext e).registration.toList })
  else (false, s)

/-- `triggerEvent` on the context at `p` and the decrement after it. -/
def trigger (p : Nat) (e : Event) (s : IOManager) : Except Stop IOManager := do
  let (c, submitted) ← (s.heap p).triggerEvent e
  .ok { s with
    heap := Function.update s.heap p c
    scheduled := s.scheduled ++ submitted
    pendingEventCount := s.pendingEventCount - 1 }

/-- `trigger` where the mask has the event. -/
def triggerIf (m : Events) (p : Nat) (e : Event) (s : IOManager) : Except Stop IOManager :=
  if m.has e then s.trigger p e else .ok s

/-- The rest of `cancelEvent`. -/
def cancelSection (p fd : Nat) (e : Event) (fails : Bool) (s : IOManager) :
    Except Stop (Bool × IOManager) :=
  let c := s.heap p
  if c.events.has e then
    let left := c.events.diff (.single e)
    match epollCtl (leaveOp left) fd left p fails s.kernel with
    | none => .ok (false, s)
    | some kernel => do
        let s ← { s with kernel := kernel }.trigger p e
        .ok (true, s)
  else .ok (false, s)

/-- The rest of `cancelAll`. -/
def cancelAllSection (p fd : Nat) (fails : Bool) (s : IOManager) :
    Except Stop (Bool × IOManager) :=
  if (s.heap p).events = .none then .ok (false, s)
  else
    match epollCtl .del fd .none p fails s.kernel with
    | none => .ok (false, s)
    | some kernel => do
        let s : IOManager := { s with kernel := kernel }
        let s ← s.triggerIf (s.heap p).events p .READ
        let s ← s.triggerIf (s.heap p).events p .WRITE
        if (s.heap p).events = .none then .ok (true, s) else .error .assertFailed

/-- The events that `idle` takes as reported: an error or a hangup stands for every
registered event. -/
def realEvents (reported : Events) (errorOrHangup : Bool) (registered : Events) : Events :=
  if errorOrHangup then reported.union registered else reported

/-- The dispatch of one result of `epoll_wait` in `idle`, with the context at `p`
locked; the result says whether anything was triggered. -/
def dispatchSection (p : Nat) (reported : Events) (errorOrHangup : Bool) (fails : Bool)
    (s : IOManager) : Except Stop (Bool × IOManager) :=
  let c := s.heap p
  let real := realEvents reported errorOrHangup c.events
  if c.events.inter real = .none then .ok (false, s)
  else
    let left := c.events.diff real
    match epollCtl (leaveOp left) c.fd left p fails s.kernel with
    | none => .ok (false, s)
    | some kernel => do
        let s ← { s with kernel := kernel }.triggerIf real p .READ
        let s ← s.triggerIf real p .WRITE
        .ok (true, s)

end IOManager

end Sylar.Io
