import Sylar.Io.EventTable
import Sylar.Lib.Transition
import Mathlib.Data.Finset.Card
import Mathlib.Data.Finset.Prod

/-!
# Calls on the event table, one at a time

A call is its critical sections in a row. Every call is a registration, a
release of some events of one descriptor, or changes nothing but the size of
the table; the table stays consistent because each of the three keeps it so.

`size()` is converted to `int` before it is compared, so the table stays
addressable only while it has less than `2 ^ 31` slots. A call of `addEvent`
for `fd` makes it as large as `fd * 3 / 2`.
-/

namespace Sylar.Io

open Sylar.Lib

/-- A scheduler is set, and exactly one of fiber and callback. -/
def EventContext.Registered (x : EventContext) : Prop :=
  x.scheduler.isSome = true ∧ x.fiber.isSome ≠ x.cb.isSome

/-- A bit is set where a registration stands, and nothing else is kept. -/
structure FdContext.Sound (c : FdContext) : Prop where
  registered : ∀ e, c.events.has e = true ↔ (c.getContext e).Registered
  cleared : ∀ e, c.events.has e = false → c.getContext e = .empty

namespace IOManager

/-- The context of a descriptor; a slot the table does not have yet would get a new one. -/
def context (s : IOManager) (fd : Nat) : FdContext :=
  if fd < s.size then s.heap (s.table fd) else .new fd

/-- The pairs of a descriptor and an event whose bit is set. -/
def pairs (s : IOManager) : Finset (Nat × Event) :=
  (Finset.range s.size ×ˢ {.READ, .WRITE}).filter fun x => (s.context x.1).events.has x.2 = true

/-- The numbers of the registrations that were scheduled or deleted. -/
def spent (s : IOManager) : List Nat := s.scheduled.filterMap (·.registration) ++ s.deleted

/-- The counter, the contexts and the history agree. -/
structure Booked (s : IOManager) : Prop where
  pending : s.pendingEventCount = s.pairs.card
  sound : ∀ fd, (s.context fd).Sound
  numbered : ∀ x ∈ s.scheduled, x.registration.isSome = true
  once : s.spent.Nodup

/-- The consistency of the table, the counter, the history and the kernel. -/
structure Consistent (s : IOManager) : Prop extends s.Booked where
  interest : ∀ fd, s.kernel fd =
    if (s.context fd).events = .none then none else some ((s.context fd).events, s.table fd)

/-- What a call that reports failure leaves as it was. -/
structure Unchanged (s s' : IOManager) : Prop where
  context : ∀ fd, s'.context fd = s.context fd
  kernel : s'.kernel = s.kernel
  pending : s'.pendingEventCount = s.pendingEventCount
  scheduled : s'.scheduled = s.scheduled
  deleted : s'.deleted = s.deleted

/-- The table can be addressed and its slots have contexts of their own. -/
structure Laid (s : IOManager) : Prop where
  two_le : 2 ≤ s.size
  size_lt : s.size < 2 ^ 31
  table_lt : ∀ fd < s.size, s.table fd < s.next
  table_inj : ∀ fd < s.size, ∀ fd' < s.size, s.table fd = s.table fd' → fd = fd'
  heap_fd : ∀ fd < s.size, (s.heap (s.table fd)).fd = fd

/-- The number of the registration that stands at a descriptor and an event. -/
def number (s : IOManager) (fd : Nat) (e : Event) : Option Nat :=
  ((s.context fd).getContext e).registration

/-- The registrations in the table have numbers of their own, not spent yet. -/
structure Numbered (s : IOManager) : Prop where
  number : ∀ fd e, (s.context fd).events.has e = true → (s.number fd e).isSome = true
  fresh : ∀ fd e i, s.number fd e = some i → i < s.registrations ∧ i ∉ s.spent
  inj : ∀ fd e fd' e' i, s.number fd e = some i → s.number fd' e' = some i → fd = fd' ∧ e = e'
  spent_lt : ∀ i ∈ s.spent, i < s.registrations

end IOManager

/-- The calls, each with the outcome of its `epoll_ctl` where it comes to one. -/
inductive Call where
  | addEvent (caller : Caller) (fd : Nat) (e : Event) (cb : Option Nat) (fails : Bool)
  | delEvent (fd : Nat) (e : Event) (fails : Bool)
  | cancelEvent (fd : Nat) (e : Event) (fails : Bool)
  | cancelAll (fd : Nat) (fails : Bool)
  | dispatch (fd : Nat) (reported : Events) (errorOrHangup : Bool) (fails : Bool)
  deriving DecidableEq, Repr

namespace IOManager

/-- The context that `addEvent` works on, in a table that may have grown for it. -/
def fetch (fd : Nat) (s : IOManager) : Except Stop (Nat × IOManager) :=
  match s.lookup fd with
  | some p => .ok (p, s)
  | none => s.resize fd

def addEvent (caller : Caller) (fd : Nat) (e : Event) (cb : Option Nat) (fails : Bool)
    (s : IOManager) : Except Stop (Int × IOManager) :=
  s.fetch fd >>= fun r => r.2.addSection caller r.1 fd e cb fails

def delEvent (fd : Nat) (e : Event) (fails : Bool) (s : IOManager) : Bool × IOManager :=
  match s.lookup fd with
  | none => (false, s)
  | some p => s.delSection p fd e fails

def cancelEvent (fd : Nat) (e : Event) (fails : Bool) (s : IOManager) :
    Except Stop (Bool × IOManager) :=
  match s.lookup fd with
  | none => .ok (false, s)
  | some p => s.cancelSection p fd e fails

def cancelAll (fd : Nat) (fails : Bool) (s : IOManager) : Except Stop (Bool × IOManager) :=
  match s.lookup fd with
  | none => .ok (false, s)
  | some p => s.cancelAllSection p fd fails

/-- One result of `epoll_wait`, handled at once: the kernel has the address of the context. -/
def dispatch (fd : Nat) (reported : Events) (errorOrHangup fails : Bool) (s : IOManager) :
    Except Stop (Bool × IOManager) :=
  match s.kernel fd with
  | none => .ok (false, s)
  | some (_, p) => s.dispatchSection p reported errorOrHangup fails

end IOManager

namespace Call

/-- Execute a call; the result says whether it reports success. -/
def run (s : IOManager) : Call → Except Stop (Bool × IOManager)
  | addEvent caller fd e cb fails =>
      (s.addEvent caller fd e cb fails).map fun r => (decide (r.1 = 0), r.2)
  | delEvent fd e fails => .ok (s.delEvent fd e fails)
  | cancelEvent fd e fails => s.cancelEvent fd e fails
  | cancelAll fd fails => s.cancelAll fd fails
  | dispatch fd reported errorOrHangup fails => s.dispatch fd reported errorOrHangup fails

/-- An event is added where it is not registered; the kernel reports registered events of a
descriptor it watches. -/
def Admissible (s : IOManager) : Call → Prop
  | addEvent _ fd e _ _ => (s.context fd).events.has e = false
  | dispatch fd reported _ _ =>
      (s.kernel fd).isSome = true ∧ reported.Subset (s.context fd).events
  | _ => True

/-- The table need not grow, or stays smaller than `2 ^ 31`. -/
def InRange (s : IOManager) : Call → Prop
  | addEvent _ fd _ _ _ => fd < s.size ∨ fd ≤ 1431655765
  | _ => True

instance (s : IOManager) : DecidablePred (InRange s)
  | addEvent _ fd _ _ _ => inferInstanceAs (Decidable (fd < s.size ∨ fd ≤ 1431655765))
  | delEvent .. | cancelEvent .. | cancelAll .. | dispatch .. => .isTrue trivial

/-- A call that was made where it may be made, and returned. -/
def Step (s : IOManager) (c : Call) (s' : IOManager) : Prop :=
  c.Admissible s ∧ ∃ r, c.run s = .ok (r, s')

end Call

end Sylar.Io
