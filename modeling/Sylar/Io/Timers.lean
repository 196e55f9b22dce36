import Sylar.Lib.OrderedSet
import Sylar.Lib.Transition
import Mathlib.Data.Prod.Lex

/-!
# The timers of `TimerManager`

The set of timers is ordered by a field that the operations change, so each of
them takes a timer out of the set before it changes the field and puts it back
afterwards. A timer is named by the number of its allocation; its address is
what the comparator reads, and may be that of a timer that no longer exists.

The clock is read once in every operation that reads it, and given to it. Both
the clock and the deadlines are 64 bit wide and wrap. The comparator is never
given a null pointer.
-/

namespace Sylar.Io

open Sylar.Lib

/-- A function, or `OnTimer` bound to a condition and a function that may be empty. -/
inductive TimerCb where
  | fn (id : Nat)
  | onTimer (cond : Nat) (cb : Option Nat)
  deriving DecidableEq, Repr

structure Timer where
  recurring : Bool
  ms : UInt64
  next : UInt64
  cb : Option TimerCb
  address : Nat
  deriving DecidableEq, Repr

namespace Timer

/-- `Timer::Comparator`. -/
def comparator (lhs rhs : Timer) : Bool :=
  if lhs.next < rhs.next then true
  else if rhs.next < lhs.next then false
  else decide (lhs.address < rhs.address)

/-- What the comparator compares. -/
def key (t : Timer) : ℕ ×ₗ ℕ := toLex (t.next.toNat, t.address)

theorem comparator_iff (lhs rhs : Timer) : lhs.comparator rhs = true ↔ lhs.key < rhs.key := by
  unfold comparator key
  rw [Prod.Lex.toLex_lt_toLex]
  simp only [UInt64.lt_iff_toNat_lt]
  split
  · next hlt => simp [hlt]
  · next hle =>
      split
      · next hgt => simp [hle, Nat.ne_of_gt hgt]
      · next hge =>
          have heq : lhs.next.toNat = rhs.next.toNat := by omega
          simp [heq]

theorem key_ne_of_address {t t' : Timer} (h : t.address ≠ t'.address) : t.key ≠ t'.key :=
  fun he => h (congrArg (fun k => (ofLex k).2) he)

/-- The timer that `listExpiredCb` searches with. -/
def probe (next : UInt64) (address : Nat) : Timer := ⟨false, 0, next, none, address⟩

end Timer

/-- The timers that exist or existed, and the set, in its order. -/
structure TimerManager where
  heap : Nat → Timer
  count : Nat
  timers : List Nat
  tickled : Bool
  previouseTime : UInt64

namespace TimerManager

/-- The constructor. -/
def init (now : UInt64) : TimerManager :=
  { heap := fun _ => .probe 0 0, count := 0, timers := [], tickled := false, previouseTime := now }

def less (s : TimerManager) (i j : Nat) : Bool := (s.heap i).comparator (s.heap j)

def key (s : TimerManager) (i : Nat) : ℕ ×ₗ ℕ := (s.heap i).key

theorem comparesBy (s : TimerManager) : OrderedSet.ComparesBy s.less s.key :=
  fun i j => Timer.comparator_iff (s.heap i) (s.heap j)

def setTimer (i : Nat) (t : Timer) (s : TimerManager) : TimerManager :=
  { s with heap := Function.update s.heap i t }

def insertTimer (i : Nat) (s : TimerManager) : TimerManager :=
  { s with timers := OrderedSet.insert s.less i s.timers }

def eraseTimer (i : Nat) (s : TimerManager) : TimerManager :=
  { s with timers := OrderedSet.erase s.less i s.timers }

/-- `addTimer(val, lock)`: whether `onTimerInsertedAtFront` is called. -/
def addTimerLocked (i : Nat) (s : TimerManager) : Bool × TimerManager :=
  let atFront := (OrderedSet.below s.less i s.timers).isEmpty && !s.tickled
  (atFront, { s.insertTimer i with tickled := s.tickled || atFront })

/-- `new Timer` at an address. -/
def allocate (ms : UInt64) (cb : Option TimerCb) (recurring : Bool) (now : UInt64)
    (address : Nat) (s : TimerManager) : TimerManager :=
  { s.setTimer s.count ⟨recurring, ms, now + ms, cb, address⟩ with count := s.count + 1 }

def addTimer (ms : UInt64) (cb : Option TimerCb) (recurring : Bool) (now : UInt64)
    (address : Nat) (s : TimerManager) : Bool × TimerManager :=
  (s.allocate ms cb recurring now address).addTimerLocked s.count

def addConditionTimer (ms : UInt64) (cb : Option Nat) (cond : Nat) (recurring : Bool)
    (now : UInt64) (address : Nat) (s : TimerManager) : Bool × TimerManager :=
  s.addTimer ms (some (.onTimer cond cb)) recurring now address

/-- `Timer::cancel`; `none` if `end()` is erased. -/
def cancel (i : Nat) (s : TimerManager) : Option (Bool × TimerManager) :=
  if (s.heap i).cb.isSome then
    let s := s.setTimer i { s.heap i with cb := none }
    match OrderedSet.find s.less i s.timers with
    | none => none
    | some _ => some (true, s.eraseTimer i)
  else some (false, s)

/-- `Timer::refresh`. -/
def refresh (i : Nat) (now : UInt64) (s : TimerManager) : Bool × TimerManager :=
  if (s.heap i).cb.isSome then
    match OrderedSet.find s.less i s.timers with
    | none => (false, s)
    | some _ =>
        let s := s.eraseTimer i
        (true, (s.setTimer i { s.heap i with next := now + (s.heap i).ms }).insertTimer i)
  else (false, s)

/-- `Timer::reset`: its result, and whether `onTimerInsertedAtFront` is called. -/
def reset (i : Nat) (ms : UInt64) (fromNow : Bool) (now : UInt64) (s : TimerManager) :
    Bool × Bool × TimerManager :=
  if (s.heap i).ms = ms ∧ fromNow = false then (true, false, s)
  else if (s.heap i).cb.isSome then
    match OrderedSet.find s.less i s.timers with
    | none => (false, false, s)
    | some _ =>
        let s := s.eraseTimer i
        let start := if fromNow then now else (s.heap i).next - (s.heap i).ms
        (true, (s.setTimer i { s.heap i with ms := ms, next := ms + start }).addTimerLocked i)
  else (false, false, s)

def getNextTimer (now : UInt64) (s : TimerManager) : UInt64 × TimerManager :=
  let s := { s with tickled := false }
  match s.timers with
  | [] => (-1, s)
  | i :: _ =>
      if (s.heap i).next ≤ now then (0, s) else ((s.heap i).next - now, s)

def detectClockRollover (now : UInt64) (s : TimerManager) : Bool × TimerManager :=
  (decide (now < s.previouseTime) && decide (now < s.previouseTime - 60 * 60 * 1000),
    { s with previouseTime := now })

/-- The timers in front of the iterator at which `listExpiredCb` stops, and those from it on. -/
def expired (now : UInt64) (probe : Nat) (rollover : Bool) (s : TimerManager) :
    List Nat × List Nat :=
  if rollover then (s.timers, [])
  else
    let less := fun i => (s.heap i).comparator (.probe now probe)
    let due := fun i => (s.heap i).next == now
    (s.timers.takeWhile less ++ (s.timers.dropWhile less).takeWhile due,
      (s.timers.dropWhile less).dropWhile due)

/-- What the loop of `listExpiredCb` does to one timer after its callback was collected. -/
def rearm (now : UInt64) (s : TimerManager) (i : Nat) : TimerManager :=
  if (s.heap i).recurring then
    (s.setTimer i { s.heap i with next := now + (s.heap i).ms }).insertTimer i
  else s.setTimer i { s.heap i with cb := none }

/-- `listExpiredCb`: the timers whose callbacks were collected, the callbacks, and the rest. -/
def listExpiredCb (now : UInt64) (probe : Nat) (s : TimerManager) :
    List Nat × List (Option TimerCb) × TimerManager :=
  match s.timers with
  | [] => ([], [], s)
  | i :: _ =>
      let (rollover, s) := s.detectClockRollover now
      if !rollover && decide (now < (s.heap i).next) then ([], [], s)
      else
        let (due, rest) := s.expired now probe rollover
        (due, due.map fun j => (s.heap j).cb,
          due.foldl (rearm now) { s with timers := rest })

end TimerManager

end Sylar.Io
