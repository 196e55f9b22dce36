import Mathlib.Logic.Function.Basic
import Sylar.Lib.Transition

/-!
# `HttpConnectionPool`

A connection is a number; the memory holds its members and how often it was
deleted. The two functions of the pool are cut where other threads can come in
between: at the mutex, at the atomic counter and at each deletion.

`m_createTime` keeps its initial value: nothing assigns it. `m_maxSize` is set by
the constructor and read by nothing.
-/

namespace Sylar.Http

/-- The members of `HttpConnection` that the pool reads; `connected` is `isConnected()`. -/
structure HttpConnection where
  connected : Bool
  createTime : UInt64
  request : UInt64
  deriving DecidableEq, Repr

/-- `new HttpConnection(sock)` for a socket that has been connected. -/
def HttpConnection.new : HttpConnection := ⟨true, 0, 0⟩

/-- `HttpConnectionPool`, its limits and its state. -/
structure HttpConnectionPool where
  maxSize : UInt32
  maxAliveTime : UInt32
  maxRequest : UInt32
  conns : List Nat
  total : Int32
  deriving DecidableEq, Repr

/-- The constructor. -/
def HttpConnectionPool.new (maxSize maxAliveTime maxRequest : UInt32) : HttpConnectionPool :=
  ⟨maxSize, maxAliveTime, maxRequest, [], 0⟩

/-- The pool and the memory. The connections made so far are the numbers below
`made`, and `handed` are those that a caller holds. The clock at which a connection
was made and how often it was handed out are not kept by the code. -/
structure PoolState where
  pool : HttpConnectionPool
  made : Nat
  conn : Nat → HttpConnection
  deletes : Nat → Nat
  handed : List Nat
  clock : UInt64
  born : Nat → UInt64
  uses : Nat → Nat

namespace PoolState

def init (pool : HttpConnectionPool) (clock : UInt64) : PoolState where
  pool := pool
  made := 0
  conn := fun _ => .new
  deletes := fun _ => 0
  handed := []
  clock := clock
  born := fun _ => 0
  uses := fun _ => 0

def setConns (conns : List Nat) (s : PoolState) : PoolState :=
  { s with pool := { s.pool with conns := conns } }

/-- `m_total += n`. -/
def addTotal (n : Nat) (s : PoolState) : PoolState :=
  { s with pool := { s.pool with total := s.pool.total + Int32.ofNat n } }

/-- `m_total -= n`. -/
def subTotal (n : Nat) (s : PoolState) : PoolState :=
  { s with pool := { s.pool with total := s.pool.total - Int32.ofNat n } }

/-- `delete`. -/
def delete (c : Nat) (s : PoolState) : PoolState :=
  { s with deletes := Function.update s.deletes c (s.deletes c + 1) }

/-- `new HttpConnection(sock)`. -/
def allocate (s : PoolState) : PoolState :=
  { s with
    made := s.made + 1
    conn := Function.update s.conn s.made .new
    born := Function.update s.born s.made s.clock
    uses := Function.update s.uses s.made 0 }

/-- `getConnection` returns the connection. -/
def handOut (c : Nat) (s : PoolState) : PoolState :=
  { s with
    handed := c :: s.handed
    uses := Function.update s.uses c (s.uses c + 1) }

/-- `++ptr->m_request`. -/
def countRequest (c : Nat) (s : PoolState) : PoolState :=
  { s with
    conn := Function.update s.conn c { s.conn c with request := (s.conn c).request + 1 } }

def disconnect (c : Nat) (s : PoolState) : PoolState :=
  { s with conn := Function.update s.conn c { s.conn c with connected := false } }

/-- `getConnection` discards the connection. -/
def invalid (s : PoolState) (now : UInt64) (c : Nat) : Bool :=
  !(s.conn c).connected || (s.conn c).createTime + s.pool.maxAliveTime.toUInt64 > now

/-- The loop of `getConnection`: the connections it discards, the one it takes and
those it leaves. -/
def scan (s : PoolState) (now : UInt64) : List Nat → List Nat × Option Nat × List Nat
  | [] => ([], none, [])
  | c :: cs =>
      if s.invalid now c then
        let (invalid_conns, ptr, rest) := s.scan now cs
        (c :: invalid_conns, ptr, rest)
      else ([], some c, cs)

/-- `ReleasePtr` deletes the connection. -/
def retires (s : PoolState) (c : Nat) : Bool :=
  !(s.conn c).connected ||
    (s.conn c).createTime + s.pool.maxAliveTime.toUInt64 ≥ s.clock ||
    (s.conn c).request ≥ s.pool.maxRequest.toUInt64

end PoolState

/-- A call in progress, by what it does next. -/
inductive PoolCall where
  /-- `getConnection` reads the clock. -/
  | entered
  /-- It runs its loop under the mutex. -/
  | scanning (now : UInt64)
  /-- It deletes what it has discarded, subtracts the number and goes on with `ptr`. -/
  | discarding (left : List Nat) (count : Nat) (ptr : Option Nat)
  /-- It looks up the address, creates a socket and connects it. -/
  | connecting
  /-- It counts the connection that it has made, and returns it. -/
  | counting (c : Nat)
  /-- `ReleasePtr` decides. -/
  | releasing (c : Nat)
  /-- It subtracts the connection that it has deleted. -/
  | retiring
  /-- It puts the connection back under the mutex. -/
  | returning (c : Nat)
  deriving DecidableEq, Repr

/-- The next step of a call; `none` is the return. A connection comes about if the
lookup, the socket and the connect succeed. -/
def PoolCall.step (connects : Bool) : PoolCall → PoolState → Option PoolCall × PoolState
  | .entered, s => (some (.scanning s.clock), s)
  | .scanning now, s =>
      let (invalid_conns, ptr, rest) := s.scan now s.pool.conns
      (some (.discarding invalid_conns invalid_conns.length ptr), s.setConns rest)
  | .discarding (c :: left) count ptr, s => (some (.discarding left count ptr), s.delete c)
  | .discarding [] count (some c), s => (none, (s.subTotal count).handOut c)
  | .discarding [] count none, s => (some .connecting, s.subTotal count)
  | .connecting, s => if connects then (some (.counting s.made), s.allocate) else (none, s)
  | .counting c, s => (none, (s.addTotal 1).handOut c)
  | .releasing c, s =>
      if s.retires c then (some .retiring, s.delete c)
      else (some (.returning c), s.countRequest c)
  | .retiring, s => (none, s.subTotal 1)
  | .returning c, s => (none, s.setConns (s.pool.conns ++ [c]))

/-- The pool and the calls in progress. -/
structure PoolMachine where
  state : PoolState
  calls : List PoolCall

namespace PoolMachine

def init (pool : HttpConnectionPool) (clock : UInt64) : PoolMachine := ⟨.init pool clock, []⟩

inductive Act where
  | getConnection
  | release (c : Nat)
  /-- The call at this place takes its next step. -/
  | advance (i : Nat) (connects : Bool)
  | disconnect (c : Nat)
  | tick (now : UInt64)
  deriving DecidableEq, Repr

/-- The calls after the one at place `i` has become `next` or has returned. -/
def replace (calls : List PoolCall) (i : Nat) (next : Option PoolCall) : List PoolCall :=
  calls.take i ++ (next.toList ++ calls.drop (i + 1))

def Step (m : PoolMachine) : Act → PoolMachine → Prop
  | .getConnection, m' => m' = { m with calls := .entered :: m.calls }
  | .release c, m' =>
      c ∈ m.state.handed ∧
        m' = ⟨{ m.state with handed := m.state.handed.erase c }, .releasing c :: m.calls⟩
  | .advance i connects, m' =>
      ∃ call, m.calls[i]? = some call ∧
        m' = ⟨(call.step connects m.state).2,
          replace m.calls i (call.step connects m.state).1⟩
  | .disconnect c, m' => m' = { m with state := m.state.disconnect c }
  | .tick now, m' => m.state.clock ≤ now ∧ m' = { m with state := { m.state with clock := now } }

end PoolMachine

end Sylar.Http
