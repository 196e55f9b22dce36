import Mathlib.Algebra.Order.BigOperators.Group.List
import Sylar.Http.Chunked
import Sylar.Http.DoRequest
import Sylar.Http.PoolAccounting

/-!
# Which connections are used again

Callers use the connections that the pool hands out for `doRequest`, and the pool
takes a connection back if its socket is still open. So a connection is used again
after every exchange that leaves the socket open, finished or not.

A `recv` that fails with -1 inside `readFixSize` is not taken for an error; what the
call does after that is left open here.
-/

namespace Sylar.Http

open Sylar.Lib Sylar.Net

/-- The pool with the sockets of its connections. A connection is `unfinished` if
some request on it was not sent as a whole or its response not received as a whole. -/
structure ReuseMachine where
  pool : PoolMachine
  socket : Nat → Socket
  unfinished : Nat → Bool

namespace ReuseMachine

def init (pool : HttpConnectionPool) (clock : UInt64) : ReuseMachine :=
  ⟨.init pool clock, fun _ => ⟨[], false⟩, fun _ => false⟩

inductive Act where
  | pool (a : PoolMachine.Act)
  | exchange (c : Nat) (x : Exchange)
  /-- An exchange with a `recv` that fails with -1 inside `readFixSize`. -/
  | garbled (c : Nat) (t : Socket) (finished : Bool)

/-- After an exchange on a connection that leaves its socket like this. -/
def after (m : ReuseMachine) (c : Nat) (t : Socket) (finished : Bool) : ReuseMachine where
  pool := { m.pool with
    state := if t.closed then m.pool.state.disconnect c else m.pool.state }
  socket := Function.update m.socket c t
  unfinished := Function.update m.unfinished c (m.unfinished c || !finished)

def Step (m : ReuseMachine) : Act → ReuseMachine → Prop
  | .pool a, m' => ∃ p, m.pool.Step a p ∧ m' = { m with pool := p }
  | .exchange c x, m' =>
      c ∈ m.pool.state.handed ∧ (m.pool.state.conn c).connected = true ∧
        ∃ result t written, x.doRequest (m.socket c) = some (result, t, written) ∧
          m' = m.after c t (x.finished result t written)
  | .garbled c t finished, m' =>
      c ∈ m.pool.state.handed ∧ (m.pool.state.conn c).connected = true ∧
        m' = m.after c t finished

/-- Nothing of an earlier exchange is left on the connection. -/
def Reusable (m : ReuseMachine) (c : Nat) : Prop :=
  m.unfinished c = false ∧ (m.socket c).pending = []

/-- The exchange is a proper one. -/
def ProperAct : Act → Prop
  | .pool _ => True
  | .exchange _ x => x.Proper
  | .garbled _ _ _ => False

def ProperStep (m : ReuseMachine) (a : Act) (m' : ReuseMachine) : Prop :=
  m.Step a m' ∧ ProperAct a

end ReuseMachine

namespace PoolMachine

/-- A property of connections that holds wherever the pool finds them open or has
found them open. -/
structure Keeps (K : Nat → Prop) (m : PoolMachine) : Prop where
  connected : ∀ c, (m.state.conn c).connected = true → K c
  idle : ∀ c ∈ m.state.pool.conns, K c
  returning : ∀ c, .returning c ∈ m.calls → K c
  fresh : ∀ c, m.state.made ≤ c → K c

namespace Keeps

variable {K : Nat → Prop} {m m' : PoolMachine}

theorem mem_replace {calls : List PoolCall} {i : Nat} {next : Option PoolCall} {call : PoolCall}
    (h : call ∈ replace calls i next) : call ∈ calls ∨ next = some call := by
  simp only [replace, List.mem_append, Option.mem_toList] at h
  obtain htake | hnext | hdrop := h
  · exact Or.inl (List.mem_of_mem_take htake)
  · exact Or.inr hnext
  · exact Or.inl (List.mem_of_mem_drop hdrop)

/-- A connection is put back if it was found open. -/
theorem step_returning {connects : Bool} {call : PoolCall} {s : PoolState} {c : Nat}
    (h : (call.step connects s).1 = some (.returning c)) : (s.conn c).connected = true := by
  cases call with
  | entered => cases h
  | scanning now => cases h
  | discarding left count ptr =>
      cases left with
      | nil =>
          cases ptr with
          | none => cases h
          | some d => cases h
      | cons d left => cases h
  | connecting =>
      cases connects with
      | false => cases h
      | true => cases h
  | counting d => cases h
  | releasing d =>
      rw [PoolCall.step] at h
      split at h
      · cases h
      · next hretires =>
          cases h
          simp only [PoolState.retires, Bool.or_eq_true, not_or] at hretires
          simpa using hretires.1.1
  | retiring => cases h
  | returning d => cases h

/-- A call in progress takes a step. -/
theorem advance (h : m.Keeps K) {call : PoolCall} (hcall : call ∈ m.calls) (i : Nat)
    (connects : Bool) :
    Keeps K ⟨(call.step connects m.state).2, replace m.calls i (call.step connects m.state).1⟩ := by
  have hreturning : ∀ c, .returning c ∈ replace m.calls i (call.step connects m.state).1 →
      K c := by
    intro c hc
    obtain hc | hc := mem_replace hc
    · exact h.returning c hc
    · exact h.connected c (step_returning hc)
  cases call with
  | entered => exact ⟨h.connected, h.idle, hreturning, h.fresh⟩
  | scanning now =>
      refine ⟨h.connected, ?_, hreturning, h.fresh⟩
      intro c hc
      rcases hscan : m.state.scan now m.state.pool.conns with ⟨invalid_conns, ptr, rest⟩
      simp only [PoolCall.step, hscan] at hc
      apply h.idle c
      rw [(m.state.scan_eq now hscan).1]
      exact List.mem_append_right _ (List.mem_append_right _ hc)
  | discarding left count ptr =>
      cases left with
      | nil =>
          cases ptr with
          | none => exact ⟨h.connected, h.idle, hreturning, h.fresh⟩
          | some d => exact ⟨h.connected, h.idle, hreturning, h.fresh⟩
      | cons d left => exact ⟨h.connected, h.idle, hreturning, h.fresh⟩
  | connecting =>
      cases connects with
      | false => exact ⟨h.connected, h.idle, hreturning, h.fresh⟩
      | true =>
          refine ⟨?_, h.idle, hreturning, fun c hc => h.fresh c (Nat.le_of_succ_le hc)⟩
          intro c hc
          obtain rfl | hne := eq_or_ne c m.state.made
          · exact h.fresh _ le_rfl
          · apply h.connected c
            simpa [PoolCall.step, PoolState.allocate, Function.update_of_ne hne] using hc
  | counting d => exact ⟨h.connected, h.idle, hreturning, h.fresh⟩
  | releasing d =>
      revert hreturning
      rw [PoolCall.step]
      split
      · intro hreturning
        exact ⟨h.connected, h.idle, hreturning, h.fresh⟩
      · intro hreturning
        refine ⟨?_, h.idle, hreturning, h.fresh⟩
        intro c hc
        apply h.connected c
        obtain rfl | hne := eq_or_ne c d
        · simpa [PoolState.countRequest] using hc
        · simpa [PoolState.countRequest, Function.update_of_ne hne] using hc
  | retiring => exact ⟨h.connected, h.idle, hreturning, h.fresh⟩
  | returning d =>
      refine ⟨h.connected, ?_, hreturning, h.fresh⟩
      intro c hc
      obtain hc | hc := List.mem_append.mp hc
      · exact h.idle c hc
      · rw [List.mem_singleton.mp hc]
        exact h.returning d hcall

theorem disconnect (h : m.Keeps K) (d : Nat) :
    Keeps K { m with state := m.state.disconnect d } := by
  refine ⟨?_, h.idle, h.returning, h.fresh⟩
  intro c hc
  apply h.connected c
  obtain rfl | hne := eq_or_ne c d
  · simp [PoolState.disconnect] at hc
  · simpa [PoolState.disconnect, Function.update_of_ne hne] using hc

theorem step (h : m.Keeps K) {a : Act} (hstep : m.Step a m') : m'.Keeps K := by
  cases a with
  | getConnection =>
      cases hstep
      exact ⟨h.connected, h.idle, fun c hc => h.returning c (by simpa using hc), h.fresh⟩
  | release d =>
      obtain ⟨-, rfl⟩ := hstep
      exact ⟨h.connected, h.idle, fun c hc => h.returning c (by simpa using hc), h.fresh⟩
  | advance i connects =>
      obtain ⟨call, hcall, rfl⟩ := hstep
      exact h.advance (List.mem_of_getElem? hcall) i connects
  | disconnect d =>
      cases hstep
      exact h.disconnect d
  | tick now =>
      obtain ⟨-, rfl⟩ := hstep
      exact ⟨h.connected, h.idle, h.returning, h.fresh⟩

theorem mono {K' : Nat → Prop} (h : m.Keeps K) (hK : ∀ c, K c → K' c) : m.Keeps K' :=
  ⟨fun c hc => hK c (h.connected c hc), fun c hc => hK c (h.idle c hc),
    fun c hc => hK c (h.returning c hc), fun c hc => hK c (h.fresh c hc)⟩

/-- The property may change at a connection that a caller holds and that is not open
any more. -/
theorem of_closed {K' : Nat → Prop} (h : m.Keeps K) (hinv : m.Inv) {d : Nat}
    (hd : d ∈ m.state.handed) (hclosed : (m.state.conn d).connected = false)
    (hK : ∀ c, c ≠ d → K c → K' c) : m.Keeps K' := by
  have honce := hinv.once d
  have hhanded := List.count_pos_iff.mpr hd
  have hmade : m.state.isMade d = if d < m.state.made then 1 else 0 := rfl
  rw [hmade, PoolState.weight] at honce
  refine ⟨?_, ?_, ?_, ?_⟩
  · intro c hc
    refine hK c ?_ (h.connected c hc)
    rintro rfl
    rw [hclosed] at hc
    cases hc
  · intro c hc
    refine hK c ?_ (h.idle c hc)
    rintro rfl
    have hidle := List.count_pos_iff.mpr hc
    split at honce <;> omega
  · intro c hc
    refine hK c ?_ (h.returning c hc)
    rintro rfl
    have hheld : 1 ≤ (m.calls.map fun call => call.held.count c).sum :=
      List.single_le_sum (fun _ _ => Nat.zero_le _) _
        (List.mem_map.mpr ⟨_, hc, List.count_singleton_self⟩)
    split at honce <;> omega
  · intro c hc
    refine hK c ?_ (h.fresh c hc)
    rintro rfl
    rw [if_neg (Nat.not_lt.mpr hc)] at honce
    omega

end Keeps

end PoolMachine

namespace ReuseMachine

/-- A connection without a trace of an exchange on it. -/
def Clean (m : ReuseMachine) (c : Nat) : Prop :=
  m.unfinished c = false ∧ m.socket c = ⟨[], false⟩

structure Inv (m : ReuseMachine) : Prop where
  pool : m.pool.Inv
  keeps : m.pool.Keeps m.Clean

theorem init_inv (maxSize maxAliveTime maxRequest : UInt32) (clock : UInt64) :
    (init (.new maxSize maxAliveTime maxRequest) clock).Inv := by
  have hclean : ∀ c, (init (.new maxSize maxAliveTime maxRequest) clock).Clean c :=
    fun _ => ⟨rfl, rfl⟩
  exact ⟨PoolMachine.init_inv _ _ _ _, fun c _ => hclean c, fun c _ => hclean c,
    fun c _ => hclean c, fun c _ => hclean c⟩

theorem ProperStep.inv {m m' : ReuseMachine} {a : Act} (h : m.Inv) (hstep : m.ProperStep a m') :
    m'.Inv := by
  obtain ⟨hstep, hproper⟩ := hstep
  cases a with
  | pool a =>
      obtain ⟨p, hp, rfl⟩ := hstep
      exact ⟨hp.inv h.pool, h.keeps.step hp⟩
  | garbled c t finished => exact hproper.elim
  | exchange d x =>
      obtain ⟨hd, hconnected, result, t, written, hrun, rfl⟩ := hstep
      obtain ⟨hunfinished, hsocket⟩ := h.keeps.connected d hconnected
      rw [hsocket] at hrun
      have hother : ∀ c, c ≠ d → m.Clean c →
          (m.after d t (x.finished result t written)).Clean c := by
        intro c hne hc
        simpa only [Clean, after, Function.update_of_ne hne] using hc
      cases hclosed : t.closed with
      | true =>
          have hpool : (m.after d t (x.finished result t written)).pool =
              { m.pool with state := m.pool.state.disconnect d } := by
            simp only [after, hclosed, if_true]
          have hdisconnect : m.pool.Step (.disconnect d)
              { m.pool with state := m.pool.state.disconnect d } := rfl
          refine ⟨hpool ▸ hdisconnect.inv h.pool, ?_⟩
          rw [hpool]
          refine (h.keeps.disconnect d).of_closed (hdisconnect.inv h.pool) hd ?_ hother
          simp only [PoolState.disconnect, Function.update_self]
      | false =>
          have hpool : (m.after d t (x.finished result t written)).pool = m.pool := by
            simp only [after, hclosed, Bool.false_eq_true, if_false]
          have hfinished : x.finished result t written = true :=
            (hproper.closed_or_finished hrun).resolve_left (by simp [hclosed])
          refine ⟨hpool ▸ h.pool, ?_⟩
          rw [hpool]
          apply h.keeps.mono
          intro c hc
          obtain rfl | hne := eq_or_ne c d
          · simp only [Exchange.finished, Bool.and_eq_true, decide_eq_true_eq] at hfinished
            refine ⟨?_, ?_⟩
            · simp [after, hunfinished, Exchange.finished, hfinished]
            · simp only [after, Function.update_self]
              cases t
              simp_all
          · exact hother c hne hc

/-- A request that is sent in two writes, with its response. -/
def wholeExchange : Exchange where
  data := ascii "GET / HTTP/1.1\r\n\r\n"
  sends := [.takes 3, .takes 15]
  env := smallEnv
  answer := [ascii "HTTP/1.1 200 OK\r\nContent-Length: 0\r\n\r\n"]
  data_ne := by decide
  data_lt := by decide
  answer_ne := by decide

theorem wholeExchange_recvResponse :
    ∃ response, (HttpConnection.recvResponse smallEnv).exec ⟨wholeExchange.answer, false⟩ =
      (.ok (some response), ⟨[], false⟩) := by
  have heval :
      ((HttpConnection.recvResponse smallEnv).exec
        ⟨wholeExchange.answer, false⟩).1.toOption.join.isSome = true ∧
      ((HttpConnection.recvResponse smallEnv).exec ⟨wholeExchange.answer, false⟩).2 =
        ⟨[], false⟩ := by decide +kernel
  rcases hexec : (HttpConnection.recvResponse smallEnv).exec ⟨wholeExchange.answer, false⟩ with
    ⟨f | _ | response, t⟩
  all_goals
    rw [hexec] at heval
    obtain ⟨hsome, rfl⟩ := heval
  · cases hsome
  · cases hsome
  · exact ⟨response, rfl⟩

theorem wholeExchange_proper : wholeExchange.Proper := by
  obtain ⟨response, hrecv⟩ := wholeExchange_recvResponse
  refine ⟨?_, by decide, ?_, ?_⟩
  · intro r hr
    obtain rfl | hr := List.mem_cons.mp hr
    · exact ⟨3, rfl, by decide⟩
    · exact ⟨15, List.mem_singleton.mp hr, by decide⟩
  · intro f t h
    cases hrecv.symm.trans h
  · intro other t h
    cases hrecv.symm.trans h
    rfl

theorem wholeExchange_doRequest :
    wholeExchange.doRequest ⟨[], false⟩ =
      some (.ok .ok, ⟨[], false⟩, List.range 18) := by
  obtain ⟨response, hrecv⟩ := wholeExchange_recvResponse
  have hwrite : writeFixSize (.ofNat wholeExchange.data.length) wholeExchange.sends =
      some (18, List.range 18) := by decide +kernel
  have hrecv' : (HttpConnection.recvResponse wholeExchange.env).exec
      ⟨[] ++ wholeExchange.answer, false⟩ = (.ok (some response), ⟨[], false⟩) := hrecv
  unfold Exchange.doRequest
  simp only [hwrite, hrecv']
  rfl

/-- A connection is made, used for one exchange and released. -/
def oneExchange (x : Exchange) : List Act :=
  [.pool .getConnection, .pool (.advance 0 true), .pool (.advance 0 true),
    .pool (.advance 0 true), .pool (.advance 0 true), .pool (.advance 0 true), .exchange 0 x,
    .pool (.release 0), .pool (.advance 0 true), .pool (.advance 0 true)]

theorem oneExchange_run {x : Exchange} {result : Except Fault HttpResultError}
    {pending : List Text} {written : List Nat}
    (h : x.doRequest ⟨[], false⟩ = some (result, ⟨pending, false⟩, written)) :
    ∃ m, Transition.Run Step (init (.new 1 10 5) 100) (oneExchange x) m ∧
      m.pool.state.pool.conns = [0] ∧
      m.unfinished 0 = !x.finished result ⟨pending, false⟩ written :=
  ⟨_, .cons ⟨_, rfl, rfl⟩ (.cons ⟨_, ⟨_, rfl, rfl⟩, rfl⟩ (.cons ⟨_, ⟨_, rfl, rfl⟩, rfl⟩
    (.cons ⟨_, ⟨_, rfl, rfl⟩, rfl⟩ (.cons ⟨_, ⟨_, rfl, rfl⟩, rfl⟩ (.cons ⟨_, ⟨_, rfl, rfl⟩, rfl⟩
      (.cons ⟨List.mem_cons_self, rfl, _, _, _, h, rfl⟩
        (.cons ⟨_, ⟨List.mem_cons_self, rfl⟩, rfl⟩
        (.cons ⟨_, ⟨_, rfl, rfl⟩, rfl⟩ (.cons ⟨_, ⟨_, rfl, rfl⟩, rfl⟩ (.nil _)))))))))),
    rfl, rfl⟩

/-- The same request with a write that takes nothing after the first three bytes. -/
def cutExchange : Exchange :=
  { wholeExchange with sends := [.takes 3, .takes 0], answer := [], answer_ne := nofun }

theorem cutExchange_doRequest :
    cutExchange.doRequest ⟨[], false⟩ =
      some (.ok .sendCloseByPeer, ⟨[], false⟩, [0, 1, 2]) := by
  decide +kernel

end ReuseMachine

end Sylar.Http
