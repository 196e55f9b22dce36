import Sylar.Http.PoolAccounting

/-!
# Pool limits

The pool tests `m_createTime + m_maxAliveTime` against the clock, and `m_createTime`
is 0 for ever, so age plays no part: with a clock below `m_maxAliveTime` every idle
connection is discarded, and from then on none is. `m_request` is compared on
release only, before it is incremented. `m_maxSize` is never compared with anything.
-/

namespace Sylar.Http

open Sylar.Lib

namespace PoolState

/-- How many connections there are. -/
def existing (s : PoolState) : Nat := (List.range s.made).countP fun c => s.deletes c = 0

/-- The connection is connected, younger than the limit and below the limit of uses. -/
def Fit (s : PoolState) (now : UInt64) (c : Nat) : Prop :=
  (s.conn c).connected = true ∧
    now.toNat < (s.born c).toNat + s.pool.maxAliveTime.toNat ∧
    s.uses c < s.pool.maxRequest.toNat

/-- What the loop of `getConnection` takes is fit, and what it discards is not. -/
def ScanRespects (s : PoolState) (now : UInt64) : Prop :=
  (∀ c, (s.scan now s.pool.conns).2.1 = some c → s.Fit now c) ∧
    ∀ c ∈ (s.scan now s.pool.conns).1, ¬ s.Fit now c

/-- With a clock below the limit of age, the connected idle connections have been put
back often enough; otherwise the first of them is young enough and has not. -/
def ScanAllowed (s : PoolState) (now : UInt64) : Prop :=
  (now.toNat < s.pool.maxAliveTime.toNat →
      ∀ c ∈ s.pool.conns, (s.conn c).connected = true →
        s.pool.maxRequest.toNat ≤ (s.conn c).request.toNat) ∧
    (s.pool.maxAliveTime.toNat ≤ now.toNat →
      ∀ c, (s.pool.conns.find? fun d => (s.conn d).connected) = some c →
        now.toNat < (s.born c).toNat + s.pool.maxAliveTime.toNat ∧
          (s.conn c).request.toNat < s.pool.maxRequest.toNat)

end PoolState

/-- A caller has the connection, or `ReleasePtr` has it and has not counted its use. -/
def PoolCall.lag (c : Nat) : PoolCall → Nat
  | .releasing d => if d = c then 1 else 0
  | _ => 0

theorem PoolCall.lag_le_held (c : Nat) (call : PoolCall) : call.lag c ≤ call.held.count c := by
  cases call with
  | releasing d => simp [lag, held, List.count_cons]
  | _ => exact Nat.zero_le _

/-- How often a connection was handed out, from the places it is at. -/
def PoolState.UsesCount (s : PoolState) (c n : Nat) : Prop :=
  s.deletes c = 0 → s.uses c = (s.conn c).request.toNat + s.handed.count c + n

theorem PoolState.UsesCount.delete {s : PoolState} {c n k : Nat} (h : s.UsesCount c (n + k))
    (d : Nat) (hk : d ≠ c → k = 0) : (s.delete d).UsesCount c n := by
  intro hzero
  obtain rfl | hne := eq_or_ne d c
  · simp [PoolState.delete] at hzero
  · simp only [PoolState.delete, Function.update_of_ne hne.symm] at hzero
    have huses := h hzero
    rw [hk hne, Nat.add_zero] at huses
    exact huses

theorem PoolState.UsesCount.handOut {s : PoolState} {c n : Nat} (h : s.UsesCount c n) (d : Nat) :
    (s.handOut d).UsesCount c n := by
  intro hzero
  have huses := h hzero
  obtain rfl | hne := eq_or_ne d c
  · simp only [PoolState.handOut, Function.update_self, List.count_cons_self]
    omega
  · simp only [PoolState.handOut, Function.update_of_ne hne.symm, List.count_cons_of_ne hne]
    exact huses

theorem PoolState.UsesCount.allocate {s : PoolState} {c n : Nat} (h : s.UsesCount c n)
    (hfresh : s.made = c → s.handed.count c + n = 0) : s.allocate.UsesCount c n := by
  intro hzero
  obtain rfl | hne := eq_or_ne s.made c
  · have hnone := hfresh rfl
    simp only [PoolState.allocate, Function.update_self]
    change 0 = 0 + _ + _
    omega
  · simp only [PoolState.allocate, Function.update_of_ne hne.symm]
    exact h hzero

theorem PoolState.UsesCount.countRequest {s : PoolState} {c n d : Nat}
    (h : s.UsesCount c (n + if d = c then 1 else 0))
    (hkeep : s.retires d = false) : (s.countRequest d).UsesCount c n := by
  intro hzero
  have huses := h hzero
  obtain rfl | hne := eq_or_ne d c
  · have hlt : (s.conn d).request < s.pool.maxRequest.toUInt64 := by
      simp only [PoolState.retires, Bool.or_eq_false_iff, decide_eq_false_iff_not] at hkeep
      exact UInt64.not_le.mp hkeep.2
    have hnext : ((s.conn d).request + 1).toNat = (s.conn d).request.toNat + 1 := by
      have hsmall := UInt64.lt_iff_toNat_lt.mp hlt
      have hbound := s.pool.maxRequest.toNat_lt
      rw [UInt32.toNat_toUInt64] at hsmall
      rw [UInt64.toNat_add]
      exact Nat.mod_eq_of_lt (by simp; omega)
    simp only [PoolState.countRequest, Function.update_self, hnext]
    rw [if_pos rfl] at huses
    omega
  · simp only [PoolState.countRequest, Function.update_of_ne hne.symm]
    rw [if_neg hne] at huses
    exact huses

/-- The steps of a call keep count of the uses. -/
theorem PoolCall.step_uses {connects : Bool} {call : PoolCall} {s : PoolState} {c n : Nat}
    (hfresh : s.made = c → s.handed.count c + n = 0) (h : s.UsesCount c (n + call.lag c)) :
    (call.step connects s).2.UsesCount c
      (n + (call.step connects s).1.elim 0 fun next => next.lag c) := by
  cases call with
  | entered => exact h
  | scanning now =>
      rcases hscan : s.scan now s.pool.conns with ⟨invalid_conns, ptr, rest⟩
      simp only [step, hscan]
      exact h
  | discarding left count ptr =>
      cases left with
      | nil =>
          cases ptr with
          | none => exact h
          | some d => exact PoolState.UsesCount.handOut (s := s.subTotal count) h d
      | cons d left => exact PoolState.UsesCount.delete (k := 0) h d fun _ => rfl
  | connecting =>
      cases connects with
      | false => exact h
      | true => exact h.allocate hfresh
  | counting d => exact PoolState.UsesCount.handOut (s := s.addTotal 1) h d
  | releasing d =>
      rw [step]
      split
      · exact PoolState.UsesCount.delete h d fun hne => if_neg hne
      · next hkeep => exact h.countRequest (Bool.eq_false_iff.mpr hkeep)
  | retiring => exact h
  | returning d => exact h

namespace PoolMachine

/-- The limits are kept in a step: by what it takes off `m_conns`, by what it discards
from it and by the number of connections afterwards. -/
def Respects (m : PoolMachine) (a : Act) (m' : PoolMachine) : Prop :=
  (match a with
    | .advance i _ =>
        match m.calls[i]? with
        | some (.scanning now) => m.state.ScanRespects now
        | _ => True
    | _ => True) ∧
  m'.state.existing ≤ m.state.pool.maxSize.toNat

def RespectfulStep (m : PoolMachine) (a : Act) (m' : PoolMachine) : Prop :=
  m.Step a m' ∧ m.Respects a m'

/-- A connection is taken only where it is fit anyway, and made only below the limit. -/
def Allows (m : PoolMachine) : Act → Prop
  | .advance i connects =>
      match m.calls[i]? with
      | some (.scanning now) => m.state.ScanAllowed now
      | some .connecting =>
          connects = true → m.state.existing < m.state.pool.maxSize.toNat
      | _ => True
  | _ => True

def AllowedStep (m : PoolMachine) (a : Act) (m' : PoolMachine) : Prop := m.Step a m' ∧ m.Allows a

/-- The accounts, what the pool's tests compare, and the limit on the number. -/
structure Sound (m : PoolMachine) : Prop where
  inv : m.Inv
  createTime : ∀ c, (m.state.conn c).createTime = 0
  uses : ∀ c, m.state.UsesCount c (m.calls.map (PoolCall.lag c)).sum
  existing : m.state.existing ≤ m.state.pool.maxSize.toNat

theorem sum_lag_le (calls : List PoolCall) (c : Nat) :
    (calls.map (PoolCall.lag c)).sum ≤ (calls.map fun call => call.held.count c).sum := by
  induction calls with
  | nil => exact Nat.le_refl 0
  | cons call calls ih =>
      simp only [List.map_cons, List.sum_cons]
      exact Nat.add_le_add (call.lag_le_held c) ih

/-- An idle connection was handed out as often as it was put back. -/
theorem Sound.uses_idle {m : PoolMachine} (h : m.Sound) {c : Nat} (hc : c ∈ m.state.pool.conns) :
    m.state.uses c = (m.state.conn c).request.toNat := by
  have honce := h.inv.once c
  have hpos := List.count_pos_iff.mpr hc
  have hlag := sum_lag_le m.calls c
  have hmade := m.state.isMade_le_one c
  rw [PoolState.weight] at honce
  have huses := h.uses c (by omega)
  omega

theorem invalid_iff {m : PoolMachine} (h : m.Sound) {now : UInt64} {c : Nat} :
    m.state.invalid now c = true ↔
      (m.state.conn c).connected = false ∨ now.toNat < m.state.pool.maxAliveTime.toNat := by
  rw [PoolState.invalid, h.createTime, UInt64.zero_add, Bool.or_eq_true, Bool.not_eq_true',
    decide_eq_true_iff, gt_iff_lt, UInt64.lt_iff_toNat_lt, UInt32.toNat_toUInt64]

/-- With a clock below the limit of age everything is discarded. -/
theorem Sound.scan_of_lt {m : PoolMachine} (h : m.Sound) {now : UInt64}
    (hclock : now.toNat < m.state.pool.maxAliveTime.toNat) :
    m.state.scan now m.state.pool.conns = (m.state.pool.conns, none, []) := by
  rcases hscan : m.state.scan now m.state.pool.conns with ⟨discarded, ptr, rest⟩
  obtain ⟨hconns, -, hvalid, hnone⟩ := m.state.scan_eq now hscan
  cases ptr with
  | some c =>
      have hc := hvalid c rfl
      rw [Bool.eq_false_iff, ne_eq, invalid_iff h] at hc
      exact absurd (Or.inr hclock) hc
  | none =>
      obtain rfl := hnone rfl
      rw [hconns, Option.toList_none, List.append_nil, List.append_nil]

/-- Otherwise the first connected connection is taken, and those before it are discarded. -/
theorem Sound.scan_of_le {m : PoolMachine} (h : m.Sound) {now : UInt64}
    (hclock : m.state.pool.maxAliveTime.toNat ≤ now.toNat) :
    (m.state.scan now m.state.pool.conns).2.1 =
        m.state.pool.conns.find? (fun c => (m.state.conn c).connected) ∧
      ∀ c ∈ (m.state.scan now m.state.pool.conns).1, (m.state.conn c).connected = false := by
  rcases hscan : m.state.scan now m.state.pool.conns with ⟨discarded, ptr, rest⟩
  obtain ⟨hconns, hinvalid, hvalid, hnone⟩ := m.state.scan_eq now hscan
  have hdiscarded : ∀ c ∈ discarded, (m.state.conn c).connected = false := by
    intro c hc
    exact ((invalid_iff h).mp (hinvalid c hc)).resolve_right (Nat.not_lt_of_le hclock)
  refine ⟨?_, hdiscarded⟩
  have hfirst : discarded.find? (fun c => (m.state.conn c).connected) = none := by
    rw [List.find?_eq_none]
    intro c hc
    rw [hdiscarded c hc]
    exact Bool.false_ne_true
  rw [hconns, List.find?_append, hfirst, Option.none_or]
  cases ptr with
  | some c =>
      have hc := hvalid c rfl
      rw [Bool.eq_false_iff, ne_eq, invalid_iff h, not_or, Bool.not_eq_false] at hc
      exact (List.find?_cons_of_pos (p := fun c => (m.state.conn c).connected) hc.1).symm
  | none =>
      obtain rfl := hnone rfl
      rfl

theorem Sound.scan_iff {m : PoolMachine} (h : m.Sound) (now : UInt64) :
    m.state.ScanRespects now ↔ m.state.ScanAllowed now := by
  obtain hclock | hclock := Nat.lt_or_ge now.toNat m.state.pool.maxAliveTime.toNat
  · simp only [PoolState.ScanRespects, PoolState.ScanAllowed, h.scan_of_lt hclock]
    constructor
    · rintro ⟨-, hdiscard⟩
      refine ⟨?_, fun hle => absurd hclock (Nat.not_lt_of_le hle)⟩
      intro _ c hc hconnected
      by_contra hlt
      refine hdiscard c hc ⟨hconnected, by omega, ?_⟩
      rw [h.uses_idle hc]
      omega
    · rintro ⟨hused, -⟩
      refine ⟨nofun, ?_⟩
      rintro c hc ⟨hconnected, -, huses⟩
      have hle := hused hclock c hc hconnected
      rw [h.uses_idle hc] at huses
      omega
  · obtain ⟨htaken, hdiscarded⟩ := h.scan_of_le hclock
    rw [PoolState.ScanRespects, PoolState.ScanAllowed, htaken]
    constructor
    · rintro ⟨hfit, -⟩
      refine ⟨fun hlt => absurd hlt (Nat.not_lt_of_le hclock), ?_⟩
      intro _ c hc
      obtain ⟨-, hyoung, huses⟩ := hfit c hc
      rw [h.uses_idle (List.mem_of_find?_eq_some hc)] at huses
      exact ⟨hyoung, huses⟩
    · rintro ⟨-, hfirst⟩
      constructor
      · intro c hc
        obtain ⟨hyoung, huses⟩ := hfirst hclock c hc
        rw [← h.uses_idle (List.mem_of_find?_eq_some hc)] at huses
        have hconnected := List.find?_some (p := fun c => (m.state.conn c).connected) hc
        exact ⟨hconnected, hyoung, huses⟩
      · rintro c hc ⟨hconnected, -⟩
        rw [hdiscarded c hc] at hconnected
        cases hconnected

theorem existing_delete_le (d : Nat) (s : PoolState) : (s.delete d).existing ≤ s.existing := by
  refine List.countP_mono_left ?_
  intro c _ hc
  rw [decide_eq_true_eq] at hc ⊢
  obtain rfl | hne := eq_or_ne c d
  · simp [PoolState.delete] at hc
  · simpa only [PoolState.delete, Function.update_of_ne hne] using hc

theorem existing_allocate {s : PoolState} (hfresh : s.deletes s.made = 0) :
    s.allocate.existing = s.existing + 1 := by
  change (List.range (s.made + 1)).countP (fun c => s.deletes c = 0) = _
  rw [List.range_succ, List.countP_append, List.countP_singleton, if_pos (decide_eq_true hfresh)]
  rfl

/-- Only making a connection leaves more of them. -/
theorem existing_step_le (connects : Bool) (call : PoolCall) (s : PoolState)
    (hcall : ¬ (call = .connecting ∧ connects = true)) :
    (call.step connects s).2.existing ≤ s.existing := by
  cases call with
  | entered | counting d | retiring | returning d => exact Nat.le_refl _
  | scanning now => exact Nat.le_refl _
  | discarding left count ptr =>
      cases left with
      | nil => cases ptr <;> exact Nat.le_refl _
      | cons d left => exact existing_delete_le d s
  | connecting =>
      cases connects with
      | false => exact Nat.le_refl _
      | true => exact absurd ⟨rfl, rfl⟩ hcall
  | releasing d =>
      rw [PoolCall.step]
      split
      · exact existing_delete_le d s
      · exact Nat.le_refl _

theorem maxSize_step (connects : Bool) (call : PoolCall) (s : PoolState) :
    (call.step connects s).2.pool.maxSize = s.pool.maxSize := by
  cases call with
  | discarding left count ptr =>
      cases left with
      | nil => cases ptr <;> rfl
      | cons d left => rfl
  | connecting => cases connects <;> rfl
  | releasing d =>
      rw [PoolCall.step]
      split <;> rfl
  | _ => rfl

theorem Sound.fresh {m : PoolMachine} (h : m.Sound) :
    m.state.weight m.state.made +
      (m.calls.map fun call => call.held.count m.state.made).sum = 0 := by
  rw [h.inv.once, PoolState.isMade, if_neg (Nat.lt_irrefl _)]

theorem Sound.step_iff {m m' : PoolMachine} {a : Act} (h : m.Sound) (hstep : m.Step a m') :
    m.Respects a m' ↔ m.Allows a := by
  have hlimit := h.existing
  cases a with
  | getConnection =>
      cases hstep
      exact iff_of_true ⟨trivial, hlimit⟩ trivial
  | release c =>
      obtain ⟨-, rfl⟩ := hstep
      exact iff_of_true ⟨trivial, hlimit⟩ trivial
  | disconnect c =>
      cases hstep
      exact iff_of_true ⟨trivial, hlimit⟩ trivial
  | tick now =>
      obtain ⟨-, rfl⟩ := hstep
      exact iff_of_true ⟨trivial, hlimit⟩ trivial
  | advance i connects =>
      obtain ⟨call, hcall, rfl⟩ := hstep
      rw [Respects, Allows]
      dsimp only
      rw [hcall]
      by_cases hmakes : call = .connecting ∧ connects = true
      · obtain ⟨rfl, rfl⟩ := hmakes
        have hfresh := h.fresh
        rw [PoolState.weight] at hfresh
        have hone : (PoolCall.step true .connecting m.state).2.existing = m.state.existing + 1 :=
          existing_allocate (by omega)
        rw [hone]
        constructor
        · rintro ⟨-, hle⟩ -
          exact hle
        · intro hlt
          exact ⟨trivial, hlt rfl⟩
      · have hle := Nat.le_trans (existing_step_le connects call m.state hmakes) hlimit
        cases call with
        | scanning now => exact (and_iff_left hle).trans (h.scan_iff now)
        | connecting =>
            refine iff_of_true ⟨trivial, hle⟩ ?_
            intro hconnects
            exact absurd ⟨rfl, hconnects⟩ hmakes
        | _ => exact iff_of_true ⟨trivial, hle⟩ trivial

theorem createTime_update {conn : Nat → HttpConnection} (h : ∀ c, (conn c).createTime = 0)
    {d : Nat} {x : HttpConnection} (hx : x.createTime = 0) (c : Nat) :
    (Function.update conn d x c).createTime = 0 := by
  obtain rfl | hne := eq_or_ne c d
  · rw [Function.update_self]
    exact hx
  · rw [Function.update_of_ne hne]
    exact h c

/-- Nothing assigns `m_createTime`. -/
theorem createTime_step {connects : Bool} {call : PoolCall} {s : PoolState}
    (h : ∀ c, (s.conn c).createTime = 0) (c : Nat) :
    ((call.step connects s).2.conn c).createTime = 0 := by
  cases call with
  | discarding left count ptr =>
      cases left with
      | nil => cases ptr <;> exact h c
      | cons d left => exact h c
  | connecting =>
      cases connects with
      | false => exact h c
      | true => exact createTime_update h rfl c
  | releasing d =>
      rw [PoolCall.step]
      split
      · exact h c
      · exact createTime_update (x := { s.conn d with request := (s.conn d).request + 1 }) h
          (h d) c
  | _ => exact h c

theorem Sound.step {m m' : PoolMachine} {a : Act} (h : m.Sound) (hstep : m.Step a m')
    (hexisting : m'.state.existing ≤ m.state.pool.maxSize.toNat) : m'.Sound := by
  have hinv := hstep.inv h.inv
  cases a with
  | getConnection =>
      cases hstep
      refine ⟨hinv, h.createTime, ?_, hexisting⟩
      intro c hzero
      simpa [PoolCall.lag] using h.uses c hzero
  | release c =>
      obtain ⟨hc, rfl⟩ := hstep
      refine ⟨hinv, h.createTime, ?_, hexisting⟩
      intro d hzero
      have huses := h.uses d hzero
      have hpos := List.count_pos_iff.mpr hc
      simp only [PoolCall.lag, List.map_cons, List.sum_cons, List.count_erase, beq_iff_eq]
      obtain rfl | hne := eq_or_ne c d
      · simp only [if_true]
        omega
      · simp only [hne, if_false]
        omega
  | advance i connects =>
      obtain ⟨call, hcall, rfl⟩ := hstep
      refine ⟨hinv, createTime_step h.createTime, ?_, ?_⟩
      · intro c
        obtain ⟨others, hsum, hsum'⟩ := sum_replace (PoolCall.lag c) hcall
          (call.step connects m.state).1
        have huses := h.uses c
        rw [hsum, Nat.add_comm] at huses
        rw [hsum', Nat.add_comm]
        refine PoolCall.step_uses ?_ huses
        rintro rfl
        have hfresh := h.fresh
        have hlag := sum_lag_le m.calls m.state.made
        rw [PoolState.weight] at hfresh
        omega
      · rw [maxSize_step]
        exact hexisting
  | disconnect c =>
      cases hstep
      refine ⟨hinv, createTime_update h.createTime (h.createTime c), ?_, hexisting⟩
      intro d hzero
      have huses := h.uses d hzero
      simp only [PoolState.disconnect]
      obtain rfl | hne := eq_or_ne d c
      · rw [Function.update_self]
        exact huses
      · rw [Function.update_of_ne hne]
        exact huses
  | tick now =>
      obtain ⟨-, rfl⟩ := hstep
      exact ⟨hinv, h.createTime, h.uses, hexisting⟩

/-- A run keeps the limits at every step exactly when every step is allowed. -/
theorem runs_respect_limits_iff (maxSize maxAliveTime maxRequest : UInt32) (clock : UInt64)
    (acts : List Act) (m : PoolMachine) :
    Transition.Run RespectfulStep (init (.new maxSize maxAliveTime maxRequest) clock) acts m ↔
      Transition.Run AllowedStep (init (.new maxSize maxAliveTime maxRequest) clock) acts m := by
  have hinit : (init (.new maxSize maxAliveTime maxRequest) clock).Sound := by
    refine ⟨init_inv _ _ _ _, fun _ => rfl, fun _ _ => rfl, Nat.zero_le _⟩
  refine Transition.Run.congr (P := Sound) ?_ ?_ hinit
  · intro m a m' h
    exact and_congr_right h.step_iff
  · rintro m a m' h ⟨hstep, -, hexisting⟩
    exact h.step hstep hexisting

/-- With at most one connection, of at most 10 ms and for one use: two connections
exist, and one of them is handed out again after 100 ms. -/
theorem limits_are_broken :
    ∃ acts m, Transition.Run Step (init (.new 1 10 1) 100) acts m ∧
      m.state.existing = 2 ∧ m.calls = [.scanning 200] ∧
      (m.state.scan 200 m.state.pool.conns).2.1 = some 0 ∧
      m.state.born 0 = 100 ∧ m.state.uses 0 = 1 ∧ ¬ m.state.ScanRespects 200 := by
  obtain ⟨m, hrun, hexisting, hcalls, htaken, hborn, huses, hlimit⟩ : ∃ m,
      Transition.Run Step (init (.new 1 10 1) 100)
        [.getConnection, .advance 0 true, .advance 0 true, .advance 0 true, .advance 0 true,
          .advance 0 true, .getConnection, .advance 0 true, .advance 0 true, .advance 0 true,
          .advance 0 true, .advance 0 true, .release 0, .advance 0 true, .advance 0 true,
          .tick 200, .getConnection, .advance 0 true] m ∧
        m.state.existing = 2 ∧ m.calls = [.scanning 200] ∧
        (m.state.scan 200 m.state.pool.conns).2.1 = some 0 ∧
        m.state.born 0 = 100 ∧ m.state.uses 0 = 1 ∧ m.state.pool.maxRequest = 1 :=
    ⟨_, .cons rfl (.cons ⟨_, rfl, rfl⟩ (.cons ⟨_, rfl, rfl⟩ (.cons ⟨_, rfl, rfl⟩
      (.cons ⟨_, rfl, rfl⟩ (.cons ⟨_, rfl, rfl⟩ (.cons rfl (.cons ⟨_, rfl, rfl⟩
      (.cons ⟨_, rfl, rfl⟩ (.cons ⟨_, rfl, rfl⟩ (.cons ⟨_, rfl, rfl⟩ (.cons ⟨_, rfl, rfl⟩
      (.cons ⟨by decide, rfl⟩ (.cons ⟨_, rfl, rfl⟩ (.cons ⟨_, rfl, rfl⟩
      (.cons ⟨by decide, rfl⟩ (.cons rfl (.cons ⟨_, rfl, rfl⟩ (.nil _)))))))))))))))))),
      by decide +kernel, rfl, rfl, rfl, rfl, rfl⟩
  refine ⟨_, m, hrun, hexisting, hcalls, htaken, hborn, huses, ?_⟩
  rintro ⟨hfit, -⟩
  have hused := (hfit 0 htaken).2.2
  rw [huses, hlimit] at hused
  exact Nat.lt_irrefl 1 hused

end PoolMachine

end Sylar.Http
