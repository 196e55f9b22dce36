import Mathlib.Algebra.GroupWithZero.Nat
import Mathlib.Data.List.Nodup
import Mathlib.Algebra.BigOperators.Group.List.Basic
import Sylar.Http.ConnectionPool

/-!
# Pool accounting

Every connection that has been made is at one place: in `m_conns`, with a caller,
with a call in progress, or deleted. One equation per connection says so, and each
step of a call moves a connection from one of these places to another. The counter
runs behind the moves by what the calls in progress have still to add or subtract.
-/

namespace Sylar.Http

open Sylar.Lib

/-- The connections that a call in progress has in its hands. -/
def PoolCall.held : PoolCall → List Nat
  | .discarding left _ ptr => left ++ ptr.toList
  | .counting c | .releasing c | .returning c => [c]
  | .entered | .scanning _ | .connecting | .retiring => []

/-- What a call in progress contributes to `m_total` for now. -/
def PoolCall.counted : PoolCall → Nat
  | .discarding _ count ptr => count + ptr.toList.length
  | .releasing _ | .retiring | .returning _ => 1
  | .entered | .scanning _ | .connecting | .counting _ => 0

namespace PoolState

/-- How often a connection is in the pool, with a caller or deleted. -/
def weight (s : PoolState) (c : Nat) : Nat :=
  s.pool.conns.count c + s.handed.count c + s.deletes c

/-- How many connections the pool and the callers have. -/
def size (s : PoolState) : Nat := s.pool.conns.length + s.handed.length

/-- A connection has been made. -/
def isMade (s : PoolState) (c : Nat) : Nat := if c < s.made then 1 else 0

@[simp] theorem weight_setConns (conns : List Nat) (s : PoolState) (c : Nat) :
    (s.setConns conns).weight c = conns.count c + s.handed.count c + s.deletes c := rfl

@[simp] theorem weight_addTotal (n : Nat) (s : PoolState) (c : Nat) :
    (s.addTotal n).weight c = s.weight c := rfl

@[simp] theorem weight_subTotal (n : Nat) (s : PoolState) (c : Nat) :
    (s.subTotal n).weight c = s.weight c := rfl

@[simp] theorem weight_countRequest (d : Nat) (s : PoolState) (c : Nat) :
    (s.countRequest d).weight c = s.weight c := rfl

@[simp] theorem weight_allocate (s : PoolState) (c : Nat) : s.allocate.weight c = s.weight c := rfl

@[simp] theorem weight_delete (d : Nat) (s : PoolState) (c : Nat) :
    (s.delete d).weight c = s.weight c + if d = c then 1 else 0 := by
  obtain rfl | hne := eq_or_ne c d
  · simp [weight, delete, Nat.add_assoc]
  · simp [weight, delete, Function.update_of_ne hne, hne.symm]

@[simp] theorem weight_handOut (d : Nat) (s : PoolState) (c : Nat) :
    (s.handOut d).weight c = s.weight c + if d = c then 1 else 0 := by
  simp only [weight, handOut, List.count_cons, beq_iff_eq]
  omega

theorem isMade_le_one (s : PoolState) (c : Nat) : s.isMade c ≤ 1 := by
  rw [isMade]
  split <;> omega

@[simp] theorem isMade_allocate (s : PoolState) (c : Nat) :
    s.allocate.isMade c = s.isMade c + if s.made = c then 1 else 0 := by
  change (if c < s.made + 1 then 1 else 0) = (if c < s.made then 1 else 0) + _
  split_ifs <;> omega

@[simp] theorem isMade_addTotal (n : Nat) (s : PoolState) (c : Nat) :
    (s.addTotal n).isMade c = s.isMade c := rfl

@[simp] theorem isMade_subTotal (n : Nat) (s : PoolState) (c : Nat) :
    (s.subTotal n).isMade c = s.isMade c := rfl

@[simp] theorem isMade_handOut (d : Nat) (s : PoolState) (c : Nat) :
    (s.handOut d).isMade c = s.isMade c := rfl

@[simp] theorem isMade_countRequest (d : Nat) (s : PoolState) (c : Nat) :
    (s.countRequest d).isMade c = s.isMade c := rfl

@[simp] theorem isMade_setConns (conns : List Nat) (s : PoolState) (c : Nat) :
    (s.setConns conns).isMade c = s.isMade c := rfl

@[simp] theorem isMade_delete (d : Nat) (s : PoolState) (c : Nat) :
    (s.delete d).isMade c = s.isMade c := rfl

theorem scan_eq (s : PoolState) (now : UInt64) {l invalid_conns rest : List Nat}
    {ptr : Option Nat} (h : s.scan now l = (invalid_conns, ptr, rest)) :
    l = invalid_conns ++ (ptr.toList ++ rest) ∧ (∀ c ∈ invalid_conns, s.invalid now c) ∧
      (∀ c, ptr = some c → s.invalid now c = false) ∧ (ptr = none → rest = []) := by
  induction l generalizing invalid_conns with
  | nil =>
      cases h
      simp
  | cons d l ih =>
      rw [scan] at h
      split at h
      · next hinvalid =>
          rcases hscan : s.scan now l with ⟨ds, p, r⟩
          rw [hscan] at h
          cases h
          obtain ⟨hl, hds, hptr, hnone⟩ := ih hscan
          refine ⟨congrArg (d :: ·) hl, ?_, hptr, hnone⟩
          intro c hc
          obtain rfl | hc := List.mem_cons.mp hc
          · exact hinvalid
          · exact hds c hc
      · next hvalid =>
          cases h
          refine ⟨rfl, nofun, ?_, nofun⟩
          rintro c ⟨⟩
          exact Bool.eq_false_iff.mpr hvalid

end PoolState

/-- A step of a call moves connections from one place to another, or makes one. -/
theorem PoolCall.step_weight (connects : Bool) (call : PoolCall) (s : PoolState) (c : Nat) :
    (call.step connects s).2.weight c +
        ((call.step connects s).1.elim 0 fun next => next.held.count c) + s.isMade c =
      s.weight c + call.held.count c + (call.step connects s).2.isMade c := by
  cases call with
  | entered => simp only [step, held, Option.elim_some]
  | scanning now =>
      rcases hscan : s.scan now s.pool.conns with ⟨invalid_conns, ptr, rest⟩
      have hcount := congrArg (List.count c) (s.scan_eq now hscan).1
      simp only [step, hscan, PoolState.weight, PoolState.setConns, held, Option.elim_some,
        PoolState.isMade, List.count_append, List.count_nil] at hcount ⊢
      omega
  | discarding left count ptr =>
      cases left with
      | nil =>
          cases ptr with
          | none =>
              simp only [step, held, PoolState.weight_subTotal, PoolState.isMade_subTotal,
                Option.elim_some, Option.toList_none, List.append_nil]
          | some d =>
              simp only [step, held, PoolState.weight_handOut, PoolState.weight_subTotal,
                PoolState.isMade_handOut, PoolState.isMade_subTotal, Option.toList_some,
                List.nil_append, List.count_cons, List.count_nil, beq_iff_eq, Option.elim_none]
              omega
      | cons d left =>
          simp only [step, held, PoolState.weight_delete, PoolState.isMade_delete,
            List.cons_append, List.count_cons, beq_iff_eq, Option.elim_some]
          omega
  | connecting =>
      cases connects with
      | false =>
          simp only [step, held, Bool.false_eq_true, if_false, List.count_nil, Option.elim_none]
      | true =>
          simp only [step, held, if_true, PoolState.weight_allocate, PoolState.isMade_allocate,
            List.count_cons, List.count_nil, beq_iff_eq, Option.elim_some]
          omega
  | counting d =>
      simp only [step, held, PoolState.weight_handOut, PoolState.weight_addTotal,
        PoolState.isMade_handOut, PoolState.isMade_addTotal, List.count_cons, List.count_nil,
        beq_iff_eq, Option.elim_none]
      omega
  | releasing d =>
      rw [step]
      split
      · simp only [held, PoolState.weight_delete, PoolState.isMade_delete, List.count_cons,
          List.count_nil, beq_iff_eq, Option.elim_some]
        omega
      · simp only [held, PoolState.weight_countRequest, PoolState.isMade_countRequest,
          Option.elim_some]
  | retiring =>
      simp only [step, held, PoolState.weight_subTotal, PoolState.isMade_subTotal,
        List.count_nil, Option.elim_none]
  | returning d =>
      simp only [step, held, PoolState.weight_setConns, PoolState.isMade_setConns,
        List.count_append, Option.elim_none]
      rw [PoolState.weight]
      omega

theorem ofNat_sub_ofNat {a b n : Nat} (h : a = b + n) :
    Int32.ofNat a - Int32.ofNat n = Int32.ofNat b := by
  rw [h, Int32.ofNat_add]
  grind

/-- The counter keeps up with the moves of a call. -/
theorem PoolCall.step_total {connects : Bool} {call : PoolCall} {s : PoolState} {n : Nat}
    (h : s.pool.total = Int32.ofNat (s.size + call.counted + n)) :
    (call.step connects s).2.pool.total =
      Int32.ofNat
        ((call.step connects s).2.size + ((call.step connects s).1.elim 0 counted) + n) := by
  cases call with
  | entered => exact h
  | scanning now =>
      rcases hscan : s.scan now s.pool.conns with ⟨invalid_conns, ptr, rest⟩
      have hlength := congrArg List.length (s.scan_eq now hscan).1
      simp only [List.length_append] at hlength
      simp only [step, hscan]
      refine h.trans (congrArg Int32.ofNat ?_)
      simp only [PoolState.size, PoolState.setConns, counted, Option.elim_some, hlength]
      omega
  | discarding left count ptr =>
      cases left with
      | nil =>
          cases ptr with
          | none =>
              refine (congrArg (· - Int32.ofNat count) h).trans (ofNat_sub_ofNat ?_)
              simp only [step, counted, PoolState.size, PoolState.subTotal, Option.elim_some,
                Option.toList_none, List.length_nil]
              omega
          | some d =>
              refine (congrArg (· - Int32.ofNat count) h).trans (ofNat_sub_ofNat ?_)
              simp only [step, counted, PoolState.size, PoolState.subTotal, PoolState.handOut,
                Option.elim_none, Option.toList_some, List.length_cons, List.length_nil]
              omega
      | cons d left => exact h
  | connecting =>
      cases connects with
      | false => exact h
      | true => exact h
  | counting d =>
      refine (congrArg (· + Int32.ofNat 1) h).trans ?_
      rw [← Int32.ofNat_add]
      congr 1
      simp only [step, counted, PoolState.size, PoolState.addTotal, PoolState.handOut,
        Option.elim_none, List.length_cons]
      omega
  | releasing d =>
      rw [step]
      split
      · exact h
      · exact h
  | retiring =>
      refine (congrArg (· - Int32.ofNat 1) h).trans (ofNat_sub_ofNat ?_)
      simp only [step, counted, PoolState.size, PoolState.subTotal, Option.elim_none]
      omega
  | returning d =>
      refine h.trans (congrArg Int32.ofNat ?_)
      simp only [step, PoolState.size, PoolState.setConns, counted, Option.elim_none,
        List.length_append, List.length_cons, List.length_nil]
      omega

namespace PoolMachine

/-- Every connection that was made is at one place, and the counter agrees with the
places up to what the calls in progress have still to do. -/
structure Inv (m : PoolMachine) : Prop where
  once : ∀ c, m.state.weight c + (m.calls.map fun call => call.held.count c).sum =
    m.state.isMade c
  total : m.state.pool.total =
    Int32.ofNat (m.state.size + (m.calls.map PoolCall.counted).sum)

theorem init_inv (maxSize maxAliveTime maxRequest : UInt32) (clock : UInt64) :
    (init (.new maxSize maxAliveTime maxRequest) clock).Inv := by
  constructor
  · intro c
    rfl
  · rfl

theorem getElem?_split {calls : List PoolCall} {i : Nat} {call : PoolCall}
    (h : calls[i]? = some call) : calls = calls.take i ++ call :: calls.drop (i + 1) := by
  obtain ⟨hi, rfl⟩ := List.getElem?_eq_some_iff.mp h
  rw [List.cons_getElem_drop_succ, List.take_append_drop]

/-- A sum over the calls, with the call that takes a step apart from the others. -/
theorem sum_replace (f : PoolCall → Nat) {calls : List PoolCall} {i : Nat} {call : PoolCall}
    (h : calls[i]? = some call) (next : Option PoolCall) :
    ∃ others, (calls.map f).sum = f call + others ∧
      ((replace calls i next).map f).sum = next.elim 0 f + others := by
  refine ⟨((calls.take i).map f).sum + ((calls.drop (i + 1)).map f).sum, ?_, ?_⟩
  · conv_lhs => rw [getElem?_split h]
    simp only [List.map_append, List.map_cons, List.sum_append, List.sum_cons]
    omega
  · cases next with
    | none => simp [replace]
    | some next =>
        simp only [replace, Option.toList_some, List.map_append, List.map_cons, List.map_nil,
          List.sum_append, List.sum_cons, List.sum_nil, Option.elim_some]
        omega

theorem Step.inv {m m' : PoolMachine} {a : Act} (h : m.Inv) (hstep : m.Step a m') : m'.Inv := by
  obtain ⟨honce, htotal⟩ := h
  cases a with
  | getConnection =>
      cases hstep
      constructor
      · intro c
        simpa [PoolCall.held] using honce c
      · simpa [PoolCall.counted] using htotal
  | release c =>
      obtain ⟨hc, rfl⟩ := hstep
      constructor
      · intro d
        have hd := honce d
        have hpos := List.count_pos_iff.mpr hc
        simp only [PoolState.weight, PoolState.isMade, PoolCall.held, List.map_cons,
          List.sum_cons, List.count_cons, List.count_nil, beq_iff_eq, List.count_erase] at hd ⊢
        obtain rfl | hne := eq_or_ne d c
        · simp only [if_true]
          omega
        · simp only [hne, hne.symm, if_false]
          omega
      · have hlength := List.length_erase_of_mem hc
        have hpos := List.length_pos_of_mem hc
        refine htotal.trans (congrArg Int32.ofNat ?_)
        simp only [PoolState.size, PoolCall.counted, List.map_cons, List.sum_cons, hlength]
        omega
  | advance i connects =>
      obtain ⟨call, hcall, rfl⟩ := hstep
      constructor
      · intro c
        obtain ⟨others, hsum, hsum'⟩ := sum_replace (fun call => call.held.count c) hcall
          (call.step connects m.state).1
        have hc := honce c
        have hweight := call.step_weight connects m.state c
        rw [hsum] at hc
        rw [hsum']
        dsimp only
        omega
      · obtain ⟨others, hsum, hsum'⟩ := sum_replace PoolCall.counted hcall
          (call.step connects m.state).1
        rw [hsum, ← Nat.add_assoc] at htotal
        rw [hsum', ← Nat.add_assoc]
        exact PoolCall.step_total htotal
  | disconnect c =>
      cases hstep
      exact ⟨honce, htotal⟩
  | tick now =>
      obtain ⟨-, rfl⟩ := hstep
      exact ⟨honce, htotal⟩

/-- Whenever no call is in progress, the counter is the number of connections in the
pool and with callers, no connection is at two of these places or at one of them
twice, and a connection that is at none of them has been deleted once. -/
theorem pool_accounts {maxSize maxAliveTime maxRequest : UInt32} {clock : UInt64}
    {acts : List Act} {m : PoolMachine}
    (hrun : Transition.Run Step (init (.new maxSize maxAliveTime maxRequest) clock) acts m)
    (hquiet : m.calls = []) :
    m.state.pool.total = Int32.ofNat (m.state.pool.conns.length + m.state.handed.length) ∧
      m.state.pool.conns.Nodup ∧ m.state.handed.Nodup ∧
      (∀ c ∈ m.state.pool.conns, c ∉ m.state.handed) ∧
      ∀ c < m.state.made, m.state.deletes c =
        if c ∈ m.state.pool.conns ∨ c ∈ m.state.handed then 0 else 1 := by
  obtain ⟨honce, htotal⟩ := hrun.invariant (fun _ _ _ h hstep => hstep.inv h)
    (init_inv maxSize maxAliveTime maxRequest clock)
  simp only [hquiet, List.map_nil, List.sum_nil, Nat.add_zero, PoolState.weight] at honce htotal
  have hle := m.state.isMade_le_one
  refine ⟨htotal, ?_, ?_, ?_, ?_⟩
  · rw [List.nodup_iff_count_le_one]
    intro c
    have hplace := (honce c).trans_le (hle c)
    omega
  · rw [List.nodup_iff_count_le_one]
    intro c
    have hplace := (honce c).trans_le (hle c)
    omega
  · intro c hidle hhanded
    have hplace := (honce c).trans_le (hle c)
    have hpos := List.count_pos_iff.mpr hidle
    have hpos' := List.count_pos_iff.mpr hhanded
    omega
  · intro c hc
    have hplace := honce c
    rw [PoolState.isMade, if_pos hc] at hplace
    split
    · next hmem =>
        obtain hidle | hhanded := hmem
        · have hpos := List.count_pos_iff.mpr hidle
          omega
        · have hpos := List.count_pos_iff.mpr hhanded
          omega
    · next hnone =>
        rw [not_or] at hnone
        have hidle := List.count_eq_zero.mpr hnone.1
        have hhanded := List.count_eq_zero.mpr hnone.2
        omega

/-- A connection that was made, handed out and put back. -/
theorem pool_accounts_put_back :
    ∃ acts m, Transition.Run Step (init (.new 1 10 5) 100) acts m ∧ m.calls = [] ∧
      m.state.pool.conns = [0] ∧
      m.state.pool.total = Int32.ofNat (m.state.pool.conns.length + m.state.handed.length) := by
  obtain ⟨m, hrun, hquiet, hconns⟩ : ∃ m, Transition.Run Step (init (.new 1 10 5) 100)
      [.getConnection, .advance 0 true, .advance 0 true, .advance 0 true, .advance 0 true,
        .advance 0 true, .release 0, .advance 0 true, .advance 0 true] m ∧
      m.calls = [] ∧ m.state.pool.conns = [0] :=
    ⟨_, .cons rfl (.cons ⟨_, rfl, rfl⟩ (.cons ⟨_, rfl, rfl⟩ (.cons ⟨_, rfl, rfl⟩
      (.cons ⟨_, rfl, rfl⟩ (.cons ⟨_, rfl, rfl⟩ (.cons ⟨by decide, rfl⟩ (.cons ⟨_, rfl, rfl⟩
        (.cons ⟨_, rfl, rfl⟩ (.nil _))))))))), rfl, rfl⟩
  exact ⟨_, m, hrun, hquiet, hconns, (pool_accounts hrun hquiet).1⟩

end PoolMachine

end Sylar.Http
