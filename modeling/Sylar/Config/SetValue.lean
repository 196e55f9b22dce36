import Mathlib.Logic.Function.Basic
import Sylar.Lib.Transition

/-!
# `ConfigVar::setValue`

A call of `setValue` has two critical sections. Under the read lock it compares the
values and runs the callbacks, under the write lock it assigns. Read locks are shared,
so the callbacks of two calls may run at the same time; here each callback is a step.

The listeners do not change while the calls are made.
-/

namespace Sylar.Config

open Sylar.Lib

/-- `ConfigVar`, its value and the keys of its listeners in the order of the map. -/
structure ConfigVar (T : Type) where
  val : T
  cbs : List Nat

/-- A call of `setValue`, by what it does next. -/
inductive SetCall (T : Type) where
  /-- It takes the read lock and compares. -/
  | entered (v : T)
  /-- It holds the read lock and has these callbacks to run. -/
  | notifying (v : T) (left : List Nat)
  /-- It waits for the write lock. -/
  | assigning (v : T)
  | returned
  deriving DecidableEq, Repr

/-- The call has found another value and has not assigned its own yet. -/
def SetCall.busy {T : Type} : SetCall T → Bool
  | .notifying _ _ | .assigning _ => true
  | .entered _ | .returned => false

/-- The call holds the read lock. -/
def SetCall.reads {T : Type} : SetCall T → Bool
  | .notifying _ _ => true
  | .entered _ | .assigning _ | .returned => false

/-- An invocation of a callback, with the call of `setValue` that made it. -/
structure Callback (T : Type) where
  call : Nat
  key : Nat
  oldValue : T
  newValue : T
  deriving DecidableEq, Repr

/-- The variable and all calls of `setValue` on it. The callbacks are recorded with the
latest first, and for each call that has assigned, the value that it replaced. -/
structure VarMachine (T : Type) where
  var : ConfigVar T
  calls : List (SetCall T)
  callbacks : List (Callback T)
  replaced : Nat → Option T

namespace VarMachine

variable {T : Type} [DecidableEq T]

def init (val : T) (cbs : List Nat) : VarMachine T := ⟨⟨val, cbs⟩, [], [], fun _ => none⟩

def setCall (m : VarMachine T) (i : Nat) (call : SetCall T) : VarMachine T :=
  { m with calls := m.calls.set i call }

/-- `i.second(m_val, v)`. -/
def notify (m : VarMachine T) (i key : Nat) (v : T) : VarMachine T :=
  { m with callbacks := ⟨i, key, m.var.val, v⟩ :: m.callbacks }

/-- `m_val = v`. -/
def assign (m : VarMachine T) (i : Nat) (v : T) : VarMachine T :=
  { m with
    var := { m.var with val := v }
    replaced := Function.update m.replaced i (some m.var.val) }

/-- The next step of the call at place `i`; `none` if it has returned or has to wait. -/
def next (m : VarMachine T) (i : Nat) : SetCall T → Option (VarMachine T)
  | .entered v =>
      if v = m.var.val then some (m.setCall i .returned)
      else some (m.setCall i (.notifying v m.var.cbs))
  | .notifying v (key :: left) => some ((m.notify i key v).setCall i (.notifying v left))
  | .notifying v [] => some (m.setCall i (.assigning v))
  | .assigning v =>
      if m.calls.any SetCall.reads then none else some ((m.assign i v).setCall i .returned)
  | .returned => none

inductive Act (T : Type) where
  | setValue (v : T)
  | advance (i : Nat)

def Step (m : VarMachine T) : Act T → VarMachine T → Prop
  | .setValue v, m' => m' = { m with calls := m.calls ++ [.entered v] }
  | .advance i, m' => ∃ call, m.calls[i]? = some call ∧ m.next i call = some m'

/-- All calls have returned. -/
def Quiet (m : VarMachine T) : Prop := ∀ call ∈ m.calls, call = .returned

/-- The last callback was told the stored value, and every callback the value that its
own call replaced. -/
def Agrees (m : VarMachine T) : Prop :=
  (∀ cb ∈ m.callbacks.head?, cb.newValue = m.var.val) ∧
    ∀ cb ∈ m.callbacks, m.replaced cb.call = some cb.oldValue

/-- No call is between its comparison and its assignment. -/
def Idle (m : VarMachine T) : Prop := ∀ call ∈ m.calls, call.busy = false

instance (m : VarMachine T) : Decidable m.Quiet :=
  inferInstanceAs (Decidable (∀ call ∈ m.calls, call = .returned))

instance (m : VarMachine T) : Decidable m.Idle :=
  inferInstanceAs (Decidable (∀ call ∈ m.calls, call.busy = false))

/-- A call that finds another value does so while no other call is between its
comparison and its assignment. -/
def Serial (m : VarMachine T) : Act T → Prop
  | .setValue _ => True
  | .advance i => ∀ v, m.calls[i]? = some (.entered v) → v ≠ m.var.val → m.Idle

def SerialStep (m : VarMachine T) (a : Act T) (m' : VarMachine T) : Prop :=
  m.Step a m' ∧ m.Serial a

/-- What the latest callback was told, by how far the call in its two sections has come. -/
def Told (m : VarMachine T) : SetCall T → Prop
  | .notifying v left =>
      left <:+ m.var.cbs ∧
        ((left = m.var.cbs ∧ ∀ cb ∈ m.callbacks.head?, cb.newValue = m.var.val) ∨
          ∀ cb ∈ m.callbacks.head?, cb.newValue = v)
  | .assigning v => ∀ cb ∈ m.callbacks.head?, cb.newValue = v
  | .entered _ | .returned => False

/-- Only the call at place `i` may be between its comparison and its assignment. -/
def Alone (m : VarMachine T) (i : Nat) : Prop :=
  ∀ j call, m.calls[j]? = some call → call.busy = true → j = i

/-- At most one call is in its two sections. -/
inductive Mode (m : VarMachine T) : Prop
  | idle (hidle : m.Idle) (hagrees : m.Agrees)
  | busy (i : Nat) (call : SetCall T) (hcall : m.calls[i]? = some call) (halone : m.Alone i)
      (htold : m.Told call)
      (hold : ∀ cb ∈ m.callbacks, m.replaced cb.call = some cb.oldValue ∨
        cb.call = i ∧ cb.oldValue = m.var.val)

/-- The invariant of runs in which the calls do not overlap. -/
structure Inv (m : VarMachine T) : Prop where
  mode : m.Mode
  silent : m.var.cbs = [] → m.callbacks = []
  unset : ∀ i, m.replaced i ≠ none → m.calls[i]? = some .returned

theorem init_inv (val : T) (cbs : List Nat) : (init val cbs).Inv := by
  refine ⟨.idle nofun ⟨nofun, nofun⟩, fun _ => rfl, ?_⟩
  intro i h
  exact absurd rfl h

theorem told_busy {m : VarMachine T} {call : SetCall T} (h : m.Told call) :
    call.busy = true := by
  cases call with
  | entered v => exact h.elim
  | notifying v left => rfl
  | assigning v => rfl
  | returned => exact h.elim

theorem alone_of_idle {m : VarMachine T} (h : m.Idle) (i : Nat) : m.Alone i := by
  intro j call hcall hbusy
  rw [h call (List.mem_of_getElem? hcall)] at hbusy
  cases hbusy

section SetCall

variable {m : VarMachine T} {i j : Nat} {call : SetCall T}

theorem setCall_self (hcall : m.calls[i]? = some call) (next : SetCall T) :
    (m.setCall i next).calls[i]? = some next := by
  obtain ⟨hi, -⟩ := List.getElem?_eq_some_iff.mp hcall
  exact List.getElem?_set_self hi

theorem setCall_of_ne (hne : i ≠ j) (next : SetCall T) :
    (m.setCall i next).calls[j]? = m.calls[j]? :=
  List.getElem?_set_ne hne

theorem alone_setCall (h : m.Alone i) (next : SetCall T) : (m.setCall i next).Alone i := by
  intro j call hcall hbusy
  by_contra hne
  rw [setCall_of_ne (Ne.symm hne)] at hcall
  exact hne (h j call hcall hbusy)

theorem idle_setCall (h : m.Alone i) {next : SetCall T} (hnext : next.busy = false) :
    (m.setCall i next).Idle := by
  intro call hmem
  obtain ⟨j, hj⟩ := List.mem_iff_getElem?.mp hmem
  cases hbusy : call.busy with
  | false => rfl
  | true =>
      obtain rfl : j = i := alone_setCall h next j call hj hbusy
      obtain ⟨hi, rfl⟩ := List.getElem?_eq_some_iff.mp hj
      simp only [setCall, List.getElem_set_self] at hbusy
      rw [hnext] at hbusy
      cases hbusy

/-- A call that has not returned moves on. -/
theorem unset_setCall (h : ∀ k, m.replaced k ≠ none → m.calls[k]? = some .returned)
    (hcall : m.calls[i]? = some call) (hne : call ≠ .returned) (next : SetCall T) :
    ∀ k, m.replaced k ≠ none → (m.setCall i next).calls[k]? = some .returned := by
  intro k hk
  have hreturned := h k hk
  rw [setCall_of_ne _ next]
  · exact hreturned
  · rintro rfl
    rw [hcall] at hreturned
    exact hne (Option.some.inj hreturned)

end SetCall

namespace Inv

variable {m : VarMachine T} {i : Nat} {v : T}

theorem setValue (h : m.Inv) (v : T) :
    Inv { m with calls := m.calls ++ [.entered v] } := by
  refine ⟨?_, h.silent, ?_⟩
  · cases h.mode with
    | idle hidle hagrees =>
        refine .idle ?_ hagrees
        intro call hmem
        obtain hmem | hmem := List.mem_append.mp hmem
        · exact hidle call hmem
        · rw [List.mem_singleton.mp hmem]
          rfl
    | busy i call hcall halone htold hold =>
        refine .busy i call ?_ ?_ htold hold
        · obtain ⟨hi, -⟩ := List.getElem?_eq_some_iff.mp hcall
          rw [← hcall]
          exact List.getElem?_append_left hi
        · intro j call hj hbusy
          obtain hlt | hle := Nat.lt_or_ge j m.calls.length
          · exact halone j call (by rw [← hj, List.getElem?_append_left hlt]) hbusy
          · -- the new call has not compared yet
            rw [List.getElem?_append_right hle] at hj
            obtain rfl : call = .entered v :=
              List.mem_singleton.mp (List.mem_of_getElem? hj)
            cases hbusy
  · intro j hj
    have hreturned := h.unset j hj
    obtain ⟨hlt, -⟩ := List.getElem?_eq_some_iff.mp hreturned
    rw [← hreturned]
    exact List.getElem?_append_left hlt

/-- The call at place `i` is the one in its two sections. -/
theorem mode_of_busy (h : m.Inv) {call : SetCall T} (hcall : m.calls[i]? = some call)
    (hbusy : call.busy = true) :
    m.Alone i ∧ m.Told call ∧ ∀ cb ∈ m.callbacks, m.replaced cb.call = some cb.oldValue ∨
      cb.call = i ∧ cb.oldValue = m.var.val := by
  cases h.mode with
  | idle hidle hagrees =>
      rw [hidle call (List.mem_of_getElem? hcall)] at hbusy
      cases hbusy
  | busy j call' hcall' halone htold hold =>
      obtain rfl := halone i call hcall hbusy
      rw [hcall] at hcall'
      cases hcall'
      exact ⟨halone, htold, hold⟩

/-- The call finds its own value stored. -/
theorem entered_same (h : m.Inv) (hcall : m.calls[i]? = some (.entered v)) :
    (m.setCall i .returned).Inv := by
  refine ⟨?_, h.silent, unset_setCall h.unset hcall nofun _⟩
  cases h.mode with
  | idle hidle hagrees => exact .idle (idle_setCall (alone_of_idle hidle i) rfl) hagrees
  | busy j call hj halone htold hold =>
      have hne : i ≠ j := by
        rintro rfl
        rw [hcall] at hj
        cases hj
        exact htold
      refine .busy j call ((setCall_of_ne hne _).trans hj) ?_ htold hold
      intro k call' hk hbusy
      obtain rfl | hik := eq_or_ne i k
      · rw [setCall_self hcall] at hk
        cases hk
        cases hbusy
      · exact halone k call' ((setCall_of_ne hik _).symm.trans hk) hbusy

/-- The call finds another value and goes to the callbacks. -/
theorem entered_other (h : m.Inv) (hidle : m.Idle) (hcall : m.calls[i]? = some (.entered v)) :
    (m.setCall i (.notifying v m.var.cbs)).Inv := by
  refine ⟨?_, h.silent, unset_setCall h.unset hcall nofun _⟩
  cases h.mode with
  | idle _ hagrees =>
      refine .busy i _ (setCall_self hcall _) (alone_setCall (alone_of_idle hidle i) _) ?_ ?_
      · exact ⟨List.suffix_rfl, Or.inl ⟨rfl, hagrees.1⟩⟩
      · exact fun cb hcb => Or.inl (hagrees.2 cb hcb)
  | busy j call hj _ htold _ =>
      have hbusy := told_busy htold
      rw [hidle call (List.mem_of_getElem? hj)] at hbusy
      cases hbusy

theorem notified (h : m.Inv) {key : Nat} {left : List Nat}
    (hcall : m.calls[i]? = some (.notifying v (key :: left))) :
    ((m.notify i key v).setCall i (.notifying v left)).Inv := by
  obtain ⟨halone, ⟨hsuffix, -⟩, hold⟩ := h.mode_of_busy hcall rfl
  refine ⟨.busy i _ (setCall_self (m := m.notify i key v) hcall _)
    (alone_setCall (m := m.notify i key v) halone _) ?_ ?_, ?_,
    unset_setCall (m := m.notify i key v) h.unset hcall nofun _⟩
  · refine ⟨(List.suffix_cons key left).trans hsuffix, Or.inr ?_⟩
    rintro cb ⟨⟩
    rfl
  · intro cb hcb
    obtain rfl | hcb := List.mem_cons.mp hcb
    · exact Or.inr ⟨rfl, rfl⟩
    · exact hold cb hcb
  · intro hcbs
    have hnil : key :: left <:+ [] := hcbs ▸ hsuffix
    cases List.suffix_nil.mp hnil

/-- All callbacks have been run; without listeners there has never been one. -/
theorem notified_all (h : m.Inv) (hcall : m.calls[i]? = some (.notifying v [])) :
    (m.setCall i (.assigning v)).Inv := by
  obtain ⟨halone, ⟨-, htold⟩, hold⟩ := h.mode_of_busy hcall rfl
  refine ⟨.busy i _ (setCall_self hcall _) (alone_setCall halone _) ?_ hold, h.silent,
    unset_setCall h.unset hcall nofun _⟩
  obtain ⟨hcbs, -⟩ | htold := htold
  · intro cb hcb
    change cb ∈ m.callbacks.head? at hcb
    rw [h.silent hcbs.symm] at hcb
    cases hcb
  · exact htold

theorem assigned (h : m.Inv) (hcall : m.calls[i]? = some (.assigning v)) :
    ((m.assign i v).setCall i .returned).Inv := by
  obtain ⟨halone, htold, hold⟩ := h.mode_of_busy hcall rfl
  have hnone : m.replaced i = none := by
    by_contra hne
    have hreturned := h.unset i hne
    rw [hcall] at hreturned
    cases hreturned
  refine ⟨.idle (idle_setCall (m := m.assign i v) halone rfl) ⟨htold, ?_⟩, h.silent, ?_⟩
  · intro cb hcb
    change Function.update m.replaced i (some m.var.val) cb.call = _
    obtain hreplaced | ⟨hi, hval⟩ := hold cb hcb
    · rw [Function.update_of_ne, hreplaced]
      rintro rfl
      rw [hnone] at hreplaced
      cases hreplaced
    · rw [hi, hval, Function.update_self]
  · intro j hj
    obtain rfl | hne := eq_or_ne i j
    · exact setCall_self (m := m.assign i v) hcall _
    · rw [setCall_of_ne hne]
      apply h.unset j
      change Function.update m.replaced i _ j ≠ none at hj
      rwa [Function.update_of_ne hne.symm] at hj

end Inv

theorem SerialStep.inv {m m' : VarMachine T} {a : Act T} (h : m.Inv)
    (hstep : m.SerialStep a m') : m'.Inv := by
  obtain ⟨hstep, hserial⟩ := hstep
  cases a with
  | setValue v =>
      cases hstep
      exact h.setValue v
  | advance i =>
      obtain ⟨call, hcall, hnext⟩ := hstep
      cases call with
      | entered v =>
          rw [next] at hnext
          split at hnext
          · cases hnext
            exact h.entered_same hcall
          · next hne =>
              cases hnext
              exact h.entered_other (hserial v hcall hne) hcall
      | notifying v left =>
          cases left with
          | nil =>
              cases hnext
              exact h.notified_all hcall
          | cons key left =>
              cases hnext
              exact h.notified hcall
      | assigning v =>
          rw [next] at hnext
          split at hnext
          · cases hnext
          · cases hnext
            exact h.assigned hcall
      | returned => cases hnext

/-- Whenever all calls have returned in a run in which they did not overlap, the
listeners agree with the stored value. -/
theorem serial_runs_agree {val : T} {cbs : List Nat} {acts : List (Act T)} {m : VarMachine T}
    (hrun : Transition.Run SerialStep (init val cbs) acts m) (hquiet : m.Quiet) :
    m.Agrees := by
  have hinv : m.Inv := hrun.invariant (fun _ _ _ h hstep => hstep.inv h) (init_inv val cbs)
  cases hinv.mode with
  | idle hidle hagrees => exact hagrees
  | busy i call hcall _ htold _ =>
      have hbusy := told_busy htold
      rw [hquiet call (List.mem_of_getElem? hcall)] at hbusy
      cases hbusy

/-- One call after the other. -/
theorem serial_runs_agree_two :
    ∃ acts, ∃ m : VarMachine Nat, Transition.Run SerialStep (init 0 [1]) acts m ∧ m.Quiet ∧
      m.callbacks.map Callback.newValue = [2, 1] ∧ m.Agrees := by
  obtain ⟨m, hrun, hquiet, hvalues⟩ : ∃ m : VarMachine Nat, Transition.Run SerialStep (init 0 [1])
      [.setValue 1, .advance 0, .advance 0, .advance 0, .advance 0, .setValue 2, .advance 1,
        .advance 1, .advance 1, .advance 1] m ∧ m.Quiet ∧
      m.callbacks.map Callback.newValue = [2, 1] :=
    ⟨_, .cons ⟨rfl, trivial⟩ (.cons ⟨⟨_, rfl, rfl⟩, fun _ _ _ => by decide⟩
      (.cons ⟨⟨_, rfl, rfl⟩, nofun⟩ (.cons ⟨⟨_, rfl, rfl⟩, nofun⟩ (.cons ⟨⟨_, rfl, rfl⟩, nofun⟩
        (.cons ⟨rfl, trivial⟩ (.cons ⟨⟨_, rfl, rfl⟩, fun _ _ _ => by decide⟩
          (.cons ⟨⟨_, rfl, rfl⟩, nofun⟩ (.cons ⟨⟨_, rfl, rfl⟩, nofun⟩
            (.cons ⟨⟨_, rfl, rfl⟩, nofun⟩ (.nil _)))))))))), by decide, rfl⟩
  exact ⟨_, m, hrun, hquiet, hvalues, serial_runs_agree hrun hquiet⟩

/-- The calls `setValue(1)` and `setValue(2)` both run their callbacks before they assign
in the other order: the last callback was told 2, and 1 is stored; the callback of the first
call was told that 0 is replaced, and it was 2. -/
theorem overlapping_calls_disagree :
    ∃ acts, ∃ m : VarMachine Nat, Transition.Run Step (init 0 [1]) acts m ∧ m.Quiet ∧
      m.callbacks = [⟨1, 1, 0, 2⟩, ⟨0, 1, 0, 1⟩] ∧ m.var.val = 1 ∧
      m.replaced 0 = some 2 ∧ ¬ m.Agrees :=
  ⟨[.setValue 1, .setValue 2, .advance 0, .advance 0, .advance 0, .advance 1, .advance 1,
    .advance 1, .advance 1, .advance 0], _, .cons rfl (.cons rfl (.cons ⟨_, rfl, rfl⟩
      (.cons ⟨_, rfl, rfl⟩ (.cons ⟨_, rfl, rfl⟩ (.cons ⟨_, rfl, rfl⟩ (.cons ⟨_, rfl, rfl⟩
        (.cons ⟨_, rfl, rfl⟩ (.cons ⟨_, rfl, rfl⟩ (.cons ⟨_, rfl, rfl⟩ (.nil _)))))))))),
    by decide, rfl, rfl, rfl, fun hagrees => absurd (hagrees.1 _ rfl) (by decide)⟩

end VarMachine

end Sylar.Config
