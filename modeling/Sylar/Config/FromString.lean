import Sylar.Config.SetValue
import Sylar.Http.Message
import Sylar.Lib.Method

/-!
# `ConfigVar::fromString`

One call, from the conversion of the text to the assignment. A listener may throw; what
it and the listeners before it were told stays told. An exception is the text that its
`what()` returns.
-/

namespace Sylar.Config

open Sylar.Lib
open Sylar.Http (Text ascii)

/-- A call of a listener with the old and the new value. -/
structure Notice (T : Type) where
  key : Nat
  oldValue : T
  newValue : T
  deriving DecidableEq, Repr

/-- The variable, what its listeners have been told and what was logged as an error. -/
structure VarCell (T : Type) where
  var : ConfigVar T
  notices : List (Notice T)
  errors : List Text

namespace VarCell

variable {T : Type} [DecidableEq T] (callback : Nat → T → T → Except Text Unit)

/-- The loop over `m_cbs`. -/
def notifyAll (v : T) : List Nat → Method (VarCell T) Text Unit
  | [] => return
  | key :: keys => do
      let s ← get
      set { s with notices := s.notices ++ [Notice.mk key s.var.val v] }
      Method.lift (callback key s.var.val v)
      notifyAll v keys

def setValue (v : T) : Method (VarCell T) Text Unit := do
  let s ← get
  if v = s.var.val then
    return
  notifyAll callback v s.var.cbs
  modify fun s => { s with var := { s.var with val := v } }

/-- The message of the handler, where `typeName` is `typeid(m_val).name()`. -/
def fromStringError (typeName what val : Text) : Text :=
  ascii "ConfigVar::fromString exception " ++ what ++ ascii " convert: String to " ++ typeName ++
    ascii " - " ++ val

variable (fromStr : Text → Except Text T) (typeName : Text)

/-- `fromString`, where `fromStr` is `FromStr()`. -/
def fromString (val : Text) : Method (VarCell T) Text Bool := do
  tryCatch
    (do
      let v ← Method.lift (fromStr val)
      setValue callback v)
    fun what => modify fun s => { s with errors := s.errors ++ [fromStringError typeName what val] }
  return false

/-- No listener that `setValue` calls throws. -/
def Accepts (v : T) (s : VarCell T) : Prop :=
  v = s.var.val ∨ ∀ key ∈ s.var.cbs, callback key s.var.val v = .ok ()

/-- The text is converted and no listener throws. -/
def Succeeds (val : Text) (s : VarCell T) : Prop :=
  ∃ v, fromStr val = .ok v ∧ Accepts callback v s

/-- Success is reported, and then the value is the converted one; otherwise the value is as it
was and no listener has been told anything. -/
def AllOrNothing (val : Text) (s : VarCell T) : Prop :=
  let call := (fromString callback fromStr typeName val).exec s
  (call.1 = .ok true ↔ Succeeds callback fromStr val s) ∧
    (Succeeds callback fromStr val s → fromStr val = .ok call.2.var.val) ∧
    (¬ Succeeds callback fromStr val s →
      call.1 = .ok false ∧ call.2.var.val = s.var.val ∧ call.2.notices = s.notices)

section Calls

variable {callback} {v : T} {s : VarCell T}

omit [DecidableEq T] in
/-- The listeners up to the first one that throws are told. -/
theorem exec_notifyAll_throws {keys : List Nat}
    (h : ¬ ∀ key ∈ keys, callback key s.var.val v = .ok ()) :
    ∃ what told, (notifyAll callback v keys).exec s =
      (.error what, { s with notices := s.notices ++ told }) ∧ told ≠ [] := by
  induction keys generalizing s with
  | nil => exact absurd (fun _ hmem => nomatch hmem) h
  | cons key keys ih =>
      let t : VarCell T := { s with notices := s.notices ++ [⟨key, s.var.val, v⟩] }
      have hrun : (notifyAll callback v (key :: keys)).exec s =
          (do Method.lift (callback key s.var.val v); notifyAll callback v keys).exec t := rfl
      cases hcall : callback key s.var.val v with
      | error what =>
          refine ⟨what, [⟨key, s.var.val, v⟩], ?_, List.cons_ne_nil _ _⟩
          rw [hrun, hcall]
          rfl
      | ok u =>
          have hrest : ¬ ∀ key ∈ keys, callback key t.var.val v = .ok () := by
            intro hall
            apply h
            intro key' hmem
            obtain rfl | hmem := List.mem_cons.mp hmem
            · exact hcall
            · exact hall key' hmem
          obtain ⟨what, told, hexec, -⟩ := ih hrest
          refine ⟨what, ⟨key, s.var.val, v⟩ :: told, ?_, List.cons_ne_nil _ _⟩
          rw [hrun, hcall]
          change (notifyAll callback v keys).exec t = _
          rw [hexec, List.append_assoc]
          rfl

/-- A listener that throws keeps the value, but the listeners have been told. -/
theorem exec_setValue_throws (h : ¬ Accepts callback v s) :
    ∃ what told, (setValue callback v).exec s =
      (.error what, { s with notices := s.notices ++ told }) ∧ told ≠ [] := by
  obtain ⟨hne, hthrows⟩ := not_or.mp h
  obtain ⟨what, told, hexec, htold⟩ := exec_notifyAll_throws hthrows
  refine ⟨what, told, ?_, htold⟩
  rw [setValue, Method.exec_bind_ok (Method.exec_get s), if_neg hne]
  exact Method.exec_bind_error hexec

end Calls

variable {fromStr typeName}

/-- The call never returns true. -/
theorem fromString_ne_true (val : Text) (s : VarCell T) :
    ((fromString callback fromStr typeName val).exec s).1 ≠ .ok true := by
  rw [fromString, Method.exec_bind]
  split
  · exact nofun
  · exact nofun

theorem exec_fromString_of_throws {val what : Text} {s t : VarCell T}
    (h : (do setValue callback (← Method.lift (fromStr val))).exec s = (.error what, t)) :
    (fromString callback fromStr typeName val).exec s =
      (.ok false, { t with errors := t.errors ++ [fromStringError typeName what val] }) := by
  rw [fromString, Method.exec_bind, Method.exec_tryCatch, h]
  rfl

/-- The call is all or nothing exactly if the text is not converted. -/
theorem fromString_all_or_nothing_iff (val : Text) (s : VarCell T) :
    AllOrNothing callback fromStr typeName val s ↔ ∃ what, fromStr val = .error what := by
  constructor
  · rintro ⟨hreport, -, hnothing⟩
    cases hconv : fromStr val with
    | error what => exact ⟨what, rfl⟩
    | ok v =>
        exfalso
        have hfails : ¬ Succeeds callback fromStr val s :=
          fun h => fromString_ne_true callback val s (hreport.mpr h)
        -- a listener throws, and has been told of the change
        have hthrows : ¬ Accepts callback v s := fun h => hfails ⟨v, hconv, h⟩
        obtain ⟨what, told, hset, htold⟩ := exec_setValue_throws hthrows
        have hcall : (do setValue callback (← Method.lift (fromStr val))).exec s =
            (.error what, { s with notices := s.notices ++ told }) := by
          rw [hconv]
          exact hset
        have hnotices := (hnothing hfails).2.2
        rw [exec_fromString_of_throws callback hcall] at hnotices
        exact htold (List.append_right_eq_self.mp hnotices)
  · rintro ⟨what, hconv⟩
    have hfails : ¬ Succeeds callback fromStr val s := by
      rintro ⟨v, hv, -⟩
      rw [hconv] at hv
      cases hv
    have hcall :
        (do setValue callback (← Method.lift (fromStr val))).exec s = (.error what, s) := by
      rw [hconv]
      rfl
    refine ⟨iff_of_false (fromString_ne_true callback val s) hfails,
      fun h => absurd h hfails, fun _ => ?_⟩
    rw [exec_fromString_of_throws callback hcall]
    exact ⟨rfl, rfl, rfl⟩

/-- A text that is converted to 5 is assigned, and `fromString` returns false. If the second of
two listeners throws, the first was told of a change from 0 to 5 that is not made. -/
theorem fromString_neither_all_nor_nothing :
    let fromStr : Text → Except Text Nat :=
      fun val => if val = ascii "5" then .ok 5 else .error (ascii "bad lexical cast")
    let callback : Nat → Nat → Nat → Except Text Unit :=
      fun key _ _ => if key = 2 then .error (ascii "refused") else .ok ()
    let quiet : VarCell Nat := ⟨⟨0, []⟩, [], []⟩
    let watched : VarCell Nat := ⟨⟨0, [1, 2]⟩, [], []⟩
    (fromString callback fromStr (ascii "i") (ascii "5")).exec quiet =
        (.ok false, ⟨⟨5, []⟩, [], []⟩) ∧
      (fromString callback fromStr (ascii "i") (ascii "5")).exec watched =
        (.ok false, ⟨⟨0, [1, 2]⟩, [⟨1, 0, 5⟩, ⟨2, 0, 5⟩],
          [ascii "ConfigVar::fromString exception refused convert: String to i - 5"]⟩) ∧
      ¬ AllOrNothing callback fromStr (ascii "i") (ascii "5") quiet ∧
      ¬ AllOrNothing callback fromStr (ascii "i") (ascii "5") watched := by
  intro fromStr callback quiet watched
  refine ⟨rfl, rfl, ?_, ?_⟩
  · rintro ⟨hreport, -⟩
    have hsucceeds : Succeeds callback fromStr (ascii "5") quiet := ⟨5, rfl, .inr nofun⟩
    exact fromString_ne_true callback _ _ (hreport.mpr hsucceeds)
  · rintro ⟨-, -, hnothing⟩
    have hfails : ¬ Succeeds callback fromStr (ascii "5") watched := by
      rintro ⟨v, hconv, haccepts⟩
      cases hconv
      obtain hsame | hall := haccepts
      · cases hsame
      · cases hall 2 (by decide)
    cases (hnothing hfails).2.2

end VarCell

end Sylar.Config
