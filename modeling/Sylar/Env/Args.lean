import Mathlib.Data.List.AList
import Sylar.Http.Message
import Sylar.Lib.Decimals

/-!
# `Env::init`: the command line

The loop keeps the key of an option until it knows what follows it. An argument is a C string,
here its bytes in front of the NUL.
-/

namespace Sylar

open Sylar.Lib.Numerals
open Sylar.Http (Text ascii)

/-- The fields that `init` writes, and the errors it logs. -/
structure Env where
  args : AList fun _ : Text => Text
  program : Text
  exe : Text
  cwd : Text
  errors : List Text

namespace Env

section Accessors

variable (env : Env)

def add (key value : Text) : Env := { env with args := env.args.insert key value }

def has (key : Text) : Bool := (env.args.lookup key).isSome

def get (key defaultValue : Text) : Text := (env.args.lookup key).getD defaultValue

def error (what : Text) : Env := { env with errors := env.errors ++ [what] }

def invalidArg (i : Nat) (arg : Text) : Env :=
  env.error (ascii "invalid arg idx = " ++ decimal i ++ ascii " val = " ++ arg)

/-- `if (now_key) { add(now_key, ""); }`. -/
def addPending : Option Text → Env
  | none => env
  | some nowKey => env.add nowKey []

end Accessors

/-- The loop of `init` from the argument `i` on. -/
def initLoop : Nat → List Text → Option Text → Env → Bool × Env
  | _, [], nowKey, env => (true, env.addPending nowKey)
  | i, arg :: rest, nowKey, env =>
      if arg.head? = some 45 then
        if arg.length > 1 then initLoop (i + 1) rest (some arg.tail) (env.addPending nowKey)
        else (false, env.invalidArg i arg)
      else
        match nowKey with
        | some nowKey => initLoop (i + 1) rest none (env.add nowKey arg)
        | none => (false, env.invalidArg i arg)

/-- `Env::init`. The path of the executable is what `readlink` stored, if it stored something.
The directory of the executable is assigned to `m_cwd` as well, and overwritten. -/
def init (pid : Nat) (exe : Option Text) (topDirPath program : Text) (args : List Text)
    (env : Env) : Bool × Env :=
  let env := if exe.isNone then env.error (ascii "get exe path fail, pid = " ++ decimal pid)
    else env
  initLoop 1 args none
    { env with exe := exe.getD [], cwd := topDirPath ++ ascii "/", program := program }

/-- `-key` with a key that is not empty. -/
def IsOption (arg : Text) : Prop := ∃ key, key ≠ [] ∧ arg = 45 :: key

/-- No argument is a lone `-`, and an argument without a `-` follows an option. -/
structure Accepted (args : List Text) : Prop where
  noDash : ascii "-" ∉ args
  follows : ∀ before arg after, args = before ++ arg :: after → arg.head? ≠ some 45 →
    ∃ option, before.getLast? = some option ∧ IsOption option

/-- The value of an option in front of the given arguments. -/
def valueOf : List Text → Text
  | [] => []
  | arg :: _ => if arg.head? = some 45 then [] else arg

/-- The last occurrence of the key has the value. -/
def IsBound (args : List Text) (key value : Text) : Prop :=
  ∃ before after, args = before ++ (45 :: key) :: after ∧ (45 :: key) ∉ after ∧
    value = valueOf after

/-- The map that `has` and `get` show. -/
structure Describes (env : Env) (args : List Text) : Prop where
  has_iff : ∀ key, env.has key = true ↔ ∃ value, IsBound args key value
  get_bound : ∀ key value fallback, IsBound args key value → env.get key fallback = value
  get_free : ∀ key fallback, (¬ ∃ value, IsBound args key value) →
    env.get key fallback = fallback

section Loop

/-- What the last occurrence of a key is bound to. -/
def binding (key : Text) : List Text → Option Text
  | [] => none
  | arg :: rest => (binding key rest).or (if arg = 45 :: key then some (valueOf rest) else none)

/-- A pending key is an option in front of the arguments that are left. -/
def withPending (nowKey : Option Text) (args : List Text) : List Text :=
  match nowKey with
  | none => args
  | some key => (45 :: key) :: args

/-- Whether the loop goes through, with a key pending or not. -/
def passes : Bool → List Text → Bool
  | _, [] => true
  | pending, arg :: rest =>
      if arg.head? = some 45 then arg.length > 1 && passes true rest
      else pending && passes false rest

variable {key value : Text} {args : List Text} {nowKey : Option Text}

theorem lookup_add (env : Env) (key key' value : Text) :
    (env.add key' value).args.lookup key =
      if key = key' then some value else env.args.lookup key := by
  by_cases h : key = key'
  · rw [if_pos h, h]
    exact AList.lookup_insert _
  · rw [if_neg h]
    exact AList.lookup_insert_ne h

/-- The first byte of an argument that is longer than its dash. -/
theorem eq_dash_cons {arg : Text} (h : arg.head? = some 45) : arg = 45 :: arg.tail := by
  cases arg with
  | nil => cases h
  | cons c arg =>
      cases h
      rfl

theorem initLoop_fst (i : Nat) (args : List Text) (nowKey : Option Text) (env : Env) :
    (initLoop i args nowKey env).1 = passes nowKey.isSome args := by
  induction args generalizing i nowKey env with
  | nil => rfl
  | cons arg rest ih =>
      cases nowKey <;> by_cases hdash : arg.head? = some 45 <;> by_cases hlong : arg.length > 1 <;>
        simp [initLoop, passes, hdash, hlong, ih]

/-- A pending key that another option follows has the empty value. -/
theorem binding_withPending_cons {arg : Text} {rest : List Text} (h : arg.head? = some 45)
    (env : Env) (key : Text) :
    (binding key (withPending nowKey (arg :: rest))).or (env.args.lookup key) =
      (binding key (arg :: rest)).or ((env.addPending nowKey).args.lookup key) := by
  cases nowKey with
  | none => rfl
  | some nowKey =>
      change _ = (binding key (arg :: rest)).or ((env.add nowKey []).args.lookup key)
      rw [lookup_add, withPending, binding, Option.or_assoc, valueOf, if_pos h]
      by_cases hkey : key = nowKey
      · simp [hkey]
      · simp [hkey, Ne.symm hkey]

/-- The lookups after the loop: an earlier binding stays where the arguments have none. -/
theorem lookup_initLoop {i : Nat} {env : Env} (h : passes nowKey.isSome args = true)
    (key : Text) :
    (initLoop i args nowKey env).2.args.lookup key =
      (binding key (withPending nowKey args)).or (env.args.lookup key) := by
  induction args generalizing i nowKey env with
  | nil =>
      cases nowKey with
      | none => rfl
      | some nowKey =>
          change (env.add nowKey []).args.lookup key = _
          rw [lookup_add]
          by_cases hkey : key = nowKey
          · simp [withPending, binding, valueOf, hkey]
          · simp [withPending, binding, hkey, Ne.symm hkey]
  | cons arg rest ih =>
      rw [passes] at h
      by_cases hdash : arg.head? = some 45
      · rw [if_pos hdash, Bool.and_eq_true, decide_eq_true_iff] at h
        have hrest : (initLoop (i + 1) rest (some arg.tail) (env.addPending nowKey)).2.args.lookup
            key = _ := ih h.2
        rw [withPending, ← eq_dash_cons hdash] at hrest
        rw [binding_withPending_cons hdash, ← hrest]
        cases nowKey <;> simp [initLoop, hdash, h.1]
      · rw [if_neg hdash, Bool.and_eq_true] at h
        obtain ⟨nowKey, rfl⟩ := Option.isSome_iff_exists.mp h.1
        have hother : arg ≠ 45 :: key := by
          rintro rfl
          exact hdash rfl
        have hrest : (initLoop (i + 1) rest none (env.add nowKey arg)).2.args.lookup key = _ :=
          ih h.2
        rw [lookup_add] at hrest
        have hstep : initLoop i (arg :: rest) (some nowKey) env =
            initLoop (i + 1) rest none (env.add nowKey arg) := by
          simp [initLoop, hdash]
        rw [hstep, hrest, withPending, withPending, binding, binding, if_neg hother, valueOf,
          if_neg hdash, Option.or_none, Option.or_assoc]
        by_cases hkey : key = nowKey
        · simp [hkey]
        · simp [hkey, Ne.symm hkey]

theorem isBound_cons {arg : Text} {rest : List Text} :
    IsBound (arg :: rest) key value ↔
      IsBound rest key value ∨ arg = 45 :: key ∧ (45 :: key) ∉ rest ∧ value = valueOf rest := by
  constructor
  · rintro ⟨before, after, heq, hlast, hvalue⟩
    cases before with
    | nil =>
        cases heq
        exact .inr ⟨rfl, hlast, hvalue⟩
    | cons first before =>
        cases heq
        exact .inl ⟨before, after, rfl, hlast, hvalue⟩
  · rintro (⟨before, after, rfl, hlast, hvalue⟩ | ⟨rfl, hlast, hvalue⟩)
    · exact ⟨arg :: before, after, rfl, hlast, hvalue⟩
    · exact ⟨[], rest, rfl, hlast, hvalue⟩

theorem binding_eq_none_iff : binding key args = none ↔ (45 :: key) ∉ args := by
  induction args with
  | nil => simp [binding]
  | cons arg rest ih =>
      rw [binding, Option.or_eq_none_iff, ih, List.mem_cons, not_or, and_comm]
      simp [eq_comm]

theorem binding_eq_some_iff : binding key args = some value ↔ IsBound args key value := by
  induction args with
  | nil =>
      constructor
      · intro h
        cases h
      · rintro ⟨before, after, heq, -⟩
        simp at heq
  | cons arg rest ih =>
      rw [binding, Option.or_eq_some_iff, ih, binding_eq_none_iff, isBound_cons]
      refine or_congr_right ?_
      constructor
      · rintro ⟨hlast, hvalue⟩
        split at hvalue
        · next harg => exact ⟨harg, hlast, (Option.some.inj hvalue).symm⟩
        · cases hvalue
      · rintro ⟨rfl, hlast, rfl⟩
        exact ⟨hlast, if_pos rfl⟩

/-- The argument in front of the arguments behind the first one. -/
theorem exists_getLast?_cons {arg : Text} {before : List Text} :
    (∃ option, (arg :: before).getLast? = some option ∧ IsOption option) ↔
      before = [] ∧ IsOption arg ∨
        ∃ option, before.getLast? = some option ∧ IsOption option := by
  cases before with
  | nil => simp
  | cons next before => simp [List.getLast?_cons_cons]

/-- The arguments without a dash follow an option, where the first argument follows one if `ok`. -/
def FollowsFrom (ok : Prop) (args : List Text) : Prop :=
  ∀ before arg after, args = before ++ arg :: after → arg.head? ≠ some 45 →
    before = [] ∧ ok ∨ ∃ option, before.getLast? = some option ∧ IsOption option

theorem followsFrom_cons {ok : Prop} {first : Text} {rest : List Text} :
    FollowsFrom ok (first :: rest) ↔
      (first.head? ≠ some 45 → ok) ∧ FollowsFrom (IsOption first) rest := by
  constructor
  · intro h
    constructor
    · intro hdash
      rcases h [] first rest rfl hdash with ⟨-, hok⟩ | ⟨option, hlast, -⟩
      · exact hok
      · simp at hlast
    · intro before arg after heq hdash
      have hnext := h (first :: before) arg after (by rw [heq, List.cons_append]) hdash
      rcases hnext with ⟨hnil, -⟩ | hlast
      · cases hnil
      · exact exists_getLast?_cons.mp hlast
  · rintro ⟨hfirst, hrest⟩ before arg after heq hdash
    cases before with
    | nil =>
        cases heq
        exact .inl ⟨rfl, hfirst hdash⟩
    | cons next before =>
        cases heq
        exact .inr (exists_getLast?_cons.mpr (hrest before arg after rfl hdash))

theorem isOption_iff {arg : Text} : IsOption arg ↔ arg.head? = some 45 ∧ arg.length > 1 := by
  constructor
  · rintro ⟨key, hkey, rfl⟩
    exact ⟨rfl, Nat.succ_lt_succ (List.length_pos_iff.mpr hkey)⟩
  · rintro ⟨hdash, hlong⟩
    refine ⟨arg.tail, ?_, eq_dash_cons hdash⟩
    rw [← List.length_pos_iff, List.length_tail]
    omega

/-- An argument with a dash is an option or the dash alone. -/
theorem dash_eq_iff {arg : Text} (h : arg.head? = some 45) :
    ascii "-" = arg ↔ ¬ arg.length > 1 := by
  constructor
  · rintro rfl
    decide
  · intro hshort
    have htail : arg.tail = [] := by
      rw [← List.length_eq_zero_iff, List.length_tail]
      omega
    rw [eq_dash_cons h, htail]
    rfl

/-- What the loop accepts, with a key pending or not. -/
theorem passes_iff (pending : Bool) (args : List Text) :
    passes pending args = true ↔ ascii "-" ∉ args ∧ FollowsFrom (pending = true) args := by
  induction args generalizing pending with
  | nil => simp [passes, FollowsFrom]
  | cons first rest ih =>
      rw [passes, followsFrom_cons, List.mem_cons, not_or]
      by_cases hdash : first.head? = some 45
      · rw [if_pos hdash, dash_eq_iff hdash, not_not]
        by_cases hlong : first.length > 1
        · have hoption : IsOption first ↔ true = true :=
            iff_of_true (isOption_iff.mpr ⟨hdash, hlong⟩) rfl
          simp [hlong, ih, hdash, hoption]
        · simp [hlong]
      · have hoption : IsOption first ↔ false = true :=
          iff_of_false (fun h => hdash (isOption_iff.mp h).1) Bool.false_ne_true
        have hne : ascii "-" ≠ first := by
          rintro rfl
          exact hdash rfl
        rw [if_neg hdash, Bool.and_eq_true, ih]
        simp only [hoption, hne, hdash, ne_eq, not_false_eq_true, true_and, forall_const]
        exact and_left_comm

theorem accepted_iff : Accepted args ↔ passes false args = true := by
  rw [passes_iff]
  constructor
  · rintro ⟨hdash, hfollows⟩
    exact ⟨hdash, fun before arg after heq harg => .inr (hfollows before arg after heq harg)⟩
  · rintro ⟨hdash, hfollows⟩
    refine ⟨hdash, fun before arg after heq harg => ?_⟩
    rcases hfollows before arg after heq harg with ⟨-, hfalse⟩ | hlast
    · cases hfalse
    · exact hlast

/-- Where the loop accepts the arguments, it leaves the map of their options. -/
theorem describes_of_lookup {env : Env} (h : ∀ key, env.args.lookup key = binding key args) :
    Describes env args := by
  have hbound : ∀ key value, env.args.lookup key = some value ↔ IsBound args key value := by
    intro key value
    rw [h, binding_eq_some_iff]
  constructor
  · intro key
    simp only [has, Option.isSome_iff_exists, hbound]
  · intro key value fallback hvalue
    rw [get, (hbound key value).mpr hvalue, Option.getD_some]
  · intro key fallback hfree
    have hnone : env.args.lookup key = none := by
      rw [Option.eq_none_iff_forall_ne_some]
      intro value hvalue
      exact hfree ⟨value, (hbound key value).mp hvalue⟩
    rw [get, hnone, Option.getD_none]

end Loop

/-- `init` accepts the arguments and, from an empty map, leaves the map of their options. -/
theorem init_command_line (pid : Nat) (exe : Option Text) (topDirPath program : Text)
    (args : List Text) (env : Env) :
    ((init pid exe topDirPath program args env).1 = true ↔ Accepted args) ∧
      ((init pid exe topDirPath program args env).1 = true → env.args = ∅ →
        Describes (init pid exe topDirPath program args env).2 args) := by
  constructor
  · rw [init, initLoop_fst, accepted_iff]
    rfl
  · intro htrue hempty
    apply describes_of_lookup
    intro key
    rw [init, initLoop_fst] at htrue
    rw [init, lookup_initLoop htrue]
    have hargs : (if exe.isNone then env.error (ascii "get exe path fail, pid = " ++ decimal pid)
        else env).args = env.args := by
      split <;> rfl
    change (binding key args).or (AList.lookup key (if exe.isNone then _ else env).args) = _
    rw [hargs, hempty, AList.lookup_empty, Option.or_none]

/-- `-d -config /etc -d x` on the empty map. -/
theorem init_command_line_options :
    Describes (init 1 none [] (ascii "sylar")
      [ascii "-d", ascii "-config", ascii "/etc", ascii "-d", ascii "x"] ⟨∅, [], [], [], []⟩).2
      [ascii "-d", ascii "-config", ascii "/etc", ascii "-d", ascii "x"] :=
  (init_command_line 1 none [] (ascii "sylar") _ ⟨∅, [], [], [], []⟩).2 (by decide) rfl

end Env

end Sylar
