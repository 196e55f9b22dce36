import Mathlib.Tactic.Common

/-!
# Methods of an object that may throw

A method reads and writes the object it is called on and may throw. What it
wrote before the throw stays written, so a method that leaves the object
alone when it throws has to be shown to do so.
-/

namespace Sylar.Lib

/-- A method body on an object of type `σ` with failures of type `ε`. -/
abbrev Method (σ ε α : Type) := ExceptT ε (StateM σ) α

/-- A pure computation that succeeds has succeeded step by step. -/
theorem bind_eq_ok {ε α β : Type} {x : Except ε α} {f : α → Except ε β} {b : β}
    (h : (x >>= f) = .ok b) : ∃ a, x = .ok a ∧ f a = .ok b := by
  cases x with
  | error e => cases h
  | ok a => exact ⟨a, rfl, h⟩

/-- A pure computation whose first step succeeds goes on with the rest. -/
theorem bind_of_ok {ε α β : Type} {x : Except ε α} {f : α → Except ε β} {a : α}
    {r : Except ε β} (hx : x = .ok a) (hf : f a = r) : (x >>= f) = r := by
  rw [hx, ← hf]
  rfl

theorem map_eq_ok {ε α β : Type} {x : Except ε α} {f : α → β} {b : β} (h : x.map f = .ok b) :
    ∃ a, x = .ok a ∧ f a = b := by
  cases x with
  | error e => cases h
  | ok a =>
      cases h
      exact ⟨a, rfl, rfl⟩

namespace Method

variable {σ ε α β : Type}

/-- Call a method: its result or failure, and the object afterwards. -/
def exec (x : Method σ ε α) (s : σ) : Except ε α × σ := x.run.run s

@[simp] theorem exec_pure (a : α) (s : σ) :
    exec (pure a : Method σ ε α) s = (.ok a, s) := rfl

@[simp] theorem exec_throw (e : ε) (s : σ) :
    exec (throw e : Method σ ε α) s = (.error e, s) := rfl

@[simp] theorem exec_get (s : σ) :
    exec (get : Method σ ε σ) s = (.ok s, s) := rfl

@[simp] theorem exec_set (t s : σ) :
    exec (set t : Method σ ε PUnit) s = (.ok ⟨⟩, t) := rfl

@[simp] theorem exec_modify (f : σ → σ) (s : σ) :
    exec (modify f : Method σ ε PUnit) s = (.ok ⟨⟩, f s) := rfl

/-- A sequence runs its second part on the object the first part left,
unless the first part threw. -/
theorem exec_bind (x : Method σ ε α) (f : α → Method σ ε β) (s : σ) :
    exec (x >>= f) s =
      match exec x s with
      | (.ok a, t) => exec (f a) t
      | (.error e, t) => (.error e, t) := by
  simp only [exec, bind, ExceptT.bind, ExceptT.mk, ExceptT.run, StateT.run, StateT.bind]
  rcases x s with ⟨r, t⟩
  cases r <;> rfl

theorem exec_bind_ok {x : Method σ ε α} {f : α → Method σ ε β} {s t : σ} {a : α}
    (h : exec x s = (.ok a, t)) : exec (x >>= f) s = exec (f a) t := by
  rw [exec_bind, h]

theorem exec_bind_of_fst {x : Method σ ε α} {f : α → Method σ ε β} {s : σ} {a : α}
    (h : (exec x s).1 = .ok a) : exec (x >>= f) s = exec (f a) (exec x s).2 :=
  exec_bind_ok (Prod.ext h rfl)

theorem exec_bind_error {x : Method σ ε α} {f : α → Method σ ε β} {s t : σ} {e : ε}
    (h : exec x s = (.error e, t)) : exec (x >>= f) s = (.error e, t) := by
  rw [exec_bind, h]

/-- A sequence that returns has returned step by step. -/
theorem exec_bind_eq_ok {x : Method σ ε α} {f : α → Method σ ε β} {s t : σ} {b : β}
    (h : exec (x >>= f) s = (.ok b, t)) :
    ∃ a u, exec x s = (.ok a, u) ∧ exec (f a) u = (.ok b, t) := by
  rw [exec_bind] at h
  rcases hexec : exec x s with ⟨r, u⟩
  rw [hexec] at h
  cases r with
  | error e => cases h
  | ok a => exact ⟨a, u, rfl, h⟩

@[simp] theorem exec_map (f : α → β) (x : Method σ ε α) (s : σ) :
    exec (f <$> x) s = ((exec x s).1.map f, (exec x s).2) := by
  rw [map_eq_pure_bind, exec_bind]
  rcases exec x s with ⟨r, t⟩
  cases r <;> rfl

/-- A handler runs on the object that the throwing part left. -/
theorem exec_tryCatch (x : Method σ ε α) (f : ε → Method σ ε α) (s : σ) :
    exec (tryCatch x f) s =
      match exec x s with
      | (.ok a, t) => (.ok a, t)
      | (.error e, t) => exec (f e) t := by
  change (ExceptT.tryCatch x f).run.run s = _
  simp only [exec, ExceptT.tryCatch, ExceptT.mk, ExceptT.run, StateT.run, bind, StateT.bind]
  rcases x s with ⟨r, t⟩
  cases r <;> rfl

/-- A throw or a result taken from a pure computation leaves the object alone. -/
def lift (r : Except ε α) : Method σ ε α :=
  match r with
  | .ok a => pure a
  | .error e => throw e

@[simp] theorem exec_lift (r : Except ε α) (s : σ) :
    exec (lift r : Method σ ε α) s = (r, s) := by
  cases r <;> rfl

/-- What holds of the value and the state whenever a method returns. -/
def Post (x : Method σ ε α) (Q : α → σ → Prop) : Prop :=
  ∀ s a t, exec x s = (.ok a, t) → Q a t

theorem Post.pure {Q : α → σ → Prop} {a : α} (h : ∀ s, Q a s) :
    Post (pure a : Method σ ε α) Q := by
  rintro s b t ⟨⟩
  exact h s

theorem Post.throw {Q : α → σ → Prop} (e : ε) : Post (throw e : Method σ ε α) Q := by
  rintro s a t ⟨⟩

/-- The first method establishes what the second needs. -/
theorem Post.bind {x : Method σ ε α} {f : α → Method σ ε β} {R : α → σ → Prop}
    {Q : β → σ → Prop} (hx : Post x R)
    (hf : ∀ a s b t, R a s → exec (f a) s = (.ok b, t) → Q b t) : Post (x >>= f) Q := by
  intro s b t h
  rw [exec_bind] at h
  rcases hexec : exec x s with ⟨r, u⟩
  rw [hexec] at h
  cases r with
  | error e => cases h
  | ok a => exact hf a u b t (hx s a u hexec) h

/-- The second method needs nothing of the first. -/
theorem Post.then {x : Method σ ε α} {f : α → Method σ ε β} {Q : β → σ → Prop}
    (hf : ∀ a, Post (f a) Q) : Post (x >>= f) Q :=
  Post.bind (R := fun _ _ => True) (fun _ _ _ _ => trivial) fun a s b t _ h => hf a s b t h

/-- The method `x` shows the same results as `y`, and keeps the objects related. -/
def Simulates {τ : Type} (R : σ → τ → Prop) (x : Method σ ε α) (y : Method τ ε α) : Prop :=
  ∀ s t, R s t → (exec x s).1 = (exec y t).1 ∧ R (exec x s).2 (exec y t).2

/-- Run a script of calls, with what `view` shows of the object after each. -/
def script {κ ω : Type} (f : κ → Method σ ε α) (view : σ → ω) (s : σ) :
    List κ → List (Except ε α × ω) × σ
  | [] => ([], s)
  | c :: cs =>
      let r := exec (f c) s
      let rest := script f view r.2 cs
      ((r.1, view r.2) :: rest.1, rest.2)

/-- Calls that simulate each other one by one do so over a whole script. -/
theorem script_simulates {τ κ ω : Type} {R : σ → τ → Prop} {f : κ → Method σ ε α}
    {g : κ → Method τ ε α} {view : σ → ω} {view' : τ → ω}
    (hview : ∀ s t, R s t → view s = view' t) (cs : List κ)
    (hsim : ∀ c ∈ cs, Simulates R (f c) (g c)) {s : σ} {t : τ} (hst : R s t) :
    (script f view s cs).1 = (script g view' t cs).1 ∧
      R (script f view s cs).2 (script g view' t cs).2 := by
  induction cs generalizing s t with
  | nil => exact ⟨rfl, hst⟩
  | cons c cs ih =>
      obtain ⟨hres, hrel⟩ := hsim c List.mem_cons_self s t hst
      obtain ⟨htail, hend⟩ := ih (fun d hd => hsim d (List.mem_cons_of_mem _ hd)) hrel
      refine ⟨?_, hend⟩
      simp only [script, hres, hview _ _ hrel, htail]

end Method

end Sylar.Lib
