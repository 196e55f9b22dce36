import Mathlib.Tactic.Common

/-!
# Runs of a labelled transition relation

What every step preserves holds in every state that a run reaches, and a
preorder that every step respects relates the two ends of a run.
-/

namespace Sylar.Lib.Transition

variable {σ α : Type*} {step : σ → α → σ → Prop}

/-- A run from one state to another with the labels of its steps. -/
inductive Run (step : σ → α → σ → Prop) : σ → List α → σ → Prop
  | nil (s : σ) : Run step s [] s
  | cons {s t u : σ} {a : α} {as : List α} (head : step s a t) (tail : Run step t as u) :
      Run step s (a :: as) u

namespace Run

/-- The invariant rule. -/
theorem invariant {P : σ → Prop} (hstep : ∀ s a t, P s → step s a t → P t) {s t : σ}
    {as : List α} (h : Run step s as t) (hs : P s) : P t := by
  induction h with
  | nil s => exact hs
  | cons head _ ih => exact ih (hstep _ _ _ hs head)

/-- The invariant rule for a property of the state and the labels so far. -/
theorem history {P : List α → σ → Prop}
    (hstep : ∀ before s a t, P before s → step s a t → P (before ++ [a]) t) {s t : σ}
    {as before : List α} (h : Run step s as t) (hs : P before s) : P (before ++ as) t := by
  induction h generalizing before with
  | nil s => rwa [List.append_nil]
  | cons head _ ih =>
      rw [List.append_cons]
      exact ih (hstep _ _ _ _ hs head)

/-- A preorder that every step respects, along runs that keep an invariant. -/
theorem relates {P : σ → Prop} {R : σ → σ → Prop} (hrefl : ∀ s, R s s)
    (htrans : ∀ s t u, R s t → R t u → R s u)
    (hstep : ∀ s a t, P s → step s a t → P t ∧ R s t) {s t : σ} {as : List α}
    (h : Run step s as t) (hs : P s) : R s t := by
  induction h with
  | nil s => exact hrefl s
  | cons head _ ih =>
      obtain ⟨hP, hR⟩ := hstep _ _ _ hs head
      exact htrans _ _ _ hR (ih hP)

/-- A measure that every step lowers bounds the length of a run that keeps an invariant. -/
theorem length_le {P : σ → Prop} {μ : σ → Nat}
    (hstep : ∀ s a t, P s → step s a t → P t ∧ μ t < μ s) {s t : σ} {as : List α}
    (h : Run step s as t) (hs : P s) : as.length + μ t ≤ μ s := by
  induction h with
  | nil s => exact Nat.le_of_eq (Nat.zero_add _)
  | cons head _ ih =>
      obtain ⟨hP, hlt⟩ := hstep _ _ _ hs head
      have htail := ih hP
      rw [List.length_cons]
      omega

/-- Two relations that agree in every state with an invariant have the same runs. -/
theorem congr {P : σ → Prop} {step' : σ → α → σ → Prop}
    (hsame : ∀ s a t, P s → (step s a t ↔ step' s a t))
    (hstep : ∀ s a t, P s → step s a t → P t) {s t : σ} {as : List α} (hs : P s) :
    Run step s as t ↔ Run step' s as t := by
  constructor
  · intro h
    induction h with
    | nil s => exact .nil s
    | cons head _ ih => exact .cons ((hsame _ _ _ hs).mp head) (ih (hstep _ _ _ hs head))
  · intro h
    induction h with
    | nil s => exact .nil s
    | cons head _ ih =>
        have hhead := (hsame _ _ _ hs).mpr head
        exact .cons hhead (ih (hstep _ _ _ hs hhead))

/-- A run whose labels all have a property. -/
theorem of_labels {Q : α → Prop} {s t : σ} {as : List α} (h : Run step s as t)
    (hlabels : ∀ a ∈ as, Q a) : Run (fun s a t => step s a t ∧ Q a) s as t := by
  induction h with
  | nil s => exact .nil s
  | cons head _ ih =>
      rw [List.forall_mem_cons] at hlabels
      exact .cons ⟨head, hlabels.1⟩ (ih hlabels.2)

end Run

end Sylar.Lib.Transition
