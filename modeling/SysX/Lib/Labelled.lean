import Mathlib.Tactic.Common

/-! Steps that say what has happened, and a machine that is told so. -/
namespace SysX.Labelled

variable {σ ε ρ : Type*} {step : σ → List ε → σ → Prop} {s t : σ} {τ : List ε}

/-- A number of steps, with everything that has happened in them. -/
inductive Run (step : σ → List ε → σ → Prop) : σ → List ε → σ → Prop
  | nil (s : σ) : Run step s [] s
  | concat {s t u : σ} {τ τ' : List ε} (h : Run step s τ t) (hstep : step t τ' u) : Run step s (τ ++ τ') u

/-- A machine that follows each step follows a run. -/
theorem Run.follows {R : σ → ρ → Prop} {after : ρ → ε → ρ}
    (hstep : ∀ s τ t r, step s τ t → R s r → R t (τ.foldl after r)) {r : ρ} (h : Run step s τ t) (hs : R s r) :
    R t (τ.foldl after r) := by
  induction h with
  | nil => exact hs
  | concat _ hlast ih =>
    rw [List.foldl_append]
    exact hstep _ _ _ _ hlast ih

end SysX.Labelled
