import SysX.Lib.Lock
import Mathlib.Logic.Function.Conjugate

/-!
Sections of code that only changes of a certain kind may interrupt. Where these commute with every step of the code,
the whole section is as good as one step, with the changes before it.
-/
namespace SysX.Sections

open Lock (applyAll)
open Relation (ReflTransGen)

variable {κ σ : Type*}

/-- What a section of each kind does step by step, where it may be entered, what may come between two of its steps, and
what may happen outside of sections. -/
structure Rules (κ σ : Type*) where
  code : κ → List (σ → σ)
  allowed : κ → σ → Prop
  disturb : Set (σ → σ)
  outside : σ → σ → Prop

/-- The section that is on the way with what is left of it, and the data. -/
inductive Step (R : Rules κ σ) : Option (κ × List (σ → σ)) × σ → Option (κ × List (σ → σ)) × σ → Prop
  | enter {s : σ} (k : κ) (h : R.allowed k s) : Step R (none, s) (some (k, R.code k), s)
  | work (k : κ) (f : σ → σ) (fs : List (σ → σ)) (s : σ) : Step R (some (k, f :: fs), s) (some (k, fs), f s)
  | disturb {d : σ → σ} (k : κ) (fs : List (σ → σ)) (s : σ) (h : d ∈ R.disturb) :
    Step R (some (k, fs), s) (some (k, fs), d s)
  | leave (k : κ) (s : σ) : Step R (some (k, []), s) (none, s)
  | outside {s t : σ} (h : R.outside s t) : Step R (none, s) (none, t)

/-- Whole sections. -/
inductive Serial (R : Rules κ σ) : σ → σ → Prop
  | whole {s : σ} (k : κ) (h : R.allowed k s) : Serial R s (applyAll (R.code k) s)
  | disturb {d : σ → σ} (s : σ) (h : d ∈ R.disturb) : Serial R s (d s)
  | outside {s t : σ} (h : R.outside s t) : Serial R s t

/-- The changes commute with the code, and do not forbid a section. -/
structure Rules.Movers (R : Rules κ σ) : Prop where
  commute : ∀ d ∈ R.disturb, ∀ k, ∀ f ∈ R.code k, Function.Commute f d
  allowed : ∀ d ∈ R.disturb, ∀ k s, R.allowed k s → R.allowed k (d s)

/-- What is left of the code, after changes, does what all of the code does after whole sections. -/
def Reduced (R : Rules κ σ) (s₀ : σ) : Option (κ × List (σ → σ)) × σ → Prop
  | (none, s) => ReflTransGen (Serial R) s₀ s
  | (some (k, fs), s) => ∃ b, ReflTransGen (Serial R) s₀ b ∧ R.allowed k b ∧ (∀ f ∈ fs, f ∈ R.code k) ∧
      applyAll fs s = applyAll (R.code k) b

theorem applyAll_commute {fs : List (σ → σ)} {d : σ → σ} (h : ∀ f ∈ fs, Function.Commute f d) (s : σ) :
    applyAll fs (d s) = d (applyAll fs s) := by
  induction fs generalizing s with
  | nil => rfl
  | cons f fs ih =>
    rw [Lock.applyAll_cons, Lock.applyAll_cons, h f List.mem_cons_self s]
    exact ih (fun g hg => h g (List.mem_cons_of_mem _ hg)) (f s)

variable {R : Rules κ σ} {s₀ : σ} {x y : Option (κ × List (σ → σ)) × σ}

theorem Reduced.step (hR : R.Movers) (h : Reduced R s₀ x) (hxy : Step R x y) : Reduced R s₀ y := by
  cases hxy with
  | enter k hk => exact ⟨_, h, hk, fun _ hf => hf, rfl⟩
  | work k f fs s =>
    obtain ⟨b, hb, hk, hmem, heq⟩ := h
    exact ⟨b, hb, hk, fun g hg => hmem g (List.mem_cons_of_mem _ hg), heq⟩
  | @disturb d k fs s hd =>
    obtain ⟨b, hb, hk, hmem, heq⟩ := h
    refine ⟨d b, hb.tail (.disturb b hd), hR.allowed d hd k b hk, hmem, ?_⟩
    rw [applyAll_commute fun f hf => hR.commute d hd k f (hmem f hf), applyAll_commute (hR.commute d hd k), heq]
  | leave k s =>
    obtain ⟨b, hb, hk, -, heq⟩ := h
    have hwhole : s = applyAll (R.code k) b := heq
    exact hb.tail (hwhole ▸ .whole k hk)
  | outside hst => exact ReflTransGen.tail h (.outside hst)

/-- In every run. -/
theorem Reduced.run (hR : R.Movers) (h : ReflTransGen (Step R) (none, s₀) x) : Reduced R s₀ x := by
  induction h with
  | refl => exact ReflTransGen.refl
  | tail _ hlast ih => exact ih.step hR hlast

end SysX.Sections
