import Mathlib.Data.Finset.Card
import Mathlib.Logic.Relation

/-!
Loops as a step that goes on from state to state until it gives a result. A loop that returns never meets a
state twice, so as many passes as there are states are enough.
-/
namespace SysX.Loop

variable {σ ρ : Type*} (step : σ → σ ⊕ ρ)

/-- At most `n` passes; `none` when these are used up. -/
def run : ℕ → σ → Option ρ
  | 0, _ => none
  | n + 1, s =>
    match step s with
    | .inl t => run n t
    | .inr r => some r

/-- The loop ends in `r`, after whatever number of passes. -/
inductive Returns : σ → ρ → Prop
  | done {s r} (h : step s = .inr r) : Returns s r
  | next {s t r} (h : step s = .inl t) (hr : Returns t r) : Returns s r

/-- The loop comes from the first state to the second one. -/
abbrev Reaches : σ → σ → Prop := Relation.ReflTransGen fun s t => step s = .inl t

variable {step} {s t u : σ} {r r' : ρ}

theorem Returns.of_run {n : ℕ} (h : run step n s = some r) : Returns step s r := by
  induction n generalizing s with
  | zero => cases h
  | succ n ih =>
    rw [run] at h
    cases hs : step s with
    | inl t =>
      rw [hs] at h
      exact .next hs (ih h)
    | inr q =>
      rw [hs] at h
      cases h
      exact .done hs

theorem Returns.unique (h : Returns step s r) (h' : Returns step s r') : r = r' := by
  induction h with
  | done hs =>
    cases h' with
    | done hs' => exact Sum.inr.inj (hs.symm.trans hs')
    | next hs' hr' => cases hs.symm.trans hs'
  | next hs hr ih =>
    cases h' with
    | done hs' => cases hs.symm.trans hs'
    | next hs' hr' =>
      obtain rfl := Sum.inl.inj (hs.symm.trans hs')
      exact ih hr'

theorem Returns.of_reaches (hst : Reaches step s t) (h : Returns step t r) : Returns step s r := by
  induction hst using Relation.ReflTransGen.head_induction_on with
  | refl => exact h
  | head hs _ ih => exact .next hs ih

theorem Returns.tail (h : Returns step s r) (hst : Reaches step s t) : Returns step t r := by
  induction hst with
  | refl => exact h
  | tail _ hs ih =>
    cases ih with
    | done hs' => cases hs.symm.trans hs'
    | next hs' hr =>
      obtain rfl := Sum.inl.inj (hs.symm.trans hs')
      exact hr

/-- A loop that returns does not come back to where it was. -/
theorem Returns.acyclic (h : Returns step s r) (hs : step s = .inl t) : ¬ Reaches step t s := by
  induction h generalizing t with
  | done hs' => cases hs.symm.trans hs'
  | next hs' hr ih =>
    obtain rfl := Sum.inl.inj (hs.symm.trans hs')
    intro hback
    rcases Relation.ReflTransGen.cases_head hback with heq | ⟨u, hu, hrest⟩
    · subst heq
      exact ih hs .refl
    · exact ih hu (hrest.tail hs)

/-- A loop that returns does so within as many passes as there are states that it can come to. -/
theorem Returns.run_card [DecidableEq σ] (h : Returns step s r) {A : Finset σ}
    (hA : ∀ u, Reaches step s u → u ∈ A) : run step A.card s = some r := by
  induction h generalizing A with
  | done hs =>
    obtain ⟨n, hn⟩ := Nat.exists_eq_succ_of_ne_zero (Finset.card_ne_zero_of_mem (hA _ .refl))
    rw [hn, run, hs]
  | @next s t r hs hr ih =>
    have hmem : s ∈ A := hA s .refl
    have hcard : A.card = (A.erase s).card + 1 := (Finset.card_erase_add_one hmem).symm
    have hrest : ∀ u, Reaches step t u → u ∈ A.erase s := by
      intro u hu
      refine Finset.mem_erase.mpr ⟨?_, hA u (.head hs hu)⟩
      rintro rfl
      exact (Returns.next hs hr).acyclic hs hu
    rw [hcard, run, hs]
    exact ih hrest

end SysX.Loop
