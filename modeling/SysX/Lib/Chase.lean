import Mathlib.Data.Fintype.Card
import Mathlib.Data.Set.Finite.Basic
import Mathlib.Logic.Relation

/-! Chains of a relation on finitely many elements: they come to an end from where no cycle is reached. -/
namespace SysX

open Relation

variable {α : Type*} {r : α → α → Prop} {N : Finset α} {a b : α}

/-- No chain of the relation goes on for ever. -/
abbrev ChainsEnd (r : α → α → Prop) (a : α) : Prop := Acc (Function.swap r) a

/-- No chain of the relation comes back to where it was. -/
def NoCycle (r : α → α → Prop) (a : α) : Prop := ∀ b, ReflTransGen r a b → ¬TransGen r b b

theorem ChainsEnd.step (h : ChainsEnd r a) (hab : r a b) : ChainsEnd r b := h.inv hab

theorem ChainsEnd.reach (h : ChainsEnd r a) (hab : ReflTransGen r a b) : ChainsEnd r b := by
  induction hab with
  | refl => exact h
  | tail _ hstep ih => exact ih.step hstep

theorem ChainsEnd.not_cycle (h : ChainsEnd r a) : ¬TransGen r a a := by
  have hacc : Acc (TransGen (Function.swap r)) a := h.transGen
  induction hacc with
  | intro a _ ih =>
    intro hcycle
    have hback : TransGen (Function.swap r) a a := transGen_swap.mpr hcycle
    exact ih a hback h hcycle

theorem ChainsEnd.noCycle (h : ChainsEnd r a) : NoCycle r a := fun _ hab => (h.reach hab).not_cycle

/-- On finitely many elements a chain that goes on comes back. -/
theorem NoCycle.chainsEnd (h : NoCycle r a) (hclosed : ∀ x ∈ N, ∀ y, r x y → y ∈ N) (ha : a ∈ N) : ChainsEnd r a := by
  have hmem : ∀ b, ReflTransGen r a b → b ∈ N := by
    intro b hab
    induction hab with
    | refl => exact ha
    | tail _ hstep ih => exact hclosed _ ih _ hstep
  let back : {b // b ∈ N ∧ ReflTransGen r a b} → {b // b ∈ N ∧ ReflTransGen r a b} → Prop := fun x y => TransGen r y.1 x.1
  have hfinite : Finite {b // b ∈ N ∧ ReflTransGen r a b} := (N.finite_toSet.subset fun b hb => hb.1).to_subtype
  have htrans : IsTrans _ back := ⟨fun _ _ _ hxy hyz => hyz.trans hxy⟩
  have hirrefl : Std.Irrefl back := ⟨fun x hx => h x.1 x.2.2 hx⟩
  have hwf : WellFounded back := Finite.wellFounded_of_trans_of_irrefl back
  have hall : ∀ x : {b // b ∈ N ∧ ReflTransGen r a b}, ChainsEnd r x.1 := by
    intro x
    induction x using hwf.induction with
    | h x ih =>
      refine Acc.intro x.1 fun y hxy => ?_
      have hay : ReflTransGen r a y := x.2.2.tail hxy
      exact ih ⟨y, hmem y hay, hay⟩ (.single hxy)
  exact hall ⟨a, ha, .refl⟩

theorem chainsEnd_iff (hclosed : ∀ x ∈ N, ∀ y, r x y → y ∈ N) (ha : a ∈ N) : ChainsEnd r a ↔ NoCycle r a :=
  ⟨ChainsEnd.noCycle, fun h => h.chainsEnd hclosed ha⟩

end SysX
