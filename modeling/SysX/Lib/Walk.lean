import Mathlib.Data.List.Nodup
import Mathlib.Data.List.Perm.Subperm
import Mathlib.Tactic.Common

/-! Walks of a deterministic machine that come to a stop. -/
namespace SysX

variable {α : Type*} {stop : α → Prop} {next : α → Option α} {a x : α} {l l' : List α}

/-- The machine visits the states of the list, from `a` on, and then stops. -/
inductive Walk (stop : α → Prop) (next : α → Option α) : α → List α → Prop
  | done {a : α} (h : stop a) : Walk stop next a []
  | step {a b : α} {l : List α} (h : ¬stop a) (hnext : next a = some b) (hrest : Walk stop next b l) :
      Walk stop next a (a :: l)

namespace Walk

theorem unique (h : Walk stop next a l) (h' : Walk stop next a l') : l = l' := by
  induction h generalizing l' with
  | done hstop =>
    cases h' with
    | done => rfl
    | step hgo => exact absurd hstop hgo
  | step hgo hnext _ ih =>
    cases h' with
    | done hstop => exact absurd hstop hgo
    | step _ hnext' hrest' =>
      obtain rfl := Option.some.inj (hnext.symm.trans hnext')
      rw [ih hrest']

/-- From each state on the rest of the walk is a walk. -/
theorem of_mem (h : Walk stop next a l) (hx : x ∈ l) : ∃ l', Walk stop next x l' ∧ l'.length ≤ l.length := by
  induction h with
  | done => cases hx
  | @step a b l hgo hnext hrest ih =>
    rcases List.mem_cons.mp hx with rfl | hx
    · exact ⟨x :: l, .step hgo hnext hrest, Nat.le_refl _⟩
    · obtain ⟨l', hw, hle⟩ := ih hx
      exact ⟨l', hw, Nat.le_succ_of_le hle⟩

/-- A state that comes again comes for ever. -/
theorem nodup (h : Walk stop next a l) : l.Nodup := by
  induction h with
  | done => exact List.nodup_nil
  | @step a b l hgo hnext hrest ih =>
    refine List.nodup_cons.mpr ⟨fun hmem => ?_, ih⟩
    obtain ⟨l', hw, hle⟩ := hrest.of_mem hmem
    have heq := hw.unique (.step hgo hnext hrest)
    rw [heq, List.length_cons] at hle
    omega

/-- What every step keeps holds of all states of the walk. -/
theorem forall_mem {P : α → Prop} (h : Walk stop next a l) (ha : P a)
    (hstep : ∀ a b, next a = some b → P a → P b) : ∀ x ∈ l, P x ∧ ¬stop x := by
  induction h with
  | done => simp
  | @step a b l hgo hnext hrest ih =>
    intro x hx
    rcases List.mem_cons.mp hx with rfl | hx
    · exact ⟨ha, hgo⟩
    · exact ih (hstep _ _ hnext ha) x hx

end Walk

/-- Different numbers below `k * n` that agree modulo `k` are at most `n`. -/
theorem length_le_of_mod {l : List ℕ} {k n r : ℕ} (hl : l.Nodup) (h : ∀ x ∈ l, x % k = r ∧ x < k * n) :
    l.length ≤ n := by
  have hinj : (l.map (· / k)).Nodup := by
    apply hl.map_on
    intro x hx y hy heq
    rw [← Nat.div_add_mod x k, ← Nat.div_add_mod y k, heq, (h x hx).1, (h y hy).1]
  have hsub : l.map (· / k) ⊆ List.range n := by
    intro q hq
    obtain ⟨x, hx, rfl⟩ := List.mem_map.mp hq
    exact List.mem_range.mpr (Nat.div_lt_of_lt_mul (h x hx).2)
  have hlen := (hinj.subperm hsub).length_le
  rwa [List.length_map, List.length_range] at hlen

end SysX
