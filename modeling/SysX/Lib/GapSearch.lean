import SysX.Lib.Loop
import Mathlib.Data.Nat.Find

/-!
The search for a run of free cells that grows a block from a start and, when a cell breaks it, goes on from
another start.
-/
namespace SysX.GapSearch
open Loop

section Search

variable (free : ℕ → Prop) [DecidablePred free] (inside : ℕ → Prop) [DecidablePred inside]
  (next : ℕ → ℕ → ℕ) (n : ℕ)

/-- The `n` cells from `r` on are free. -/
def Gap (r : ℕ) : Prop := ∀ k < n, free (r + k)

/-- The first cell of the block from `r` on that is taken is the `k`-th. -/
structure Breaks (r k : ℕ) : Prop where
  lt : k < n
  taken : ¬ free (r + k)
  free : ∀ j < k, free (r + j)

/-- One pass: the state is the start of the block and the number of cells seen to be free. -/
def step (x : ℕ × ℕ) : (ℕ × ℕ) ⊕ Option ℕ :=
  if inside x.1 then
    if free (x.1 + x.2) then
      if x.2 + 1 = n then .inr (some x.1) else .inl (x.1, x.2 + 1)
    else .inl (next x.1 x.2, 0)
  else .inr none

/-- The starts that a search from `r₀` comes to. -/
inductive Tried (r₀ : ℕ) : ℕ → Prop
  | first : Tried r₀ r₀
  | skip {r k : ℕ} (h : Tried r₀ r) (hin : inside r) (hk : Breaks free n r k) : Tried r₀ (next r k)

end Search

variable {free : ℕ → Prop} {n r k : ℕ}

/-- A block is a gap, or some cell breaks it first. -/
theorem gap_or_breaks (free : ℕ → Prop) (n r : ℕ) : Gap free n r ∨ ∃ k, Breaks free n r k := by
  classical
  by_cases h : ∃ k, k < n ∧ ¬ free (r + k)
  · have hspec := Nat.find_spec h
    refine .inr ⟨Nat.find h, hspec.1, hspec.2, fun j hj => ?_⟩
    by_contra hf
    exact Nat.find_min h hj ⟨hj.trans hspec.1, hf⟩
  · refine .inl fun k hk => ?_
    by_contra hf
    exact h ⟨k, hk, hf⟩

/-- No gap holds the cell that is taken. -/
theorem Breaks.not_gap_of_mem (h : Breaks free n r k) {m : ℕ} (hle : m ≤ r + k) (hlt : r + k < m + n) :
    ¬ Gap free n m := by
  intro hg
  have hcell := hg (r + k - m) (by omega)
  rw [Nat.add_sub_cancel' hle] at hcell
  exact h.taken hcell

variable [DecidablePred free] {inside : ℕ → Prop} [DecidablePred inside] {next : ℕ → ℕ → ℕ} {r₀ : ℕ}
  {o : Option ℕ}

/-! What one block comes to. -/

theorem returns_outside (h : ¬ inside r) (k : ℕ) : Returns (step free inside next n) (r, k) none :=
  .done (if_neg h)

/-- The cells seen to be free so far are passed. -/
theorem reaches_block (hin : inside r) (hfree : ∀ j < k, free (r + j)) (hk : k < n) :
    Reaches (step free inside next n) (r, 0) (r, k) := by
  induction k with
  | zero => exact .refl
  | succ k ih =>
    refine (ih (fun j hj => hfree j (by omega)) (by omega)).tail ?_
    have hcell : free (r + k) := hfree k (Nat.lt_succ_self k)
    rw [step, if_pos hin, if_pos hcell, if_neg (Nat.ne_of_lt hk)]

theorem returns_gap (hn : 0 < n) (hin : inside r) (hgap : Gap free n r) :
    Returns (step free inside next n) (r, 0) (some r) := by
  have hpass : Reaches (step free inside next n) (r, 0) (r, n - 1) :=
    reaches_block hin (fun j hj => hgap j (by omega)) (by omega)
  refine .of_reaches hpass (.done ?_)
  have hcell : free (r + (n - 1)) := hgap (n - 1) (by omega)
  have hlast : n - 1 + 1 = n := Nat.sub_add_cancel hn
  rw [step, if_pos hin, if_pos hcell, if_pos hlast]

theorem reaches_next (hin : inside r) (hk : Breaks free n r k) :
    Reaches (step free inside next n) (r, 0) (next r k, 0) := by
  refine (reaches_block hin hk.free hk.lt).tail ?_
  rw [step, if_pos hin, if_neg hk.taken]

/-! What the search comes to. -/

theorem reaches_tried (h : Tried free inside next n r₀ r) :
    Reaches (step free inside next n) (r₀, 0) (r, 0) := by
  induction h with
  | first => exact .refl
  | skip _ hin hk ih => exact ih.trans (reaches_next hin hk)

/-- In the middle of a block, too, a search that returns returns the tried start of a gap or runs out. -/
theorem returns_block {x : ℕ × ℕ} (hn : 0 < n) (h : Returns (step free inside next n) x o) :
    Tried free inside next n r₀ x.1 → x.2 < n → (∀ j < x.2, free (x.1 + j)) →
      (∃ g, o = some g ∧ Tried free inside next n r₀ g ∧ inside g ∧ Gap free n g) ∨
        (o = none ∧ ∃ e, Tried free inside next n r₀ e ∧ ¬ inside e) := by
  induction h with
  | @done x o hs =>
    intro htry hlt hfree
    unfold step at hs
    split_ifs at hs with hin hcell hlast
    · cases hs
      refine .inl ⟨x.1, rfl, htry, hin, fun k hk => ?_⟩
      by_cases hk' : k = x.2
      · rw [hk']
        exact hcell
      · exact hfree k (by omega)
    · cases hs
      exact .inr ⟨rfl, x.1, htry, hin⟩
  | @next x y o hs _ ih =>
    intro htry hlt hfree
    unfold step at hs
    split_ifs at hs with hin hcell hlast
    · cases hs
      refine ih htry (by dsimp only; omega) fun j hj => ?_
      by_cases hj' : j = x.2
      · rw [hj']
        exact hcell
      · dsimp only at hj
        exact hfree j (by omega)
    · cases hs
      exact ih (htry.skip hin ⟨hlt, hcell, hfree⟩) hn fun j hj => absurd hj (Nat.not_lt_zero j)

/-- The search ends with the start of a gap exactly where that start is tried. -/
theorem returns_some_iff (hn : 0 < n) {g : ℕ} (hret : Returns (step free inside next n) (r₀, 0) o) :
    o = some g ↔ Tried free inside next n r₀ g ∧ inside g ∧ Gap free n g := by
  constructor
  · intro ho
    rcases returns_block hn hret .first hn fun j hj => absurd hj (Nat.not_lt_zero j) with
      ⟨g', hg', h⟩ | ⟨hnone, -⟩
    · obtain rfl := Option.some.inj (ho.symm.trans hg')
      exact h
    · cases ho.symm.trans hnone
  · intro ⟨htry, hin, hgap⟩
    exact (hret.tail (reaches_tried htry)).unique (returns_gap hn hin hgap)

/-- A search without a result has come to a start outside. -/
theorem returns_none_outside (hn : 0 < n) (hret : Returns (step free inside next n) (r₀, 0) none) :
    ∃ e, Tried free inside next n r₀ e ∧ ¬ inside e := by
  rcases returns_block hn hret .first hn fun j hj => absurd hj (Nat.not_lt_zero j) with
    ⟨g, hg, -⟩ | ⟨-, h⟩
  · cases hg
  · exact h

theorem returns_none_iff (hn : 0 < n) (hret : Returns (step free inside next n) (r₀, 0) o) :
    o = none ↔ ∀ g, Tried free inside next n r₀ g → inside g → ¬ Gap free n g := by
  constructor
  · intro ho g htry hin hgap
    have hsome := (returns_some_iff hn hret).mpr ⟨htry, hin, hgap⟩
    cases ho.symm.trans hsome
  · intro hno
    cases o with
    | none => rfl
    | some g =>
      obtain ⟨htry, hin, hgap⟩ := (returns_some_iff hn hret).mp rfl
      exact absurd hgap (hno g htry hin)

/-- A search whose starts come down in some measure, as long as they keep `I`, returns. -/
theorem exists_returns (hn : 0 < n) (I : ℕ → Prop) (μ : ℕ → ℕ)
    (hμ : ∀ r k, I r → inside r → Breaks free n r k → inside (next r k) →
      I (next r k) ∧ μ (next r k) < μ r) (hI : I r) :
    ∃ o, Returns (step free inside next n) (r, 0) o := by
  induction hm : μ r using Nat.strong_induction_on generalizing r with
  | _ m ih =>
    by_cases hin : inside r
    · rcases gap_or_breaks free n r with hgap | ⟨k, hk⟩
      · exact ⟨some r, returns_gap hn hin hgap⟩
      · by_cases hnext : inside (next r k)
        · obtain ⟨hI', hlt⟩ := hμ r k hI hin hk hnext
          obtain ⟨o, ho⟩ := ih _ (hm ▸ hlt) hI' rfl
          exact ⟨o, .of_reaches (reaches_next hin hk) ho⟩
        · exact ⟨none, .of_reaches (reaches_next hin hk) (returns_outside hnext 0)⟩
    · exact ⟨none, returns_outside hin 0⟩

omit [DecidablePred free] [DecidablePred inside] in
/-- What every start that is tried has, when it is handed on from one to the next. -/
theorem Tried.keeps {I : ℕ → Prop} (h : Tried free inside next n r₀ r) (h₀ : I r₀)
    (hnext : ∀ r k, I r → inside r → Breaks free n r k → I (next r k)) : I r := by
  induction h with
  | first => exact h₀
  | skip _ hin hk ih => exact hnext _ _ ih hin hk

/-! The upward search, which goes on behind the cell that broke the block. -/

omit [DecidablePred free] [DecidablePred inside] in
/-- No start below one that is tried is a gap. -/
theorem Tried.no_gap_below (h : Tried free inside next n r₀ r)
    (hnext : ∀ r k, Tried free inside next n r₀ r → inside r → Breaks free n r k →
      next r k = r + (k + 1)) : r₀ ≤ r ∧ ∀ m, r₀ ≤ m → m < r → ¬ Gap free n m := by
  induction h with
  | first => exact ⟨Nat.le_refl _, fun m h1 h2 => absurd h2 (Nat.not_lt.mpr h1)⟩
  | @skip r k htry hin hk ih =>
    rw [hnext r k htry hin hk]
    refine ⟨by have := ih.1; omega, fun m h1 h2 => ?_⟩
    by_cases hm : m < r
    · exact ih.2 m h1 hm
    · exact hk.not_gap_of_mem (by omega) (by have := hk.lt; omega)

end SysX.GapSearch
