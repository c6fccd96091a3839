import Mathlib.Data.List.Basic

/-!
Blocks of `n` cells that are taken one after the other, each at the first position where one fits.
-/
namespace SysX.FirstFit

/-- The positions `l`, from `b` on, at which blocks are taken. -/
inductive Fits (free : ℕ → Prop) (n : ℕ) : ℕ → List ℕ → Prop
  | nil (b : ℕ) : Fits free n b []
  | cons {b q : ℕ} {l : List ℕ} (hle : b ≤ q) (hq : free q) (least : ∀ p, b ≤ p → p < q → ¬ free p)
      (h : Fits free n (q + n) l) : Fits free n b (q :: l)

variable {free free' : ℕ → Prop} {n b b' q : ℕ} {l : List ℕ}

theorem Fits.free_of_mem (h : Fits free n b l) : ∀ q ∈ l, free q := by
  induction h with
  | nil b => simp
  | cons hle hq least h ih =>
    intro p hp
    rcases List.mem_cons.mp hp with rfl | hp
    · exact hq
    · exact ih p hp

theorem Fits.take (h : Fits free n b l) (k : ℕ) : Fits free n b (l.take k) := by
  induction h generalizing k with
  | nil b =>
    rw [List.take_nil]
    exact .nil b
  | cons hle hq least h ih =>
    cases k with
    | zero => exact .nil _
    | succ k => exact .cons hle hq least (ih k)

theorem Fits.congr (h : Fits free n b l) (hsame : ∀ p, b ≤ p → (free' p ↔ free p)) : Fits free' n b l := by
  induction h with
  | nil b => exact .nil b
  | @cons b q l hle hq least h ih =>
    have hrest : Fits free' n (q + n) l := ih fun p hp => hsame p (by omega)
    exact .cons hle ((hsame q hle).mpr hq) (fun p hp hpq hno => least p hp hpq ((hsame p hp).mp hno)) hrest

/-- Positions where nothing fits are passed. -/
theorem fits_skip (hb : b ≤ b') (hno : ∀ p, b ≤ p → p < b' → ¬ free p) : Fits free n b l ↔ Fits free n b' l := by
  constructor
  · intro h
    cases h with
    | nil => exact .nil b'
    | @cons _ q _ hle hq least h =>
      have hq' : b' ≤ q := by
        by_contra hlt
        exact hno q hle (by omega) hq
      exact .cons hq' hq (fun p hp => least p (Nat.le_trans hb hp)) h
  · intro h
    cases h with
    | nil => exact .nil b
    | @cons _ q _ hle hq least h =>
      refine .cons (Nat.le_trans hb hle) hq (fun p hp hpq => ?_) h
      by_cases hlt : p < b'
      · exact hno p hp hlt
      · exact least p (by omega) hpq

/-- What fits behind the first block fits when the block is taken. -/
theorem fits_cons (hq : free q) (least : ∀ p < q, ¬ free p)
    (hnext : ∀ p, free' p ↔ free p ∧ (p + n ≤ q ∨ q + n ≤ p)) : Fits free n 0 (q :: l) ↔ Fits free' n 0 l := by
  have hskip : Fits free' n 0 l ↔ Fits free' n (q + n) l := by
    refine fits_skip (Nat.zero_le _) fun p _ hp hno => ?_
    obtain ⟨hfree, hout⟩ := (hnext p).mp hno
    refine least p ?_ hfree
    by_contra hge
    omega
  have hsame : ∀ p, q + n ≤ p → (free' p ↔ free p) := fun p hp =>
    (hnext p).trans ⟨And.left, fun hfree => ⟨hfree, .inr hp⟩⟩
  rw [hskip]
  constructor
  · intro h
    cases h with
    | cons _ _ _ h => exact h.congr hsame
  · intro h
    exact .cons (Nat.zero_le q) hq (fun p _ hp => least p hp) (h.congr fun p hp => (hsame p hp).symm)

end SysX.FirstFit
