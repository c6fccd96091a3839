import Mathlib.Logic.Function.Basic
import Mathlib.Tactic.Common

/-! Moves of cells inside one store, whose ranges may overlap, and copies from another store, where a cell may
be missing. -/
namespace SysX

variable {α : Type*} {m m' : ℕ → α} {dst src n a : ℕ}

/-- Cell by cell from the first one on. -/
def moveUp (dst src : ℕ) : (n : ℕ) → (ℕ → α) → ℕ → α
  | 0, m => m
  | n + 1, m =>
    let m := moveUp dst src n m
    Function.update m (dst + n) (m (src + n))

/-- Cell by cell from the last one on. -/
def moveDown (dst src : ℕ) : (n : ℕ) → (ℕ → α) → ℕ → α
  | 0, m => m
  | n + 1, m => moveDown dst src n (Function.update m (dst + n) (m (src + n)))

/-- The direction is the one in which no cell is written before it is read. -/
def moveWithin (m : ℕ → α) (dst src n : ℕ) : ℕ → α :=
  if dst = src then m
  else if dst < src then moveUp dst src n m
  else moveDown dst src n m

/-- The first cell, and the others behind it. -/
theorem moveUp_succ : moveUp dst src (n + 1) m = moveUp (dst + 1) (src + 1) n (Function.update m dst (m src)) := by
  induction n with
  | zero => rfl
  | succ n ih => rw [moveUp, ih, moveUp, Nat.add_right_comm dst, Nat.add_right_comm src, Nat.add_assoc dst, Nat.add_assoc src]

theorem moveUp_apply (h : dst ≤ src) :
    moveUp dst src n m a = if dst ≤ a ∧ a < dst + n then m (src + (a - dst)) else m a := by
  induction n generalizing a with
  | zero => rw [moveUp, Nat.add_zero, if_neg (by omega)]
  | succ n ih =>
    rw [moveUp]
    rcases eq_or_ne a (dst + n) with rfl | hne
    · have hfresh : ¬(dst ≤ src + n ∧ src + n < dst + n) := by omega
      rw [Function.update_self, ih, if_neg hfresh, if_pos (by omega), Nat.add_sub_cancel_left]
    · rw [Function.update_of_ne hne, ih]
      congr 1
      apply propext
      omega

theorem moveDown_apply (h : src ≤ dst) :
    moveDown dst src n m a = if dst ≤ a ∧ a < dst + n then m (src + (a - dst)) else m a := by
  induction n generalizing m with
  | zero => rw [moveDown, Nat.add_zero, if_neg (by omega)]
  | succ n ih =>
    rw [moveDown, ih]
    split_ifs with hin hout hout
    · exact Function.update_of_ne (by omega) _ _
    · omega
    · obtain rfl : a = dst + n := by omega
      rw [Function.update_self, Nat.add_sub_cancel_left]
    · exact Function.update_of_ne (by omega) _ _

/-- A move gives every cell of the target what its source held before, however the two ranges overlap. -/
theorem moveWithin_apply :
    moveWithin m dst src n a = if dst ≤ a ∧ a < dst + n then m (src + (a - dst)) else m a := by
  unfold moveWithin
  rcases Nat.lt_trichotomy dst src with hlt | rfl | hlt
  · rw [if_neg (Nat.ne_of_lt hlt), if_pos hlt]
    exact moveUp_apply (Nat.le_of_lt hlt)
  · rw [if_pos rfl]
    split_ifs with hin
    · rw [Nat.add_sub_cancel' hin.1]
    · rfl
  · rw [if_neg (Nat.ne_of_gt hlt), if_neg (Nat.lt_asymm hlt)]
    exact moveDown_apply (Nat.le_of_lt hlt)

/-- The cells from both ends of the first `n` change places, in `k` pairs. -/
def swapEnds (n : ℕ) : (k : ℕ) → (ℕ → α) → ℕ → α
  | 0, m => m
  | k + 1, m =>
    let m := swapEnds n k m
    Function.update (Function.update m k (m (n - 1 - k))) (n - 1 - k) (m k)

theorem swapEnds_apply {k : ℕ} (h : 2 * k ≤ n) :
    swapEnds n k m a = if a < k ∨ n - k ≤ a ∧ a < n then m (n - 1 - a) else m a := by
  induction k generalizing a with
  | zero => rw [swapEnds, if_neg (by omega)]
  | succ k ih =>
    have ih := fun a => @ih a (by omega)
    rw [swapEnds]
    rcases eq_or_ne a (n - 1 - k) with rfl | hlast
    · rw [Function.update_self, ih, if_neg (by omega), if_pos (by omega)]
      congr 1
      omega
    · rw [Function.update_of_ne hlast]
      rcases eq_or_ne a k with rfl | hfirst
      · rw [Function.update_self, ih, if_neg (by omega), if_pos (by omega)]
      · rw [Function.update_of_ne hfirst, ih]
        congr 1
        apply propext
        omega

/-- Half of the pairs reverse all cells. -/
theorem swapEnds_half : swapEnds n (n / 2) m a = if a < n then m (n - 1 - a) else m a := by
  rw [swapEnds_apply (by omega)]
  by_cases hmid : a = n - 1 - a
  · simp [← hmid]
  · congr 1
    apply propext
    omega

/-- The copy from another store, which ends at a missing cell. -/
def copyFrom (s : ℕ → Option α) (dst src : ℕ) : (n : ℕ) → (ℕ → α) → Option (ℕ → α)
  | 0, m => some m
  | n + 1, m =>
    (copyFrom s dst src n m).bind fun m => (s (src + n)).map fun v => Function.update m (dst + n) v

/-- A copy succeeds exactly when no cell is missing, and gives the target those cells. -/
theorem copyFrom_eq_some_iff {s : ℕ → Option α} :
    copyFrom s dst src n m = some m' ↔
      (∀ i < n, s (src + i) = some (m' (dst + i))) ∧ ∀ a, ¬(dst ≤ a ∧ a < dst + n) → m' a = m a := by
  induction n generalizing m' with
  | zero => simp [copyFrom, funext_iff, eq_comm]
  | succ n ih =>
    rw [copyFrom, Option.bind_eq_some_iff]
    constructor
    · rintro ⟨m₁, hm₁, hlast⟩
      obtain ⟨v, hv, rfl⟩ := Option.map_eq_some_iff.mp hlast
      obtain ⟨hcells, hframe⟩ := ih.mp hm₁
      constructor
      · intro i hi
        rcases Nat.lt_succ_iff_lt_or_eq.mp hi with hlt | rfl
        · rw [Function.update_of_ne (by omega)]
          exact hcells i hlt
        · rw [Function.update_self]
          exact hv
      · intro a ha
        rw [Function.update_of_ne (by omega)]
        exact hframe a (by omega)
    · rintro ⟨hcells, hframe⟩
      have hlast := hcells n (Nat.lt_succ_self n)
      refine ⟨Function.update m' (dst + n) (m (dst + n)), ?_, ?_⟩
      · apply ih.mpr
        constructor
        · intro i hi
          rw [Function.update_of_ne (by omega)]
          exact hcells i (Nat.lt_succ_of_lt hi)
        · intro a ha
          rcases eq_or_ne a (dst + n) with rfl | hne
          · exact Function.update_self ..
          · rw [Function.update_of_ne hne]
            exact hframe a (by omega)
      · rw [hlast, Option.map_some, Function.update_idem, Function.update_eq_self]

theorem isSome_copyFrom_iff {s : ℕ → Option α} :
    (copyFrom s dst src n m).isSome ↔ ∀ i < n, (s (src + i)).isSome := by
  constructor
  · intro h i hi
    obtain ⟨m', hm'⟩ := Option.isSome_iff_exists.mp h
    rw [(copyFrom_eq_some_iff.mp hm').1 i hi]
    rfl
  · intro h
    let m' a := if dst ≤ a ∧ a < dst + n then (s (src + (a - dst))).getD (m a) else m a
    have hm' : copyFrom s dst src n m = some m' := by
      apply copyFrom_eq_some_iff.mpr
      constructor
      · intro i hi
        obtain ⟨v, hv⟩ := Option.isSome_iff_exists.mp (h i hi)
        simp only [m', if_pos (show dst ≤ dst + i ∧ dst + i < dst + n by omega), Nat.add_sub_cancel_left, hv,
          Option.getD_some]
      · intro a ha
        exact if_neg ha
    rw [hm']
    rfl

/-- The copy of a whole store. -/
theorem copyFrom_some (s : ℕ → α) :
    copyFrom (fun a => some (s a)) dst src n m =
      some fun a => if dst ≤ a ∧ a < dst + n then s (src + (a - dst)) else m a := by
  apply copyFrom_eq_some_iff.mpr
  constructor
  · intro i hi
    rw [if_pos (by omega), Nat.add_sub_cancel_left]
  · intro a ha
    exact if_neg ha

end SysX
