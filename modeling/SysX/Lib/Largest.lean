import Mathlib.Data.Nat.Basic
import Mathlib.Tactic.Common

/-! The largest of a list of numbers, which is zero where there is none. -/
namespace SysX

def largest (l : List ℕ) : ℕ := l.foldr max 0

variable {x : ℕ} {l : List ℕ}

theorem largest_cons (x : ℕ) (l : List ℕ) : largest (x :: l) = max x (largest l) := rfl

theorem largest_concat (l : List ℕ) (x : ℕ) : largest (l ++ [x]) = max (largest l) x := by
  induction l with
  | nil => exact Nat.max_comm _ _
  | cons y l ih =>
    rw [List.cons_append, largest_cons, largest_cons, ih, Nat.max_assoc]

theorem le_largest (h : x ∈ l) : x ≤ largest l := by
  induction l with
  | nil => cases h
  | cons y l ih =>
    rw [largest_cons]
    rcases List.mem_cons.mp h with rfl | h
    · exact Nat.le_max_left _ _
    · exact Nat.le_trans (ih h) (Nat.le_max_right _ _)

theorem largest_mem (h : 0 < largest l) : largest l ∈ l := by
  induction l with
  | nil => cases h
  | cons y l ih =>
    rw [largest_cons] at h ⊢
    rcases Nat.le_total (largest l) y with hle | hle
    · rw [Nat.max_eq_left hle]
      exact List.mem_cons_self
    · rw [Nat.max_eq_right hle] at h ⊢
      exact List.mem_cons_of_mem _ (ih h)

end SysX
