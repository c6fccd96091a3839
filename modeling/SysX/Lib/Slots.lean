import Mathlib.Data.List.Count
import Mathlib.Tactic.Common

/-! Tables with empty slots, and the search that stops at an entry or at the first empty slot. -/
namespace SysX

variable {α : Type*} {t : List (Option α)} {a : α} {i : ℕ}

namespace Slots

/-- The entry `a`, where it is there, stands before the empty slots. -/
def BeforeHoles (a : α) (t : List (Option α)) : Prop :=
  some a ∈ t → ∀ i : ℕ, t[i]? = some none → ∃ j < i, t[j]? = some (some a)

theorem beforeHoles_of_notMem (h : some a ∉ t) : BeforeHoles a t := fun ha => absurd ha h

variable [DecidableEq α]

/-- The first slot that holds `a` or nothing. -/
def search (a : α) (t : List (Option α)) : Option ℕ := t.findIdx? fun x => x = some a ∨ x = none

theorem search_eq_none (h : search a t = none) : some a ∉ t ∧ none ∉ t := by
  have hall := List.findIdx?_eq_none_iff.mp h
  constructor
  · intro ha
    simpa using hall _ ha
  · intro hnone
    simpa using hall _ hnone

/-- What stands at the slot that was found, and not before it. -/
theorem search_eq_some (h : search a t = some i) :
    (t[i]? = some (some a) ∨ t[i]? = some none) ∧ ∀ j < i, t[j]? ≠ some (some a) ∧ t[j]? ≠ some none := by
  obtain ⟨hi, hat, hbefore⟩ := List.findIdx?_eq_some_iff_getElem.mp h
  constructor
  · simpa [List.getElem?_eq_getElem hi] using hat
  · intro j hj
    simpa [List.getElem?_eq_getElem (Nat.lt_trans hj hi)] using hbefore j hj

theorem beforeHoles_of_found (h : search a t = some i) (ha : t[i]? = some (some a)) : BeforeHoles a t := by
  intro _ k hk
  have hbefore := (search_eq_some h).2
  rcases Nat.lt_trichotomy i k with hlt | rfl | hgt
  · exact ⟨i, hlt, ha⟩
  · simp [ha] at hk
  · exact absurd hk (hbefore k hgt).2

/-- An entry behind the empty slot that was found is not before the empty slots. -/
theorem not_beforeHoles (h : search a t = some i) (hnone : t[i]? = some none) (ha : some a ∈ t) : ¬ BeforeHoles a t := by
  intro hb
  obtain ⟨j, hj, hat⟩ := hb ha i hnone
  exact (search_eq_some h).2 j hj |>.1 hat

/-- Filling an empty slot adds one entry. -/
theorem count_set_none (h : t[i]? = some none) : (t.set i (some a)).count (some a) = t.count (some a) + 1 := by
  obtain ⟨hi, hnone⟩ := List.getElem?_eq_some_iff.mp h
  simp [List.count_set hi, hnone]

end Slots

end SysX
