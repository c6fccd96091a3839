import Mathlib.Algebra.BigOperators.Group.List.Basic
import Mathlib.Algebra.GroupWithZero.Nat
import Mathlib.Data.List.Nodup
import Mathlib.Logic.Function.Basic
import Mathlib.Tactic.Common

/-! Counting what several owners hold, each of them a list of slots. -/
namespace SysX

variable {ι α : Type}

/-- The slots of all the owners that satisfy `P`. -/
def ownedCount (P : α → Bool) (owners : List ι) (F : ι → List α) : ℕ :=
  (owners.map fun o => (F o).countP P).sum

theorem ownedCount_eq_zero {P : α → Bool} {owners : List ι} {F : ι → List α} :
    ownedCount P owners F = 0 ↔ ∀ o ∈ owners, ∀ a ∈ F o, ¬ P a := by
  induction owners with
  | nil => simp [ownedCount]
  | cons o owners ih =>
    unfold ownedCount at *
    simp [ih, List.countP_eq_zero]

theorem ownedCount_pos {P : α → Bool} {owners : List ι} {F : ι → List α} :
    0 < ownedCount P owners F ↔ ∃ o ∈ owners, ∃ a ∈ F o, P a := by
  rw [Nat.pos_iff_ne_zero, Ne, ownedCount_eq_zero]
  push Not
  rfl

theorem ownedCount_perm (P : α → Bool) {owners owners' : List ι} (F : ι → List α)
    (h : owners.Perm owners') : ownedCount P owners F = ownedCount P owners' F :=
  (h.map fun o => (F o).countP P).sum_eq

theorem ownedCount_congr {P Q : α → Bool} {owners : List ι} {F G : ι → List α}
    (h : ∀ o ∈ owners, (F o).countP P = (G o).countP Q) :
    ownedCount P owners F = ownedCount Q owners G := by
  unfold ownedCount
  rw [List.map_congr_left h]

@[simp] theorem ownedCount_cons (P : α → Bool) (o : ι) (owners : List ι) (F : ι → List α) :
    ownedCount P (o :: owners) F = (F o).countP P + ownedCount P owners F := by
  simp [ownedCount]

section Update

variable [DecidableEq ι]

theorem ownedCount_update_of_notMem (P : α → Bool) {owners : List ι} (F : ι → List α) {o : ι}
    (l : List α) (ho : o ∉ owners) :
    ownedCount P owners (Function.update F o l) = ownedCount P owners F := by
  apply ownedCount_congr
  intro o' ho'
  rw [Function.update_of_ne]
  rintro rfl
  exact ho ho'

/-- One owner's slots are replaced. -/
theorem ownedCount_update (P : α → Bool) {owners : List ι} (F : ι → List α) {o : ι} (l : List α)
    (hn : owners.Nodup) (ho : o ∈ owners) :
    ownedCount P owners (Function.update F o l) + (F o).countP P =
      ownedCount P owners F + l.countP P := by
  induction owners with
  | nil => cases ho
  | cons a owners ih =>
    rw [List.nodup_cons] at hn
    rw [ownedCount_cons, ownedCount_cons]
    rcases List.mem_cons.mp ho with rfl | ho'
    · rw [ownedCount_update_of_notMem P F l hn.1, Function.update_self]
      omega
    · have hne : a ≠ o := by
        rintro rfl
        exact hn.1 ho'
      have hi := ih hn.2 ho'
      rw [Function.update_of_ne hne]
      omega

end Update

/-! A table whose entries may be free. -/

theorem filterMap_set_some {tab : List (Option ι)} {i : ℕ} (o : ι) (hi : tab[i]? = some none) :
    ((tab.set i (some o)).filterMap id).Perm (o :: tab.filterMap id) := by
  induction tab generalizing i with
  | nil => cases hi
  | cons a tab ih =>
    cases i with
    | zero =>
      cases hi
      simp
    | succ i =>
      have hp := ih (i := i) (by simpa using hi)
      cases a with
      | none => simpa using hp
      | some b => simpa using (hp.cons b).trans (List.Perm.swap o b _)

theorem filterMap_set_none {tab : List (Option ι)} {i : ℕ} {o : ι} (hi : tab[i]? = some (some o)) :
    (o :: (tab.set i none).filterMap id).Perm (tab.filterMap id) := by
  induction tab generalizing i with
  | nil => cases hi
  | cons a tab ih =>
    cases i with
    | zero =>
      cases hi
      simp
    | succ i =>
      have hp := ih (i := i) (by simpa using hi)
      cases a with
      | none => simpa using hp
      | some b => simpa using (List.Perm.swap b o _).trans (hp.cons b)

end SysX
