import Mathlib.Data.List.Induction
import Mathlib.Data.List.Nodup
import Mathlib.Tactic.Common

/-! Trees that are given by the paths of their items, where each parent stands before its children. -/
namespace SysX

/-- The item at index 0 is the root, and the parent of each other item stands before it. -/
structure Rooted {α : Type} (paths : List (List α)) : Prop where
  root : paths[0]? = some []
  nodup : paths.Nodup
  parent : ∀ i p, 0 < i → paths[i]? = some p → ∃ j q x, j < i ∧ paths[j]? = some q ∧ p = q ++ [x]

/-- The child of an item that has a name. -/
def childOf {α : Type} [DecidableEq α] (paths : List (List α)) (j : ℕ) (x : α) : Option ℕ :=
  paths[j]?.bind fun q => paths.idxOf? (q ++ [x])

namespace Rooted

variable {α : Type} {paths more : List (List α)} {p q r : List α} {i j : ℕ}

theorem unique (h : Rooted paths) (hi : paths[i]? = some p) (hj : paths[j]? = some p) : i = j := by
  obtain ⟨hi', hpi⟩ := List.getElem?_eq_some_iff.mp hi
  obtain ⟨hj', hpj⟩ := List.getElem?_eq_some_iff.mp hj
  exact (h.nodup.getElem_inj_iff).mp (hpi.trans hpj.symm)

theorem ne_nil (h : Rooted paths) (hi : paths[i]? = some p) (h0 : 0 < i) : p ≠ [] := by
  rintro rfl
  have := h.unique hi h.root
  omega

/-- The parent of an item is the item that has the rest of its path. -/
theorem parent_lt (h : Rooted paths) {x : α} (hi : paths[i]? = some (q ++ [x]))
    (hj : paths[j]? = some q) : j < i := by
  have h0 : 0 < i := by
    refine Nat.pos_of_ne_zero ?_
    rintro rfl
    rw [h.root] at hi
    simp at hi
  obtain ⟨k, q', y, hlt, hk, heq⟩ := h.parent i _ h0 hi
  obtain ⟨rfl, -⟩ := List.append_inj' heq rfl
  rwa [h.unique hj hk]

/-- With an item, all items on the way to it are in the tree. -/
theorem mem_of_append (h : Rooted paths) (hmem : p ++ r ∈ paths) : p ∈ paths := by
  induction r using List.reverseRecOn with
  | nil => simpa using hmem
  | append_singleton r x ih =>
    obtain ⟨i, hi⟩ := List.mem_iff_getElem?.mp hmem
    have h0 : 0 < i := by
      refine Nat.pos_of_ne_zero ?_
      rintro rfl
      rw [h.root] at hi
      simp at hi
    obtain ⟨j, q, y, -, hj, heq⟩ := h.parent i _ h0 hi
    rw [← List.append_assoc] at heq
    obtain ⟨rfl, -⟩ := List.append_inj' heq rfl
    exact ih (List.mem_of_getElem? hj)

theorem of_append (h : Rooted (paths ++ more)) (hne : paths ≠ []) : Rooted paths := by
  have hget : ∀ (i : ℕ) p, paths[i]? = some p → (paths ++ more)[i]? = some p := by
    intro i p hi
    obtain ⟨hlt, -⟩ := List.getElem?_eq_some_iff.mp hi
    rwa [List.getElem?_append_left hlt]
  have hpos : 0 < paths.length := List.length_pos_iff.mpr hne
  refine ⟨?_, h.nodup.of_append_left, fun i p h0 hi => ?_⟩
  · have hroot := h.root
    rwa [List.getElem?_append_left hpos] at hroot
  · obtain ⟨hlt, -⟩ := List.getElem?_eq_some_iff.mp hi
    obtain ⟨j, q, x, hj, hq, rfl⟩ := h.parent i p h0 (hget i p hi)
    rw [List.getElem?_append_left (Nat.lt_trans hj hlt)] at hq
    exact ⟨j, q, x, hj, hq, rfl⟩

theorem childOf_eq_some [DecidableEq α] (h : Rooted paths) {x : α} (hj : paths[j]? = some q) :
    childOf paths j x = some i ↔ paths[i]? = some (q ++ [x]) := by
  unfold childOf
  rw [hj, Option.bind_some, List.idxOf?_eq_some_iff]
  constructor
  · rintro ⟨hlt, heq, -⟩
    rw [List.getElem?_eq_getElem hlt, heq]
  · intro hi
    obtain ⟨hlt, heq⟩ := List.getElem?_eq_some_iff.mp hi
    refine ⟨hlt, heq, fun k hk => ?_⟩
    intro hk'
    have := h.unique hi ((List.getElem?_eq_getElem (Nat.lt_trans hk hlt)).trans (congrArg some hk'))
    omega

/-- Going from item to item by names leads to the item that has the path. -/
theorem walk [DecidableEq α] (h : Rooted paths) (hj : paths[j]? = some q) :
    p.foldlM (childOf paths) j = some i ↔ paths[i]? = some (q ++ p) := by
  induction p generalizing j q with
  | nil =>
    rw [List.foldlM_nil, List.append_nil]
    constructor
    · rintro ⟨rfl⟩
      exact hj
    · intro hi
      exact congrArg some (h.unique hj hi)
  | cons x p ih =>
    rw [List.foldlM_cons]
    cases hx : childOf paths j x with
    | none =>
      have hno : ∀ k : ℕ, paths[k]? ≠ some (q ++ [x]) := by
        intro k hk
        rw [(h.childOf_eq_some hj).mpr hk] at hx
        cases hx
      constructor
      · rintro ⟨⟩
      · intro hi
        have hmem := h.mem_of_append (r := p) (p := q ++ [x])
          (by simpa using List.mem_of_getElem? hi)
        obtain ⟨k, hk⟩ := List.mem_iff_getElem?.mp hmem
        exact (hno k hk).elim
    | some k =>
      have hk := (h.childOf_eq_some hj).mp hx
      simpa using ih hk

end Rooted
end SysX
