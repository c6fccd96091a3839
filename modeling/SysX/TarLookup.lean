import SysX.TarTree
import Mathlib.Data.List.Range

/-! The lookups in an archive whose items come after their parents: no child is missed by a search that starts
behind the node itself. -/
namespace SysX

variable {s : TarFs} {ptr : ℕ → ℕ} {i j : ℕ} {name : Str}

/-- The node that an item of the hierarchy is below. -/
def tarParent (s : TarFs) (i : ℕ) : Option ℕ := s.hierarchy[i]?.bind (·.parent)

/-- The children of the node `j`, in the order of the archive. -/
def tarChildren (s : TarFs) (ptr : ℕ → ℕ) (j : ℕ) : List ℕ :=
  (List.range s.nodeCount).filter fun i => tarParent s i = some (ptr j)

/-- The items of an archive with the nodes `ptr`, where each but the first is below an earlier one. -/
structure TarOrdered (s : TarFs) (ptr : ℕ → ℕ) : Prop where
  pos : 0 < s.nodeCount
  root : tarParent s 0 = none
  node : ∀ i < s.nodeCount, s.hierarchy[i]?.bind (·.node) = some (ptr i)
  inode : ∀ i < s.nodeCount, (s.nodes (ptr i)).inode = i
  parent : ∀ i < s.nodeCount, 0 < i → ∃ j < i, tarParent s i = some (ptr j)

namespace TarOrdered

theorem distinct (h : TarOrdered s ptr) (hi : i < s.nodeCount) (hj : j < s.nodeCount) (heq : ptr i = ptr j) :
    i = j := by
  rw [← h.inode i hi, heq, h.inode j hj]

/-- A child comes after its parent. -/
theorem lt_of_parent (h : TarOrdered s ptr) (hi : i < s.nodeCount) (hj : j < s.nodeCount)
    (hp : tarParent s i = some (ptr j)) : j < i := by
  rcases Nat.eq_zero_or_pos i with rfl | hpos
  · rw [h.root] at hp
    cases hp
  · obtain ⟨k, hk, hp'⟩ := h.parent i hi hpos
    have heq := h.distinct (hk.trans hi) hj (Option.some.inj (hp'.symm.trans hp))
    exact heq ▸ hk

/-- The search for children may start behind the node. -/
theorem children_eq (h : TarOrdered s ptr) (hj : j < s.nodeCount) :
    tarChildren s ptr j =
      (List.range' (j + 1) (s.nodeCount - (j + 1))).filter fun i => tarParent s i = some (ptr j) := by
  have hsplit : List.range s.nodeCount =
      List.range' 0 (j + 1) ++ List.range' (j + 1) (s.nodeCount - (j + 1)) := by
    have happ : List.range' 0 (j + 1) ++ List.range' (0 + (j + 1)) (s.nodeCount - (j + 1)) =
        List.range' 0 (j + 1 + (s.nodeCount - (j + 1))) := List.range'_append_1
    rw [Nat.zero_add, Nat.add_sub_of_le hj] at happ
    rw [List.range_eq_range', happ]
  have hnone : (List.range' 0 (j + 1)).filter (fun i => tarParent s i = some (ptr j)) = [] := by
    apply List.filter_eq_nil_iff.mpr
    intro i hi
    rw [List.mem_range'_1] at hi
    simp only [decide_eq_true_eq]
    intro hp
    have := h.lt_of_parent (by omega) hj hp
    omega
  rw [tarChildren, hsplit, List.filter_append, hnone, List.nil_append]

/-- Every node but the root leads to the root. -/
theorem rooted (h : TarOrdered s ptr) (hi : i < s.nodeCount) :
    Relation.ReflTransGen (fun i j => tarParent s i = some (ptr j)) i 0 := by
  induction i using Nat.strongRecOn with
  | ind i ih =>
    rcases Nat.eq_zero_or_pos i with rfl | hpos
    · exact .refl
    · obtain ⟨j, hj, hp⟩ := h.parent i hi hpos
      exact .head hp (ih j hj (hj.trans hi))

theorem item (h : TarOrdered s ptr) (hi : i < s.nodeCount) :
    ∃ item, s.hierarchy[i]? = some item ∧ item.node = some (ptr i) ∧ item.parent = tarParent s i := by
  obtain ⟨item, hitem, hnode⟩ := Option.bind_eq_some_iff.mp (h.node i hi)
  refine ⟨item, hitem, hnode, ?_⟩
  rw [tarParent, hitem]
  rfl

/-- The loop of `tar_vfs_readdir` finds the children in their order. -/
theorem entryAt (h : TarOrdered s ptr) {n seen idx : ℕ} (hn : i + n ≤ s.nodeCount) (hseen : seen ≤ idx) :
    tarEntryAt s (ptr j) idx n i seen =
      some (((List.range' i n).filter fun i => tarParent s i = some (ptr j))[idx - seen]?.map fun i =>
        ((s.nodes (ptr i)).name, i)) := by
  induction n generalizing i seen with
  | zero => simp [tarEntryAt]
  | succ n ih =>
    obtain ⟨item, hitem, hnode, hparent⟩ := h.item (i := i) (by omega)
    rw [List.range'_succ]
    simp only [tarEntryAt, hitem, Option.bind_eq_bind, Option.bind_some, hparent]
    by_cases hp : tarParent s i = some (ptr j)
    · rw [if_pos hp, List.filter_cons_of_pos (by simpa using hp)]
      split_ifs with hidx
      · rw [hnode, ← hidx, Nat.sub_self]
        simp [h.inode i (by omega)]
      · rw [ih (by omega) (by omega), show idx - seen = idx - (seen + 1) + 1 by omega, List.getElem?_cons_succ]
    · rw [if_neg hp, List.filter_cons_of_neg (by simpa using hp)]
      exact ih (by omega) hseen

/-- The loop of `tar_vfs_finddir` finds the first child with the name. -/
theorem find (h : TarOrdered s ptr) {n : ℕ} (hn : i + n ≤ s.nodeCount) :
    tarFind s (ptr j) name n i =
      some ((((List.range' i n).filter fun i => tarParent s i = some (ptr j)).find? fun i =>
        (s.nodes (ptr i)).name = name).map ptr) := by
  induction n generalizing i with
  | zero => simp [tarFind]
  | succ n ih =>
    obtain ⟨item, hitem, hnode, hparent⟩ := h.item (i := i) (by omega)
    rw [List.range'_succ]
    simp only [tarFind, hitem, Option.bind_eq_bind, Option.bind_some, hparent]
    by_cases hp : tarParent s i = some (ptr j)
    · rw [if_pos hp, List.filter_cons_of_pos (by simpa using hp), hnode, Option.bind_some]
      split_ifs with hname
      · rw [List.find?_cons_of_pos (by simpa using hname), Option.map_some]
      · rw [List.find?_cons_of_neg (by simpa using hname)]
        exact ih (by omega)
    · rw [if_neg hp, List.filter_cons_of_neg (by simpa using hp)]
      exact ih (by omega)

/-- The search in a directory starts behind its item. -/
theorem first (h : TarOrdered s ptr) (hcount : s.nodeCount < 4294967296) (hj : j < s.nodeCount) :
    w32 ((s.nodes (ptr j)).inode + 1) = j + 1 := by
  rw [h.inode j hj]
  exact w32_of_lt (by omega)

theorem readdir (h : TarOrdered s ptr) (hcount : s.nodeCount < 4294967296) (hj : j < s.nodeCount) (idx : ℕ) :
    tarVfsReaddir (ptr j) idx s =
      some ((tarChildren s ptr j)[idx]?.map fun i => ((s.nodes (ptr i)).name, i), s) := by
  rw [tarVfsReaddir, Comp.readOr_apply]
  simp only [h.first hcount hj]
  rw [h.entryAt (by omega) (Nat.zero_le _), h.children_eq hj]
  rfl

theorem finddir (h : TarOrdered s ptr) (hcount : s.nodeCount < 4294967296) (hj : j < s.nodeCount) (name : Str) :
    tarVfsFinddir (ptr j) name s =
      some (((tarChildren s ptr j).find? fun i => (s.nodes (ptr i)).name = name).map ptr, s) := by
  rw [tarVfsFinddir, Comp.readOr_apply]
  simp only [h.first hcount hj]
  rw [h.find (by omega), h.children_eq hj]
  rfl

end TarOrdered

end SysX
