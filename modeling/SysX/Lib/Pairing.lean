import Mathlib.Data.Set.Insert
import Mathlib.Data.List.Basic

/-!
Tables whose entries in use come in pairs, each pointing to the other by its index. While a pair is made or
taken apart, the entries in hand are set aside.
-/
namespace SysX

variable {α : Type*}

/-- The entries `i` and `j` are in use and point to each other. -/
structure Mates (live : α → Prop) (points : α → ℕ → Prop) (l : List α) (i j : ℕ) : Prop where
  left : ∃ a, l[i]? = some a ∧ live a ∧ points a j
  right : ∃ b, l[j]? = some b ∧ live b ∧ points b i

/-- The entries in use outside `E` are paired among themselves. -/
def PairedBut (live : α → Prop) (points : α → ℕ → Prop) (E : Set ℕ) (l : List α) : Prop :=
  ∀ i a, l[i]? = some a → live a → i ∉ E → ∃ j ∉ E, Mates live points l i j

variable {live : α → Prop} {points : α → ℕ → Prop} {l l' : List α} {E : Set ℕ} {g : α → α} {a b : α} {i j : ℕ}

theorem Mates.symm (h : Mates live points l i j) : Mates live points l j i := ⟨h.right, h.left⟩

theorem Mates.congr (h : Mates live points l i j) (hi : l'[i]? = l[i]?) (hj : l'[j]? = l[j]?) :
    Mates live points l' i j := by
  constructor
  · rw [hi]
    exact h.left
  · rw [hj]
    exact h.right

/-- An entry points to one mate only. -/
theorem Mates.unique (hfun : ∀ a i j, points a i → points a j → i = j) {k : ℕ} (h : Mates live points l i j)
    (h' : Mates live points l i k) : j = k := by
  obtain ⟨a, ha, -, hj⟩ := h.left
  obtain ⟨b, hb, -, hk⟩ := h'.left
  cases ha.symm.trans hb
  exact hfun a j k hj hk

namespace PairedBut

theorem nil : PairedBut live points E ([] : List α) := by
  intro i a ha
  simp at ha

/-- The entries outside `E` decide. -/
theorem congr (h : PairedBut live points E l) (hl : ∀ i ∉ E, l'[i]? = l[i]?) : PairedBut live points E l' := by
  intro i a ha hlive hi
  rw [hl i hi] at ha
  obtain ⟨j, hj, hm⟩ := h i a ha hlive hi
  exact ⟨j, hj, hm.congr (hl i hi) (hl j hj)⟩

/-- An entry that is not in use is no mate, and may be set aside. -/
theorem aside (h : PairedBut live points E l) (ha : l[i]? = some a) (hdead : ¬ live a) :
    PairedBut live points (insert i E) l := by
  intro k b hb hlive hk
  rw [Set.mem_insert_iff, not_or] at hk
  obtain ⟨j, hj, hm⟩ := h k b hb hlive hk.2
  refine ⟨j, ?_, hm⟩
  rw [Set.mem_insert_iff, not_or]
  refine ⟨?_, hj⟩
  rintro rfl
  obtain ⟨c, hc, hlive', -⟩ := hm.right
  cases ha.symm.trans hc
  exact hdead hlive'

/-- An entry that is taken out of use need no longer be set aside. -/
theorem drop (h : PairedBut live points (insert i E) l) (hdead : ∀ a, l[i]? = some a → ¬ live a) :
    PairedBut live points E l := by
  intro k b hb hlive hk
  have hki : k ≠ i := by
    rintro rfl
    exact hdead b hb hlive
  obtain ⟨j, hj, hm⟩ := h k b hb hlive (by simp [hki, hk])
  rw [Set.mem_insert_iff, not_or] at hj
  exact ⟨j, hj.2, hm⟩

/-- An entry set aside may be written. -/
theorem modify (h : PairedBut live points E l) (hi : i ∈ E) (g : α → α) :
    PairedBut live points E (l.modify i g) := by
  apply h.congr
  intro k hk
  apply List.getElem?_modify_ne
  rintro rfl
  exact hk hi

/-- A table that grows by one entry in use. -/
theorem append (h : PairedBut live points E l) {rest : List α} (hrest : ∀ b ∈ rest, ¬ live b) :
    PairedBut live points (insert l.length E) (l ++ a :: rest) := by
  intro k b hb hlive hk
  rw [Set.mem_insert_iff, not_or] at hk
  rcases Nat.lt_or_ge k l.length with hlt | hge
  · rw [List.getElem?_append_left hlt] at hb
    obtain ⟨j, hj, hm⟩ := h k b hb hlive hk.2
    obtain ⟨c, hc, -⟩ := hm.right
    have hjlt : j < l.length := (List.getElem?_eq_some_iff.mp hc).1
    refine ⟨j, ?_, hm.congr (List.getElem?_append_left hlt) (List.getElem?_append_left hjlt)⟩
    rw [Set.mem_insert_iff, not_or]
    exact ⟨hjlt.ne, hj⟩
  · rw [List.getElem?_append_right hge] at hb
    obtain ⟨n, hn⟩ : ∃ n, k - l.length = n + 1 := ⟨k - l.length - 1, by omega⟩
    rw [hn, List.getElem?_cons_succ] at hb
    exact absurd hlive (hrest b (List.mem_of_getElem? hb))

/-- Two entries set aside that point to each other are a pair. -/
theorem pair (h : PairedBut live points {i, j} l) (hm : Mates live points l i j) :
    PairedBut live points ∅ l := by
  intro k b hb hlive _
  by_cases hki : k = i
  · subst hki
    exact ⟨j, by simp, hm⟩
  by_cases hkj : k = j
  · subst hkj
    exact ⟨i, by simp, hm.symm⟩
  obtain ⟨m, -, hm'⟩ := h k b hb hlive (by simp [hki, hkj])
  exact ⟨m, by simp, hm'⟩

/-- A pair may be set aside. -/
theorem unpair (hfun : ∀ a i j, points a i → points a j → i = j) (h : PairedBut live points ∅ l)
    (hm : Mates live points l i j) : PairedBut live points {i, j} l := by
  intro k b hb hlive hk
  obtain ⟨m, -, hm'⟩ := h k b hb hlive (by simp)
  refine ⟨m, ?_, hm'⟩
  simp only [Set.mem_insert_iff, Set.mem_singleton_iff, not_or] at hk ⊢
  constructor
  · rintro rfl
    exact hk.2 (hm'.symm.unique hfun hm)
  · rintro rfl
    exact hk.1 (hm'.symm.unique hfun hm.symm)

end PairedBut

end SysX
