import Mathlib.Data.List.Nodup
import Mathlib.Data.List.Range
import Mathlib.Tactic.Common

/-!
Ring buffers of `n` slots with a read and a write index, one slot of which is always free. The window
is the list of the slots in use, in the order in which they were filled.
-/
namespace SysX

/-- The slot after `i`. -/
def ringNext (n i : ℕ) : ℕ := (i + 1) % n

/-- How many slots lie from `rd` on before `wr`. -/
def ringCount (n rd wr : ℕ) : ℕ := (wr + n - rd) % n

def ringWindow (n rd wr : ℕ) : List ℕ := (List.range (ringCount n rd wr)).map fun k => (rd + k) % n

section

variable {n rd wr : ℕ}

theorem ringNext_lt (hn : 0 < n) (i : ℕ) : ringNext n i < n := Nat.mod_lt _ hn

theorem ringNext_eq (h : rd < n) : ringNext n rd = if rd + 1 = n then 0 else rd + 1 := by
  unfold ringNext
  split_ifs with hrd
  · rw [hrd, Nat.mod_self]
  · exact Nat.mod_eq_of_lt (by omega)

theorem ringCount_eq (hr : rd < n) (hw : wr < n) :
    ringCount n rd wr = if rd ≤ wr then wr - rd else wr + n - rd := by
  unfold ringCount
  split_ifs with h
  · rw [show wr + n - rd = wr - rd + n by omega, Nat.add_mod_right]
    exact Nat.mod_eq_of_lt (by omega)
  · exact Nat.mod_eq_of_lt (by omega)

theorem ringCount_lt (hn : 0 < n) : ringCount n rd wr < n := Nat.mod_lt _ hn

theorem ringCount_eq_zero (hr : rd < n) (hw : wr < n) : ringCount n rd wr = 0 ↔ rd = wr := by
  rw [ringCount_eq hr hw]
  split_ifs <;> omega

/-- The ring is full when the next slot to be written is the next to be read. -/
theorem ringCount_full (hr : rd < n) (hw : wr < n) :
    ringCount n rd wr = n - 1 ↔ ringNext n wr = rd := by
  rw [ringCount_eq hr hw, ringNext_eq hw]
  split_ifs <;> omega

theorem ringCount_pop (hr : rd < n) (hw : wr < n) (hne : rd ≠ wr) :
    ringCount n rd wr = ringCount n (ringNext n rd) wr + 1 := by
  rw [ringCount_eq hr hw, ringCount_eq (ringNext_lt (by omega) rd) hw, ringNext_eq hr]
  split_ifs <;> omega

theorem ringCount_push (hr : rd < n) (hw : wr < n) (hne : ringNext n wr ≠ rd) :
    ringCount n rd (ringNext n wr) = ringCount n rd wr + 1 := by
  rw [ringCount_eq hr hw, ringCount_eq hr (ringNext_lt (by omega) wr)]
  rw [ringNext_eq hw] at *
  split_ifs at * <;> omega

/-- As many steps as there are slots in use lead from `rd` to `wr`. -/
theorem ringCount_add (hr : rd < n) (hw : wr < n) : (rd + ringCount n rd wr) % n = wr := by
  rw [ringCount_eq hr hw]
  split_ifs with h
  · rw [show rd + (wr - rd) = wr by omega]
    exact Nat.mod_eq_of_lt hw
  · rw [show rd + (wr + n - rd) = wr + n by omega, Nat.add_mod_right]
    exact Nat.mod_eq_of_lt hw

@[simp] theorem length_ringWindow : (ringWindow n rd wr).length = ringCount n rd wr := by
  simp [ringWindow]

theorem lt_of_mem_ringWindow (hn : 0 < n) {i : ℕ} (hi : i ∈ ringWindow n rd wr) : i < n := by
  obtain ⟨k, -, rfl⟩ := List.mem_map.mp hi
  exact Nat.mod_lt _ hn

theorem ringWindow_self (hr : rd < n) : ringWindow n rd rd = [] := by
  rw [ringWindow, (ringCount_eq_zero hr hr).mpr rfl]
  rfl

/-- Reading takes the first slot of the window. -/
theorem ringWindow_pop (hr : rd < n) (hw : wr < n) (hne : rd ≠ wr) :
    ringWindow n rd wr = rd :: ringWindow n (ringNext n rd) wr := by
  rw [ringWindow, ringCount_pop hr hw hne, List.range_succ_eq_map, List.map_cons, List.map_map]
  congr 1
  · exact Nat.mod_eq_of_lt hr
  · apply List.map_congr_left
    intro k _
    change (rd + (k + 1)) % n = ((rd + 1) % n + k) % n
    rw [Nat.mod_add_mod]
    congr 1
    omega

/-- Writing appends the slot at the write index. -/
theorem ringWindow_push (hr : rd < n) (hw : wr < n) (hne : ringNext n wr ≠ rd) :
    ringWindow n rd (ringNext n wr) = ringWindow n rd wr ++ [wr] := by
  rw [ringWindow, ringCount_push hr hw hne, List.range_succ, List.map_append, ringWindow]
  congr 1
  rw [List.map_singleton, ringCount_add hr hw]

theorem add_mod_eq (hr : rd < n) {k : ℕ} (hk : k < n) :
    (rd + k) % n = if rd + k < n then rd + k else rd + k - n := by
  split_ifs with h
  · exact Nat.mod_eq_of_lt h
  · rw [show rd + k = rd + k - n + n by omega, Nat.add_mod_right]
    rw [Nat.mod_eq_of_lt (by omega), Nat.add_sub_cancel]

/-- Less than a whole turn apart, two slots differ. -/
theorem add_mod_inj (hr : rd < n) {j k : ℕ} (hj : j < n) (hk : k < n)
    (h : (rd + j) % n = (rd + k) % n) : j = k := by
  rw [add_mod_eq hr hj, add_mod_eq hr hk] at h
  split_ifs at h <;> omega

theorem ringWindow_nodup (hr : rd < n) : (ringWindow n rd wr).Nodup := by
  apply List.Nodup.map_on _ List.nodup_range
  intro j hj k hk h
  have hlt : ringCount n rd wr < n := ringCount_lt (by omega)
  exact add_mod_inj hr ((List.mem_range.mp hj).trans hlt) ((List.mem_range.mp hk).trans hlt) h

/-- The slot to be written is not in use. -/
theorem not_mem_ringWindow (hr : rd < n) (hw : wr < n) : wr ∉ ringWindow n rd wr := by
  intro hmem
  obtain ⟨k, hk, heq⟩ := List.mem_map.mp hmem
  have hlt : ringCount n rd wr < n := ringCount_lt (by omega)
  rw [List.mem_range] at hk
  have hsame := add_mod_inj hr (hk.trans hlt) hlt (heq.trans (ringCount_add hr hw).symm)
  omega

theorem ringWindow_eq_cons (hr : rd < n) (hw : wr < n) {i : ℕ} {l : List ℕ}
    (h : ringWindow n rd wr = i :: l) : i = rd ∧ rd ≠ wr ∧ ringWindow n (ringNext n rd) wr = l := by
  have hne : rd ≠ wr := by
    rintro rfl
    rw [ringWindow_self hr] at h
    cases h
  rw [ringWindow_pop hr hw hne] at h
  cases h
  exact ⟨rfl, hne, rfl⟩

/-- A slot of the window splits it into two windows. -/
theorem ringWindow_split (hr : rd < n) (hw : wr < n) {pre post : List ℕ} {i : ℕ}
    (h : ringWindow n rd wr = pre ++ i :: post) :
    ringWindow n rd i = pre ∧ ringWindow n (ringNext n i) wr = post := by
  induction pre generalizing rd with
  | nil =>
    obtain ⟨rfl, -, hpost⟩ := ringWindow_eq_cons hr hw h
    exact ⟨ringWindow_self hr, hpost⟩
  | cons j pre ih =>
    have hnodup : (ringWindow n rd wr).Nodup := ringWindow_nodup hr
    have hmem : i ∈ ringWindow n rd wr := by
      rw [h]
      simp
    have hlt : i < n := lt_of_mem_ringWindow (by omega) hmem
    rw [h] at hnodup
    obtain ⟨rfl, -, htail⟩ := ringWindow_eq_cons hr hw h
    obtain ⟨hpre, hpost⟩ := ih (ringNext_lt (by omega) j) htail
    have hne : j ≠ i := by
      rintro rfl
      simp at hnodup
    exact ⟨by rw [ringWindow_pop hr hlt hne, hpre], hpost⟩

end
end SysX
