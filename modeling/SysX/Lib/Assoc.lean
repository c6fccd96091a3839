import Mathlib.Data.List.Find
import Mathlib.Data.List.Induction
import Mathlib.Tactic.Common

/-! Lists of records with keys, where a record takes the place of the first one with its key or the end. -/
namespace SysX.Assoc

variable {ε κ : Type} [DecidableEq κ] {key : ε → κ} {e : ε} {l : List ε} {k : κ}

/-- Put `e` in the place of the first record with its key, or behind all records. -/
def put (key : ε → κ) (e : ε) : List ε → List ε
  | [] => [e]
  | x :: l => if key x = key e then e :: l else x :: put key e l

theorem findIdx_congr {p q : ε → Bool} (h : ∀ x ∈ l, p x = q x) : l.findIdx? p = l.findIdx? q := by
  induction l with
  | nil => rfl
  | cons x l ih =>
    rw [List.findIdx?_cons, List.findIdx?_cons, h x List.mem_cons_self, ih fun y hy => h y (List.mem_cons_of_mem x hy)]

theorem put_of_findIdx_some {i : ℕ} (h : l.findIdx? (fun x => key x = key e) = some i) : put key e l = l.set i e := by
  induction l generalizing i with
  | nil => simp at h
  | cons x l ih =>
    rw [List.findIdx?_cons] at h
    by_cases hx : key x = key e
    · obtain rfl : 0 = i := by simpa [hx] using h
      simp [put, hx]
    · simp only [hx, decide_false, Bool.false_eq_true, if_false, Option.map_eq_some_iff] at h
      obtain ⟨j, hj, rfl⟩ := h
      simp [put, hx, ih hj]

theorem put_of_findIdx_none (h : l.findIdx? (fun x => key x = key e) = none) : put key e l = l ++ [e] := by
  induction l with
  | nil => rfl
  | cons x l ih =>
    rw [List.findIdx?_cons] at h
    by_cases hx : key x = key e
    · simp [hx] at h
    · simp only [hx, decide_false, Bool.false_eq_true, if_false, Option.map_eq_none_iff] at h
      simp [put, hx, ih h]

/-- What is found under a key is the last record put there. -/
theorem find_put : (put key e l).find? (fun x => key x = k) = if key e = k then some e else l.find? fun x => key x = k := by
  induction l with
  | nil => by_cases h : key e = k <;> simp [put, h]
  | cons x l ih =>
    by_cases hx : key x = key e
    · by_cases h : key e = k
      · simp [put, hx, h]
      · simp [put, hx, h]
    · by_cases hk : key x = k
      · have hne : key e ≠ k := fun h => hx (hk.trans h.symm)
        rw [put, if_neg hx, List.find?_cons_of_pos (by simpa using hk), if_neg hne,
          List.find?_cons_of_pos (by simpa using hk)]
      · simp [put, hx, hk, ih]

theorem mem_keys_put : k ∈ (put key e l).map key ↔ k = key e ∨ k ∈ l.map key := by
  induction l with
  | nil => simp [put]
  | cons x l ih =>
    rw [put]
    split_ifs with hx
    · simp [hx]
    · rw [List.map_cons, List.mem_cons, ih, List.map_cons, List.mem_cons]
      exact or_left_comm

theorem nodup_keys_put (h : (l.map key).Nodup) : ((put key e l).map key).Nodup := by
  induction l with
  | nil => simp [put]
  | cons x l ih =>
    rw [List.map_cons, List.nodup_cons] at h
    rw [put]
    split_ifs with hx
    · rw [List.map_cons, ← hx, List.nodup_cons]
      exact h
    · rw [List.map_cons, List.nodup_cons]
      refine ⟨fun hm => ?_, ih h.2⟩
      exact (mem_keys_put.mp hm).elim hx h.1

/-- The records of `l` are put into an empty list one after the other. -/
def ofList (key : ε → κ) (l : List ε) : List ε := l.foldl (fun m e => put key e m) []

theorem ofList_concat : ofList key (l ++ [e]) = put key e (ofList key l) := by
  simp [ofList]

theorem find_ofList : (ofList key l).find? (fun x => key x = k) = l.reverse.find? fun x => key x = k := by
  induction l using List.reverseRecOn with
  | nil => rfl
  | append_singleton l e ih =>
    rw [ofList_concat, find_put, List.reverse_concat, ih]
    by_cases h : key e = k <;> simp [h]

theorem mem_keys_ofList : k ∈ (ofList key l).map key ↔ k ∈ l.map key := by
  induction l using List.reverseRecOn with
  | nil => rfl
  | append_singleton l e ih =>
    rw [ofList_concat, mem_keys_put, ih]
    simp [or_comm]

theorem nodup_keys_ofList : ((ofList key l).map key).Nodup := by
  induction l using List.reverseRecOn with
  | nil => exact List.nodup_nil
  | append_singleton l e ih =>
    rw [ofList_concat]
    exact nodup_keys_put ih

end SysX.Assoc
