import Mathlib.Data.UInt
import Mathlib.Tactic.Common

/-! Terminated strings in a store, texts in fields, and the components of a path. -/
namespace SysX

section Strings

variable {α : Type} [Zero α] {r r' : ℕ → α} {k n : ℕ} {str : List α}

/-- The string that starts at `k`, where its terminator is within `n` cells. -/
def cstring [DecidableEq α] (r : ℕ → α) : (n k : ℕ) → Option (List α)
  | 0, _ => none
  | n + 1, k => if r k = 0 then some [] else (cstring r n (k + 1)).map (r k :: ·)

/-- The store holds `str` and its terminator from `k` on. -/
def Spells (r : ℕ → α) : (k : ℕ) → (str : List α) → Prop
  | k, [] => r k = 0
  | k, c :: str => r k = c ∧ c ≠ 0 ∧ Spells r (k + 1) str

instance Spells.decidable [DecidableEq α] (r : ℕ → α) :
    (k : ℕ) → (str : List α) → Decidable (Spells r k str)
  | k, [] => inferInstanceAs (Decidable (r k = 0))
  | k, c :: str =>
    have := Spells.decidable r (k + 1) str
    inferInstanceAs (Decidable (r k = c ∧ c ≠ 0 ∧ Spells r (k + 1) str))

theorem Spells.cstring [DecidableEq α] (h : Spells r k str) (hn : str.length < n) : cstring r n k = some str := by
  induction str generalizing k n with
  | nil =>
    obtain ⟨n, rfl⟩ := Nat.exists_eq_add_of_lt hn
    simp only [List.length_nil, Nat.zero_add, SysX.cstring]
    exact if_pos h
  | cons c str ih =>
    obtain ⟨hc, h0, hrest⟩ := h
    cases n with
    | zero => cases hn
    | succ n =>
      simp only [SysX.cstring, hc, h0, if_false]
      rw [ih hrest (Nat.lt_of_succ_lt_succ hn)]
      rfl

theorem Spells.congr (h : Spells r k str) (hr : ∀ i, k ≤ i → i ≤ k + str.length → r' i = r i) :
    Spells r' k str := by
  induction str generalizing k with
  | nil => exact (hr k (Nat.le_refl k) (Nat.le_refl k)).trans h
  | cons c str ih =>
    obtain ⟨hc, h0, hrest⟩ := h
    refine ⟨(hr k (Nat.le_refl k) (Nat.le_add_right _ _)).trans hc, h0, ih hrest fun i hi hle => ?_⟩
    apply hr i (by omega)
    rw [List.length_cons]
    omega

theorem Spells.get (h : Spells r k str) {i : ℕ} (hi : i ≤ str.length) : r (k + i) = str.getD i 0 := by
  induction str generalizing k i with
  | nil =>
    obtain rfl := Nat.le_zero.mp hi
    exact h
  | cons c str ih =>
    obtain ⟨hc, -, hrest⟩ := h
    cases i with
    | zero => exact hc
    | succ i =>
      have := ih hrest (Nat.le_of_succ_le_succ hi)
      rwa [Nat.add_right_comm, Nat.add_assoc] at this

theorem Spells.of_cells (hzero : 0 ∉ str) (h : ∀ i < str.length, r (k + i) = str.getD i 0)
    (hend : r (k + str.length) = 0) : Spells r k str := by
  induction str generalizing k with
  | nil => exact hend
  | cons c str ih =>
    refine ⟨h 0 (Nat.succ_pos _), fun hc => hzero (hc ▸ List.mem_cons_self), ?_⟩
    apply ih (fun hmem => hzero (List.mem_cons_of_mem _ hmem))
    · intro i hi
      rw [Nat.add_assoc, Nat.add_comm 1]
      exact h (i + 1) (Nat.succ_lt_succ hi)
    · rw [Nat.add_assoc, Nat.add_comm 1]
      exact hend

theorem Spells.drop {tail : List α} (h : Spells r k (str ++ tail)) : Spells r (k + str.length) tail := by
  induction str generalizing k with
  | nil => exact h
  | cons c str ih =>
    obtain ⟨-, -, hrest⟩ := h
    rw [List.length_cons, Nat.add_comm str.length, ← Nat.add_assoc]
    exact ih hrest

theorem Spells.head (h : Spells r k str) : r k = str.headD 0 := by
  cases str with
  | nil => exact h
  | cons c str => exact h.1

end Strings

section Fields

variable {α : Type} [Zero α] [DecidableEq α] {r : ℕ → α} {k w : ℕ} {str tail : List α}

/-- The text of a field of `w` cells, which is terminated only where it is shorter. -/
def fieldText (r : ℕ → α) : (w k : ℕ) → List α
  | 0, _ => []
  | w + 1, k => if r k = 0 then [] else r k :: fieldText r w (k + 1)

theorem length_fieldText_le : (fieldText r w k).length ≤ w := by
  induction w generalizing k with
  | zero => exact Nat.le_refl 0
  | succ w ih =>
    rw [fieldText]
    split_ifs
    · exact Nat.zero_le _
    · rw [List.length_cons]
      exact Nat.succ_le_succ ih

/-- A string that starts with a field goes on behind it where the field is full. -/
theorem spells_fieldText_append (h : Spells r (k + (fieldText r w k).length) tail) :
    Spells r k (fieldText r w k ++ tail) := by
  induction w generalizing k with
  | zero => exact h
  | succ w ih =>
    rw [fieldText] at h ⊢
    split_ifs at h ⊢ with hzero
    · exact h
    · rw [List.length_cons, Nat.add_comm _ 1, ← Nat.add_assoc] at h
      exact ⟨rfl, hzero, ih h⟩

theorem spells_fieldText (h : (fieldText r w k).length < w) : Spells r k (fieldText r w k) := by
  induction w generalizing k with
  | zero => cases h
  | succ w ih =>
    rw [fieldText] at h ⊢
    split_ifs at h ⊢ with hzero
    · exact hzero
    · exact ⟨rfl, hzero, ih (Nat.lt_of_succ_lt_succ h)⟩

theorem Spells.fieldText (h : Spells r k str) :
    ∃ tail, str = SysX.fieldText r w k ++ tail ∧ Spells r (k + (SysX.fieldText r w k).length) tail ∧
      ((SysX.fieldText r w k).length < w → tail = []) := by
  induction w generalizing k str with
  | zero => exact ⟨str, rfl, h, fun hlt => nomatch hlt⟩
  | succ w ih =>
    cases str with
    | nil =>
      have hempty : SysX.fieldText r (w + 1) k = [] := if_pos h
      rw [hempty]
      exact ⟨[], rfl, h, fun _ => rfl⟩
    | cons c str =>
      obtain ⟨rfl, hne, hrest⟩ := h
      obtain ⟨tail, rfl, hbehind, hfull⟩ := ih hrest
      have hcons : SysX.fieldText r (w + 1) k = r k :: SysX.fieldText r w (k + 1) := if_neg hne
      rw [hcons]
      refine ⟨tail, rfl, ?_, fun hlt => hfull (Nat.lt_of_succ_lt_succ hlt)⟩
      rw [List.length_cons, Nat.add_comm (List.length _), ← Nat.add_assoc]
      exact hbehind

theorem fieldText_eq_replicate {c : α} (hc : c ≠ 0) (h : ∀ i < w, r (k + i) = c) : fieldText r w k = List.replicate w c := by
  induction w generalizing k with
  | zero => rfl
  | succ w ih =>
    have hfirst : r k = c := h 0 (Nat.succ_pos w)
    rw [fieldText, hfirst, if_neg hc, List.replicate_succ]
    congr 1
    apply ih
    intro i hi
    rw [Nat.add_assoc, Nat.add_comm 1]
    exact h (i + 1) (Nat.succ_lt_succ hi)

/-- The field holds `str`, filled up with zeros. -/
def FieldHolds (r : ℕ → α) (k w : ℕ) (str : List α) : Prop :=
  str.length ≤ w ∧ 0 ∉ str ∧ ∀ i < w, r (k + i) = str.getD i 0

theorem FieldHolds.text (h : FieldHolds r k w str) : SysX.fieldText r w k = str := by
  obtain ⟨hlen, hzero, hcells⟩ := h
  induction w generalizing k str with
  | zero => exact (List.length_eq_zero_iff.mp (Nat.le_zero.mp hlen)).symm
  | succ w ih =>
    have hfirst := hcells 0 (Nat.succ_pos w)
    rw [Nat.add_zero] at hfirst
    rw [SysX.fieldText]
    cases str with
    | nil => exact if_pos hfirst
    | cons c str =>
      have hc : r k = c := hfirst
      have hne : c ≠ 0 := by
        rintro rfl
        exact hzero List.mem_cons_self
      rw [if_neg (hc ▸ hne), hc]
      congr 1
      apply ih (Nat.le_of_succ_le_succ hlen) (fun h => hzero (List.mem_cons_of_mem _ h))
      intro i hi
      rw [Nat.add_assoc, Nat.add_comm 1]
      exact hcells (i + 1) (Nat.succ_lt_succ hi)

end Fields

section Paths

variable {α : Type} [DecidableEq α] {sep : α} {c p : List α}

/-- The nonempty pieces between separators. -/
def components (sep : α) (p : List α) : List (List α) := (p.splitOn sep).filter (· ≠ [])

@[simp] theorem components_nil : components sep ([] : List α) = [] := rfl

/-- The first piece of a path that has a separator. -/
theorem components_append_cons (hc : sep ∉ c) (p : List α) :
    components sep (c ++ sep :: p) = if c = [] then components sep p else c :: components sep p := by
  rw [components, List.splitOn_append_cons_self_of_not_mem hc, List.filter_cons]
  by_cases h : c = []
  · simp [h, components]
  · simp [h, components]

theorem components_of_not_mem (hc : sep ∉ c) : components sep c = if c = [] then [] else [c] := by
  rw [components, List.splitOn_eq_singleton hc]
  by_cases h : c = []
  · simp [h]
  · simp [h]

theorem notMem_of_mem_components (hc : c ∈ components sep p) : sep ∉ c := by
  induction hn : p.length using Nat.strongRecOn generalizing p with
  | ind n ih =>
    by_cases hp : sep ∈ p
    · obtain ⟨first, rest, rfl, hfirst⟩ := List.eq_append_cons_of_mem hp
      have hshorter : rest.length < n := by
        rw [← hn, List.length_append, List.length_cons]
        omega
      rw [components_append_cons hfirst] at hc
      split_ifs at hc
      · exact ih _ hshorter hc rfl
      · rcases List.mem_cons.mp hc with rfl | hrest
        · exact hfirst
        · exact ih _ hshorter hrest rfl
    · rw [components_of_not_mem hp] at hc
      split_ifs at hc
      · cases hc
      · rwa [List.mem_singleton.mp hc]

/-- A path that is put together from its components, with or without a separator at the end. -/
theorem components_intercalate {cs : List (List α)} (h : ∀ c ∈ cs, c ≠ [] ∧ sep ∉ c) (last : Bool) :
    components sep (List.intercalate [sep] cs ++ if last then [sep] else []) = cs := by
  induction cs with
  | nil =>
    cases last with
    | false => rfl
    | true => simpa using @components_append_cons α _ sep [] (by simp) []
  | cons c cs ih =>
    obtain ⟨hne, hsep⟩ := h c (by simp)
    have ih := ih fun d hd => h d (by simp [hd])
    cases cs with
    | nil =>
      cases last with
      | false => simp [components_of_not_mem hsep, hne]
      | true => simpa [hne] using components_append_cons hsep []
    | cons d cs =>
      rw [List.intercalate_cons_cons, List.append_assoc, List.append_assoc, List.singleton_append,
        components_append_cons hsep, if_neg hne, ih]

end Paths
end SysX
