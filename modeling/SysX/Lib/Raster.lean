import Mathlib.Data.List.Basic
import Mathlib.Tactic.Common

/-! Runs of cells on a grid, from left to right and then from line to line, and writes to the places of a list. -/
namespace SysX

section Writes

variable {μ κ γ : Type*} {put : μ → κ → μ} {l : List κ}

/-- A reading that no write of the list changes. -/
theorem foldl_unseen (get : μ → γ) (h : ∀ p ∈ l, ∀ m, get (put m p) = get m) (m : μ) :
    get (l.foldl put m) = get m := by
  induction l generalizing m with
  | nil => rfl
  | cons p l ih =>
    rw [List.foldl_cons, ih (fun q hq => h q (List.mem_cons_of_mem _ hq)), h p List.mem_cons_self]

/-- What is written at a place of the list is read there in the end, since the writes after it are apart from it. -/
theorem foldl_seen (get : μ → κ → γ) {Apart : κ → κ → Prop} {v : γ} (hit : ∀ m p, get (put m p) p = v)
    (miss : ∀ m p q, Apart p q → get (put m q) p = get m p) (hl : l.Pairwise Apart) {p : κ} (hp : p ∈ l)
    (m : μ) : get (l.foldl put m) p = v := by
  induction l generalizing m with
  | nil => cases hp
  | cons q l ih =>
    obtain ⟨hq, hrest⟩ := List.pairwise_cons.mp hl
    rcases List.mem_cons.mp hp with rfl | hp
    · rw [List.foldl_cons, foldl_unseen (fun m => get m p) (fun q' hq' m => miss m p q' (hq q' hq'))]
      exact hit m p
    · exact ih hrest hp _

end Writes

/-- The cells of a run of `n` from `(x, y)` on, where a line has `width` cells. -/
def runCells (width : ℕ) : (n x y : ℕ) → List (ℕ × ℕ)
  | 0, _, _ => []
  | n + 1, x, y =>
    (x, y) :: if x + 1 = width then runCells width n 0 (y + 1) else runCells width n (x + 1) y

/-- The number of a cell in the order of runs. -/
def cellIndex (width : ℕ) (p : ℕ × ℕ) : ℕ := p.2 * width + p.1

/-- Where a cell lies in a buffer with lines of `pitch` bytes and cells of `bytes` bytes. -/
def cellOffset (pitch bytes : ℕ) (p : ℕ × ℕ) : ℕ := p.2 * pitch + p.1 * bytes

variable {width pitch bytes n x y : ℕ} {p q : ℕ × ℕ}

theorem cellIndex_line (h : x + 1 = width) : cellIndex width (0, y + 1) = cellIndex width (x, y) + 1 := by
  simp only [cellIndex, Nat.succ_mul]
  omega

theorem cellIndex_next : cellIndex width (x + 1, y) = cellIndex width (x, y) + 1 := rfl

theorem cellIndex_inj (hp : p.1 < width) (hq : q.1 < width) (h : cellIndex width p = cellIndex width q) :
    p = q := by
  have hcolumn : p.1 = q.1 := by
    have hmod := congrArg (· % width) h
    simp only [cellIndex, Nat.mul_add_mod_self_right] at hmod
    rwa [Nat.mod_eq_of_lt hp, Nat.mod_eq_of_lt hq] at hmod
  have hline : p.2 * width = q.2 * width := by
    simp only [cellIndex, hcolumn] at h
    omega
  exact Prod.ext hcolumn (Nat.mul_right_cancel (by omega) hline)

theorem of_mem_runCells (hx : x < width) (hp : p ∈ runCells width n x y) :
    p.1 < width ∧ cellIndex width (x, y) ≤ cellIndex width p ∧
      cellIndex width p < cellIndex width (x, y) + n := by
  induction n generalizing x y with
  | zero => cases hp
  | succ n ih =>
    rcases List.mem_cons.mp hp with rfl | hp
    · exact ⟨hx, Nat.le_refl _, Nat.lt_add_of_pos_right (Nat.succ_pos n)⟩
    · split_ifs at hp with hline
      · obtain ⟨hwidth, hlow, hhigh⟩ := ih (by omega) hp
        rw [cellIndex_line hline] at hlow hhigh
        exact ⟨hwidth, by omega, by omega⟩
      · obtain ⟨hwidth, hlow, hhigh⟩ := ih (by omega) hp
        rw [cellIndex_next] at hlow hhigh
        exact ⟨hwidth, by omega, by omega⟩

theorem mem_runCells (hx : x < width) (hp : p.1 < width) (hlow : cellIndex width (x, y) ≤ cellIndex width p)
    (hhigh : cellIndex width p < cellIndex width (x, y) + n) : p ∈ runCells width n x y := by
  induction n generalizing x y with
  | zero => omega
  | succ n ih =>
    rw [runCells, List.mem_cons]
    rcases eq_or_ne p (x, y) with heq | hne
    · exact .inl heq
    have hlt : cellIndex width (x, y) < cellIndex width p := by
      apply Nat.lt_of_le_of_ne hlow
      intro heq
      exact hne (cellIndex_inj hx hp heq).symm
    right
    split_ifs with hline
    · apply ih (by omega)
      all_goals
        rw [cellIndex_line hline]
        omega
    · apply ih (by omega)
      all_goals
        rw [cellIndex_next]
        omega

/-- A run passes each cell once, in the order of the numbers. -/
theorem runCells_pairwise (hx : x < width) :
    (runCells width n x y).Pairwise fun p q =>
      (p.1 < width ∧ q.1 < width) ∧ cellIndex width p < cellIndex width q := by
  induction n generalizing x y with
  | zero => exact List.Pairwise.nil
  | succ n ih =>
    apply List.Pairwise.cons
    · intro q hq
      split_ifs at hq with hline
      · obtain ⟨hwidth, hlow, -⟩ := of_mem_runCells (by omega) hq
        rw [cellIndex_line hline] at hlow
        exact ⟨⟨hx, hwidth⟩, hlow⟩
      · obtain ⟨hwidth, hlow, -⟩ := of_mem_runCells (by omega) hq
        exact ⟨⟨hx, hwidth⟩, hlow⟩
    · split_ifs with hline
      · exact ih (by omega)
      · exact ih (by omega)

/-- The cells whose numbers are those of whole lines. -/
theorem cellIndex_lines_iff {lines : ℕ} (hp : p.1 < width) :
    cellIndex width (0, y) ≤ cellIndex width p ∧ cellIndex width p < cellIndex width (0, y) + width * lines ↔
      y ≤ p.2 ∧ p.2 < y + lines := by
  have hindex : cellIndex width (0, y) + width * lines = (y + lines) * width := by
    rw [cellIndex, Nat.add_mul, Nat.mul_comm width]
    rfl
  rw [hindex]
  simp only [cellIndex, Nat.add_zero]
  constructor
  · rintro ⟨hlow, hhigh⟩
    constructor
    · by_contra hlt
      have := Nat.mul_le_mul_right width (Nat.lt_of_not_ge hlt)
      rw [Nat.succ_mul] at this
      omega
    · by_contra hle
      have := Nat.mul_le_mul_right width (Nat.le_of_not_lt hle)
      omega
  · rintro ⟨hlow, hhigh⟩
    have hfirst := Nat.mul_le_mul_right width hlow
    have hlast := Nat.mul_le_mul_right width hhigh
    rw [Nat.succ_mul] at hlast
    omega

/-- A cell lies inside its line. -/
theorem cellOffset_bounds (hpitch : width * bytes ≤ pitch) (hp : p.1 < width) :
    p.2 * pitch ≤ cellOffset pitch bytes p ∧ cellOffset pitch bytes p + bytes ≤ (p.2 + 1) * pitch := by
  have hroom := Nat.mul_le_mul_right bytes (Nat.succ_le_of_lt hp)
  rw [Nat.succ_mul] at hroom
  simp only [cellOffset, Nat.succ_mul]
  omega

theorem length_runCells : (runCells width n x y).length = n := by
  induction n generalizing x y with
  | zero => rfl
  | succ n ih =>
    rw [runCells, List.length_cons]
    split_ifs <;> rw [ih]

/-- Cells do not overlap where a line has room for its cells. -/
theorem cellOffset_add_le (hpitch : width * bytes ≤ pitch) (hp : p.1 < width) (hq : q.1 < width)
    (h : cellIndex width p < cellIndex width q) :
    cellOffset pitch bytes p + bytes ≤ cellOffset pitch bytes q := by
  have hroom : (p.1 + 1) * bytes ≤ width * bytes := Nat.mul_le_mul_right _ hp
  rcases Nat.lt_trichotomy p.2 q.2 with hline | hline | hline
  · have hlines : (p.2 + 1) * pitch ≤ q.2 * pitch := Nat.mul_le_mul_right _ hline
    simp only [cellOffset, Nat.succ_mul] at *
    omega
  · have hcell : (p.1 + 1) * bytes ≤ q.1 * bytes := by
      apply Nat.mul_le_mul_right
      simp only [cellIndex, hline] at h
      omega
    simp only [cellOffset, Nat.succ_mul, hline] at *
    omega
  · have hlines : (q.2 + 1) * width ≤ p.2 * width := Nat.mul_le_mul_right _ hline
    simp only [cellIndex, Nat.succ_mul] at *
    omega

end SysX
