import Mathlib.Data.List.FinRange
import Mathlib.Tactic.Common

/-!
Text terminals of `rows` by `cols` cells: a cursor that is always inside the grid, and what each key does to
it and to the surface that the terminal draws on.
-/
namespace SysX.TextGrid

/-- What a terminal draws on: single cells, and the shift of all rows by one. -/
structure Surface (rows cols : ℕ) (α σ : Type) where
  write : Fin rows → Fin cols → α → σ → σ
  scroll : σ → σ

structure Terminal (rows cols : ℕ) (σ : Type) where
  surface : σ
  row : Fin rows
  col : Fin cols

inductive Key (α : Type)
  | backspace
  | carriageReturn
  | newline
  | tab
  | print (a : α)

variable {rows cols : ℕ} {α σ : Type} (S : Surface rows cols α σ)

/-- The first column. -/
def firstCol (c : Fin cols) : Fin cols := ⟨0, Nat.lt_of_le_of_lt (Nat.zero_le _) c.isLt⟩

/-- The last column. -/
def lastCol (c : Fin cols) : Fin cols := ⟨cols - 1, by have := c.isLt; omega⟩

/-- To the start of the next row; at the last row everything moves up instead. -/
def newline (t : Terminal rows cols σ) : Terminal rows cols σ :=
  if h : t.row.val + 1 < rows then { t with row := ⟨t.row + 1, h⟩, col := firstCol t.col }
  else { t with surface := S.scroll t.surface, col := firstCol t.col }

/-- To column `c` of the row, or around its end. -/
def moveTo (c : ℕ) (t : Terminal rows cols σ) : Terminal rows cols σ :=
  if h : c < cols then { t with col := ⟨c, h⟩ } else newline S t

def put (a : α) (t : Terminal rows cols σ) : Terminal rows cols σ :=
  { t with surface := S.write t.row t.col a t.surface }

def print (a : α) (t : Terminal rows cols σ) : Terminal rows cols σ := moveTo S (t.col + 1) (put S a t)

def backspace (t : Terminal rows cols σ) : Terminal rows cols σ :=
  if 0 < t.col.val then { t with col := ⟨t.col - 1, by have := t.col.isLt; omega⟩ }
  else if 0 < t.row.val then
    { t with col := lastCol t.col, row := ⟨t.row - 1, by have := t.row.isLt; omega⟩ }
  else t

/-- The first multiple of `width` after column `c`. -/
def tabStop (width c : ℕ) : ℕ := (c / width + 1) * width

/-- The columns from `c` on before `stop`. -/
def colsBetween (cols c stop : ℕ) : List (Fin cols) := ((List.finRange cols).drop c).take (stop - c)

/-- Blanks up to the next tab stop. -/
def tab (width : ℕ) (blank : α) (t : Terminal rows cols σ) : Terminal rows cols σ :=
  let stop := tabStop width t.col
  let blanks := colsBetween cols t.col stop
  moveTo S stop { t with surface := blanks.foldl (fun s k => S.write t.row k blank s) t.surface }

def press (width : ℕ) (blank : α) (t : Terminal rows cols σ) : Key α → Terminal rows cols σ
  | .backspace => backspace t
  | .carriageReturn => { t with col := firstCol t.col }
  | .newline => newline S t
  | .tab => tab S width blank t
  | .print a => print S a t

/-! A tabulator as a loop that writes one blank after the other. -/

theorem colsBetween_cons (c : Fin cols) {stop : ℕ} (h : c.val < stop) :
    colsBetween cols c stop = c :: colsBetween cols (c + 1) stop := by
  have hlen : c.val < (List.finRange cols).length := by simp
  have hn : stop - c.val = stop - (c.val + 1) + 1 := by omega
  rw [colsBetween, colsBetween, List.drop_eq_getElem_cons hlen, hn, List.take_succ_cons]
  simp

theorem colsBetween_nil {c stop : ℕ} (h : stop ≤ c ∨ cols ≤ c) : colsBetween cols c stop = [] := by
  unfold colsBetween
  rcases h with h | h
  · rw [Nat.sub_eq_zero_of_le h, List.take_zero]
  · rw [List.drop_eq_nil_of_le (by simpa using h), List.take_nil]

theorem lt_tabStop {width : ℕ} (hw : 0 < width) (c : ℕ) : c < tabStop width c := by
  rw [tabStop, Nat.mul_comm]
  exact Nat.lt_mul_div_succ c hw

theorem tabStop_next (width c : ℕ) :
    tabStop width c = if (c + 1) % width = 0 then c + 1 else tabStop width (c + 1) := by
  simp only [← Nat.dvd_iff_mod_eq_zero]
  unfold tabStop
  rw [Nat.succ_div]
  split_ifs with hd
  · have hdiv : (c + 1) / width = c / width + 1 := by rw [Nat.succ_div, if_pos hd]
    rw [← hdiv, Nat.div_mul_cancel hd]
  · rfl

/-- A blank is written and the cursor goes on: either the tabulator is done or it goes on from there. -/
theorem tab_step {width : ℕ} (hw : 0 < width) (blank : α) (t : Terminal rows cols σ) :
    tab S width blank t =
      if h : t.col.val + 1 < cols ∧ (t.col.val + 1) % width ≠ 0 then
        tab S width blank { put S blank t with col := ⟨t.col + 1, h.1⟩ }
      else print S blank t := by
  have hstop := tabStop_next width t.col
  unfold tab
  simp only [colsBetween_cons t.col (lt_tabStop hw t.col), List.foldl_cons]
  split_ifs with h
  · rw [if_neg h.2] at hstop
    rw [hstop]
    rfl
  · by_cases hedge : t.col.val + 1 < cols
    · have hmod : (t.col.val + 1) % width = 0 := by
        by_contra hne
        exact h ⟨hedge, hne⟩
      rw [if_pos hmod] at hstop
      rw [hstop, colsBetween_nil (.inl (Nat.le_refl _))]
      rfl
    · have hbeyond : ¬ tabStop width t.col < cols := by
        have := lt_tabStop hw t.col
        omega
      rw [colsBetween_nil (.inr (Nat.le_of_not_lt hedge)), print, moveTo, moveTo, dif_neg hbeyond,
        dif_neg hedge]
      rfl

theorem moveTo_surface {P : σ → Prop} (hscroll : ∀ s, P s → P (S.scroll s)) {c : ℕ}
    {t : Terminal rows cols σ} (h : P t.surface) : P (moveTo S c t).surface := by
  unfold moveTo newline
  split_ifs
  · exact h
  · exact h
  · exact hscroll _ h

/-- What every write and every scroll keeps of the surface, every key keeps. -/
theorem press_surface {P : σ → Prop} (hwrite : ∀ r c a s, P s → P (S.write r c a s))
    (hscroll : ∀ s, P s → P (S.scroll s)) {width : ℕ} {blank : α} {t : Terminal rows cols σ} (k : Key α)
    (h : P t.surface) : P (press S width blank t k).surface := by
  cases k with
  | backspace =>
    simp only [press, backspace]
    split_ifs <;> exact h
  | carriageReturn => exact h
  | newline =>
    simp only [press, newline]
    split_ifs
    · exact h
    · exact hscroll _ h
  | tab =>
    have hfold : ∀ (l : List (Fin cols)) s, P s → P (l.foldl (fun s k => S.write t.row k blank s) s) := by
      intro l
      induction l with
      | nil => exact fun s hs => hs
      | cons c l ih => exact fun s hs => ih _ (hwrite t.row c blank s hs)
    exact moveTo_surface S hscroll (hfold _ _ h)
  | print a => exact moveTo_surface S hscroll (hwrite t.row t.col a _ h)

/-! Two terminals side by side. -/

section Related

variable {τ : Type} {S' : Surface rows cols α τ} {R : σ → τ → Prop}

/-- The cursors are at the same place, and the surfaces are related. -/
structure Related (R : σ → τ → Prop) (t : Terminal rows cols σ) (t' : Terminal rows cols τ) : Prop where
  row : t.row = t'.row
  col : t.col = t'.col
  surface : R t.surface t'.surface

/-- Every write and every scroll keeps surfaces related. -/
structure Surface.Simulates (S : Surface rows cols α σ) (S' : Surface rows cols α τ) (R : σ → τ → Prop) : Prop where
  write : ∀ r c a s t, R s t → R (S.write r c a s) (S'.write r c a t)
  scroll : ∀ s t, R s t → R (S.scroll s) (S'.scroll t)

variable {S} {t : Terminal rows cols σ} {t' : Terminal rows cols τ}

theorem Related.newline (hS : S.Simulates S' R) (h : Related R t t') : Related R (newline S t) (newline S' t') := by
  obtain ⟨s, row, col⟩ := t
  obtain ⟨s', row', col'⟩ := t'
  obtain ⟨rfl : row = row', rfl : col = col', hsurface⟩ := h
  unfold TextGrid.newline
  dsimp only
  split_ifs
  · exact ⟨rfl, rfl, hsurface⟩
  · exact ⟨rfl, rfl, hS.scroll _ _ hsurface⟩

theorem Related.moveTo (hS : S.Simulates S' R) (h : Related R t t') (c : ℕ) : Related R (moveTo S c t) (moveTo S' c t') := by
  unfold TextGrid.moveTo
  split_ifs
  · exact ⟨h.row, rfl, h.surface⟩
  · exact h.newline hS

/-- Every key keeps terminals side by side. -/
theorem Related.press (hS : S.Simulates S' R) (h : Related R t t') (width : ℕ) (blank : α) (k : Key α) :
    Related R (press S width blank t k) (press S' width blank t' k) := by
  cases k with
  | newline => exact h.newline hS
  | backspace =>
    obtain ⟨s, row, col⟩ := t
    obtain ⟨s', row', col'⟩ := t'
    obtain ⟨rfl : row = row', rfl : col = col', hsurface⟩ := h
    simp only [TextGrid.press, backspace]
    split_ifs <;> exact ⟨rfl, rfl, hsurface⟩
  | carriageReturn =>
    refine ⟨h.row, ?_, h.surface⟩
    simp only [TextGrid.press]
    rw [h.col]
  | tab =>
    obtain ⟨s, row, col⟩ := t
    obtain ⟨s', row', col'⟩ := t'
    obtain ⟨rfl : row = row', rfl : col = col', hsurface⟩ := h
    have hfold : ∀ (l : List (Fin cols)) s s', R s s' →
        R (l.foldl (fun s k => S.write row k blank s) s) (l.foldl (fun s k => S'.write row k blank s) s') := by
      intro l
      induction l with
      | nil => exact fun s s' hs => hs
      | cons c l ih => exact fun s s' hs => ih _ _ (hS.write row c blank s s' hs)
    exact Related.moveTo hS ⟨rfl, rfl, hfold _ _ _ hsurface⟩ _
  | print a =>
    obtain ⟨s, row, col⟩ := t
    obtain ⟨s', row', col'⟩ := t'
    obtain ⟨rfl : row = row', rfl : col = col', hsurface⟩ := h
    exact Related.moveTo hS ⟨rfl, rfl, hS.write _ _ _ _ _ hsurface⟩ _

end Related

/-! A screen as the surface. -/

abbrev Screen (rows cols : ℕ) (α : Type) := Fin rows → Fin cols → α

/-- The surface of a screen on which new rows are filled with `blank`. -/
def screen (rows cols : ℕ) (blank : α) : Surface rows cols α (Screen rows cols α) where
  write r c a s := fun r' c' => if r' = r ∧ c' = c then a else s r' c'
  scroll s := fun r c => if h : r.val + 1 < rows then s ⟨r + 1, h⟩ c else blank

end SysX.TextGrid
