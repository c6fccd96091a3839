import Mathlib.Data.Nat.Digits.Lemmas
import Mathlib.Tactic.Common

/-!
ANSI terminals, as the other end of a serial line sees them: what the sequences for cursor addressing and for the status
report do. Parameters are in decimal, and rows and columns count from 1 on the line.
-/
namespace SysX.Ansi

/-! Decimal numbers. -/

def digitChar (d : ℕ) : UInt8 := .ofNat (48 + d)

/-- The digits of a positive number. -/
def decimal (n : ℕ) : List UInt8 := (Nat.digits 10 n).reverse.map digitChar

variable {n k : ℕ}

theorem decimal_succ (h : 0 < n) : decimal n = decimal (n / 10) ++ [digitChar (n % 10)] := by
  simp [decimal, Nat.digits_def' (b := 10) (by decide) h]

/-- A reader that has a state for every number, and goes on to the one with one more digit, reads a number. -/
theorem read_decimal {σ ρ : Type*} {read : List UInt8 → σ → ρ} {f : ℕ → σ}
    (h : ∀ n d rest, d < 10 → read (digitChar d :: rest) (f n) = read rest (f (n * 10 + d))) (n : ℕ) (rest : List UInt8) :
    read (decimal n ++ rest) (f 0) = read rest (f n) := by
  induction n using Nat.strong_induction_on generalizing rest with
  | _ n ih =>
    rcases Nat.eq_zero_or_pos n with rfl | hpos
    · rfl
    · rw [decimal_succ hpos, List.append_assoc, ih (n / 10) (Nat.div_lt_self hpos (by decide)), List.singleton_append,
        h _ _ _ (Nat.mod_lt n (by decide)), Nat.div_add_mod']

theorem length_decimal_le (h : n < 10 ^ k) : (decimal n).length ≤ k := by
  rw [decimal, List.length_map, List.length_reverse]
  exact (Nat.digits_length_le_iff (by decide) n).mpr h

theorem toNat_digitChar {d : ℕ} (h : d < 10) : (digitChar d).toNat = 48 + d := by
  rw [digitChar, UInt8.toNat_ofNat']
  exact Nat.mod_eq_of_lt (by omega)

/-! Sequences. -/

/-- Cursor position, `ESC [ row ; column H` -/
def cup (row col : ℕ) : List UInt8 := [27, 91] ++ decimal row ++ [59] ++ decimal col ++ [72]

/-- Device status report, `ESC [ 6 n` -/
def dsr : List UInt8 := [27, 91, 54, 110]

/-- Cursor position report, `ESC [ row ; column R` -/
def cpr (row col : ℕ) : List UInt8 := [27, 91] ++ decimal row ++ [59] ++ decimal col ++ [82]

/-- What a machine does with characters one by one, and what it sends back. -/
def feedAll {σ : Type*} (feed : σ → UInt8 → σ × List UInt8) (s : σ) : List UInt8 → σ × List UInt8
  | [] => (s, [])
  | c :: cs =>
    let (t, out) := feed s c
    let (u, more) := feedAll feed t cs
    (u, out ++ more)

/-- A terminal of `W` columns and `H` rows. A cell is its column and its row, counted from 0. -/
structure Terminal (W H : ℕ) where
  State : Type
  feed : State → UInt8 → State × List UInt8
  cursor : State → Fin W × Fin H
  /-- No sequence has begun. -/
  Ground : State → Prop
  /-- The cursor goes to the cell, or as far as there are cells. -/
  address : ∀ s, Ground s → ∀ col row : ℕ, ∃ t, feedAll feed s (cup (row + 1) (col + 1)) = (t, []) ∧ Ground t ∧
    ((cursor t).1 : ℕ) = min col (W - 1) ∧ ((cursor t).2 : ℕ) = min row (H - 1)
  report : ∀ s, Ground s → ∃ t, feedAll feed s dsr = (t, cpr ((cursor s).2 + 1) ((cursor s).1 + 1)) ∧ Ground t ∧
    cursor t = cursor s

/-! A terminal that knows no other sequence. -/

inductive Mode where
  | ground
  | escape
  /-- Between `ESC [` and the end, with the parameters so far and the one that is being read. -/
  | params (before : List ℕ) (n : ℕ)

/-- As far as there are cells. -/
def clamp {n : ℕ} (h : 0 < n) (i : ℕ) : Fin n := ⟨min i (n - 1), by omega⟩

section Plain

variable {W H : ℕ} (hW : 0 < W) (hH : 0 < H)

def plainFeed (s : Mode × Fin W × Fin H) (c : UInt8) : (Mode × Fin W × Fin H) × List UInt8 :=
  let (mode, x, y) := s
  match mode with
  | .ground =>
    if c = 27 then ((.escape, x, y), [])
    else ((.ground, clamp hW (x + 1), y), [])
  | .escape => ((if c = 91 then .params [] 0 else .ground, x, y), [])
  | .params before n =>
    if 48 ≤ c.toNat ∧ c.toNat < 58 then ((.params before (n * 10 + (c.toNat - 48)), x, y), [])
    else if c = 59 then ((.params (before ++ [n]) 0, x, y), [])
    else match c.toNat, before ++ [n] with
      | 72, [row, col] => ((.ground, clamp hW (col - 1), clamp hH (row - 1)), [])
      | 110, [6] => ((.ground, x, y), cpr (y + 1) (x + 1))
      | _, _ => ((.ground, x, y), [])

def plainHome : Mode × Fin W × Fin H := (.ground, clamp hW 0, clamp hH 0)

theorem plainFeed_digit {before : List ℕ} {n d : ℕ} {cell : Fin W × Fin H} (hd : d < 10) :
    plainFeed hW hH (.params before n, cell) (digitChar d) = ((.params before (n * 10 + d), cell), []) := by
  obtain ⟨x, y⟩ := cell
  simp only [plainFeed, toNat_digitChar hd, Nat.add_sub_cancel_left]
  exact if_pos (by omega)

theorem feedAll_decimal {before : List ℕ} {cell : Fin W × Fin H} (n : ℕ) (rest : List UInt8) :
    feedAll (plainFeed hW hH) (.params before 0, cell) (decimal n ++ rest) =
      feedAll (plainFeed hW hH) (.params before n, cell) rest := by
  apply @read_decimal _ _ (fun cs s => feedAll (plainFeed hW hH) s cs) fun n => (Mode.params before n, cell)
  intro n d rest hd
  rw [feedAll, plainFeed_digit hW hH hd]
  rfl

def plain : Terminal W H where
  State := Mode × Fin W × Fin H
  feed := plainFeed hW hH
  cursor s := s.2
  Ground s := s.1 = .ground
  address := by
    rintro ⟨-, x, y⟩ rfl col row
    refine ⟨(.ground, clamp hW col, clamp hH row), ?_, rfl, rfl, rfl⟩
    simp only [cup, List.append_assoc, List.cons_append, List.nil_append]
    have hrow := @feedAll_decimal _ _ hW hH [] (x, y) (row + 1) (59 :: (decimal (col + 1) ++ [72]))
    have hcol := @feedAll_decimal _ _ hW hH [row + 1] (x, y) (col + 1) [72]
    calc feedAll (plainFeed hW hH) (.ground, x, y) (27 :: 91 :: (decimal (row + 1) ++ 59 :: (decimal (col + 1) ++ [72])))
        = feedAll (plainFeed hW hH) (.params [] 0, x, y) (decimal (row + 1) ++ 59 :: (decimal (col + 1) ++ [72])) := rfl
      _ = feedAll (plainFeed hW hH) (.params [row + 1] 0, x, y) (decimal (col + 1) ++ [72]) := hrow
      _ = ((.ground, clamp hW col, clamp hH row), []) := hcol
  report := by
    rintro ⟨-, x, y⟩ rfl
    have hfeed : feedAll (plainFeed hW hH) (.ground, x, y) dsr = ((.ground, x, y), cpr (y + 1) (x + 1) ++ []) := rfl
    rw [List.append_nil] at hfeed
    exact ⟨(.ground, x, y), hfeed, rfl, rfl⟩

end Plain

end SysX.Ansi
