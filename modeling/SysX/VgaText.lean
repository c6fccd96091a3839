import SysX.Lib.Comp
import SysX.Lib.TextGrid
import Mathlib.Logic.Function.Basic

/-! The VGA text mode terminal (`arch/x86/terminal_vgatext.c`). -/
namespace SysX
open TextGrid

abbrev VgaCell := BitVec 16

/-- The static variables of the terminal, the text buffer by cells and the cursor position that the
controller was given last. -/
structure VgaTerm where
  x : BitVec 8
  y : BitVec 8
  attr : BitVec 8
  buffer : ℕ → VgaCell
  cursor : BitVec 16

namespace VgaTerm

/-- `vgaterm_y * 80 + vgaterm_x` -/
def pos (s : VgaTerm) : ℕ := s.y.toNat * 80 + s.x.toNat

/-- `(uint16_t)vgaterm_attr << 8` -/
def blank (s : VgaTerm) : VgaCell := s.attr.setWidth 16 <<< 8

/-- The cell of a character. -/
def cell (s : VgaTerm) (c : BitVec 8) : VgaCell := c.setWidth 16 ||| s.attr.setWidth 16 <<< 8

end VgaTerm

/-- A store to the buffer. The text buffer has 2000 cells, and a store beyond them faults. -/
def vgaStore (i : ℕ) (v : VgaTerm → VgaCell) : Comp VgaTerm Unit :=
  if i < 2000 then Comp.modify fun s => { s with buffer := Function.update s.buffer i (v s) }
  else Comp.fault

/-- The `memmove` of cells from `src` on to `dst`, both inside the buffer. -/
def vgaMove (dst src n : ℕ) : Comp VgaTerm Unit :=
  if dst + n ≤ 2000 ∧ src + n ≤ 2000 then
    Comp.modify fun s => { s with
      buffer := fun i => if dst ≤ i ∧ i < dst + n then s.buffer (i - dst + src) else s.buffer i }
  else Comp.fault

def vgatermUpdateCursor : Comp VgaTerm Unit :=
  Comp.modify fun s => { s with cursor := s.y.setWidth 16 * 80 + s.x.setWidth 16 }

def vgatermNewline : Comp VgaTerm Unit := do
  Comp.modify fun s => { s with x := 0, y := s.y + 1 }
  let y ← Comp.read VgaTerm.y
  Comp.when (y = 25) do
    vgaMove 0 (1 * 80) (24 * 80)
    Comp.forRange (fun x => vgaStore (24 * 80 + x) VgaTerm.blank) 80 0
    Comp.modify fun s => { s with y := 24 }

/-- A store at the cursor, which then goes on by one column. -/
def vgaPut (v : VgaTerm → VgaCell) : Comp VgaTerm Unit := do
  let pos ← Comp.read VgaTerm.pos
  vgaStore pos v
  Comp.modify fun s => { s with x := s.x + 1 }

/-- The loop of a tabulator. More than 256 passes would repeat a value of `vgaterm_x`. -/
def vgatermTab : (fuel : ℕ) → Comp VgaTerm Unit
  | 0 => Comp.fault
  | fuel + 1 => do
    vgaPut VgaTerm.blank
    let x ← Comp.read VgaTerm.x
    if x < 80 ∧ x % 4 ≠ 0 then vgatermTab fuel else pure ()

/-- `if(vgaterm_x == 80) vgaterm_newline();` -/
def vgaWrap : Comp VgaTerm Unit := do
  let x ← Comp.read VgaTerm.x
  Comp.when (x = 80) vgatermNewline

def vgatermPutcStub (c : BitVec 8) : Comp VgaTerm Unit :=
  if c = 8 then
    Comp.modify fun s =>
      if s.x ≠ 0 then { s with x := s.x - 1 }
      else if s.y ≠ 0 then { s with x := 79, y := s.y - 1 }
      else s
  else if c = 13 then Comp.modify fun s => { s with x := 0 }
  else if c = 10 then vgatermNewline
  else if c = 9 then do
    vgatermTab 256
    vgaWrap
  else do
    vgaPut fun s => s.cell c
    vgaWrap

def vgatermPutc (c : BitVec 8) : Comp VgaTerm Unit := do
  vgatermPutcStub c
  vgatermUpdateCursor

/-- The string is the bytes from the pointer on, up to the terminator. -/
def vgatermPuts (str : List (BitVec 8)) : Comp VgaTerm Unit := do
  Comp.forList vgatermPutcStub (str.takeWhile (· ≠ 0))
  vgatermUpdateCursor

def vgatermClear : Comp VgaTerm Unit := do
  Comp.forRange (fun y => Comp.forRange (fun x => vgaStore (y * 80 + x) VgaTerm.blank) 80 0) 25 0
  Comp.modify fun s => { s with x := 0, y := 0 }
  vgatermUpdateCursor

/-! The reference terminal. -/

abbrev VgaScreen := Screen 25 80 VgaCell
abbrev RefTerm := Terminal 25 80 VgaScreen

/-- The key a character stands for. -/
def vgaKey (attr c : BitVec 8) : Key VgaCell :=
  if c = 8 then .backspace
  else if c = 13 then .carriageReturn
  else if c = 10 then .newline
  else if c = 9 then .tab
  else .print (c.setWidth 16 ||| attr.setWidth 16 <<< 8)

/-- The screen of the reference terminal, with new rows in the background color. -/
def refSurface (attr : BitVec 8) : Surface 25 80 VgaCell VgaScreen := screen 25 80 (attr.setWidth 16 <<< 8)

/-- One character on the reference terminal. -/
def refPutc (attr : BitVec 8) (t : RefTerm) (c : BitVec 8) : RefTerm :=
  press (refSurface attr) 4 (attr.setWidth 16 <<< 8) t (vgaKey attr c)

def refClear (attr : BitVec 8) : RefTerm := ⟨fun _ _ => attr.setWidth 16 <<< 8, 0, 0⟩

/-- The screen of the terminal is that of the reference terminal, and its row as well. The memory behind
the text buffer is still `mem`. -/
structure ShowsScreen (attr : BitVec 8) (mem : ℕ → VgaCell) (s : VgaTerm) (t : RefTerm) : Prop where
  y : s.y.toNat = t.row
  attr : s.attr = attr
  cells : ∀ r c, s.buffer (r.val * 80 + c.val) = t.surface r c
  behind : ∀ i, 2000 ≤ i → s.buffer i = mem i

/-- The terminal shows the screen and the cursor of the reference terminal. -/
structure Mirrors (attr : BitVec 8) (mem : ℕ → VgaCell) (s : VgaTerm) (t : RefTerm) : Prop
    extends ShowsScreen attr mem s t where
  x : s.x.toNat = t.col

variable {attr : BitVec 8} {mem : ℕ → VgaCell} {s : VgaTerm} {t : RefTerm}

theorem vgaStore_run {i : ℕ} (hi : i < 2000) (v : VgaTerm → VgaCell) (s : VgaTerm) :
    vgaStore i v s = some ((), { s with buffer := Function.update s.buffer i (v s) }) := by
  rw [vgaStore, if_pos hi]
  rfl

/-- The loop that blanks `n` cells from `lo` on. -/
theorem vgaBlank_run {lo n : ℕ} (h : lo + n ≤ 2000) (s : VgaTerm) :
    ∃ u, Comp.forRange (fun i => vgaStore (lo + i) VgaTerm.blank) n 0 s = some ((), u) ∧
      u = { s with buffer := u.buffer } ∧
      ∀ i, u.buffer i = if lo ≤ i ∧ i < lo + n then s.blank else s.buffer i := by
  have loop := @Comp.forRange_total VgaTerm (fun k u => u = { s with buffer := u.buffer } ∧
    ∀ i, u.buffer i = if lo ≤ i ∧ i < lo + k then s.blank else s.buffer i)
    (fun i => vgaStore (lo + i) VgaTerm.blank) n 0 ?_ s ⟨rfl, fun i => by rw [if_neg (by omega)]⟩
  · simpa only [Nat.zero_add] using loop
  · intro k _ hk u hu
    obtain ⟨hsame, hbuf⟩ := hu
    have hblank : u.blank = s.blank := by
      rw [hsame]
      rfl
    refine ⟨_, vgaStore_run (by omega) _ u, by rw [hsame], fun i => ?_⟩
    simp only [hblank]
    by_cases hi : i = lo + k
    · rw [hi, Function.update_self, if_pos (by omega)]
    · rw [Function.update_of_ne hi, hbuf]
      by_cases hin : lo ≤ i ∧ i < lo + k
      · rw [if_pos hin, if_pos (by omega)]
      · rw [if_neg hin, if_neg (by omega)]

/-- A new line keeps the screen of the terminal that of the reference terminal. -/
theorem ShowsScreen.newline (h : ShowsScreen attr mem s t) :
    ∃ u, vgatermNewline s = some ((), u) ∧ Mirrors attr mem u (TextGrid.newline (refSurface attr) t) := by
  have hrow := t.row.isLt
  have hy : (s.y + 1).toNat = t.row + 1 := by
    rw [BitVec.toNat_add, h.y]
    simp only [BitVec.reduceToNat]
    omega
  have hy25 : s.y + 1 = 25 ↔ ¬ t.row.val + 1 < 25 := by
    rw [← BitVec.toNat_inj, hy]
    simp only [BitVec.reduceToNat]
    omega
  unfold vgatermNewline TextGrid.newline
  rw [Comp.modify_bind, Comp.read_bind]
  by_cases hlast : t.row.val + 1 < 25
  · rw [dif_pos hlast]
    rw [Comp.when_false (mt hy25.mp (not_not_intro hlast))]
    exact ⟨_, rfl, ⟨hy, h.attr, h.cells, h.behind⟩, rfl⟩
  · have hmove : 0 + 24 * 80 ≤ 2000 ∧ 1 * 80 + 24 * 80 ≤ 2000 := by omega
    rw [dif_neg hlast, Comp.when_true (hy25.mpr hlast), vgaMove, if_pos hmove, Comp.modify_bind]
    obtain ⟨u, hu, hsame, hbuf⟩ := @vgaBlank_run (24 * 80) 80 (by omega) { s with
      x := 0
      y := s.y + 1
      buffer := fun i => if 0 ≤ i ∧ i < 0 + 24 * 80 then s.buffer (i - 0 + 1 * 80) else s.buffer i }
    rw [Comp.bind_of_eq hu]
    refine ⟨_, rfl, ⟨?_, ?_, ?_, ?_⟩, ?_⟩
    · change 24 = t.row.val
      omega
    · rw [hsame]
      exact h.attr
    · intro r c
      have hr := r.isLt
      have hc := c.isLt
      have hblank : s.blank = attr.setWidth 16 <<< 8 := by rw [VgaTerm.blank, h.attr]
      simp only [hbuf, refSurface, screen]
      by_cases hlow : r.val + 1 < 25
      · have hnext : r.val * 80 + c.val - 0 + 1 * 80 = (r.val + 1) * 80 + c.val := by omega
        rw [if_neg (by omega), if_pos (by omega), dif_pos hlow, hnext]
        exact h.cells ⟨r + 1, hlow⟩ c
      · rw [if_pos (by omega), dif_neg hlow]
        exact hblank
    · intro i hi
      simp only [hbuf]
      rw [if_neg (by omega), if_neg (by omega)]
      exact h.behind i hi
    · rw [hsame]
      rfl

/-- A store at the cursor writes the cell of the reference terminal there. -/
theorem Mirrors.put (h : Mirrors attr mem s t) {v : VgaTerm → VgaCell} {a : VgaCell} (hv : v s = a) :
    ∃ u, vgaPut v s = some ((), u) ∧ u.x.toNat = t.col + 1 ∧
      ShowsScreen attr mem u (TextGrid.put (refSurface attr) a t) := by
  have hrow := t.row.isLt
  have hcol := t.col.isLt
  have hpos : s.pos = t.row * 80 + t.col := by rw [VgaTerm.pos, h.y, h.x]
  unfold vgaPut
  rw [Comp.read_bind, Comp.bind_of_eq (vgaStore_run (by omega) v s)]
  refine ⟨_, rfl, ?_, h.y, h.attr, ?_, ?_⟩
  · rw [BitVec.toNat_add, h.x]
    simp only [BitVec.reduceToNat]
    omega
  · intro r c
    have hc := c.isLt
    have hcell : r.val * 80 + c.val = t.row * 80 + t.col ↔ r = t.row ∧ c = t.col := by
      rw [Fin.ext_iff, Fin.ext_iff]
      omega
    simp only [TextGrid.put, refSurface, screen, hpos]
    by_cases hat : r = t.row ∧ c = t.col
    · rw [if_pos hat, hcell.mpr hat, Function.update_self, hv]
    · rw [if_neg hat, Function.update_of_ne (mt hcell.mp hat)]
      exact h.cells r c
  · intro i hi
    have hne : i ≠ s.pos := by omega
    exact (Function.update_of_ne hne _ _).trans (h.behind i hi)

/-- The wrap around the end of a row. -/
theorem ShowsScreen.wrap (h : ShowsScreen attr mem s t) {n : ℕ} (hx : s.x.toNat = n) (hn : n ≤ 80) :
    ∃ u, vgaWrap s = some ((), u) ∧ Mirrors attr mem u (moveTo (refSurface attr) n t) := by
  have h80 : s.x = 80 ↔ ¬ n < 80 := by
    rw [← BitVec.toNat_inj, hx]
    simp only [BitVec.reduceToNat]
    omega
  unfold vgaWrap moveTo
  rw [Comp.read_bind]
  by_cases hlt : n < 80
  · rw [Comp.when_false (fun he => h80.mp he hlt), dif_pos hlt]
    exact ⟨s, rfl, ⟨h.y, h.attr, h.cells, h.behind⟩, hx⟩
  · rw [Comp.when_true (h80.mpr hlt), dif_neg hlt]
    exact h.newline

/-- The loop of a tabulator followed by the wrap moves on to the next tab stop. -/
theorem Mirrors.tab (h : Mirrors attr mem s t) {fuel : ℕ} (hf : 80 < fuel + t.col) :
    ∃ u n t', vgatermTab fuel s = some ((), u) ∧ u.x.toNat = n ∧ n ≤ 80 ∧ ShowsScreen attr mem u t' ∧
      moveTo (refSurface attr) n t' = TextGrid.tab (refSurface attr) 4 (attr.setWidth 16 <<< 8) t := by
  have hcol := t.col.isLt
  induction fuel generalizing s t with
  | zero => omega
  | succ fuel ih =>
    obtain ⟨u, hu, hx, hshow⟩ := h.put (v := VgaTerm.blank) (by rw [VgaTerm.blank, h.attr])
    have hmore : u.x < 80 ∧ u.x % 4 ≠ 0 ↔ t.col.val + 1 < 80 ∧ (t.col.val + 1) % 4 ≠ 0 := by
      rw [BitVec.lt_def, ne_eq, ← BitVec.toNat_inj, BitVec.toNat_umod, hx]
      rfl
    rw [vgatermTab, Comp.bind_of_eq hu, Comp.read_bind, tab_step (refSurface attr) (by omega)]
    by_cases hnext : t.col.val + 1 < 80 ∧ (t.col.val + 1) % 4 ≠ 0
    · rw [if_pos (hmore.mpr hnext), dif_pos hnext]
      refine ih ⟨⟨hshow.y, hshow.attr, hshow.cells, hshow.behind⟩, hx⟩ ?_ hnext.1
      change 80 < fuel + (t.col.val + 1)
      omega
    · rw [if_neg (mt hmore.mp hnext), dif_neg hnext]
      exact ⟨u, _, _, rfl, hx, by omega, hshow, rfl⟩

/-- Every character does to the terminal what it does to the reference terminal. -/
theorem Mirrors.putcStub (h : Mirrors attr mem s t) (c : BitVec 8) :
    ∃ u, vgatermPutcStub c s = some ((), u) ∧ Mirrors attr mem u (refPutc attr t c) := by
  have hrow := t.row.isLt
  have hcol := t.col.isLt
  have hx0 : s.x = 0 ↔ t.col.val = 0 := by
    rw [← BitVec.toNat_inj, h.x]
    rfl
  have hy0 : s.y = 0 ↔ t.row.val = 0 := by
    rw [← BitVec.toNat_inj, h.y]
    rfl
  have hpred : ∀ b : BitVec 8, b ≠ 0 → (b - 1).toNat = b.toNat - 1 := by
    intro b hb
    have hpos : b.toNat ≠ 0 := fun h0 => hb (BitVec.eq_of_toNat_eq h0)
    rw [BitVec.toNat_sub]
    simp only [BitVec.reduceToNat]
    omega
  unfold vgatermPutcStub refPutc vgaKey
  split_ifs with hback hcr hnl htab
  · refine ⟨_, rfl, ?_⟩
    simp only [press, backspace]
    by_cases hcol0 : t.col.val = 0
    · by_cases hrow0 : t.row.val = 0
      · rw [if_neg (not_not_intro (hx0.mpr hcol0)), if_neg (not_not_intro (hy0.mpr hrow0)),
          if_neg (by omega), if_neg (by omega)]
        exact h
      · rw [if_neg (not_not_intro (hx0.mpr hcol0)), if_pos (mt hy0.mp hrow0), if_neg (by omega),
          if_pos (by omega)]
        refine ⟨⟨?_, h.attr, h.cells, h.behind⟩, rfl⟩
        rw [hpred _ (mt hy0.mp hrow0), h.y]
    · rw [if_pos (mt hx0.mp hcol0), if_pos (by omega)]
      refine ⟨⟨h.y, h.attr, h.cells, h.behind⟩, ?_⟩
      rw [hpred _ (mt hx0.mp hcol0), h.x]
  · exact ⟨_, rfl, ⟨h.y, h.attr, h.cells, h.behind⟩, rfl⟩
  · exact h.newline
  · obtain ⟨u, n, t', hu, hx, hn, hshow, htab⟩ := @Mirrors.tab _ _ _ _ h 256 (by omega)
    rw [Comp.bind_of_eq hu]
    simp only [press]
    rw [← htab]
    exact hshow.wrap hx hn
  · obtain ⟨u, hu, hx, hshow⟩ := h.put (v := fun s => s.cell c) (by rw [VgaTerm.cell, h.attr])
    rw [Comp.bind_of_eq hu]
    exact hshow.wrap hx (by omega)

/-- Between two calls the controller shows the cursor where the terminal has it. -/
structure VgaReady (attr : BitVec 8) (mem : ℕ → VgaCell) (s : VgaTerm) (t : RefTerm) : Prop
    extends Mirrors attr mem s t where
  cursor : s.cursor = s.y.setWidth 16 * 80 + s.x.setWidth 16

/-- The reference terminal determines the state. -/
theorem VgaReady.unique {u : VgaTerm} (h : VgaReady attr mem s t) (h' : VgaReady attr mem u t) : s = u := by
  have hx : s.x = u.x := BitVec.eq_of_toNat_eq (h.x.trans h'.x.symm)
  have hy : s.y = u.y := BitVec.eq_of_toNat_eq (h.y.trans h'.y.symm)
  have hattr : s.attr = u.attr := h.attr.trans h'.attr.symm
  have hcursor : s.cursor = u.cursor := by rw [h.cursor, h'.cursor, hx, hy]
  have hbuf : s.buffer = u.buffer := by
    funext i
    by_cases hi : i < 2000
    · have hcell : (⟨i / 80, by omega⟩ : Fin 25).val * 80 + (⟨i % 80, by omega⟩ : Fin 80).val = i :=
        Nat.div_add_mod' i 80
      have hs := h.cells ⟨i / 80, by omega⟩ ⟨i % 80, by omega⟩
      have hu := h'.cells ⟨i / 80, by omega⟩ ⟨i % 80, by omega⟩
      rw [hcell] at hs hu
      rw [hs, hu]
    · rw [h.behind i (by omega), h'.behind i (by omega)]
  cases s
  cases u
  simp_all

theorem Mirrors.updateCursor (h : Mirrors attr mem s t) :
    ∃ u, vgatermUpdateCursor s = some ((), u) ∧ VgaReady attr mem u t :=
  ⟨_, rfl, ⟨⟨h.y, h.attr, h.cells, h.behind⟩, h.x⟩, rfl⟩

theorem Mirrors.putc (h : Mirrors attr mem s t) (c : BitVec 8) :
    ∃ u, vgatermPutc c s = some ((), u) ∧ VgaReady attr mem u (refPutc attr t c) := by
  obtain ⟨u, hu, hm⟩ := h.putcStub c
  rw [vgatermPutc, Comp.bind_of_eq hu]
  exact hm.updateCursor

/-- The loop of `vgaterm_puts`. -/
theorem Mirrors.putcStubs (h : Mirrors attr mem s t) (str : List (BitVec 8)) :
    ∃ u, Comp.forList vgatermPutcStub str s = some ((), u) ∧
      Mirrors attr mem u (str.foldl (refPutc attr) t) :=
  Comp.forList_sim (fun c _ _ hm => hm.putcStub c) str h

theorem Mirrors.puts (h : Mirrors attr mem s t) (str : List (BitVec 8)) :
    ∃ u, vgatermPuts str s = some ((), u) ∧
      VgaReady attr mem u ((str.takeWhile (· ≠ 0)).foldl (refPutc attr) t) := by
  obtain ⟨u, hu, hm⟩ := h.putcStubs (str.takeWhile (· ≠ 0))
  rw [vgatermPuts, Comp.bind_of_eq hu]
  exact hm.updateCursor

/-- One `vgaterm_putc` after the other. -/
theorem VgaReady.putcs (h : VgaReady attr mem s t) (str : List (BitVec 8)) :
    ∃ u, Comp.forList vgatermPutc str s = some ((), u) ∧
      VgaReady attr mem u (str.foldl (refPutc attr) t) :=
  Comp.forList_sim (fun c _ _ hr => hr.toMirrors.putc c) str h

/-- Whatever the terminal shows, it is empty after a clear. -/
theorem vgatermClear_run (s : VgaTerm) :
    ∃ u, vgatermClear s = some ((), u) ∧ VgaReady s.attr s.buffer u (refClear s.attr) := by
  have loop := @Comp.forRange_total VgaTerm (fun k u => u = { s with buffer := u.buffer } ∧
    ∀ i, u.buffer i = if i < k * 80 then s.blank else s.buffer i)
    (fun y => Comp.forRange (fun x => vgaStore (y * 80 + x) VgaTerm.blank) 80 0) 25 0 ?_ s
    ⟨rfl, fun i => by rw [if_neg (by omega)]⟩
  · obtain ⟨u, hu, hsame, hbuf⟩ := loop
    rw [vgatermClear, Comp.bind_of_eq hu, Comp.modify_bind]
    refine ⟨_, rfl, ⟨⟨rfl, ?_, ?_, ?_⟩, rfl⟩, rfl⟩
    · rw [hsame]
    · intro r c
      have hr := r.isLt
      have hc := c.isLt
      exact (hbuf _).trans (if_pos (by omega))
    · intro i hi
      exact (hbuf i).trans (if_neg (by omega))
  · intro k _ hk u hu
    obtain ⟨hsame, hbuf⟩ := hu
    obtain ⟨w, hw, hwsame, hwbuf⟩ := @vgaBlank_run (k * 80) 80 (by omega) u
    have hblank : u.blank = s.blank := by
      rw [hsame]
      rfl
    refine ⟨w, hw, by rw [hwsame, hsame], fun i => ?_⟩
    rw [hwbuf, hbuf, hblank]
    by_cases hi : i < k * 80
    · rw [if_neg (by omega), if_pos hi, if_pos (by omega)]
    · by_cases hi' : i < (k + 1) * 80
      · rw [if_pos (by omega), if_pos hi']
      · rw [if_neg (by omega), if_neg hi, if_neg hi']

/-! Sequences of calls. -/

inductive VgaCall
  | putc (c : BitVec 8)
  | puts (str : List (BitVec 8))
  | clear

def VgaCall.run : VgaCall → Comp VgaTerm Unit
  | putc c => vgatermPutc c
  | puts str => vgatermPuts str
  | clear => vgatermClear

/-- The call on the reference terminal. -/
def VgaCall.ref (attr : BitVec 8) (t : RefTerm) : VgaCall → RefTerm
  | putc c => refPutc attr t c
  | puts str => (str.takeWhile (· ≠ 0)).foldl (refPutc attr) t
  | clear => refClear attr

theorem VgaReady.call (h : VgaReady attr mem s t) (call : VgaCall) :
    ∃ u, call.run s = some ((), u) ∧ VgaReady attr mem u (call.ref attr t) := by
  cases call with
  | putc c => exact h.toMirrors.putc c
  | puts str => exact h.toMirrors.puts str
  | clear =>
    obtain ⟨u, hu, hr⟩ := vgatermClear_run s
    rw [h.attr] at hr
    refine ⟨u, hu, ⟨⟨hr.y, hr.attr, hr.cells, fun i hi => ?_⟩, hr.x⟩, hr.cursor⟩
    rw [hr.behind i hi, h.behind i hi]

theorem VgaReady.calls (h : VgaReady attr mem s t) (calls : List VgaCall) :
    ∃ u, Comp.forList VgaCall.run calls s = some ((), u) ∧
      VgaReady attr mem u (calls.foldl (VgaCall.ref attr) t) :=
  Comp.forList_sim (fun call _ _ hr => hr.call call) calls h

/-- From a clear on, any sequence of calls returns with the screen and the cursor of the reference terminal
and has stored nothing behind the buffer, and a string does what its characters do one by one. -/
theorem vgaterm_mirrors_reference (s : VgaTerm) (calls : List VgaCall) :
    ∃ u, (do vgatermClear; Comp.forList VgaCall.run calls) s = some ((), u) ∧
      Mirrors s.attr s.buffer u (calls.foldl (VgaCall.ref s.attr) (refClear s.attr)) ∧
      u.x.toNat < 80 ∧ u.y.toNat < 25 ∧
      ∀ str, ∃ w, vgatermPuts str u = some ((), w) ∧
        Comp.forList vgatermPutc (str.takeWhile (· ≠ 0)) u = some ((), w) := by
  obtain ⟨v, hv, hclear⟩ := vgatermClear_run s
  obtain ⟨u, hu, hr⟩ := hclear.calls calls
  refine ⟨u, by rw [Comp.bind_of_eq hv, hu], hr.toMirrors, ?_, ?_, fun str => ?_⟩
  · rw [hr.x]
    exact Fin.isLt _
  · rw [hr.y]
    exact Fin.isLt _
  · obtain ⟨w, hw, hwr⟩ := hr.toMirrors.puts str
    obtain ⟨w', hw', hwr'⟩ := hr.putcs (str.takeWhile (· ≠ 0))
    exact ⟨w, hw, by rw [hw', hwr'.unique hwr]⟩

end SysX
