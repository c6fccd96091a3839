import SysX.Lib.Comp
import SysX.Lib.TextGrid
import Mathlib.Data.BitVec

/-! The framebuffer terminal (`hal/term_fbuf.c`): where it asks for glyphs to be drawn. -/
namespace SysX
open TextGrid

/-- The dimensions of `fbuf_impl` and of `fbuf_font`, in pixels. -/
structure FbtermGeometry where
  width : BitVec 32
  height : BitVec 32
  fontWidth : BitVec 32
  fontHeight : BitVec 32

/-- What the terminal asks of the framebuffer. -/
inductive FbufCall
  | putcStub (x y : BitVec 32) (c : BitVec 8) (fg bg : BitVec 32) (transparent : Bool)
  | scrollUp (lines color : BitVec 32)
  | fill (color : BitVec 32)

/-- The static variables of the terminal, and the calls it has made, the last one first. -/
structure Fbterm where
  x : BitVec 32
  y : BitVec 32
  fg : BitVec 32
  bg : BitVec 32
  calls : List FbufCall

def fbtermCall (call : Fbterm → FbufCall) : Comp Fbterm Unit :=
  Comp.modify fun s => { s with calls := call s :: s.calls }

/-- The cursor goes to the next row. A font row that would not fit is made room for instead; the test is
made on `size_t`, since the casts to `int` meet an unsigned height. -/
def fbtermNewline (g : FbtermGeometry) : Comp Fbterm Unit := do
  Comp.modify fun s => { s with x := 0, y := s.y + 1 }
  let y ← Comp.read Fbterm.y
  Comp.when (g.height - y * g.fontHeight < g.fontHeight) do
    Comp.modify fun s => { s with y := s.y - 1 }
    fbtermCall fun s => .scrollUp g.fontHeight s.bg

/-- A glyph at the cursor, which then goes on by one column. -/
def fbtermPut (g : FbtermGeometry) (c : BitVec 8) : Comp Fbterm Unit := do
  fbtermCall fun s => .putcStub (s.x * g.fontWidth) (s.y * g.fontHeight) c s.fg s.bg false
  Comp.modify fun s => { s with x := s.x + 1 }

/-- The loop of a tabulator. More than `2 ^ 32` passes would repeat a value of `fbterm_x`. -/
def fbtermTab (g : FbtermGeometry) : (fuel : ℕ) → Comp Fbterm Unit
  | 0 => Comp.fault
  | fuel + 1 => do
    fbtermPut g 32
    let x ← Comp.read Fbterm.x
    if g.fontWidth ≤ g.width - x * g.fontWidth ∧ x % 4 ≠ 0 then fbtermTab g fuel else pure ()

/-- The new line after a glyph, where the next one would not fit. -/
def fbtermWrap (g : FbtermGeometry) : Comp Fbterm Unit := do
  let x ← Comp.read Fbterm.x
  Comp.when (g.width - x * g.fontWidth < g.fontWidth) (fbtermNewline g)

def fbtermPutcStub (g : FbtermGeometry) (c : BitVec 8) : Comp Fbterm Unit :=
  if c = 8 then
    Comp.modify fun s =>
      if s.x ≠ 0 then { s with x := s.x - 1 }
      else if s.y ≠ 0 then { s with x := g.width / g.fontWidth - 1, y := s.y - 1 }
      else s
  else if c = 13 then Comp.modify fun s => { s with x := 0 }
  else if c = 10 then fbtermNewline g
  else if c = 9 then do
    fbtermTab g (2 ^ 32)
    fbtermWrap g
  else do
    fbtermPut g c
    fbtermWrap g

/-- Without a framebuffer or a font (`none`) nothing happens. -/
def fbtermPutc (g : Option FbtermGeometry) (c : BitVec 8) : Comp Fbterm Unit :=
  match g with
  | none => pure ()
  | some g => fbtermPutcStub g c

/-- The string is the bytes from the pointer on, up to the terminator. -/
def fbtermPuts (g : Option FbtermGeometry) (str : List (BitVec 8)) : Comp Fbterm Unit :=
  match g with
  | none => pure ()
  | some g => Comp.forList (fbtermPutcStub g) (str.takeWhile (· ≠ 0))

def fbtermClear : Comp Fbterm Unit := do
  Comp.modify fun s => { s with x := 0, y := 0 }
  fbtermCall fun s => .fill s.bg

/-! The grid of the characters. -/

namespace FbtermGeometry

variable (g : FbtermGeometry)

/-- `fbuf_impl->width / fbuf_font->width` -/
abbrev cols : ℕ := g.width.toNat / g.fontWidth.toNat

/-- `fbuf_impl->height / fbuf_font->height` -/
abbrev rows : ℕ := g.height.toNat / g.fontHeight.toNat

/-- The calls that draw cells and scroll. -/
def surface (fg bg : BitVec 32) : Surface g.rows g.cols (BitVec 8) (List FbufCall) where
  write r c a calls := .putcStub (BitVec.ofNat 32 (c * g.fontWidth.toNat))
    (BitVec.ofNat 32 (r * g.fontHeight.toNat)) a fg bg false :: calls
  scroll calls := .scrollUp g.fontHeight bg :: calls

/-- The next glyph fits exactly when there is another cell, counted without wrapping. -/
theorem fits_iff {n w m : BitVec 32} (hw : 0 < w.toNat) (hn : n.toNat ≤ m.toNat / w.toNat) :
    w ≤ m - n * w ↔ n.toNat < m.toNat / w.toNat := by
  have hmul : n.toNat * w.toNat ≤ m.toNat := (Nat.le_div_iff_mul_le hw).mp hn
  have hm := m.isLt
  have hprod : (n * w).toNat = n.toNat * w.toNat := by
    rw [BitVec.toNat_mul]
    exact Nat.mod_eq_of_lt (Nat.lt_of_le_of_lt hmul hm)
  have hle : n * w ≤ m := by
    rw [BitVec.le_def, hprod]
    exact hmul
  rw [BitVec.le_def, BitVec.toNat_sub_of_le hle, hprod, Nat.lt_iff_add_one_le, Nat.le_div_iff_mul_le hw,
    Nat.succ_mul]
  omega

end FbtermGeometry

/-- The key a character stands for. -/
def fbtermKey (c : BitVec 8) : Key (BitVec 8) :=
  if c = 8 then .backspace
  else if c = 13 then .carriageReturn
  else if c = 10 then .newline
  else if c = 9 then .tab
  else .print c

/-- The cursor row, the colors and the calls are those of a terminal on the grid. -/
structure ShowsCalls (g : FbtermGeometry) (fg bg : BitVec 32) (s : Fbterm)
    (t : Terminal g.rows g.cols (List FbufCall)) : Prop where
  y : s.y.toNat = t.row
  fg : s.fg = fg
  bg : s.bg = bg
  calls : s.calls = t.surface

/-- The cursor is that of the terminal on the grid as well. -/
structure OnGrid (g : FbtermGeometry) (fg bg : BitVec 32) (s : Fbterm)
    (t : Terminal g.rows g.cols (List FbufCall)) : Prop extends ShowsCalls g fg bg s t where
  x : s.x.toNat = t.col

variable {g : FbtermGeometry} {fg bg : BitVec 32} {s : Fbterm} {t : Terminal g.rows g.cols (List FbufCall)}

theorem size_pos {n m w : ℕ} (h : n < m / w) : 0 < w := by
  by_contra hw
  rw [Nat.eq_zero_of_not_pos hw, Nat.div_zero] at h
  omega

theorem fontWidth_pos (t : Terminal g.rows g.cols (List FbufCall)) : 0 < g.fontWidth.toNat :=
  size_pos t.col.isLt

theorem fontHeight_pos (t : Terminal g.rows g.cols (List FbufCall)) : 0 < g.fontHeight.toNat :=
  size_pos t.row.isLt

theorem FbtermGeometry.cols_lt (g : FbtermGeometry) : g.cols < 2 ^ 32 :=
  Nat.lt_of_le_of_lt (Nat.div_le_self _ _) g.width.isLt

theorem FbtermGeometry.rows_lt (g : FbtermGeometry) : g.rows < 2 ^ 32 :=
  Nat.lt_of_le_of_lt (Nat.div_le_self _ _) g.height.isLt

theorem toNat_succ {b : BitVec 32} {n m : ℕ} (hb : b.toNat = n) (hn : n < m) (hm : m < 2 ^ 32) :
    (b + 1).toNat = n + 1 := by
  rw [BitVec.toNat_add, hb]
  simp only [BitVec.reduceToNat]
  omega

theorem toNat_pred {b : BitVec 32} (h : b ≠ 0) : (b - 1).toNat = b.toNat - 1 := by
  have hpos : b.toNat ≠ 0 := fun h0 => h (BitVec.eq_of_toNat_eq h0)
  rw [BitVec.toNat_sub]
  simp only [BitVec.reduceToNat]
  omega

theorem ShowsCalls.newline (h : ShowsCalls g fg bg s t) :
    ∃ u, fbtermNewline g s = some ((), u) ∧ OnGrid g fg bg u (TextGrid.newline (g.surface fg bg) t) := by
  have hrow := t.row.isLt
  have hy : (s.y + 1).toNat = t.row + 1 := toNat_succ h.y hrow g.rows_lt
  have hfits := FbtermGeometry.fits_iff (n := s.y + 1) (m := g.height) (fontHeight_pos t) (by rw [hy]; exact hrow)
  rw [hy] at hfits
  unfold fbtermNewline TextGrid.newline
  rw [Comp.modify_bind, Comp.read_bind]
  by_cases hlast : t.row.val + 1 < g.rows
  · rw [dif_pos hlast, Comp.when_false (BitVec.not_lt.mpr (hfits.mpr hlast))]
    exact ⟨_, rfl, ⟨hy, h.fg, h.bg, h.calls⟩, rfl⟩
  · rw [dif_neg hlast, Comp.when_true (BitVec.not_le.mp (mt hfits.mp hlast))]
    have hback : s.y + 1 - 1 = s.y := BitVec.add_sub_cancel _ _
    refine ⟨_, rfl, ⟨?_, h.fg, h.bg, ?_⟩, rfl⟩
    · exact (congrArg BitVec.toNat hback).trans h.y
    · rw [← h.calls, ← h.bg]
      rfl

/-- A glyph at the cursor is the call for the cell of the terminal. -/
theorem OnGrid.put (h : OnGrid g fg bg s t) (c : BitVec 8) :
    ∃ u, fbtermPut g c s = some ((), u) ∧ u.x.toNat = t.col + 1 ∧
      ShowsCalls g fg bg u (TextGrid.put (g.surface fg bg) c t) := by
  have hx : (s.x + 1).toNat = t.col + 1 := toNat_succ h.x t.col.isLt g.cols_lt
  refine ⟨_, rfl, hx, h.y, h.fg, h.bg, ?_⟩
  have hpx : s.x * g.fontWidth = BitVec.ofNat 32 (t.col * g.fontWidth.toNat) := by
    rw [← h.x, BitVec.ofNat_mul, BitVec.ofNat_toNat, BitVec.ofNat_toNat]
    simp
  have hpy : s.y * g.fontHeight = BitVec.ofNat 32 (t.row * g.fontHeight.toNat) := by
    rw [← h.y, BitVec.ofNat_mul, BitVec.ofNat_toNat, BitVec.ofNat_toNat]
    simp
  simp only [TextGrid.put, FbtermGeometry.surface, ← h.calls, ← h.fg, ← h.bg, ← hpx, ← hpy]

theorem ShowsCalls.wrap (h : ShowsCalls g fg bg s t) {n : ℕ} (hx : s.x.toNat = n) (hn : n ≤ g.cols) :
    ∃ u, fbtermWrap g s = some ((), u) ∧ OnGrid g fg bg u (moveTo (g.surface fg bg) n t) := by
  have hfits := FbtermGeometry.fits_iff (m := g.width) (fontWidth_pos t) (by rw [hx]; exact hn)
  rw [hx] at hfits
  unfold fbtermWrap moveTo
  rw [Comp.read_bind]
  by_cases hlt : n < g.cols
  · rw [Comp.when_false (BitVec.not_lt.mpr (hfits.mpr hlt)), dif_pos hlt]
    exact ⟨s, rfl, ⟨h.y, h.fg, h.bg, h.calls⟩, hx⟩
  · rw [Comp.when_true (BitVec.not_le.mp (mt hfits.mp hlt)), dif_neg hlt]
    exact h.newline

/-- The loop of a tabulator followed by the wrap moves on to the next tab stop. -/
theorem OnGrid.tab (h : OnGrid g fg bg s t) {fuel : ℕ} (hf : g.cols < fuel + t.col) :
    ∃ u n t', fbtermTab g fuel s = some ((), u) ∧ u.x.toNat = n ∧ n ≤ g.cols ∧ ShowsCalls g fg bg u t' ∧
      moveTo (g.surface fg bg) n t' = TextGrid.tab (g.surface fg bg) 4 32 t := by
  have hcol := t.col.isLt
  induction fuel generalizing s t with
  | zero => omega
  | succ fuel ih =>
    obtain ⟨u, hu, hx, hshow⟩ := h.put 32
    have hfits := FbtermGeometry.fits_iff (m := g.width) (fontWidth_pos t) (show u.x.toNat ≤ g.cols by omega)
    have hmore : g.fontWidth ≤ g.width - u.x * g.fontWidth ∧ u.x % 4 ≠ 0 ↔
        t.col.val + 1 < g.cols ∧ (t.col.val + 1) % 4 ≠ 0 := by
      rw [hfits, ne_eq, ← BitVec.toNat_inj, BitVec.toNat_umod, hx]
      rfl
    rw [fbtermTab, Comp.bind_of_eq hu, Comp.read_bind, tab_step (g.surface fg bg) (by omega)]
    by_cases hnext : t.col.val + 1 < g.cols ∧ (t.col.val + 1) % 4 ≠ 0
    · rw [if_pos (hmore.mpr hnext), dif_pos hnext]
      refine ih ⟨⟨hshow.y, hshow.fg, hshow.bg, hshow.calls⟩, hx⟩ ?_ hnext.1
      change g.cols < fuel + (t.col.val + 1)
      omega
    · rw [if_neg (mt hmore.mp hnext), dif_neg hnext]
      exact ⟨u, _, _, rfl, hx, by omega, hshow, rfl⟩

/-- Every character does to the cursor and the calls what its key does on the grid. -/
theorem OnGrid.putcStub (h : OnGrid g fg bg s t) (c : BitVec 8) :
    ∃ u, fbtermPutcStub g c s = some ((), u) ∧
      OnGrid g fg bg u (press (g.surface fg bg) 4 32 t (fbtermKey c)) := by
  have hrow := t.row.isLt
  have hcol := t.col.isLt
  have hx0 : s.x = 0 ↔ t.col.val = 0 := by
    rw [← BitVec.toNat_inj, h.x]
    rfl
  have hy0 : s.y = 0 ↔ t.row.val = 0 := by
    rw [← BitVec.toNat_inj, h.y]
    rfl
  unfold fbtermPutcStub fbtermKey
  split_ifs with hback hcr hnl htab
  · refine ⟨_, rfl, ?_⟩
    simp only [press, backspace]
    by_cases hcol0 : t.col.val = 0
    · by_cases hrow0 : t.row.val = 0
      · rw [if_neg (not_not_intro (hx0.mpr hcol0)), if_neg (not_not_intro (hy0.mpr hrow0)),
          if_neg (by omega), if_neg (by omega)]
        exact h
      · rw [if_neg (not_not_intro (hx0.mpr hcol0)), if_pos (mt hy0.mp hrow0), if_neg (by omega),
          if_pos (by omega)]
        have hdiv : (g.width / g.fontWidth).toNat = g.cols := BitVec.toNat_udiv
        have hne : g.width / g.fontWidth ≠ 0 := by
          intro h0
          rw [h0] at hdiv
          have : (0 : BitVec 32).toNat = 0 := rfl
          omega
        refine ⟨⟨?_, h.fg, h.bg, h.calls⟩, ?_⟩
        · rw [toNat_pred (mt hy0.mp hrow0), h.y]
        · rw [toNat_pred hne, hdiv]
          rfl
    · rw [if_pos (mt hx0.mp hcol0), if_pos (by omega)]
      refine ⟨⟨h.y, h.fg, h.bg, h.calls⟩, ?_⟩
      rw [toNat_pred (mt hx0.mp hcol0), h.x]
  · exact ⟨_, rfl, ⟨h.y, h.fg, h.bg, h.calls⟩, rfl⟩
  · exact h.newline
  · have hcols := g.cols_lt
    obtain ⟨u, n, t', hu, hx, hn, hshow, htab⟩ := @OnGrid.tab _ _ _ _ _ h (2 ^ 32) (by omega)
    rw [Comp.bind_of_eq hu]
    simp only [press]
    rw [← htab]
    exact hshow.wrap hx hn
  · obtain ⟨u, hu, hx, hshow⟩ := h.put c
    rw [Comp.bind_of_eq hu]
    exact hshow.wrap hx hcol

theorem OnGrid.putcStubs (h : OnGrid g fg bg s t) (str : List (BitVec 8)) :
    ∃ u, Comp.forList (fbtermPutcStub g) str s = some ((), u) ∧
      OnGrid g fg bg u (str.foldl (fun t c => press (g.surface fg bg) 4 32 t (fbtermKey c)) t) :=
  Comp.forList_sim (fun c _ _ hg => hg.putcStub c) str h

/-! Sequences of calls. -/

inductive FbtermOp
  | putc (c : BitVec 8)
  | puts (str : List (BitVec 8))
  | clear

def FbtermOp.run (g : FbtermGeometry) : FbtermOp → Comp Fbterm Unit
  | putc c => fbtermPutc (some g) c
  | puts str => fbtermPuts (some g) str
  | clear => fbtermClear

/-- The operation on the grid. -/
def FbtermOp.onGrid (g : FbtermGeometry) (fg bg : BitVec 32) (t : Terminal g.rows g.cols (List FbufCall)) :
    FbtermOp → Terminal g.rows g.cols (List FbufCall)
  | putc c => press (g.surface fg bg) 4 32 t (fbtermKey c)
  | puts str => (str.takeWhile (· ≠ 0)).foldl (fun t c => press (g.surface fg bg) 4 32 t (fbtermKey c)) t
  | clear => ⟨.fill bg :: t.surface, ⟨0, Nat.zero_lt_of_lt t.row.isLt⟩, firstCol t.col⟩

theorem OnGrid.op (h : OnGrid g fg bg s t) (op : FbtermOp) :
    ∃ u, op.run g s = some ((), u) ∧ OnGrid g fg bg u (op.onGrid g fg bg t) := by
  cases op with
  | putc c => exact h.putcStub c
  | puts str => exact h.putcStubs _
  | clear =>
    refine ⟨_, rfl, ⟨rfl, h.fg, h.bg, ?_⟩, rfl⟩
    simp only [FbtermOp.onGrid, ← h.calls, ← h.bg]

/-- The glyph of a call lies on the screen; the product of row and height does not wrap. -/
def FbufCall.OnScreen (g : FbtermGeometry) : FbufCall → Prop
  | putcStub x y _ _ _ _ => x.toNat + g.fontWidth.toNat ≤ g.width.toNat ∧
      y.toNat + g.fontHeight.toNat ≤ g.height.toNat
  | _ => True

/-- The glyph of a cell of the grid lies on the screen. -/
theorem FbtermGeometry.write_onScreen (r : Fin g.rows) (c : Fin g.cols) (a : BitVec 8) {calls : List FbufCall}
    (h : ∀ call ∈ calls, call.OnScreen g) : ∀ call ∈ (g.surface fg bg).write r c a calls, call.OnScreen g := by
  have hedge : ∀ {n : ℕ} {w size : BitVec 32}, n < size.toNat / w.toNat →
      (BitVec.ofNat 32 (n * w.toNat)).toNat + w.toNat ≤ size.toNat := by
    intro n w size hn
    have hmul := (Nat.le_div_iff_mul_le (size_pos hn)).mp (Nat.succ_le_of_lt hn)
    have hsize := size.isLt
    rw [Nat.succ_mul] at hmul
    rw [BitVec.toNat_ofNat, Nat.mod_eq_of_lt (by omega)]
    exact hmul
  intro call hcall
  rcases List.mem_cons.mp hcall with rfl | hcall
  · exact ⟨hedge c.isLt, hedge r.isLt⟩
  · exact h call hcall

theorem FbtermOp.onGrid_onScreen (op : FbtermOp) (h : ∀ call ∈ t.surface, call.OnScreen g) :
    ∀ call ∈ (op.onGrid g fg bg t).surface, call.OnScreen g := by
  have hpress : ∀ (t : Terminal g.rows g.cols (List FbufCall)) (c : BitVec 8),
      (∀ call ∈ t.surface, call.OnScreen g) →
      ∀ call ∈ (press (g.surface fg bg) 4 32 t (fbtermKey c)).surface, call.OnScreen g := by
    intro t c ht
    refine press_surface (P := fun calls : List FbufCall => ∀ call ∈ calls, call.OnScreen g) _
      (fun r c a calls => FbtermGeometry.write_onScreen r c a) (fun calls hcalls call hcall => ?_) _ ht
    rcases List.mem_cons.mp hcall with rfl | hcall
    · trivial
    · exact hcalls call hcall
  cases op with
  | putc c => exact hpress t c h
  | puts str =>
    simp only [FbtermOp.onGrid]
    induction str.takeWhile (· ≠ 0) generalizing t with
    | nil => exact h
    | cons c str ih => exact ih (hpress t c h)
  | clear =>
    intro call hcall
    rcases List.mem_cons.mp hcall with rfl | hcall
    · trivial
    · exact h call hcall

theorem OnGrid.ops (h : OnGrid g fg bg s t) (hc : ∀ call ∈ t.surface, call.OnScreen g) (ops : List FbtermOp) :
    ∃ u, Comp.forList (FbtermOp.run g) ops s = some ((), u) ∧
      OnGrid g fg bg u (ops.foldl (FbtermOp.onGrid g fg bg) t) ∧ ∀ call ∈ u.calls, call.OnScreen g := by
  have hstep (op : FbtermOp) (s : Fbterm) (t : Terminal g.rows g.cols (List FbufCall))
      (hst : OnGrid g fg bg s t ∧ ∀ call ∈ t.surface, call.OnScreen g) :
      ∃ u, op.run g s = some ((), u) ∧ OnGrid g fg bg u (op.onGrid g fg bg t) ∧
        ∀ call ∈ (op.onGrid g fg bg t).surface, call.OnScreen g := by
    obtain ⟨u, hu, hg⟩ := hst.1.op op
    exact ⟨u, hu, hg, op.onGrid_onScreen hst.2⟩
  obtain ⟨u, hu, hg, hon⟩ := Comp.forList_sim hstep ops ⟨h, hc⟩
  exact ⟨u, hu, hg, hg.calls ▸ hon⟩

/-- From the upper left corner on, any sequence of operations returns with the cursor inside the grid of
whole characters, and every glyph it has asked for lies on the screen. -/
theorem fbterm_stays_on_screen (g : FbtermGeometry) (hcols : 1 ≤ g.width.toNat / g.fontWidth.toNat)
    (hrows : 1 ≤ g.height.toNat / g.fontHeight.toNat) (s : Fbterm) (hx : s.x = 0) (hy : s.y = 0)
    (hcalls : s.calls = []) (ops : List FbtermOp) :
    ∃ u, Comp.forList (FbtermOp.run g) ops s = some ((), u) ∧
      u.x.toNat < g.width.toNat / g.fontWidth.toNat ∧ u.y.toNat < g.height.toNat / g.fontHeight.toNat ∧
      ∀ call ∈ u.calls, call.OnScreen g := by
  have hstart : OnGrid g s.fg s.bg s ⟨[], ⟨0, hrows⟩, ⟨0, hcols⟩⟩ := by
    refine ⟨⟨?_, rfl, rfl, hcalls⟩, ?_⟩
    · rw [hy]
      rfl
    · rw [hx]
      rfl
  obtain ⟨u, hu, hg, hon⟩ := hstart.ops (by simp) ops
  refine ⟨u, hu, ?_, ?_, hon⟩
  · rw [hg.x]
    exact Fin.isLt _
  · rw [hg.y]
    exact Fin.isLt _

/-- Two and a half columns and two rows: the tabulator goes to the next row, the new line scrolls. -/
theorem fbterm_stays_on_screen_sample :
    ∃ u, Comp.forList (FbtermOp.run ⟨20, 33, 8, 16⟩) [.puts [65, 9, 10, 66], .clear, .putc 8]
        ⟨0, 0, 0xC0C0C0, 0, []⟩ = some ((), u) ∧
      u.x.toNat < (20#32).toNat / (8#32).toNat ∧ u.y.toNat < (33#32).toNat / (16#32).toNat ∧
      ∀ call ∈ u.calls, call.OnScreen ⟨20, 33, 8, 16⟩ :=
  fbterm_stays_on_screen ⟨20, 33, 8, 16⟩ (by decide) (by decide) _ rfl rfl rfl _

end SysX
