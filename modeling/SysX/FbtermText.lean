import SysX.TermFbuf
import SysX.GlyphDrawing

/-!
What the framebuffer terminal shows: the calls of `hal/term_fbuf.c` carried out on a framebuffer with a backbuffer, and
the text that its pixels spell.
-/
namespace SysX
open TextGrid

/-- The screen with the font of `hal/fonts/font8x16.c`. -/
def font8x16Geometry (width height : BitVec 32) : FbtermGeometry := ⟨width, height, 8, 16⟩

/-- What a call of the terminal does to `fbuf_impl`. -/
def FbufCall.apply (bitmap : FontBitmap) (low : ℕ → Option UInt8) (impl : ScrollFbuf) : FbufCall → Option ScrollFbuf
  | putcStub x y c fg bg transparent =>
    (fbufPutcStub bitmap impl.toFbuf x y c fg bg transparent).map fun fbuf => { impl with toFbuf := fbuf }
  | scrollUp lines color => (fbufScrollUp low (some impl) lines.toNat color).join
  | fill color => some { impl with toFbuf := fbufFill impl.toFbuf color }

/-- All the calls, of which the last one comes first. -/
def fbufCalls (bitmap : FontBitmap) (low : ℕ → Option UInt8) (impl : ScrollFbuf) : List FbufCall → Option ScrollFbuf
  | [] => some impl
  | call :: calls => (fbufCalls bitmap low impl calls).bind fun impl => call.apply bitmap low impl

theorem font8x16_rows {width height : BitVec 32} (h : 16 ≤ height.toNat) : 0 < (font8x16Geometry width height).rows :=
  Nat.div_pos h (show 0 < 16 by decide)

theorem font8x16_cols {width height : BitVec 32} (h : 8 ≤ width.toNat) : 0 < (font8x16Geometry width height).cols :=
  Nat.div_pos h (show 0 < 8 by decide)

/-- `fbterm_setfg_rgb`, or any call of the terminal -/
inductive FbtermTextOp
  | op (op : FbtermOp)
  | setfgRgb (color : FbufColor)

def FbtermTextOp.run (g : FbtermGeometry) : FbtermTextOp → Comp Fbterm Unit
  | op o => o.run g
  | setfgRgb color => Comp.modify fun s => { s with fg := color }

/-! The text. -/

/-- A character with its color, or a blank cell. -/
abbrev TextCell := Option (BitVec 8 × FbufColor)

section Text

variable {rows cols : ℕ}

def textSurface (rows cols : ℕ) (fg : FbufColor) : Surface rows cols (BitVec 8) (Screen rows cols TextCell) where
  write r c a := (screen rows cols none).write r c (some (a, fg))
  scroll := (screen rows cols (none : TextCell)).scroll

/-- The text, the cursor and the color of what comes next. -/
structure TextTerm (rows cols : ℕ) where
  term : Terminal rows cols (Screen rows cols TextCell)
  fg : FbufColor

/-- The empty text. -/
def TextTerm.blank (hrows : 0 < rows) (hcols : 0 < cols) (fg : FbufColor) : TextTerm rows cols :=
  ⟨⟨fun _ _ => none, ⟨0, hrows⟩, ⟨0, hcols⟩⟩, fg⟩

def TextTerm.putc (t : TextTerm rows cols) (c : BitVec 8) : TextTerm rows cols :=
  { t with term := press (textSurface rows cols t.fg) 4 32 t.term (fbtermKey c) }

def TextTerm.clear (t : TextTerm rows cols) : TextTerm rows cols :=
  { t with term := ⟨fun _ _ => none, ⟨0, Nat.zero_lt_of_lt t.term.row.isLt⟩, firstCol t.term.col⟩ }

def TextTerm.op (t : TextTerm rows cols) : FbtermTextOp → TextTerm rows cols
  | .op (.putc c) => t.putc c
  | .op (.puts str) => (str.takeWhile (· ≠ 0)).foldl TextTerm.putc t
  | .op .clear => t.clear
  | .setfgRgb color => { t with fg := color }

/-- The color of a pixel of a cell. -/
def cellColor (bitmap : FontBitmap) (bg : FbufColor) (px py : ℕ) : TextCell → FbufColor
  | none => bg
  | some (c, fg) => glyphColor bitmap c fg bg px py

/-- The picture of the text. What the cells leave of the screen is in the background color. -/
def textPicture (bitmap : FontBitmap) (bg : FbufColor) (text : Screen rows cols TextCell) : Picture := fun p =>
  if h : p.2 / 16 < rows ∧ p.1 / 8 < cols then
    cellColor bitmap bg (p.1 % 8) (p.2 % 16) (text ⟨p.2 / 16, h.1⟩ ⟨p.1 / 8, h.2⟩)
  else bg

variable {bitmap : FontBitmap} {fg bg : FbufColor} {text : Screen rows cols TextCell} {p : ℕ × ℕ}

theorem textPicture_blank : textPicture bitmap bg (fun (_ : Fin rows) (_ : Fin cols) => none) p = bg := by
  unfold textPicture
  split_ifs <;> rfl

theorem textPicture_write (r : Fin rows) (c : Fin cols) (a : BitVec 8) :
    textPicture bitmap bg ((textSurface rows cols fg).write r c a text) p =
      if (c * 8 ≤ p.1 ∧ p.1 < c * 8 + 8) ∧ r * 16 ≤ p.2 ∧ p.2 < r * 16 + 16 then
        glyphColor bitmap a fg bg (p.1 - c * 8) (p.2 - r * 16) else textPicture bitmap bg text p := by
  have hr := r.isLt
  have hc := c.isLt
  unfold textPicture
  by_cases hin : (c * 8 ≤ p.1 ∧ p.1 < c * 8 + 8) ∧ r * 16 ≤ p.2 ∧ p.2 < r * 16 + 16
  · have hcell : p.2 / 16 = r ∧ p.1 / 8 = c := by omega
    rw [if_pos hin, dif_pos (by omega)]
    simp only [textSurface, screen]
    rw [if_pos ⟨Fin.ext hcell.1, Fin.ext hcell.2⟩, cellColor]
    congr 1 <;> omega
  · rw [if_neg hin]
    by_cases hgrid : p.2 / 16 < rows ∧ p.1 / 8 < cols
    · rw [dif_pos hgrid, dif_pos hgrid]
      simp only [textSurface, screen]
      rw [if_neg]
      rintro ⟨hrow, hcol⟩
      have hrow := congrArg Fin.val hrow
      have hcol := congrArg Fin.val hcol
      dsimp only at hrow hcol
      omega
    · rw [dif_neg hgrid, dif_neg hgrid]

/-- The rows move up, and below the last one there is background only. -/
theorem textPicture_scroll {height : ℕ} (hrows : rows = height / 16) (hpos : 0 < rows) (hp : p.2 < height) :
    textPicture bitmap bg ((textSurface rows cols fg).scroll text) p =
      if p.2 < height - 16 then textPicture bitmap bg text (p.1, p.2 + 16) else bg := by
  have hrow : (p.2 + 16) / 16 = p.2 / 16 + 1 := by omega
  have hmod : (p.2 + 16) % 16 = p.2 % 16 := by omega
  unfold textPicture
  dsimp only
  rw [hmod]
  simp only [hrow]
  by_cases hlast : p.2 / 16 + 1 < rows
  · rw [if_pos (by omega)]
    by_cases hcol : p.1 / 8 < cols
    · rw [dif_pos ⟨by omega, hcol⟩, dif_pos ⟨hlast, hcol⟩]
      simp only [textSurface, screen]
      rw [dif_pos hlast]
    · rw [dif_neg fun h => hcol h.2, dif_neg fun h => hcol h.2]
  · rw [dif_neg (show ¬ (p.2 / 16 + 1 < rows ∧ p.1 / 8 < cols) from fun h => hlast h.1), ite_self]
    by_cases hgrid : p.2 / 16 < rows ∧ p.1 / 8 < cols
    · rw [dif_pos hgrid]
      simp only [textSurface, screen]
      rw [dif_neg hlast]
      rfl
    · rw [dif_neg hgrid]

end Text

/-! The terminal. -/

section Term

variable {width height : BitVec 32} {bitmap : FontBitmap} {low : ℕ → Option UInt8} {fg bg : FbufColor} {impl₀ impl : ScrollFbuf}
  {s : Fbterm}

/-- A framebuffer of this size, with a backbuffer and without a hook for scrolling. -/
structure FbtermScreen (width height : BitVec 32) (impl : ScrollFbuf) : Prop where
  width : impl.width = width.toNat
  height : impl.height = height.toNat
  fits : impl.Fits
  back : impl.backbuffer.isSome
  hook : impl.scrollUp = none

theorem FbtermScreen.same (h : FbtermScreen width height impl) {impl' : ScrollFbuf} (hs : impl.toFbuf.SameScreen impl'.toFbuf)
    (hhook : impl'.scrollUp = none) : FbtermScreen width height impl' :=
  ⟨hs.width.trans h.width, hs.height.trans h.height, hs.fits h.fits, hs.back.trans h.back, hhook⟩

/-- The calls lead to the picture of the text. -/
def CallsShow (bitmap : FontBitmap) (low : ℕ → Option UInt8) (width height : BitVec 32) (impl₀ : ScrollFbuf) (bg : FbufColor)
    (calls : List FbufCall)
    (text : Screen (font8x16Geometry width height).rows (font8x16Geometry width height).cols TextCell) : Prop :=
  ∃ impl, fbufCalls bitmap low impl₀ calls = some impl ∧ FbtermScreen width height impl ∧
    impl.Shows (textPicture bitmap bg text)

/-- The glyph of a cell lies on the screen. -/
theorem cell_onScreen {n k : ℕ} {w size : BitVec 32} (hw : w.toNat = k) (hn : n < size.toNat / k) :
    (BitVec.ofNat 32 (n * w.toNat)).toNat = n * k ∧ n * k + k ≤ size.toNat := by
  have hk := size_pos hn
  have hmul := (Nat.le_div_iff_mul_le hk).mp (Nat.succ_le_of_lt hn)
  have hsize := size.isLt
  rw [Nat.succ_mul] at hmul
  rw [hw, BitVec.toNat_ofNat, Nat.mod_eq_of_lt (by omega)]
  exact ⟨rfl, hmul⟩

theorem callsShow_simulates (bitmap : FontBitmap) (low : ℕ → Option UInt8) (width height : BitVec 32) (impl₀ : ScrollFbuf)
    (fg bg : FbufColor) (hrows : 16 ≤ height.toNat) : ((font8x16Geometry width height).surface fg bg).Simulates
      (textSurface _ _ fg) (CallsShow bitmap low width height impl₀ bg) where
  write r c a calls text := by
    rintro ⟨impl, hcalls, hscreen, hshows⟩
    obtain ⟨hx, hright⟩ := cell_onScreen (w := 8#32) (k := 8) rfl c.isLt
    obtain ⟨hy, hbottom⟩ := cell_onScreen (w := 16#32) (k := 16) rfl r.isLt
    have hwidth := width.isLt
    have hheight := height.isLt
    obtain ⟨fbuf, hput, hsame, hpic⟩ := hshows.putc bitmap fg bg a (x := BitVec.ofNat 32 (c * (8#32).toNat))
      (y := BitVec.ofNat 32 (r * (16#32).toNat)) hscreen.fits (by rw [hx, hscreen.width]; exact hright)
      (by rw [hy, hscreen.height]; exact hbottom) (by rw [hscreen.width]; omega) (by rw [hscreen.height]; omega)
    refine ⟨{ impl with toFbuf := fbuf }, ?_, hscreen.same hsame hscreen.hook, hpic.congr fun p _ _ => ?_⟩
    · show (fbufCalls bitmap low impl₀ calls).bind _ = _
      rw [hcalls, Option.bind_some]
      show (fbufPutcStub bitmap impl.toFbuf (BitVec.ofNat 32 (c * (8#32).toNat)) (BitVec.ofNat 32 (r * (16#32).toNat))
        a fg bg false).map _ = _
      rw [hput]
      rfl
    · rw [hx, hy]
      exact textPicture_write r c a
  scroll calls text := by
    rintro ⟨impl, hcalls, hscreen, hshows⟩
    obtain ⟨impl', hrun, hsame, hhook, hpic⟩ := ScrollFbuf.shows_scroll 16 low hshows hscreen.fits hscreen.back
      hscreen.hook (by decide) (by rw [hscreen.height]; exact hrows) bg
    refine ⟨impl', ?_, hscreen.same hsame hhook, hpic.congr fun p _ hp => ?_⟩
    · show (fbufCalls bitmap low impl₀ calls).bind _ = _
      rw [hcalls, Option.bind_some]
      show (fbufScrollUp low (some impl) (16#32).toNat bg).join = _
      rw [show (16#32).toNat = 16 from rfl, hrun]
      rfl
    · rw [hsame.height, hscreen.height] at hp
      rw [hscreen.height]
      exact textPicture_scroll rfl (show 0 < height.toNat / 16 from Nat.div_pos hrows (by decide)) hp

/-- The cursor is that of the text, and the calls so far lead to its picture. -/
def ShowsText (bitmap : FontBitmap) (low : ℕ → Option UInt8) (width height : BitVec 32) (impl₀ : ScrollFbuf) (bg : FbufColor)
    (s : Fbterm) (t : TextTerm (font8x16Geometry width height).rows (font8x16Geometry width height).cols) : Prop :=
  ∃ t', OnGrid (font8x16Geometry width height) t.fg bg s t' ∧ Related (CallsShow bitmap low width height impl₀ bg) t' t.term

variable {t : TextTerm (font8x16Geometry width height).rows (font8x16Geometry width height).cols}

theorem ShowsText.putc (hrows : 16 ≤ height.toNat) (h : ShowsText bitmap low width height impl₀ bg s t) (c : BitVec 8) :
    ∃ u, fbtermPutcStub (font8x16Geometry width height) c s = some ((), u) ∧
      ShowsText bitmap low width height impl₀ bg u (t.putc c) := by
  obtain ⟨t', hgrid, hrel⟩ := h
  obtain ⟨u, hu, hgrid'⟩ := hgrid.putcStub c
  exact ⟨u, hu, _, hgrid', hrel.press (callsShow_simulates bitmap low width height impl₀ t.fg bg hrows) 4 32 (fbtermKey c)⟩

/-- A fill leaves the picture of the empty text. -/
theorem ShowsText.clear (h : ShowsText bitmap low width height impl₀ bg s t) :
    ∃ u, fbtermClear s = some ((), u) ∧ ShowsText bitmap low width height impl₀ bg u t.clear := by
  obtain ⟨t', hgrid, hrel⟩ := h
  obtain ⟨u, hu, hgrid'⟩ := hgrid.op .clear
  refine ⟨u, hu, _, hgrid', rfl, ?_, ?_⟩
  · exact congrArg firstCol hrel.col
  · obtain ⟨impl, hcalls, hscreen, -⟩ := hrel.surface
    obtain ⟨hsame, hshows⟩ := Fbuf.shows_fill hscreen.fits bg
    refine ⟨{ impl with toFbuf := fbufFill impl.toFbuf bg }, ?_, hscreen.same hsame hscreen.hook,
      hshows.congr fun p _ _ => textPicture_blank⟩
    show (fbufCalls bitmap low impl₀ t'.surface).bind _ = _
    rw [hcalls]
    rfl

theorem ShowsText.op (hrows : 16 ≤ height.toNat) (h : ShowsText bitmap low width height impl₀ bg s t) (op : FbtermTextOp) :
    ∃ u, op.run (font8x16Geometry width height) s = some ((), u) ∧
      ShowsText bitmap low width height impl₀ bg u (t.op op) := by
  cases op with
  | op o =>
    cases o with
    | putc c => exact h.putc hrows c
    | puts str =>
      exact Comp.forList_sim (R := ShowsText bitmap low width height impl₀ bg) (g := TextTerm.putc)
        (fun c _ _ h => h.putc hrows c) (str.takeWhile (· ≠ 0)) h
    | clear => exact h.clear
  | setfgRgb color =>
    obtain ⟨t', hgrid, hrel⟩ := h
    exact ⟨{ s with fg := color }, rfl, t', ⟨⟨hgrid.y, rfl, hgrid.bg, hgrid.calls⟩, hgrid.x⟩, hrel⟩

/-- A cleared screen shows the empty text. -/
theorem showsText_clear (bitmap : FontBitmap) (low : ℕ → Option UInt8) (hcols : 8 ≤ width.toNat) (hrows : 16 ≤ height.toNat)
    (himpl : FbtermScreen width height impl)
    (hcalls : s.calls = []) :
    ∃ u, fbtermClear s = some ((), u) ∧ ShowsText bitmap low width height impl s.bg u
      (TextTerm.blank (font8x16_rows hrows) (font8x16_cols hcols) s.fg) := by
  obtain ⟨hsame, hshows⟩ := Fbuf.shows_fill himpl.fits s.bg
  refine ⟨_, rfl, ⟨[.fill s.bg], ⟨0, font8x16_rows hrows⟩, ⟨0, font8x16_cols hcols⟩⟩,
    ⟨⟨rfl, rfl, rfl, ?_⟩, rfl⟩, rfl, rfl, { impl with toFbuf := fbufFill impl.toFbuf s.bg }, rfl,
    himpl.same hsame himpl.hook, hshows.congr fun p _ _ => textPicture_blank⟩
  show FbufCall.fill s.bg :: s.calls = _
  rw [hcalls]

end Term

end SysX
