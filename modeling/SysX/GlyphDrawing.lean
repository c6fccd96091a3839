import SysX.Scrolling

/-!
What glyphs, fills and scrolls leave on the screen (`font8x16_draw` in `hal/fonts/font8x16.c`, `fbuf_putc_stub` and the like
in `hal/fbuf.c`), pixel by pixel.
-/
namespace SysX

/-- `font8x16_bitmap`: the rows of the glyph of each character -/
abbrev FontBitmap := BitVec 8 → ℕ → BitVec 8

/-- The loop over the columns of a row, of which `n` are left. -/
def font8x16DrawRow (x y : BitVec 32) (fg bg : FbufColor) (transparent : Bool) :
    (n col : ℕ) → (rbm : BitVec 8) → Option Fbuf → Option Fbuf
  | 0, _, _, fbufImpl => fbufImpl
  | n + 1, col, rbm, fbufImpl =>
    let fbufImpl :=
      if rbm &&& 0x80 ≠ 0 then fbufPutpixel fbufImpl (x + BitVec.ofNat 32 col).toNat y.toNat 1 fg
      else if ¬transparent then fbufPutpixel fbufImpl (x + BitVec.ofNat 32 col).toNat y.toNat 1 bg
      else fbufImpl
    font8x16DrawRow x y fg bg transparent n (col + 1) (rbm <<< 1) fbufImpl

/-- The loop over the rows. -/
def font8x16DrawRows (bitmap : FontBitmap) (x y : BitVec 32) (c : BitVec 8) (fg bg : FbufColor) (transparent : Bool) :
    (n row : ℕ) → Option Fbuf → Option Fbuf
  | 0, _, fbufImpl => fbufImpl
  | n + 1, row, fbufImpl =>
    font8x16DrawRows bitmap x y c fg bg transparent n (row + 1)
      (font8x16DrawRow x (y + BitVec.ofNat 32 row) fg bg transparent 8 0 (bitmap c row) fbufImpl)

def font8x16Draw (bitmap : FontBitmap) (x y : BitVec 32) (c : BitVec 8) (fg bg : FbufColor) (transparent : Bool)
    (fbufImpl : Option Fbuf) : Option Fbuf :=
  font8x16DrawRows bitmap x y c fg bg transparent 16 0 fbufImpl

/-- `fbuf_putc_stub` with this font, where there is a framebuffer -/
def fbufPutcStub (bitmap : FontBitmap) (impl : Fbuf) (x y : BitVec 32) (c : BitVec 8) (fg bg : FbufColor)
    (transparent : Bool) : Option Fbuf :=
  if impl.width ≤ x.toNat ∨ impl.height ≤ y.toNat then some impl
  else font8x16Draw bitmap x y c fg bg transparent (some impl)

/-- `fbuf_fill`, where there is a framebuffer -/
def fbufFill (impl : Fbuf) (color : FbufColor) : Fbuf :=
  { impl with
    backbuffer := impl.backbuffer.map fun m => fbufFillStub impl m 0 impl.height color
    framebuffer :=
      if impl.dbufDirectWrite ∨ impl.backbuffer = none then fbufFillStub impl impl.framebuffer 0 impl.height color
      else impl.framebuffer }

/-! Pictures. -/

/-- The colors of the pixels. -/
abbrev Picture := ℕ × ℕ → FbufColor

namespace Fbuf

/-- The pixel has the bytes of the color. -/
def PixelIs (impl : Fbuf) (m : FbufBytes) (p : ℕ × ℕ) (color : FbufColor) : Prop :=
  ∀ i < fbufBytesPerPixel impl.type, m (impl.offset p + i) = pixelByte impl.type color i

/-- All buffers that are kept up to date show the picture. -/
def Shows (impl : Fbuf) (pic : Picture) : Prop :=
  ∀ m ∈ impl.maintained, ∀ p, p.1 < impl.width → p.2 < impl.height → impl.PixelIs m p (pic p)

/-- Only bytes of the buffers have changed. -/
structure SameScreen (impl impl' : Fbuf) : Prop where
  width : impl'.width = impl.width
  height : impl'.height = impl.height
  type : impl'.type = impl.type
  pitch : impl'.pitch = impl.pitch
  back : impl'.backbuffer.isSome = impl.backbuffer.isSome

theorem SameScreen.refl (impl : Fbuf) : impl.SameScreen impl := ⟨rfl, rfl, rfl, rfl, rfl⟩

theorem SameScreen.trans {impl impl' impl'' : Fbuf} (h : impl.SameScreen impl') (h' : impl'.SameScreen impl'') :
    impl.SameScreen impl'' :=
  ⟨h'.width.trans h.width, h'.height.trans h.height, h'.type.trans h.type, h'.pitch.trans h.pitch, h'.back.trans h.back⟩

theorem SameScreen.fits {impl impl' : Fbuf} (h : impl.SameScreen impl') (hfits : impl.Fits) : impl'.Fits := by
  unfold Fits at *
  rwa [h.width, h.type, h.pitch]

end Fbuf

section Draw

variable {impl : Fbuf} {pic : Picture} {color : FbufColor} {x y : ℕ}

theorem Fbuf.Shows.congr {pic' : Picture} (h : impl.Shows pic)
    (hpic : ∀ p, p.1 < impl.width → p.2 < impl.height → pic' p = pic p) :
    impl.Shows pic' := fun m hm p hx hy => by
  rw [hpic p hx hy]
  exact h m hm p hx hy

/-- Other pixels lie elsewhere. -/
theorem Fbuf.drawn_pixel (hfits : impl.Fits) (hx : x < impl.width) (m : FbufBytes) {p : ℕ × ℕ} (hp : p.1 < impl.width)
    {i : ℕ} (hi : i < fbufBytesPerPixel impl.type) :
    impl.drawn x y 1 color m (impl.offset p + i) =
      if p = (x, y) then pixelByte impl.type color i else m (impl.offset p + i) := by
  by_cases heq : p = (x, y)
  · subst heq
    rw [if_pos rfl]
    exact Fbuf.drawn_inside hfits hx (mem_runCells hx hx (Nat.le_refl _) (Nat.lt_succ_self _)) hi
  · rw [if_neg heq]
    refine Fbuf.drawn_byte hx fun q hq => ?_
    have hq : q = (x, y) := cellIndex_inj hq.1 hx (by have := hq.2; omega)
    subst hq
    rcases Nat.lt_trichotomy (cellIndex impl.width p) (cellIndex impl.width (x, y)) with hlt | hidx | hgt
    · have := cellOffset_add_le hfits hp hx hlt
      left
      unfold Fbuf.offset
      omega
    · exact absurd (cellIndex_inj hp hx hidx) heq
    · have := cellOffset_add_le hfits hx hp hgt
      right
      unfold Fbuf.offset
      omega

theorem Fbuf.mem_maintained_after {m' : FbufBytes} {n : ℕ} (hm : m' ∈ (impl.after x y n color).maintained) :
    ∃ m ∈ impl.maintained, m' = impl.drawn x y n color m := by
  obtain ⟨width, height, type, pitch, front, back, direct⟩ := impl
  cases back with
  | none =>
    simp [Fbuf.maintained, Fbuf.after] at hm ⊢
    exact hm
  | some m =>
    cases direct with
    | false =>
      simp [Fbuf.maintained, Fbuf.after] at hm ⊢
      exact hm
    | true =>
      simp [Fbuf.maintained, Fbuf.after] at hm ⊢
      exact hm

theorem Fbuf.after_screen (impl : Fbuf) (x y n : ℕ) (color : FbufColor) : impl.SameScreen (impl.after x y n color) :=
  ⟨rfl, rfl, rfl, rfl, Option.isSome_map⟩

/-- One pixel. -/
theorem Fbuf.Shows.put (h : impl.Shows pic) (hfits : impl.Fits) (hx : x < impl.width) (hy : y < impl.height)
    (color : FbufColor) : ∃ impl', fbufPutpixel (some impl) x y 1 color = some impl' ∧ impl.SameScreen impl' ∧
      impl'.Shows (Function.update pic (x, y) color) := by
  refine ⟨impl.after x y 1 color, fbufPutpixel_eq hfits (onScreen_one hx hy) one_ne_zero, impl.after_screen x y 1 color, ?_⟩
  intro m' hm' p hpx hpy i hi
  obtain ⟨m, hm, rfl⟩ := Fbuf.mem_maintained_after hm'
  refine (Fbuf.drawn_pixel hfits hx m hpx hi).trans ?_
  by_cases heq : p = (x, y)
  · rw [if_pos heq, heq, Function.update_self]
    rfl
  · rw [if_neg heq, Function.update_of_ne heq]
    exact h m hm p hpx hpy i hi

/-! Glyphs. -/

/-- The color of a pixel in a row of a glyph. -/
def rowColor (fg bg : FbufColor) (rbm : BitVec 8) (col : ℕ) : FbufColor := if rbm <<< col &&& 0x80 ≠ 0 then fg else bg

theorem toNat_add_index {x : BitVec 32} {n width : ℕ} (h : x.toNat + n < width) (hwidth : width ≤ 4294967296) :
    (x + BitVec.ofNat 32 n).toNat = x.toNat + n := by
  rw [BitVec.toNat_add, BitVec.toNat_ofNat]
  omega

theorem Fbuf.Shows.drawRow (x y : BitVec 32) (fg bg : FbufColor) {n : ℕ} (col : ℕ) (rbm : BitVec 8)
    (h : impl.Shows pic) (hfits : impl.Fits)
    (hx : x.toNat + (col + n) ≤ impl.width) (hy : y.toNat < impl.height) (hwidth : impl.width ≤ 4294967296) :
    ∃ impl', font8x16DrawRow x y fg bg false n col rbm (some impl) = some impl' ∧ impl.SameScreen impl' ∧
      impl'.Shows fun p => if p.2 = y.toNat ∧ x.toNat + col ≤ p.1 ∧ p.1 < x.toNat + (col + n) then
        rowColor fg bg rbm (p.1 - (x.toNat + col)) else pic p := by
  induction n generalizing col rbm impl pic with
  | zero => exact ⟨impl, rfl, .refl impl, h.congr fun p _ _ => if_neg (by omega)⟩
  | succ n ih =>
    have hcol : (x + BitVec.ofNat 32 col).toNat = x.toNat + col := toNat_add_index (by omega) hwidth
    obtain ⟨impl₁, hput, hscreen, hshows⟩ := h.put hfits (x := x.toNat + col) (by omega) hy (rowColor fg bg rbm 0)
    obtain ⟨impl', hrow, hscreen', hshows'⟩ := ih (col + 1) (rbm <<< 1) hshows (hscreen.fits hfits)
      (by rw [hscreen.width]; omega) (by rw [hscreen.height]; exact hy) (by rw [hscreen.width]; exact hwidth)
    refine ⟨impl', ?_, hscreen.trans hscreen', hshows'.congr fun p _ _ => ?_⟩
    · rw [font8x16DrawRow, hcol, ← hrow, ← hput]
      congr 1
      unfold rowColor
      rw [BitVec.shiftLeft_zero]
      split_ifs <;> simp_all
    · by_cases hline : p.2 = y.toNat ∧ x.toNat + col ≤ p.1 ∧ p.1 < x.toNat + (col + (n + 1))
      · obtain ⟨hy', hlow, hhigh⟩ := hline
        rw [if_pos ⟨hy', hlow, hhigh⟩]
        rcases Nat.eq_or_lt_of_le hlow with hfirst | hlater
        · rw [if_neg (by omega), show p = (x.toNat + col, y.toNat) from Prod.ext hfirst.symm hy', Function.update_self,
            Nat.sub_self]
        · rw [if_pos ⟨hy', by omega, by omega⟩, rowColor, rowColor, ← BitVec.shiftLeft_add]
          congr 5
          omega
      · rw [if_neg hline, if_neg (by omega), Function.update_of_ne]
        rintro rfl
        exact hline ⟨rfl, by dsimp only; omega, by dsimp only; omega⟩

/-- The pixel `(px, py)` of a glyph. -/
def glyphColor (bitmap : FontBitmap) (c : BitVec 8) (fg bg : FbufColor) (px py : ℕ) : FbufColor :=
  rowColor fg bg (bitmap c py) px

theorem Fbuf.Shows.drawRows (bitmap : FontBitmap) (fg bg : FbufColor) (c : BitVec 8) {x y : BitVec 32} {n : ℕ} (row : ℕ)
    (h : impl.Shows pic)
    (hfits : impl.Fits) (hx : x.toNat + 8 ≤ impl.width) (hy : y.toNat + (row + n) ≤ impl.height)
    (hwidth : impl.width ≤ 4294967296) (hheight : impl.height ≤ 4294967296) :
    ∃ impl', font8x16DrawRows bitmap x y c fg bg false n row (some impl) = some impl' ∧ impl.SameScreen impl' ∧
      impl'.Shows fun p => if (x.toNat ≤ p.1 ∧ p.1 < x.toNat + 8) ∧ y.toNat + row ≤ p.2 ∧ p.2 < y.toNat + (row + n) then
        glyphColor bitmap c fg bg (p.1 - x.toNat) (p.2 - y.toNat) else pic p := by
  induction n generalizing row impl pic with
  | zero => exact ⟨impl, rfl, .refl impl, h.congr fun p _ _ => if_neg (by omega)⟩
  | succ n ih =>
    have hrow : (y + BitVec.ofNat 32 row).toNat = y.toNat + row := toNat_add_index (by omega) hheight
    obtain ⟨impl₁, hdraw, hscreen, hshows⟩ := h.drawRow x (y + BitVec.ofNat 32 row) fg bg (n := 8) 0
      (bitmap c row) hfits (by omega) (by omega) hwidth
    obtain ⟨impl', hrows, hscreen', hshows'⟩ := ih (row + 1) hshows (hscreen.fits hfits)
      (by rw [hscreen.width]; exact hx) (by rw [hscreen.height]; omega) (by rw [hscreen.width]; exact hwidth)
      (by rw [hscreen.height]; exact hheight)
    refine ⟨impl', ?_, hscreen.trans hscreen', hshows'.congr fun p _ _ => ?_⟩
    · rw [font8x16DrawRows, hdraw, hrows]
    · rw [hrow]
      by_cases hin : (x.toNat ≤ p.1 ∧ p.1 < x.toNat + 8) ∧ y.toNat + row ≤ p.2 ∧ p.2 < y.toNat + (row + (n + 1))
      · rw [if_pos hin]
        by_cases hfirst : p.2 = y.toNat + row
        · rw [if_neg (by omega), if_pos ⟨hfirst, by omega, by omega⟩, glyphColor, hfirst, Nat.add_sub_cancel_left, Nat.add_zero]
        · rw [if_pos (by omega)]
      · rw [if_neg hin, if_neg (by omega), if_neg (by omega)]

/-- The whole glyph, on the screen. -/
theorem Fbuf.Shows.putc (bitmap : FontBitmap) (fg bg : FbufColor) (c : BitVec 8) {x y : BitVec 32}
    (h : impl.Shows pic) (hfits : impl.Fits)
    (hx : x.toNat + 8 ≤ impl.width) (hy : y.toNat + 16 ≤ impl.height) (hwidth : impl.width ≤ 4294967296)
    (hheight : impl.height ≤ 4294967296) :
    ∃ impl', fbufPutcStub bitmap impl x y c fg bg false = some impl' ∧ impl.SameScreen impl' ∧
      impl'.Shows fun p => if (x.toNat ≤ p.1 ∧ p.1 < x.toNat + 8) ∧ y.toNat ≤ p.2 ∧ p.2 < y.toNat + 16 then
        glyphColor bitmap c fg bg (p.1 - x.toNat) (p.2 - y.toNat) else pic p := by
  obtain ⟨impl', hrows, hscreen, hshows⟩ := h.drawRows bitmap fg bg (n := 16) c 0 hfits hx (by omega) hwidth hheight
  refine ⟨impl', ?_, hscreen, hshows.congr fun p _ _ => by simp only [Nat.add_zero, Nat.zero_add]⟩
  rw [fbufPutcStub, if_neg (by omega)]
  exact hrows

end Draw

/-! Fills and scrolls. -/

theorem Fbuf.shows_fill {impl : Fbuf} (hfits : impl.Fits) (color : FbufColor) :
    impl.SameScreen (fbufFill impl color) ∧ (fbufFill impl color).Shows fun _ => color := by
  refine ⟨⟨rfl, rfl, rfl, rfl, Option.isSome_map⟩, fun m' hm' p hx hy i hi => ?_⟩
  have hmem : ∃ m, m' = fbufFillStub impl m 0 impl.height color := by
    obtain ⟨width, height, type, pitch, front, back, direct⟩ := impl
    cases back with
    | none => exact ⟨front, by simpa [Fbuf.maintained, fbufFill] using hm'⟩
    | some m =>
      cases direct with
      | false => exact ⟨m, by simpa [Fbuf.maintained, fbufFill] using hm'⟩
      | true =>
        simp [Fbuf.maintained, fbufFill] at hm'
        rcases hm' with heq | heq
        · exact ⟨m, heq⟩
        · exact ⟨front, heq⟩
  obtain ⟨m, rfl⟩ := hmem
  exact fbufFillStub_inside hfits (by omega) hx (Nat.zero_le _) (by rwa [Nat.zero_add]) hi

/-- With a backbuffer and without a hook. -/
theorem ScrollFbuf.scroll_screen {impl impl' : ScrollFbuf} {kind : ScrollKind} {low : ℕ → Option UInt8} {lines : ℕ}
    {color : FbufColor} {back : FbufBytes} (hlines : 1 ≤ lines) (hhook : kind.hook impl = none)
    (hback : impl.backbuffer = some back) (h : fbufScroll kind low (some impl) lines color = some (some impl')) :
    impl.toFbuf.SameScreen impl'.toFbuf ∧ impl'.scrollUp = impl.scrollUp := by
  rw [fbufScroll_eq hlines, fbufScrollLines_double hhook hback, Option.map_eq_some_iff] at h
  obtain ⟨impl₁, h, heq⟩ := h
  obtain rfl := Option.some.inj heq
  dsimp only at h
  split_ifs at h
  · obtain ⟨front, -, h⟩ := Option.bind_eq_some_iff.mp h
    obtain ⟨m, -, h⟩ := Option.bind_eq_some_iff.mp h
    obtain rfl := Option.some.inj h
    exact ⟨⟨rfl, rfl, rfl, rfl, by rw [hback]; rfl⟩, rfl⟩
  · obtain ⟨front, -, h⟩ := Option.bind_eq_some_iff.mp h
    obtain ⟨m, -, h⟩ := Option.bind_eq_some_iff.mp h
    obtain rfl := Option.some.inj h
    exact ⟨⟨rfl, rfl, rfl, rfl, by rw [hback]; rfl⟩, rfl⟩

theorem ScrollFbuf.shows_scroll {impl : ScrollFbuf} {pic : Picture} (lines : ℕ) (low : ℕ → Option UInt8) (h : impl.Shows pic)
    (hfits : impl.Fits) (hback : impl.backbuffer.isSome) (hhook : impl.scrollUp = none) (hlines : 1 ≤ lines)
    (hheight : lines ≤ impl.height) (color : FbufColor) :
    ∃ impl', fbufScrollUp low (some impl) lines color = some (some impl') ∧ impl.toFbuf.SameScreen impl'.toFbuf ∧
      impl'.scrollUp = none ∧
      impl'.Shows fun p => if p.2 < impl.height - lines then pic (p.1, p.2 + lines) else color := by
  obtain ⟨back, hback⟩ := Option.isSome_iff_exists.mp hback
  have hscrolls : ScrollKind.up.Scrolls impl lines color (fbufScroll .up low (some impl) lines color) :=
    scrolls_double hfits hlines hhook hback
  obtain ⟨impl', hrun, hscrolled, -⟩ := hscrolls
  obtain ⟨hscreen, hup⟩ := ScrollFbuf.scroll_screen hlines hhook hback hrun
  refine ⟨impl', hrun, hscreen, hup.trans hhook, fun m hm p hx hy i hi => ?_⟩
  rw [hscreen.width] at hx
  rw [hscreen.height] at hy
  rw [hscreen.type] at hi ⊢
  have hline : p.1 * fbufBytesPerPixel impl.type + i < impl.width * fbufBytesPerPixel impl.type := by
    have := Nat.mul_le_mul_right (fbufBytesPerPixel impl.type) (Nat.succ_le_of_lt hx)
    rw [Nat.succ_mul] at this
    omega
  have hplace (r : ℕ) : impl.offset (p.1, r) + i = r * impl.pitch + (p.1 * fbufBytesPerPixel impl.type + i) := by
    rw [Fbuf.offset, cellOffset, Nat.add_assoc]
  have hoffset : impl'.offset p = impl.offset (p.1, p.2) := by
    rw [Fbuf.offset, Fbuf.offset, hscreen.pitch, hscreen.type]
  obtain ⟨hmoved, hfilled⟩ := hscrolled m hm
  rw [Nat.min_eq_left hheight] at hmoved hfilled
  rw [hoffset]
  dsimp only
  by_cases hkept : p.2 < impl.height - lines
  · rw [if_pos hkept]
    have hrow := hmoved p.2 hkept _ hline
    have hshown : impl.shown ∈ impl.maintained := by
      rw [Fbuf.shown, hback]
      simp [Fbuf.maintained, hback]
    have hold := h impl.shown hshown (p.1, p.2 + lines) hx (by dsimp only; omega) i hi
    rw [hplace] at hold ⊢
    dsimp only [ScrollKind.up] at hrow
    rw [Nat.zero_add, Nat.add_comm lines] at hrow
    exact hrow.trans hold
  · rw [if_neg hkept]
    have hrow := hfilled (p.2 - (impl.height - lines)) (by omega) p.1 hx i hi
    dsimp only [ScrollKind.up] at hrow
    rwa [Nat.add_sub_cancel' (by omega)] at hrow

end SysX
