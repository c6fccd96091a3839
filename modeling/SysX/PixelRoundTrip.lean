import SysX.PixelFormats
import SysX.Lib.Raster

/-! Runs of pixels that are drawn and read back, on both paths of the drawing loop. -/
namespace SysX

variable {impl : Fbuf} {m : FbufBytes} {color : FbufColor} {n x y : ℕ}

namespace Fbuf

/-- Where a pixel of the framebuffer lies in its buffers. -/
abbrev offset (impl : Fbuf) : ℕ × ℕ → ℕ := cellOffset impl.pitch (fbufBytesPerPixel impl.type)

/-- A line of the buffers has room for the pixels of a line. -/
def Fits (impl : Fbuf) : Prop := impl.width * fbufBytesPerPixel impl.type ≤ impl.pitch

instance (impl : Fbuf) : Decidable impl.Fits := inferInstanceAs (Decidable (_ ≤ _))

/-- The run of `n` pixels from `(x, y)` on lies inside the screen. -/
def OnScreen (impl : Fbuf) (x y n : ℕ) : Prop :=
  x < impl.width ∧ y < impl.height ∧ cellIndex impl.width (x, y) + n ≤ impl.width * impl.height

instance (impl : Fbuf) (x y n : ℕ) : Decidable (impl.OnScreen x y n) := inferInstanceAs (Decidable (_ ∧ _))

/-- The pixel `p` is one of the run. -/
def InRun (impl : Fbuf) (x y n : ℕ) (p : ℕ × ℕ) : Prop :=
  p.1 < impl.width ∧ cellIndex impl.width (x, y) ≤ cellIndex impl.width p ∧
    cellIndex impl.width p < cellIndex impl.width (x, y) + n

/-- The buffer after every pixel of the run was drawn. -/
def drawn (impl : Fbuf) (x y n : ℕ) (color : FbufColor) (m : FbufBytes) : FbufBytes :=
  (runCells impl.width n x y).foldl
    (fun m p => fbufPutOne impl.type (fbufBytesPerPixel impl.type) (fbufProcessColor impl.type color).1 m
      (impl.offset p)) m

/-- The buffer that pixels are read from. -/
def shown (impl : Fbuf) : FbufBytes := impl.backbuffer.getD impl.framebuffer

end Fbuf

theorem fbufProcessColor_bytes (type : FbufPixelType) (color : FbufColor) :
    (fbufProcessColor type color).2 = fbufBytesPerPixel type := by
  cases type <;> rfl

section Geometry

variable {pitch bytes width : ℕ}

theorem cellOffset_next : cellOffset pitch bytes (x + 1, y) = cellOffset pitch bytes (x, y) + bytes := by
  simp only [cellOffset, Nat.succ_mul]
  omega

theorem cellOffset_line (hfits : width * bytes ≤ pitch) (h : x + 1 = width) :
    cellOffset pitch bytes (0, y + 1) = cellOffset pitch bytes (x, y) + bytes + (pitch - width * bytes) := by
  subst h
  simp only [cellOffset, Nat.succ_mul] at *
  omega

end Geometry

/-- A run that ends the last line has no pixel left. -/
theorem run_ends {width height : ℕ} (hx : x + 1 = width) (hy : y + 1 = height)
    (h : cellIndex width (x, y) + (n + 1) ≤ width * height) : n = 0 := by
  have hlines : width * height = y * width + width := by
    rw [← hy, Nat.mul_succ, Nat.mul_comm]
  simp only [cellIndex] at h
  omega

/-- The loop with wrapping of lines draws the pixels of the run. -/
theorem fbufPutLoop_eq {bytes : ℕ} (hfits : impl.width * bytes ≤ impl.pitch) (hx : x < impl.width)
    (h : cellIndex impl.width (x, y) + n ≤ impl.width * impl.height) :
    fbufPutLoop impl color bytes (impl.pitch - impl.width * bytes) n (cellOffset impl.pitch bytes (x, y)) x y m =
      (runCells impl.width n x y).foldl
        (fun m p => fbufPutOne impl.type bytes color m (cellOffset impl.pitch bytes p)) m := by
  induction n generalizing x y m with
  | zero => rfl
  | succ n ih =>
    rw [fbufPutLoop, runCells, List.foldl_cons]
    split_ifs with hline hlast
    · obtain rfl := run_ends hline hlast h
      rfl
    · rw [← cellOffset_line hfits hline]
      apply ih (by omega)
      rw [cellIndex_line hline]
      omega
    · rw [← cellOffset_next]
      apply ih (by omega)
      rw [cellIndex_next]
      omega

theorem fbufGetLoop_eq {bytes : ℕ} (hfits : impl.width * bytes ≤ impl.pitch) (hx : x < impl.width)
    (h : cellIndex impl.width (x, y) + n ≤ impl.width * impl.height) :
    fbufGetLoop impl m bytes (impl.pitch - impl.width * bytes) n (cellOffset impl.pitch bytes (x, y)) x y =
      (runCells impl.width n x y).map fun p => fbufGetOne impl.type m (cellOffset impl.pitch bytes p) := by
  induction n generalizing x y with
  | zero => rfl
  | succ n ih =>
    rw [fbufGetLoop, runCells, List.map_cons]
    congr 1
    dsimp only
    split_ifs with hline hlast
    · obtain rfl := run_ends hline hlast h
      rfl
    · rw [← cellOffset_line hfits hline]
      apply ih (by omega)
      rw [cellIndex_line hline]
      omega
    · rw [← cellOffset_next]
      apply ih (by omega)
      rw [cellIndex_next]
      omega

/-- Without padding the units of a fill are the pixels of the run. -/
theorem memsetUnits_eq {width pitch bytes : ℕ} (hpitch : width * bytes = pitch) (hx : x < width) :
    memsetUnits bytes color n (cellOffset pitch bytes (x, y)) m =
      (runCells width n x y).foldl (fun m p => fbufStore m (cellOffset pitch bytes p) bytes color) m := by
  induction n generalizing x y m with
  | zero => rfl
  | succ n ih =>
    rw [memsetUnits, runCells, List.foldl_cons]
    split_ifs with hline
    · have hnext : cellOffset pitch bytes (0, y + 1) = cellOffset pitch bytes (x, y) + bytes := by
        rw [cellOffset_line hpitch.le hline, hpitch, Nat.sub_self]
        rfl
      rw [← hnext]
      exact ih (by omega)
    · rw [← cellOffset_next]
      exact ih (by omega)

/-- Both paths draw the pixels of the run. -/
theorem fbufPutpixelStub_eq (hfits : impl.Fits) (h : impl.OnScreen x y n) :
    fbufPutpixelStub impl m x y n (fbufProcessColor impl.type color).1 (fbufBytesPerPixel impl.type) =
      impl.drawn x y n color m := by
  obtain ⟨hx, -, hrun⟩ := h
  unfold fbufPutpixelStub Fbuf.drawn
  dsimp only
  split_ifs with hfast
  · obtain ⟨hpad, hthree⟩ := hfast
    have hpitch : impl.width * fbufBytesPerPixel impl.type = impl.pitch := by
      unfold Fbuf.Fits at hfits
      omega
    have hsize : fbufBytesPerPixel impl.type = 2 ∨ fbufBytesPerPixel impl.type = 4 := by
      revert hthree
      cases impl.type <;> simp [fbufBytesPerPixel]
    rcases hsize with hsize | hsize
    all_goals
      simp only [Fbuf.offset, hsize, fbufPutOne] at hpitch ⊢
      exact memsetUnits_eq hpitch hx
  · exact fbufPutLoop_eq hfits hx hrun

namespace Fbuf

theorem drawn_in (hfits : impl.Fits) (h : impl.OnScreen x y n) {p : ℕ × ℕ}
    (hp : p ∈ runCells impl.width n x y) :
    fbufGetOne impl.type (impl.drawn x y n color m) (impl.offset p) = impl.type.kept color := by
  apply foldl_seen (fun m p => fbufGetOne impl.type m (impl.offset p)) _ _ (runCells_pairwise h.1) hp
  · intro _ _
    exact fbufGetOne_put _ _ _ _
  · intro _ p q hpq
    have := cellOffset_add_le hfits hpq.1.1 hpq.1.2 hpq.2
    apply fbufGetOne_congr
    intro i hi
    apply fbufPutOne_outside
    unfold Fbuf.offset
    omega

/-- The bytes of other pixels and those between the lines stay. -/
theorem drawn_byte (hx : x < impl.width) {a : ℕ}
    (ha : ∀ p, impl.InRun x y n p → a < impl.offset p ∨ impl.offset p + fbufBytesPerPixel impl.type ≤ a) :
    impl.drawn x y n color m a = m a :=
  foldl_unseen (fun m => m a) (fun p hp _ => fbufPutOne_outside (ha p (of_mem_runCells hx hp))) m

theorem drawn_other (hfits : impl.Fits) (hx : x < impl.width) {p : ℕ × ℕ} (hp : p.1 < impl.width)
    (hout : ¬impl.InRun x y n p) :
    fbufGetOne impl.type (impl.drawn x y n color m) (impl.offset p) = fbufGetOne impl.type m (impl.offset p) := by
  apply fbufGetOne_congr
  intro i hi
  apply drawn_byte hx
  intro q hq
  rcases Nat.lt_trichotomy (cellIndex impl.width p) (cellIndex impl.width q) with hlt | heq | hgt
  · have := cellOffset_add_le hfits hp hq.1 hlt
    left
    unfold Fbuf.offset
    omega
  · exact absurd ⟨hp, heq ▸ hq.2.1, heq ▸ hq.2.2⟩ hout
  · have := cellOffset_add_le hfits hq.1 hp hgt
    right
    unfold Fbuf.offset
    omega

end Fbuf

/-- The framebuffer after a run was drawn on it. -/
def Fbuf.after (impl : Fbuf) (x y n : ℕ) (color : FbufColor) : Fbuf :=
  { impl with
    backbuffer := impl.backbuffer.map (impl.drawn x y n color)
    framebuffer :=
      if impl.dbufDirectWrite ∨ impl.backbuffer = none then impl.drawn x y n color impl.framebuffer
      else impl.framebuffer }

/-- Pixels are read from the buffer that a run is always drawn on. -/
theorem Fbuf.after_shown : (impl.after x y n color).shown = impl.drawn x y n color impl.shown := by
  unfold Fbuf.shown Fbuf.after
  cases impl.backbuffer <;> simp

/-- The check of both functions passes. -/
theorem Fbuf.OnScreen.guard (h : impl.OnScreen x y n) (hn : n ≠ 0) :
    ¬(n = 0 ∨ impl.width ≤ x ∨ impl.height ≤ y) := by
  have := h.1
  have := h.2.1
  omega

theorem fbufPutpixel_zero : fbufPutpixel (some impl) x y 0 color = some impl := by
  simp [fbufPutpixel]

theorem fbufPutpixel_eq (hfits : impl.Fits) (h : impl.OnScreen x y n) (hn : n ≠ 0) :
    fbufPutpixel (some impl) x y n color = some (impl.after x y n color) := by
  rw [fbufPutpixel, Option.map_some, if_neg (h.guard hn)]
  simp only [fbufProcessColor_bytes, fbufPutpixelStub_eq hfits h]
  rfl

theorem fbufGetpixel_eq (hfits : impl.Fits) (h : impl.OnScreen x y n) (hn : n ≠ 0) :
    fbufGetpixel (some impl) x y n =
      (runCells impl.width n x y).map fun p => fbufGetOne impl.type impl.shown (impl.offset p) := by
  rw [fbufGetpixel, fbufGetpixelStub]
  dsimp only
  rw [if_neg (h.guard hn)]
  exact fbufGetLoop_eq hfits h.1 h.2.2

theorem fbufGetpixel_after {x' y' n' : ℕ} (hfits : impl.Fits) (h : impl.OnScreen x' y' n') (hn : n' ≠ 0) :
    fbufGetpixel (some (impl.after x y n color)) x' y' n' =
      (runCells impl.width n' x' y').map fun p =>
        fbufGetOne impl.type (impl.drawn x y n color impl.shown) (impl.offset p) := by
  rw [← Fbuf.after_shown]
  exact fbufGetpixel_eq hfits h hn

/-- The run is read back to the precision of the format, every other pixel is read as before, and no byte
outside the pixels of the run changes in either buffer. -/
structure PixelRoundTrip (impl : Fbuf) (x y n : ℕ) (color : FbufColor) : Prop where
  run : fbufGetpixel (fbufPutpixel (some impl) x y n color) x y n =
    List.replicate n (impl.type.truncate color)
  other : ∀ px < impl.width, ∀ py < impl.height, ¬impl.InRun x y n (px, py) →
    fbufGetpixel (fbufPutpixel (some impl) x y n color) px py 1 = fbufGetpixel (some impl) px py 1
  byte : ∀ impl', fbufPutpixel (some impl) x y n color = some impl' → ∀ a,
    (∀ p, impl.InRun x y n p → a < impl.offset p ∨ impl.offset p + fbufBytesPerPixel impl.type ≤ a) →
      impl'.framebuffer a = impl.framebuffer a ∧
        impl'.backbuffer.map (fun m => m a) = impl.backbuffer.map (fun m => m a)

theorem onScreen_one {px py : ℕ} (hx : px < impl.width) (hy : py < impl.height) : impl.OnScreen px py 1 := by
  have hline : (py + 1) * impl.width ≤ impl.height * impl.width := Nat.mul_le_mul_right _ hy
  refine ⟨hx, hy, ?_⟩
  simp only [cellIndex, Nat.succ_mul, Nat.mul_comm impl.height] at *
  omega

/-- What the drawn run looks like when it is read. -/
theorem getpixel_run (hfits : impl.Fits) (h : impl.OnScreen x y n) :
    fbufGetpixel (fbufPutpixel (some impl) x y n color) x y n = List.replicate n (impl.type.kept color) := by
  rcases Nat.eq_zero_or_pos n with rfl | hn
  · simp [fbufPutpixel, fbufGetpixel, fbufGetpixelStub]
  rw [fbufPutpixel_eq hfits h hn.ne', fbufGetpixel_after hfits h hn.ne']
  apply List.eq_replicate_iff.mpr
  constructor
  · rw [List.length_map, length_runCells]
  · intro c hc
    obtain ⟨p, hp, rfl⟩ := List.mem_map.mp hc
    exact Fbuf.drawn_in hfits h hp

theorem getpixel_other (hfits : impl.Fits) (h : impl.OnScreen x y n) {px py : ℕ} (hpx : px < impl.width)
    (hpy : py < impl.height) (hout : ¬impl.InRun x y n (px, py)) :
    fbufGetpixel (fbufPutpixel (some impl) x y n color) px py 1 = fbufGetpixel (some impl) px py 1 := by
  rcases Nat.eq_zero_or_pos n with rfl | hn
  · rw [fbufPutpixel_zero]
  have hone := onScreen_one hpx hpy
  rw [fbufPutpixel_eq hfits h hn.ne', fbufGetpixel_after hfits hone Nat.one_ne_zero,
    fbufGetpixel_eq hfits hone Nat.one_ne_zero]
  apply List.map_congr_left
  intro p hp
  obtain rfl : p = (px, py) := by
    simp only [runCells] at hp
    split_ifs at hp <;> exact List.mem_singleton.mp hp
  exact Fbuf.drawn_other hfits h.1 hpx hout

theorem putpixel_byte {impl' : Fbuf} (hfits : impl.Fits) (h : impl.OnScreen x y n)
    (hput : fbufPutpixel (some impl) x y n color = some impl') {a : ℕ}
    (ha : ∀ p, impl.InRun x y n p → a < impl.offset p ∨ impl.offset p + fbufBytesPerPixel impl.type ≤ a) :
    impl'.framebuffer a = impl.framebuffer a ∧
      impl'.backbuffer.map (fun m => m a) = impl.backbuffer.map (fun m => m a) := by
  rcases Nat.eq_zero_or_pos n with rfl | hn
  · rw [fbufPutpixel_zero, Option.some_inj] at hput
    subst hput
    exact ⟨rfl, rfl⟩
  rw [fbufPutpixel_eq hfits h hn.ne', Option.some_inj] at hput
  subst hput
  constructor
  · unfold Fbuf.after
    split_ifs
    · exact Fbuf.drawn_byte h.1 ha
    · rfl
  · unfold Fbuf.after
    rw [Option.map_map]
    congr 1
    funext m
    exact Fbuf.drawn_byte h.1 ha

/-- A run comes back to the precision of the format exactly when its pixels keep the color, and it never
touches anything else. -/
theorem pixel_round_trip (impl : Fbuf) (x y n : ℕ) (color : FbufColor) (hfits : impl.Fits)
    (h : impl.OnScreen x y n) : PixelRoundTrip impl x y n color ↔ n = 0 ∨ impl.type.Keeps color := by
  have hrun : PixelRoundTrip impl x y n color ↔
      List.replicate n (impl.type.kept color) = List.replicate n (impl.type.truncate color) := by
    rw [← getpixel_run hfits h]
    constructor
    · intro htrip
      exact htrip.run
    · intro heq
      exact ⟨heq, fun px hpx py hpy hout => getpixel_other hfits h hpx hpy hout,
        fun impl' hput a ha => putpixel_byte hfits h hput ha⟩
  rw [hrun, List.replicate_inj, eq_self_iff_true, true_and, ← FbufPixelType.kept_eq_iff]

/-- Three lines of two pixels, with a byte of padding at the end of each. -/
def paddedScreen : Fbuf where
  width := 2
  height := 3
  type := .fbuf16BppRgb565Re
  pitch := 5
  framebuffer := fun _ => 0
  backbuffer := some fun _ => 0
  dbufDirectWrite := true

theorem pixel_round_trip_padded : PixelRoundTrip paddedScreen 1 0 3 0x89ABCD :=
  (pixel_round_trip paddedScreen 1 0 3 0x89ABCD (by decide) (by decide)).mpr (.inr trivial)

/-- Red is read as blue from a pixel of three bytes. -/
theorem pixel_exchanged : ¬∀ (impl : Fbuf) (x y n : ℕ) (color : FbufColor), color.toNat < 2 ^ 24 →
    impl.Fits → impl.OnScreen x y n → PixelRoundTrip impl x y n color := by
  intro h
  have hrun := (h ⟨1, 1, .fbuf24BppRgb888, 3, fun _ => 0, none, false⟩ 0 0 1 0xFF0000 (by decide) (by decide)
    (by decide)).run
  revert hrun
  decide +kernel

end SysX
