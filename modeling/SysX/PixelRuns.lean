import SysX.BulkFill
import Mathlib.Algebra.Order.Ring.Nat

/-!
Runs of pixels that do not end with the screen, on both paths of `fbuf_putpixel_stub`, and the fill of lines against
the pixels that are drawn one by one (`hal/fbuf.c`). A buffer is large enough for its address not to wrap.
-/
namespace SysX

variable {impl : Fbuf} {color : FbufColor} {n x y bytes : ℕ}

/-- A pixel of the run that there is on the screen. -/
def Fbuf.Visible (impl : Fbuf) (x y n : ℕ) (p : ℕ × ℕ) : Prop := p.2 < impl.height ∧ impl.InRun x y n p

/-- From `m` to `m'` the visible pixels of the run got the bytes of the color, and nothing else changed. -/
structure PixelsDrawn (impl : Fbuf) (x y n : ℕ) (color : FbufColor) (bytes : ℕ) (m m' : FbufBytes) : Prop where
  inside : ∀ p, impl.Visible x y n p → ∀ i < bytes,
    m' (cellOffset impl.pitch bytes p + i) = fbufPutOne impl.type bytes color (fun _ => 0) 0 i
  outside : ∀ a, (∀ p, impl.Visible x y n p →
    a < cellOffset impl.pitch bytes p ∨ cellOffset impl.pitch bytes p + bytes ≤ a) → m' a = m a
  buffer : ∀ a, impl.height * impl.pitch ≤ a → m' a = m a

/-- The sequential path of `fbuf_putpixel_stub`, taken whatever the padding is. -/
def fbufPutSequential (impl : Fbuf) (m : FbufBytes) (x y n : ℕ) (color : FbufColor) (bytesPerPixel : ℕ) : FbufBytes :=
  fbufPutLoop impl color bytesPerPixel (impl.pitch - impl.width * bytesPerPixel) n (y * impl.pitch + x * bytesPerPixel)
    x y m

/-- The run is drawn on every buffer, and the other path would draw it alike. -/
structure DrawsRun (impl : Fbuf) (x y n : ℕ) (color : FbufColor) (bytes : ℕ) : Prop where
  drawn : ∀ m, PixelsDrawn impl x y n color bytes m (fbufPutpixelStub impl m x y n color bytes)
  paths : ∀ m, fbufPutSequential impl m x y n color bytes = fbufPutpixelStub impl m x y n color bytes

/-- The fast path writes no pixel behind the last one of the screen. -/
def RunStops (impl : Fbuf) (x y n bytes : ℕ) : Prop :=
  bytes = 3 ∨ impl.width * bytes ≠ impl.pitch ∨ y * impl.width + x + n ≤ impl.width * impl.height

/-- The pixels of the run up to the end of the screen. -/
def Fbuf.clipped (impl : Fbuf) (x y n : ℕ) : ℕ := min n (impl.width * impl.height - cellIndex impl.width (x, y))

theorem cellIndex_lt_screen (hx : x < impl.width) (hy : y < impl.height) :
    cellIndex impl.width (x, y) < impl.width * impl.height := by
  have hline := Nat.mul_le_mul_right impl.width (Nat.succ_le_of_lt hy)
  rw [Nat.succ_mul] at hline
  rw [Nat.mul_comm]
  simp only [cellIndex]
  omega

/-- The sequential path stops with the screen. -/
theorem fbufPutLoop_clipped {m : FbufBytes} (hfits : impl.width * bytes ≤ impl.pitch) (hx : x < impl.width) (hy : y < impl.height) :
    fbufPutLoop impl color bytes (impl.pitch - impl.width * bytes) n (cellOffset impl.pitch bytes (x, y)) x y m =
      (runCells impl.width (impl.clipped x y n) x y).foldl
        (fun m p => fbufPutOne impl.type bytes color m (cellOffset impl.pitch bytes p)) m := by
  induction n generalizing x y m with
  | zero =>
    rw [Fbuf.clipped, Nat.zero_min]
    rfl
  | succ n ih =>
    have hscreen := cellIndex_lt_screen hx hy
    rw [fbufPutLoop]
    split_ifs with hline hlast
    · have hend : impl.clipped x y (n + 1) = 1 := by
        have hheight : impl.width * impl.height = y * impl.width + impl.width := by
          rw [← hlast, Nat.mul_comm, Nat.succ_mul]
        simp only [Fbuf.clipped, hheight, cellIndex]
        omega
      rw [hend, runCells, List.foldl_cons]
      split_ifs
      rfl
    · have hnext : impl.clipped x y (n + 1) = impl.clipped 0 (y + 1) n + 1 := by
        rw [Fbuf.clipped, Fbuf.clipped, cellIndex_line hline]
        omega
      rw [hnext, runCells, List.foldl_cons, if_pos hline, ← cellOffset_line hfits hline]
      exact ih (by omega) (by omega)
    · have hnext : impl.clipped x y (n + 1) = impl.clipped (x + 1) y n + 1 := by
        rw [Fbuf.clipped, Fbuf.clipped, cellIndex_next]
        omega
      rw [hnext, runCells, List.foldl_cons, if_neg hline, ← cellOffset_next]
      exact ih (by omega) hy

section Run

variable {m : FbufBytes}

/-- The fast path writes the units of the run, whatever the screen is. -/
theorem fbufPutpixelStub_fast (hbytes : bytes = 2 ∨ bytes = 4) (hpitch : impl.width * bytes = impl.pitch) :
    fbufPutpixelStub impl m x y n color bytes = memsetUnits bytes color n (cellOffset impl.pitch bytes (x, y)) m := by
  have hpad : impl.pitch - impl.width * bytes = 0 ∧ bytes ≠ 3 := by omega
  unfold fbufPutpixelStub
  dsimp only
  rw [if_pos hpad]
  rcases hbytes with rfl | rfl
  · rfl
  · rfl

/-- Both paths draw the visible pixels of the run where it stops in time. -/
theorem fbufPutpixelStub_clipped (hfits : impl.width * bytes ≤ impl.pitch) (hbytes : bytes = 2 ∨ bytes = 3 ∨ bytes = 4)
    (hx : x < impl.width) (hy : y < impl.height) (hstop : RunStops impl x y n bytes) :
    fbufPutpixelStub impl m x y n color bytes = (runCells impl.width (impl.clipped x y n) x y).foldl
      (fun m p => fbufPutOne impl.type bytes color m (cellOffset impl.pitch bytes p)) m := by
  by_cases hfast : impl.width * bytes = impl.pitch ∧ bytes ≠ 3
  · obtain ⟨hpitch, hthree⟩ := hfast
    have hunit : bytes = 2 ∨ bytes = 4 := by omega
    have hrun : impl.clipped x y n = n := by
      have hlast := hstop.resolve_left hthree
      simp only [Fbuf.clipped, cellIndex]
      omega
    rw [fbufPutpixelStub_fast hunit hpitch, hrun, memsetUnits_eq hpitch hx]
    rcases hunit with rfl | rfl
    · rfl
    · rfl
  · have hslow : ¬(impl.pitch - impl.width * bytes = 0 ∧ bytes ≠ 3) := by omega
    unfold fbufPutpixelStub
    dsimp only
    rw [if_neg hslow]
    exact fbufPutLoop_clipped hfits hx hy

theorem mem_clipped_iff (hx : x < impl.width) {p : ℕ × ℕ} :
    p ∈ runCells impl.width (impl.clipped x y n) x y ↔ impl.Visible x y n p := by
  have hscreen : p.1 < impl.width → (cellIndex impl.width p < impl.width * impl.height ↔ p.2 < impl.height) := by
    intro hp
    have hlines : cellIndex impl.width (0, 0) ≤ cellIndex impl.width p ∧
        cellIndex impl.width p < cellIndex impl.width (0, 0) + impl.width * impl.height ↔
          0 ≤ p.2 ∧ p.2 < 0 + impl.height := cellIndex_lines_iff hp
    simpa [cellIndex] using hlines
  constructor
  · intro hp
    obtain ⟨hline, hlow, hhigh⟩ := of_mem_runCells hx hp
    unfold Fbuf.clipped at hhigh
    exact ⟨(hscreen hline).mp (by omega), hline, hlow, by omega⟩
  · rintro ⟨hheight, hline, hlow, hhigh⟩
    have hlast := (hscreen hline).mpr hheight
    apply mem_runCells hx hline hlow
    unfold Fbuf.clipped
    omega

/-- Drawn one by one, the visible pixels are all that changes. -/
theorem pixelsDrawn_clipped (hfits : impl.width * bytes ≤ impl.pitch) (hbytes : bytes = 2 ∨ bytes = 3 ∨ bytes = 4)
    (hx : x < impl.width) :
    PixelsDrawn impl x y n color bytes m ((runCells impl.width (impl.clipped x y n) x y).foldl
      (fun m p => fbufPutOne impl.type bytes color m (cellOffset impl.pitch bytes p)) m) := by
  have houtside : ∀ a, (∀ p, impl.Visible x y n p →
      a < cellOffset impl.pitch bytes p ∨ cellOffset impl.pitch bytes p + bytes ≤ a) →
      (runCells impl.width (impl.clipped x y n) x y).foldl
        (fun m p => fbufPutOne impl.type bytes color m (cellOffset impl.pitch bytes p)) m a = m a := by
    intro a ha
    apply foldl_unseen (fun m : FbufBytes => m a)
    intro p hp m
    exact fbufPutOne_outside (ha p ((mem_clipped_iff hx).mp hp))
  constructor
  · intro p hp i hi
    apply foldl_seen (fun (m : FbufBytes) p => m (cellOffset impl.pitch bytes p + i)) _ _
      (runCells_pairwise hx) ((mem_clipped_iff hx).mpr hp)
    · intro m p
      exact fbufPutOne_anywhere hbytes hi
    · intro m p q hpq
      have hapart := cellOffset_add_le hfits hpq.1.1 hpq.1.2 hpq.2
      apply fbufPutOne_outside
      omega
  · exact houtside
  · intro a ha
    apply houtside
    intro p hp
    obtain ⟨-, hlast⟩ := cellOffset_bounds hfits hp.2.1
    have hheight : (p.2 + 1) * impl.pitch ≤ impl.height * impl.pitch := Nat.mul_le_mul_right _ hp.1
    omega

/-- The unit behind the last line is written where the fast path runs on. -/
theorem fbufPutpixelStub_behind (hunit : bytes = 2 ∨ bytes = 4) (hpitch : impl.width * bytes = impl.pitch)
    (hscreen : cellIndex impl.width (x, y) < impl.width * impl.height)
    (hlong : impl.width * impl.height < y * impl.width + x + n) :
    fbufPutpixelStub impl m x y n color bytes (impl.height * impl.pitch) = UInt8.ofNat color.toNat := by
  obtain ⟨left, hleft⟩ := Nat.exists_eq_add_of_le (Nat.le_of_lt hscreen)
  have hplace : impl.height * impl.pitch = cellOffset impl.pitch bytes (x, y) + left * bytes := by
    have hindex : cellOffset impl.pitch bytes (x, y) = cellIndex impl.width (x, y) * bytes := by
      rw [← hpitch, cellOffset, cellIndex, Nat.add_mul, Nat.mul_assoc]
    rw [hindex, ← Nat.add_mul, ← hleft, ← hpitch, ← Nat.mul_assoc, Nat.mul_comm impl.height]
  have hroom : (left + 1) * bytes ≤ n * bytes := by
    apply Nat.mul_le_mul_right
    simp only [cellIndex] at hleft
    omega
  rw [Nat.succ_mul] at hroom
  rw [fbufPutpixelStub_fast hunit hpitch, hplace, memsetUnits_inside (by omega)]
  simp

end Run

/-- A run is drawn exactly where the fast path is not taken or the run ends on the screen. -/
theorem fbuf_putpixel_run_iff (hfits : impl.width * bytes ≤ impl.pitch) (hbytes : bytes = 2 ∨ bytes = 3 ∨ bytes = 4)
    (hx : x < impl.width) (hy : y < impl.height) (n : ℕ) (color : FbufColor) :
    DrawsRun impl x y n color bytes ↔ RunStops impl x y n bytes := by
  constructor
  · intro h
    by_contra hstop
    obtain ⟨hthree, hpitch, hlong⟩ : bytes ≠ 3 ∧ impl.width * bytes = impl.pitch ∧
        impl.width * impl.height < y * impl.width + x + n := by
      simpa [RunStops] using hstop
    -- A buffer with another byte behind the last line, which the run must not change.
    have hkept := (h.drawn fun _ => UInt8.ofNat color.toNat + 1).buffer _ (Nat.le_refl _)
    rw [fbufPutpixelStub_behind (by omega) hpitch (cellIndex_lt_screen hx hy) hlong] at hkept
    simp at hkept
  · intro hstop
    constructor
    · intro m
      rw [fbufPutpixelStub_clipped hfits hbytes hx hy hstop]
      exact pixelsDrawn_clipped hfits hbytes hx
    · intro m
      rw [fbufPutpixelStub_clipped hfits hbytes hx hy hstop]
      exact fbufPutLoop_clipped hfits hx hy

/-- One pixel of two bytes and no padding. -/
def pixelSample : Fbuf := ⟨1, 1, .fbuf16BppRgb565, 2, fun _ => 0, none, false⟩

theorem fbuf_putpixel_overruns : ¬DrawsRun pixelSample 0 0 2 0xFFFF 2 := by
  intro h
  have hkept := (h.drawn fun _ => 0).buffer 2 (Nat.le_refl 2)
  have hwritten : fbufPutpixelStub pixelSample (fun _ => 0) 0 0 2 0xFFFF 2 2 = 0xFF := by decide
  rw [hwritten] at hkept
  cases hkept

theorem fbuf_putpixel_run_sample : DrawsRun pixelSample 0 0 1 0xFFFF 2 ↔ RunStops pixelSample 0 0 1 2 :=
  fbuf_putpixel_run_iff (by decide) (by decide) (by decide) (by decide) 1 0xFFFF

section Fill

variable {m : FbufBytes} {yStart lines : ℕ}

/-- A pixel that is drawn alone, on whatever buffer. -/
theorem fbufPutpixelStub_one (hfits : impl.Fits) (hx : x < impl.width) (hy : y < impl.height) {i : ℕ}
    (hi : i < fbufBytesPerPixel impl.type) :
    fbufPutpixelStub impl m x y 1 (fbufProcessColor impl.type color).1 (fbufBytesPerPixel impl.type)
      (impl.offset (x, y) + i) = pixelByte impl.type color i := by
  rw [fbufPutpixelStub_eq hfits ⟨hx, hy, cellIndex_lt_screen hx hy⟩]
  apply Fbuf.drawn_inside hfits hx _ hi
  exact mem_runCells hx hx (Nat.le_refl _) (Nat.lt_succ_self _)

/-- A fill leaves the bytes that the pixels of its lines have when each is drawn alone, and no other line changes. -/
theorem fbuf_fill_pixels (hfits : impl.Fits) (hlines : yStart + lines ≤ impl.height) (m : FbufBytes) (color : FbufColor) :
    (∀ x y, x < impl.width → yStart ≤ y → y < yStart + lines → ∀ i < fbufBytesPerPixel impl.type, ∀ alone : FbufBytes,
      fbufFillStub impl m yStart lines color (impl.offset (x, y) + i) =
        fbufPutpixelStub impl alone x y 1 (fbufProcessColor impl.type color).1 (fbufProcessColor impl.type color).2
          (impl.offset (x, y) + i)) ∧
      ∀ a, a < yStart * impl.pitch ∨ (yStart + lines) * impl.pitch ≤ a → fbufFillStub impl m yStart lines color a = m a := by
  constructor
  · intro x y hx hlow hhigh i hi alone
    rw [fbufFillStub_inside hfits hlines hx hlow hhigh hi, fbufProcessColor_bytes,
      fbufPutpixelStub_one hfits hx (by omega) hi]
  · intro a ha
    exact fbufFillStub_outside hfits hlines ha

theorem fbuf_fill_pixels_sample :
    fbufFillStub pixelSample (fun _ => 0) 0 1 0xFFFFFF (pixelSample.offset (0, 0) + 1) =
      fbufPutpixelStub pixelSample (fun _ => 0) 0 0 1 (fbufProcessColor .fbuf16BppRgb565 0xFFFFFF).1 2
        (pixelSample.offset (0, 0) + 1) :=
  (@fbuf_fill_pixels pixelSample 0 1 (by decide) (by decide) (fun _ => 0) 0xFFFFFF).1 0 0 (by decide) (by decide)
    (by decide) 1 (by decide) fun _ => 0

end Fill

end SysX
