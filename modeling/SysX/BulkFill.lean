import SysX.PixelRoundTrip

/-! Fills of whole lines (`fbuf_fill_stub` in `hal/fbuf.c`), byte for byte. -/
namespace SysX

/-- The loop of `fbuf_fill_stub` with one fill for each line. -/
def fbufFillLines (pitch bytesPerPixel : ℕ) (color : FbufColor) : (lines ptr : ℕ) → FbufBytes → FbufBytes
  | 0, _, m => m
  | lines + 1, ptr, m =>
    let m :=
      match bytesPerPixel with
      | 2 => memset16 m ptr color (pitch / 2)
      | 4 => memset32 m ptr color (pitch / 4)
      | _ => m
    fbufFillLines pitch bytesPerPixel color lines (ptr + pitch) m

/-- The color is processed twice for the formats of three bytes. -/
def fbufFillStub (impl : Fbuf) (m : FbufBytes) (yStart lines : ℕ) (color : FbufColor) : FbufBytes :=
  if lines = 0 then m
  else
    let (color, bytesPerPixel) := fbufProcessColor impl.type color
    if bytesPerPixel = 3 then
      let (color, bytesPerPixel) := fbufProcessColor impl.type color
      fbufPutpixelStub impl m 0 yStart (impl.width * lines) color bytesPerPixel
    else
      let ptr := yStart * impl.pitch
      if impl.pitch % bytesPerPixel = 0 then
        match bytesPerPixel with
        | 2 => memset16 m ptr color (impl.pitch * lines / 2)
        | 4 => memset32 m ptr color (impl.pitch * lines / 4)
        | _ => m
      else fbufFillLines impl.pitch bytesPerPixel color lines ptr m

/-! The bytes that a fill leaves behind. -/

/-- The bytes of a pixel that was drawn alone. -/
def pixelByte (type : FbufPixelType) (color : FbufColor) : ℕ → UInt8 :=
  fbufPutOne type (fbufBytesPerPixel type) (fbufProcessColor type color).1 (fun _ => 0) 0

variable {impl : Fbuf} {m : FbufBytes} {color : FbufColor}

section Units

variable {bytes n ptr c a : ℕ}

theorem fbufStore_apply {i : ℕ} (hi : i < bytes) :
    fbufStore m ptr bytes color (ptr + i) = UInt8.ofNat (color.toNat / 256 ^ i) := by
  apply writeLe_apply _ hi
  intro i _ j _ h
  omega

theorem memsetUnits_outside (h : a < ptr ∨ ptr + n * bytes ≤ a) : memsetUnits bytes color n ptr m a = m a := by
  induction n generalizing ptr m with
  | zero => rfl
  | succ n ih =>
    rw [Nat.succ_mul] at h
    rw [memsetUnits, ih (by omega)]
    exact fbufStore_outside (by omega)

theorem memsetUnits_inside (hc : c < n * bytes) :
    memsetUnits bytes color n ptr m (ptr + c) = UInt8.ofNat (color.toNat / 256 ^ (c % bytes)) := by
  induction n generalizing ptr c m with
  | zero => omega
  | succ n ih =>
    rw [memsetUnits]
    rcases Nat.lt_or_ge c bytes with hfirst | hrest
    · rw [memsetUnits_outside (by omega), fbufStore_apply hfirst, Nat.mod_eq_of_lt hfirst]
    · obtain ⟨c, rfl⟩ := Nat.exists_eq_add_of_le hrest
      rw [Nat.succ_mul] at hc
      rw [← Nat.add_assoc, ih (by omega), Nat.add_mod_left]

end Units

section Lines

variable {pitch bytes lines ptr line c a : ℕ}

theorem fbufFillLines_succ (hbytes : bytes = 2 ∨ bytes = 4) :
    fbufFillLines pitch bytes color (lines + 1) ptr m =
      fbufFillLines pitch bytes color lines (ptr + pitch) (memsetUnits bytes color (pitch / bytes) ptr m) := by
  rcases hbytes with rfl | rfl
  · rfl
  · rfl

theorem fbufFillLines_outside (hbytes : bytes = 2 ∨ bytes = 4) (h : a < ptr ∨ ptr + lines * pitch ≤ a) :
    fbufFillLines pitch bytes color lines ptr m a = m a := by
  induction lines generalizing ptr m with
  | zero => rfl
  | succ lines ih =>
    have hroom := Nat.div_mul_le_self pitch bytes
    rw [Nat.succ_mul] at h
    rw [fbufFillLines_succ hbytes, ih (by omega)]
    exact memsetUnits_outside (by omega)

theorem fbufFillLines_inside (hbytes : bytes = 2 ∨ bytes = 4) (hline : line < lines)
    (hc : c < pitch / bytes * bytes) :
    fbufFillLines pitch bytes color lines ptr m (ptr + line * pitch + c) =
      UInt8.ofNat (color.toNat / 256 ^ (c % bytes)) := by
  have hroom := Nat.div_mul_le_self pitch bytes
  induction lines generalizing line ptr m with
  | zero => omega
  | succ lines ih =>
    rw [fbufFillLines_succ hbytes]
    cases line with
    | zero =>
      rw [Nat.zero_mul, Nat.add_zero, fbufFillLines_outside hbytes (by omega)]
      exact memsetUnits_inside hc
    | succ line =>
      have hnext : ptr + (line + 1) * pitch + c = ptr + pitch + line * pitch + c := by
        rw [Nat.succ_mul]
        omega
      rw [hnext]
      exact ih (Nat.lt_of_succ_lt_succ hline)

end Lines

section Pixel

variable {type : FbufPixelType} {ptr i : ℕ}

/-- The formats without three bytes. -/
theorem fbufBytesPerPixel_unit (h : fbufBytesPerPixel type ≠ 3) :
    fbufBytesPerPixel type = 2 ∨ fbufBytesPerPixel type = 4 := by
  revert h
  cases type <;> simp [fbufBytesPerPixel]

theorem fbufPutOne_unit {bytes : ℕ} (hbytes : bytes = 2 ∨ bytes = 4) (hi : i < bytes) :
    fbufPutOne type bytes color m ptr (ptr + i) = UInt8.ofNat (color.toNat / 256 ^ i) := by
  rcases hbytes with rfl | rfl
  · exact fbufStore_apply hi
  · exact fbufStore_apply hi

/-- Three bytes, each stored on its own. -/
theorem fbufStoreByte_three {c₀ c₁ c₂ : FbufColor} (hi : i < 3) :
    fbufStoreByte (fbufStoreByte (fbufStoreByte m ptr c₀) (ptr + 1) c₁) (ptr + 2) c₂ (ptr + i) =
      UInt8.ofNat (if i = 0 then c₀ else if i = 1 then c₁ else c₂).toNat := by
  have hself (m : FbufBytes) (p : ℕ) (c : FbufColor) : fbufStoreByte m p c p = UInt8.ofNat c.toNat := by
    have h : fbufStore m p 1 c (p + 0) = _ := fbufStore_apply Nat.one_pos
    rw [Nat.add_zero, Nat.pow_zero, Nat.div_one] at h
    exact h
  have hne (m : FbufBytes) (p a : ℕ) (c : FbufColor) (h : p ≠ a) : fbufStoreByte m p c a = m a :=
    fbufStore_outside (by omega)
  obtain rfl | rfl | rfl : i = 0 ∨ i = 1 ∨ i = 2 := by omega
  · rw [hne _ _ _ _ (by omega), hne _ _ _ _ (by omega), Nat.add_zero, hself]
    rfl
  · rw [hne _ _ _ _ (by omega), hself]
    rfl
  · rw [hself]
    rfl

/-- The bytes of a pixel do not depend on where it is drawn. -/
theorem fbufPutOne_anywhere {bytes : ℕ} (hbytes : bytes = 2 ∨ bytes = 3 ∨ bytes = 4) (hi : i < bytes) :
    fbufPutOne type bytes color m ptr (ptr + i) = fbufPutOne type bytes color (fun _ => 0) 0 i := by
  rw [← Nat.zero_add i, ← Nat.add_assoc, Nat.add_zero]
  by_cases hthree : bytes = 3
  · subst hthree
    simp only [fbufPutOne]
    split_ifs
    · rw [fbufStoreByte_three hi, fbufStoreByte_three hi]
    · rw [fbufStoreByte_three hi, fbufStoreByte_three hi]
  · have hunit : bytes = 2 ∨ bytes = 4 := by omega
    rw [fbufPutOne_unit hunit hi, fbufPutOne_unit hunit hi]

theorem fbufPutOne_apply (hi : i < fbufBytesPerPixel type) :
    fbufPutOne type (fbufBytesPerPixel type) (fbufProcessColor type color).1 m ptr (ptr + i) =
      pixelByte type color i := by
  apply fbufPutOne_anywhere _ hi
  cases type <;> simp [fbufBytesPerPixel]

theorem pixelByte_unit (hthree : fbufBytesPerPixel type ≠ 3) (hi : i < fbufBytesPerPixel type) :
    pixelByte type color i = UInt8.ofNat ((fbufProcessColor type color).1.toNat / 256 ^ i) := by
  have hput : fbufPutOne type (fbufBytesPerPixel type) (fbufProcessColor type color).1 (fun _ => 0) 0 (0 + i) =
      pixelByte type color i := fbufPutOne_apply hi
  rw [← hput]
  exact fbufPutOne_unit (fbufBytesPerPixel_unit hthree) hi

/-- The formats of three bytes do not mind that their color is processed twice. -/
theorem fbufProcessColor_twice (hthree : fbufBytesPerPixel type = 3) :
    (fbufProcessColor type (fbufProcessColor type color).1).1 = (fbufProcessColor type color).1 := by
  revert hthree
  cases type
  all_goals
    simp [fbufBytesPerPixel, fbufProcessColor, BitVec.and_assoc]

theorem pixelByte_twice (hthree : fbufBytesPerPixel type = 3) :
    pixelByte type (fbufProcessColor type color).1 = pixelByte type color := by
  unfold pixelByte
  rw [fbufProcessColor_twice hthree]

end Pixel

/-- The bytes of the pixels of a run. -/
theorem Fbuf.drawn_inside {x y n i : ℕ} {p : ℕ × ℕ} (hfits : impl.Fits) (hx : x < impl.width)
    (hp : p ∈ runCells impl.width n x y) (hi : i < fbufBytesPerPixel impl.type) :
    impl.drawn x y n color m (impl.offset p + i) = pixelByte impl.type color i := by
  apply foldl_seen (fun (m : FbufBytes) p => m (impl.offset p + i)) _ _ (runCells_pairwise hx) hp
  · intro m p
    exact fbufPutOne_apply hi
  · intro m p q hpq
    have := cellOffset_add_le hfits hpq.1.1 hpq.1.2 hpq.2
    apply fbufPutOne_outside
    unfold Fbuf.offset
    omega

section Fill

variable {yStart lines a x y i : ℕ}

/-- With three bytes for each pixel a fill draws a run of pixels. -/
theorem fbufFillStub_three (hfits : impl.Fits) (hthree : fbufBytesPerPixel impl.type = 3)
    (hlines : yStart + lines ≤ impl.height) (hx : 0 < impl.width) :
    fbufFillStub impl m yStart lines color =
      impl.drawn 0 yStart (impl.width * lines) (fbufProcessColor impl.type color).1 m := by
  unfold fbufFillStub
  split_ifs with hzero
  · rw [hzero]
    rfl
  · have hscreen : impl.OnScreen 0 yStart (impl.width * lines) := by
      have hroom : impl.width * (yStart + lines) ≤ impl.width * impl.height := Nat.mul_le_mul_left _ hlines
      rw [Nat.mul_add, Nat.mul_comm _ yStart] at hroom
      exact ⟨hx, by omega, by simpa [cellIndex] using hroom⟩
    simp only [fbufProcessColor_bytes, hthree, if_true]
    rw [← hthree]
    exact fbufPutpixelStub_eq hfits hscreen

/-- With two or four bytes it fills the lines with units, in one piece or line by line. -/
theorem fbufFillStub_unit (hthree : fbufBytesPerPixel impl.type ≠ 3) :
    fbufFillStub impl m yStart lines color =
      let bytes := fbufBytesPerPixel impl.type
      let c := (fbufProcessColor impl.type color).1
      if impl.pitch % bytes = 0 then
        memsetUnits bytes c (impl.pitch * lines / bytes) (yStart * impl.pitch) m
      else fbufFillLines impl.pitch bytes c lines (yStart * impl.pitch) m := by
  unfold fbufFillStub
  simp only [fbufProcessColor_bytes, if_neg hthree]
  rcases fbufBytesPerPixel_unit hthree with hbytes | hbytes
  all_goals
    rw [hbytes]
    split_ifs with hzero heven
    · simp [hzero, memsetUnits]
    · rw [hzero]
      rfl
    · rfl
    · rfl

theorem fbufFillStub_outside (hfits : impl.Fits) (hlines : yStart + lines ≤ impl.height)
    (h : a < yStart * impl.pitch ∨ (yStart + lines) * impl.pitch ≤ a) :
    fbufFillStub impl m yStart lines color a = m a := by
  rw [Nat.add_mul] at h
  by_cases hthree : fbufBytesPerPixel impl.type = 3
  · rcases Nat.eq_zero_or_pos impl.width with hx | hx
    · simp [fbufFillStub, fbufProcessColor_bytes, hthree, fbufPutpixelStub, fbufPutLoop, hx]
    rw [fbufFillStub_three hfits hthree hlines hx]
    apply Fbuf.drawn_byte hx
    rintro p ⟨hp, hrun⟩
    obtain ⟨hlow, hhigh⟩ := (cellIndex_lines_iff hp).mp hrun
    obtain ⟨hfirst, hlast⟩ := cellOffset_bounds hfits hp
    have hbefore := Nat.mul_le_mul_right impl.pitch hlow
    have hafter : (p.2 + 1) * impl.pitch ≤ (yStart + lines) * impl.pitch := Nat.mul_le_mul_right _ hhigh
    rw [Nat.add_mul yStart] at hafter
    unfold Fbuf.offset
    omega
  · have hunit := fbufBytesPerPixel_unit hthree
    rw [fbufFillStub_unit hthree]
    dsimp only
    split_ifs
    · have hroom := Nat.div_mul_le_self (impl.pitch * lines) (fbufBytesPerPixel impl.type)
      rw [Nat.mul_comm impl.pitch] at hroom ⊢
      exact memsetUnits_outside (by omega)
    · exact fbufFillLines_outside hunit h

theorem fbufFillStub_inside (hfits : impl.Fits) (hlines : yStart + lines ≤ impl.height) (hx : x < impl.width)
    (hlow : yStart ≤ y) (hhigh : y < yStart + lines) (hi : i < fbufBytesPerPixel impl.type) :
    fbufFillStub impl m yStart lines color (impl.offset (x, y) + i) = pixelByte impl.type color i := by
  by_cases hthree : fbufBytesPerPixel impl.type = 3
  · rw [fbufFillStub_three hfits hthree hlines (by omega), ← pixelByte_twice hthree]
    obtain ⟨hfirst, hlast⟩ := (cellIndex_lines_iff (p := (x, y)) hx).mpr ⟨hlow, hhigh⟩
    exact Fbuf.drawn_inside hfits (by omega) (mem_runCells (by omega) hx hfirst hlast) hi
  · have hunit := fbufBytesPerPixel_unit hthree
    obtain ⟨line, rfl⟩ := Nat.exists_eq_add_of_le hlow
    have hline : line < lines := Nat.lt_of_add_lt_add_left hhigh
    have hplace : impl.offset (x, yStart + line) + i =
        yStart * impl.pitch + line * impl.pitch + (x * fbufBytesPerPixel impl.type + i) := by
      rw [Fbuf.offset, cellOffset, Nat.add_mul, Nat.add_assoc]
    have hbyte : (x * fbufBytesPerPixel impl.type + i) % fbufBytesPerPixel impl.type = i := by
      rw [Nat.mul_add_mod_self_right, Nat.mod_eq_of_lt hi]
    have hpixel : x * fbufBytesPerPixel impl.type + i <
        impl.pitch / fbufBytesPerPixel impl.type * fbufBytesPerPixel impl.type := by
      have hwidth : impl.width ≤ impl.pitch / fbufBytesPerPixel impl.type :=
        (Nat.le_div_iff_mul_le (by omega)).mpr hfits
      have hroom : (x + 1) * fbufBytesPerPixel impl.type ≤ _ := Nat.mul_le_mul_right _ (hx.trans_le hwidth)
      rw [Nat.succ_mul] at hroom
      omega
    rw [pixelByte_unit hthree hi, fbufFillStub_unit hthree, hplace]
    dsimp only
    split_ifs with heven
    · obtain ⟨units, hunits⟩ := Nat.dvd_of_mod_eq_zero heven
      have hall := Nat.div_mul_cancel (Dvd.dvd.mul_right (Nat.dvd_of_mod_eq_zero heven) lines)
      have hpitch := Nat.div_mul_le_self impl.pitch (fbufBytesPerPixel impl.type)
      have hlast : (line + 1) * impl.pitch ≤ lines * impl.pitch := Nat.mul_le_mul_right _ hline
      rw [Nat.succ_mul, Nat.mul_comm lines] at hlast
      have hmod : (line * impl.pitch + (x * fbufBytesPerPixel impl.type + i)) %
          fbufBytesPerPixel impl.type = i := by
        rw [hunits, Nat.mul_left_comm, Nat.mul_add_mod_self_left, hbyte]
      rw [Nat.add_assoc, memsetUnits_inside (by omega), hmod]
    · rw [fbufFillLines_inside hunit hline hpixel, hbyte]

end Fill

end SysX
