import SysX.Framebuffer
import SysX.Lib.Raster
import Mathlib.Tactic.IntervalCases

/-! What one pixel keeps of a color: the two conversions of each format put together. -/
namespace SysX
namespace FbufPixelType

/-- The channels of a color to the precision of the format: five bits, six or all eight. -/
def truncate (type : FbufPixelType) (color : FbufColor) : FbufColor :=
  match type with
  | fbuf15BppRgb555 | fbuf15BppRgb555Re | fbuf15BppBgr555 | fbuf15BppBgr555Re => color &&& 0x00F8F8F8
  | fbuf16BppRgb565 | fbuf16BppRgb565Re | fbuf16BppBgr565 | fbuf16BppBgr565Re => color &&& 0x00F8FCF8
  | _ => color &&& 0x00FFFFFF

/-- What is read from a pixel after `color` was drawn on it. The two formats of three bytes come back with red
and blue exchanged, and one format of four bytes loses the low half of red. -/
def kept (type : FbufPixelType) (color : FbufColor) : FbufColor :=
  match type with
  | fbuf24BppRgb888 | fbuf24BppBgr888 => fbufB color <<< 16 ||| fbufG color <<< 8 ||| fbufR color
  | fbuf32BppRgb888Re => color &&& 0x00F0FFFF
  | _ => type.truncate color

/-- The colors that the format gives back. -/
def Keeps (type : FbufPixelType) (color : FbufColor) : Prop :=
  match type with
  | fbuf24BppRgb888 | fbuf24BppBgr888 => fbufR color = fbufB color
  | fbuf32BppRgb888Re => fbufR color &&& 0x0F = 0
  | _ => True

instance (type : FbufPixelType) (color : FbufColor) : Decidable (type.Keeps color) := by
  cases type <;> unfold Keeps <;> infer_instance

end FbufPixelType

section Bits

variable (c : FbufColor)

theorem fbufSwap_swap : fbufSwap (fbufSwap c &&& 0xFFFF) = c &&& 0xFFFF := by
  apply BitVec.eq_of_getLsbD_eq
  intro i hi
  simp only [fbufSwap]
  interval_cases i <;> simp

theorem rgb555_kept :
    let t := ((fbufR c >>> 3) <<< 10 ||| (fbufG c >>> 3) <<< 5 ||| (fbufB c >>> 3) <<< 0) &&& 0xFFFF
    ((t &&& 0b000000000011111) >>> 0) <<< 3 ||| ((t &&& 0b000001111100000) >>> 5) <<< 11 |||
      ((t &&& 0b111110000000000) >>> 10) <<< 19 = c &&& 0x00F8F8F8 := by
  apply BitVec.eq_of_getLsbD_eq
  intro i hi
  simp only [fbufR, fbufG, fbufB]
  interval_cases i <;> simp

theorem bgr555_kept :
    let t := ((fbufB c >>> 3) <<< 10 ||| (fbufG c >>> 3) <<< 5 ||| (fbufR c >>> 3) <<< 0) &&& 0xFFFF
    ((t &&& 0b111110000000000) >>> 10) <<< 3 ||| ((t &&& 0b000001111100000) >>> 5) <<< 11 |||
      ((t &&& 0b000000000011111) >>> 0) <<< 19 = c &&& 0x00F8F8F8 := by
  apply BitVec.eq_of_getLsbD_eq
  intro i hi
  simp only [fbufR, fbufG, fbufB]
  interval_cases i <;> simp

theorem rgb565_kept :
    let t := ((fbufR c >>> 3) <<< 11 ||| (fbufG c >>> 2) <<< 5 ||| (fbufB c >>> 3) <<< 0) &&& 0xFFFF
    ((t &&& 0b0000000000011111) >>> 0) <<< 3 ||| ((t &&& 0b0000011111100000) >>> 5) <<< 10 |||
      ((t &&& 0b1111100000000000) >>> 11) <<< 19 = c &&& 0x00F8FCF8 := by
  apply BitVec.eq_of_getLsbD_eq
  intro i hi
  simp only [fbufR, fbufG, fbufB]
  interval_cases i <;> simp

theorem bgr565_kept :
    let t := ((fbufB c >>> 3) <<< 11 ||| (fbufG c >>> 2) <<< 5 ||| (fbufR c >>> 3) <<< 0) &&& 0xFFFF
    ((t &&& 0b1111100000000000) >>> 11) <<< 3 ||| ((t &&& 0b0000011111100000) >>> 5) <<< 10 |||
      ((t &&& 0b0000000000011111) >>> 0) <<< 19 = c &&& 0x00F8FCF8 := by
  apply BitVec.eq_of_getLsbD_eq
  intro i hi
  simp only [fbufR, fbufG, fbufB]
  interval_cases i <;> simp

theorem bgr888_kept :
    let t := fbufR c <<< 0 ||| fbufG c <<< 8 ||| fbufB c <<< 16
    (t &&& 0x000000FF) <<< 16 ||| (t &&& (0x0000FF00 : FbufColor)) ||| (t &&& 0x00FF0000) >>> 16 = c &&& 0x00FFFFFF := by
  apply BitVec.eq_of_getLsbD_eq
  intro i hi
  simp only [fbufR, fbufG, fbufB]
  interval_cases i <;> simp

theorem bgr888Re_kept :
    (fbufR c <<< 24 ||| fbufG c <<< 16 ||| fbufB c <<< 8) >>> 8 = c &&& 0x00FFFFFF := by
  apply BitVec.eq_of_getLsbD_eq
  intro i hi
  simp only [fbufR, fbufG, fbufB]
  interval_cases i <;> simp

theorem rgb888Re_kept :
    let c' := c &&& 0x00FFFFFF
    let t := (c' &&& 0x000000FF) <<< 24 ||| (c' &&& 0x0000FF00) <<< 8 ||| (c' &&& 0x00FF00000) >>> 8
    (t &&& 0xFF000000) >>> 24 ||| (t &&& 0x00FF0000) >>> 8 ||| (t &&& 0x0000FF00) <<< 8 =
      c &&& 0x00F0FFFF := by
  apply BitVec.eq_of_getLsbD_eq
  intro i hi
  interval_cases i <;> simp

theorem channels_join : fbufR c <<< 16 ||| fbufG c <<< 8 ||| fbufB c = c &&& 0x00FFFFFF := by
  apply BitVec.eq_of_getLsbD_eq
  intro i hi
  simp only [fbufR, fbufG, fbufB]
  interval_cases i <;> simp

theorem fbufR_channels (d e : FbufColor) :
    fbufR ((c &&& 0xFF) <<< 16 ||| (d &&& 0xFF) <<< 8 ||| (e &&& 0xFF)) = c &&& 0xFF := by
  apply BitVec.eq_of_getLsbD_eq
  intro i hi
  simp only [fbufR]
  interval_cases i <;> simp

/-- Red and blue may be exchanged when they are equal. -/
theorem exchanged_eq_iff :
    fbufB c <<< 16 ||| fbufG c <<< 8 ||| fbufR c = c &&& 0x00FFFFFF ↔ fbufR c = fbufB c := by
  have hchannel : ∀ d : FbufColor, fbufB d = d &&& 0xFF := fun d => rfl
  have hred : fbufR c = c >>> 16 &&& 0xFF := rfl
  have hgreen : fbufG c = c >>> 8 &&& 0xFF := rfl
  rw [← channels_join]
  constructor
  · intro h
    have h' := congrArg fbufR h
    rw [hred, hgreen, hchannel, fbufR_channels, fbufR_channels] at h'
    exact h'.symm
  · intro h
    rw [h]

theorem halved_eq_iff : c &&& 0x00F0FFFF = c &&& 0x00FFFFFF ↔ fbufR c &&& 0x0F = 0 := by
  have hsplit : c &&& (0x00FFFFFF : FbufColor) =
      c &&& (0x00F0FFFF : FbufColor) ||| (fbufR c &&& (0x0F : FbufColor)) <<< 16 := by
    apply BitVec.eq_of_getLsbD_eq
    intro i hi
    simp only [fbufR]
    interval_cases i <;> simp
  have hlow : fbufR c &&& (0x0F : FbufColor) =
      ((c &&& (0x00FFFFFF : FbufColor)) ^^^ (c &&& (0x00F0FFFF : FbufColor))) >>> 16 := by
    apply BitVec.eq_of_getLsbD_eq
    intro i hi
    simp only [fbufR]
    interval_cases i <;> simp
  constructor
  · intro h
    rw [hlow, h, BitVec.xor_self]
    rfl
  · intro h
    rw [hsplit, h]
    simp

theorem fbufR_and : fbufR (c &&& 0x00FFFFFF) = fbufR c := by
  simp [fbufR, BitVec.and_assoc, BitVec.ushiftRight_and_distrib]

theorem fbufG_and : fbufG (c &&& 0x00FFFFFF) = fbufG c := by
  simp [fbufG, BitVec.and_assoc, BitVec.ushiftRight_and_distrib]

theorem fbufB_and : fbufB (c &&& 0x00FFFFFF) = fbufB c := by
  simp [fbufB, BitVec.and_assoc]

end Bits

namespace FbufPixelType

variable {type : FbufPixelType} {c : FbufColor}

/-- The condition says when a pixel keeps all that its format has room for. -/
theorem kept_eq_iff : type.kept c = type.truncate c ↔ type.Keeps c := by
  cases type <;> simp only [kept, truncate, Keeps]
  case fbuf24BppRgb888 => exact exchanged_eq_iff c
  case fbuf24BppBgr888 => exact exchanged_eq_iff c
  case fbuf32BppRgb888Re => exact halved_eq_iff c

end FbufPixelType

section Bytes

variable {m m' : FbufBytes} {ptr ptr' a k v : ℕ} {c : FbufColor}

theorem fbufStore_outside (h : a < ptr ∨ ptr + k ≤ a) : fbufStore m ptr k c a = m a := by
  apply writeLe_of_ne
  intro i hi
  omega

theorem fbufLoad_congr (h : ∀ i < k, m' (ptr' + i) = m (ptr + i)) : fbufLoad m' ptr' k = fbufLoad m ptr k := by
  unfold fbufLoad
  rw [readLe_congr h]

theorem fbufLoad_store : fbufLoad (fbufStore m ptr k c) ptr k = BitVec.ofNat 32 (c.toNat % 256 ^ k) := by
  unfold fbufLoad fbufStore
  rw [readLe_writeLe fun i _ j _ h => Nat.add_left_cancel h]

theorem fbufLoad_store_two : fbufLoad (fbufStore m ptr 2 c) ptr 2 = c &&& 0xFFFF := by
  rw [fbufLoad_store]
  apply BitVec.eq_of_toNat_eq
  have hmask : c.toNat &&& (2 ^ 16 - 1) = c.toNat % 2 ^ 16 := Nat.and_two_pow_sub_one_eq_mod _ _
  simp at hmask ⊢
  omega

theorem fbufLoad_store_four : fbufLoad (fbufStore m ptr 4 c) ptr 4 = c := by
  rw [fbufLoad_store]
  apply BitVec.eq_of_toNat_eq
  have := c.isLt
  simp
  omega

theorem fbufByte_store : fbufByte (fbufStoreByte m ptr c) ptr = c &&& 0xFF := by
  unfold fbufByte fbufStoreByte
  rw [fbufLoad_store]
  apply BitVec.eq_of_toNat_eq
  have hmask : c.toNat &&& (2 ^ 8 - 1) = c.toNat % 2 ^ 8 := Nat.and_two_pow_sub_one_eq_mod _ _
  simp at hmask ⊢
  omega

theorem fbufByte_store_ne (h : ptr' ≠ ptr) : fbufByte (fbufStoreByte m ptr c) ptr' = fbufByte m ptr' := by
  apply fbufLoad_congr
  intro i hi
  apply fbufStore_outside
  omega

/-- Three bytes written one after the other. -/
theorem fbufThreeBytes (c₀ c₁ c₂ : FbufColor) :
    let m' := fbufStoreByte (fbufStoreByte (fbufStoreByte m ptr c₀) (ptr + 1) c₁) (ptr + 2) c₂
    fbufByte m' ptr = c₀ &&& 0xFF ∧ fbufByte m' (ptr + 1) = c₁ &&& 0xFF ∧
      fbufByte m' (ptr + 2) = c₂ &&& 0xFF := by
  refine ⟨?_, ?_, fbufByte_store⟩
  · rw [fbufByte_store_ne (by omega), fbufByte_store_ne (by omega), fbufByte_store]
  · rw [fbufByte_store_ne (by omega), fbufByte_store]

/-- A pixel is written within its own bytes. -/
theorem fbufPutOne_outside {type : FbufPixelType} (h : a < ptr ∨ ptr + k ≤ a) :
    fbufPutOne type k c m ptr a = m a := by
  have hbyte (p : ℕ) (hp : p ≠ a) (m : FbufBytes) (c : FbufColor) : fbufStoreByte m p c a = m a :=
    fbufStore_outside (by omega)
  unfold fbufPutOne
  split
  · exact fbufStore_outside h
  · split_ifs
    all_goals
      rw [hbyte _ (by omega), hbyte _ (by omega), hbyte _ (by omega)]
  · exact fbufStore_outside h
  · rfl

/-- A pixel is read from its own bytes. -/
theorem fbufGetOne_congr {type : FbufPixelType}
    (h : ∀ i < fbufBytesPerPixel type, m' (ptr' + i) = m (ptr + i)) :
    fbufGetOne type m' ptr' = fbufGetOne type m ptr := by
  have hload : fbufLoad m' ptr' (fbufBytesPerPixel type) = fbufLoad m ptr (fbufBytesPerPixel type) :=
    fbufLoad_congr h
  have hbyte (i : ℕ) (hi : i < fbufBytesPerPixel type) : fbufByte m' (ptr' + i) = fbufByte m (ptr + i) := by
    apply fbufLoad_congr
    intro j hj
    obtain rfl : j = 0 := by omega
    exact h i hi
  cases type
  case fbuf24BppRgb888 =>
    simp only [fbufGetOne, hbyte 1 (by decide), hbyte 2 (by decide), show fbufByte m' ptr' = _ from hbyte 0 (by decide)]
    rfl
  case fbuf24BppBgr888 =>
    simp only [fbufGetOne, hbyte 1 (by decide), hbyte 2 (by decide), show fbufByte m' ptr' = _ from hbyte 0 (by decide)]
    rfl
  all_goals
    simp only [fbufBytesPerPixel] at hload
    simp only [fbufGetOne, hload]

/-- What is read back from a pixel that was drawn. -/
theorem fbufGetOne_put (type : FbufPixelType) (c : FbufColor) (m : FbufBytes) (ptr : ℕ) :
    fbufGetOne type (fbufPutOne type (fbufBytesPerPixel type) (fbufProcessColor type c).1 m ptr) ptr =
      type.kept c := by
  cases type <;>
    simp only [fbufGetOne, fbufPutOne, fbufBytesPerPixel, fbufProcessColor, fbufLoad_store_two,
      fbufLoad_store_four, fbufSwap_swap, fbufR_and, fbufG_and, fbufB_and]
  case fbuf15BppRgb555 => exact rgb555_kept c
  case fbuf15BppRgb555Re => exact rgb555_kept c
  case fbuf15BppBgr555 => exact bgr555_kept c
  case fbuf15BppBgr555Re => exact bgr555_kept c
  case fbuf16BppRgb565 => exact rgb565_kept c
  case fbuf16BppRgb565Re => exact rgb565_kept c
  case fbuf16BppBgr565 => exact bgr565_kept c
  case fbuf16BppBgr565Re => exact bgr565_kept c
  case fbuf24BppRgb888 => simp [fbufThreeBytes, FbufPixelType.kept, fbufR, fbufG, fbufB, BitVec.and_assoc]
  case fbuf24BppBgr888 => simp [fbufThreeBytes, FbufPixelType.kept, fbufR, fbufG, fbufB, BitVec.and_assoc]
  case fbuf32BppRgb888 => simp [BitVec.and_assoc, FbufPixelType.kept, FbufPixelType.truncate]
  case fbuf32BppRgb888Re => exact rgb888Re_kept c
  case fbuf32BppBgr888 => exact bgr888_kept c
  case fbuf32BppBgr888Re => exact bgr888Re_kept c

end Bytes
end SysX
