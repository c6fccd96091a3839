import SysX.Lib.Bytes
import Mathlib.Data.BitVec

/-!
Pixels of the framebuffer (`hal/fbuf.c`). A buffer is the bytes from its pointer on, and offsets into it do
not wrap: a line is at least as long as its pixels.
-/
namespace SysX

/-- `enum fbuf_pixel_type` -/
inductive FbufPixelType
  | fbuf15BppRgb555
  | fbuf15BppRgb555Re
  | fbuf15BppBgr555
  | fbuf15BppBgr555Re
  | fbuf16BppRgb565
  | fbuf16BppRgb565Re
  | fbuf16BppBgr565
  | fbuf16BppBgr565Re
  | fbuf24BppRgb888
  | fbuf24BppBgr888
  | fbuf32BppRgb888
  | fbuf32BppRgb888Re
  | fbuf32BppBgr888
  | fbuf32BppBgr888Re
  deriving DecidableEq, Repr

abbrev FbufBytes := ℕ → UInt8
abbrev FbufColor := BitVec 32

/-- `fbuf_t`, of which the drawing functions use the geometry and the two buffers. -/
structure Fbuf where
  width : ℕ
  height : ℕ
  type : FbufPixelType
  pitch : ℕ
  framebuffer : FbufBytes
  backbuffer : Option FbufBytes
  dbufDirectWrite : Bool

def fbufR (color : FbufColor) : FbufColor := color >>> 16 &&& 0xFF
def fbufG (color : FbufColor) : FbufColor := color >>> 8 &&& 0xFF
def fbufB (color : FbufColor) : FbufColor := color &&& 0xFF

def fbufBytesPerPixel : FbufPixelType → ℕ
  | .fbuf15BppBgr555 => 2
  | .fbuf15BppBgr555Re => 2
  | .fbuf15BppRgb555 => 2
  | .fbuf15BppRgb555Re => 2
  | .fbuf16BppBgr565 => 2
  | .fbuf16BppBgr565Re => 2
  | .fbuf16BppRgb565 => 2
  | .fbuf16BppRgb565Re => 2
  | .fbuf24BppBgr888 => 3
  | .fbuf24BppRgb888 => 3
  | .fbuf32BppBgr888 => 4
  | .fbuf32BppBgr888Re => 4
  | .fbuf32BppRgb888 => 4
  | .fbuf32BppRgb888Re => 4

/-- The exchange of the two low bytes, which the formats of the other endianness make both ways. -/
def fbufSwap (t : FbufColor) : FbufColor := (t &&& 0x00FF) <<< 8 ||| (t &&& 0xFF00) >>> 8

/-- The color as the framebuffer takes it, and its bytes per pixel. -/
def fbufProcessColor (type : FbufPixelType) (color : FbufColor) : FbufColor × ℕ :=
  let color := color &&& 0x00FFFFFF
  match type with
  | .fbuf15BppBgr555 =>
    ((fbufB color >>> 3) <<< 10 ||| (fbufG color >>> 3) <<< 5 ||| (fbufR color >>> 3) <<< 0, 2)
  | .fbuf15BppBgr555Re =>
    (fbufSwap ((fbufB color >>> 3) <<< 10 ||| (fbufG color >>> 3) <<< 5 ||| (fbufR color >>> 3) <<< 0), 2)
  | .fbuf15BppRgb555 =>
    ((fbufR color >>> 3) <<< 10 ||| (fbufG color >>> 3) <<< 5 ||| (fbufB color >>> 3) <<< 0, 2)
  | .fbuf15BppRgb555Re =>
    (fbufSwap ((fbufR color >>> 3) <<< 10 ||| (fbufG color >>> 3) <<< 5 ||| (fbufB color >>> 3) <<< 0), 2)
  | .fbuf16BppBgr565 =>
    ((fbufB color >>> 3) <<< 11 ||| (fbufG color >>> 2) <<< 5 ||| (fbufR color >>> 3) <<< 0, 2)
  | .fbuf16BppBgr565Re =>
    (fbufSwap ((fbufB color >>> 3) <<< 11 ||| (fbufG color >>> 2) <<< 5 ||| (fbufR color >>> 3) <<< 0), 2)
  | .fbuf16BppRgb565 =>
    ((fbufR color >>> 3) <<< 11 ||| (fbufG color >>> 2) <<< 5 ||| (fbufB color >>> 3) <<< 0, 2)
  | .fbuf16BppRgb565Re =>
    (fbufSwap ((fbufR color >>> 3) <<< 11 ||| (fbufG color >>> 2) <<< 5 ||| (fbufB color >>> 3) <<< 0), 2)
  | .fbuf24BppBgr888 => (color, 3)
  | .fbuf24BppRgb888 => (color, 3)
  | .fbuf32BppBgr888 => (fbufR color <<< 0 ||| fbufG color <<< 8 ||| fbufB color <<< 16, 4)
  | .fbuf32BppBgr888Re => (fbufR color <<< 24 ||| fbufG color <<< 16 ||| fbufB color <<< 8, 4)
  | .fbuf32BppRgb888 => (color, 4)
  -- the last mask of the source has nine digits
  | .fbuf32BppRgb888Re =>
    ((color &&& 0x000000FF) <<< 24 ||| (color &&& 0x0000FF00) <<< 8 ||| (color &&& 0x00FF00000) >>> 8, 4)

/-! Accesses to the bytes of a buffer. -/

def fbufStore (m : FbufBytes) (ptr bytes : ℕ) (color : FbufColor) : FbufBytes :=
  writeLe m (fun i => ptr + i) bytes color.toNat

def fbufLoad (m : FbufBytes) (ptr bytes : ℕ) : FbufColor :=
  BitVec.ofNat 32 (readLe m (fun i => ptr + i) bytes)

def fbufStoreByte (m : FbufBytes) (ptr : ℕ) (c : FbufColor) : FbufBytes := fbufStore m ptr 1 c

def fbufByte (m : FbufBytes) (ptr : ℕ) : FbufColor := fbufLoad m ptr 1

/-- `memset16` and `memset32`: `n` units of `bytes` bytes each. -/
def memsetUnits (bytes : ℕ) (color : FbufColor) : (n ptr : ℕ) → FbufBytes → FbufBytes
  | 0, _, m => m
  | n + 1, ptr, m => memsetUnits bytes color n (ptr + bytes) (fbufStore m ptr bytes color)

def memset16 (m : FbufBytes) (ptr : ℕ) (color : FbufColor) (n : ℕ) : FbufBytes :=
  memsetUnits 2 color n ptr m

def memset32 (m : FbufBytes) (ptr : ℕ) (color : FbufColor) (n : ℕ) : FbufBytes :=
  memsetUnits 4 color n ptr m

/-- The body of the slow loop of `fbuf_putpixel_stub`: the store of one pixel. -/
def fbufPutOne (type : FbufPixelType) (bytesPerPixel : ℕ) (color : FbufColor) (m : FbufBytes) (ptr : ℕ) :
    FbufBytes :=
  match bytesPerPixel with
  | 2 => fbufStore m ptr 2 color
  | 3 =>
    if type = .fbuf24BppBgr888 then
      let m := fbufStoreByte m ptr (fbufR color)
      let m := fbufStoreByte m (ptr + 1) (fbufG color)
      fbufStoreByte m (ptr + 2) (fbufB color)
    else
      let m := fbufStoreByte m ptr (fbufB color)
      let m := fbufStoreByte m (ptr + 1) (fbufG color)
      fbufStoreByte m (ptr + 2) (fbufR color)
  | 4 => fbufStore m ptr 4 color
  | _ => m

/-- The slow loop of `fbuf_putpixel_stub`, over the pixels that are left. -/
def fbufPutLoop (impl : Fbuf) (color : FbufColor) (bytesPerPixel lineOffset : ℕ) :
    (n ptr x y : ℕ) → FbufBytes → FbufBytes
  | 0, _, _, _, m => m
  | n + 1, ptr, x, y, m =>
    let m := fbufPutOne impl.type bytesPerPixel color m ptr
    let ptr := ptr + bytesPerPixel
    if x + 1 = impl.width then
      if y + 1 = impl.height then m
      else fbufPutLoop impl color bytesPerPixel lineOffset n (ptr + lineOffset) 0 (y + 1) m
    else fbufPutLoop impl color bytesPerPixel lineOffset n ptr (x + 1) y m

def fbufPutpixelStub (impl : Fbuf) (m : FbufBytes) (x y n : ℕ) (color : FbufColor) (bytesPerPixel : ℕ) :
    FbufBytes :=
  let ptr := y * impl.pitch + x * bytesPerPixel
  let lineOffset := impl.pitch - impl.width * bytesPerPixel
  if lineOffset = 0 ∧ bytesPerPixel ≠ 3 then
    match bytesPerPixel with
    | 2 => memset16 m ptr color n
    | 4 => memset32 m ptr color n
    | _ => m
  else fbufPutLoop impl color bytesPerPixel lineOffset n ptr x y m

/-- `fbuf_putpixel`, which draws on `fbuf_impl`. -/
def fbufPutpixel (fbufImpl : Option Fbuf) (x y n : ℕ) (color : FbufColor) : Option Fbuf :=
  fbufImpl.map fun impl =>
    if n = 0 ∨ impl.width ≤ x ∨ impl.height ≤ y then impl
    else
      let (color, bytesPerPixel) := fbufProcessColor impl.type color
      let put m := fbufPutpixelStub impl m x y n color bytesPerPixel
      { impl with
        backbuffer := impl.backbuffer.map put
        framebuffer :=
          if impl.dbufDirectWrite ∨ impl.backbuffer = none then put impl.framebuffer
          else impl.framebuffer }

/-- The body of the loop of `fbuf_getpixel_stub`: the color of one pixel. -/
def fbufGetOne (type : FbufPixelType) (m : FbufBytes) (ptr : ℕ) : FbufColor :=
  match type with
  | .fbuf15BppRgb555 =>
    let t := fbufLoad m ptr 2
    ((t &&& 0b000000000011111) >>> 0) <<< 3 ||| ((t &&& 0b000001111100000) >>> 5) <<< 11 |||
      ((t &&& 0b111110000000000) >>> 10) <<< 19
  | .fbuf15BppRgb555Re =>
    let t := fbufSwap (fbufLoad m ptr 2)
    ((t &&& 0b000000000011111) >>> 0) <<< 3 ||| ((t &&& 0b000001111100000) >>> 5) <<< 11 |||
      ((t &&& 0b111110000000000) >>> 10) <<< 19
  | .fbuf15BppBgr555 =>
    let t := fbufLoad m ptr 2
    ((t &&& 0b111110000000000) >>> 10) <<< 3 ||| ((t &&& 0b000001111100000) >>> 5) <<< 11 |||
      ((t &&& 0b000000000011111) >>> 0) <<< 19
  | .fbuf15BppBgr555Re =>
    let t := fbufSwap (fbufLoad m ptr 2)
    ((t &&& 0b111110000000000) >>> 10) <<< 3 ||| ((t &&& 0b000001111100000) >>> 5) <<< 11 |||
      ((t &&& 0b000000000011111) >>> 0) <<< 19
  | .fbuf16BppBgr565 =>
    let t := fbufLoad m ptr 2
    ((t &&& 0b1111100000000000) >>> 11) <<< 3 ||| ((t &&& 0b0000011111100000) >>> 5) <<< 10 |||
      ((t &&& 0b0000000000011111) >>> 0) <<< 19
  | .fbuf16BppBgr565Re =>
    let t := fbufSwap (fbufLoad m ptr 2)
    ((t &&& 0b1111100000000000) >>> 11) <<< 3 ||| ((t &&& 0b0000011111100000) >>> 5) <<< 10 |||
      ((t &&& 0b0000000000011111) >>> 0) <<< 19
  | .fbuf16BppRgb565 =>
    let t := fbufLoad m ptr 2
    ((t &&& 0b0000000000011111) >>> 0) <<< 3 ||| ((t &&& 0b0000011111100000) >>> 5) <<< 10 |||
      ((t &&& 0b1111100000000000) >>> 11) <<< 19
  | .fbuf16BppRgb565Re =>
    let t := fbufSwap (fbufLoad m ptr 2)
    ((t &&& 0b0000000000011111) >>> 0) <<< 3 ||| ((t &&& 0b0000011111100000) >>> 5) <<< 10 |||
      ((t &&& 0b1111100000000000) >>> 11) <<< 19
  | .fbuf24BppRgb888 =>
    fbufByte m ptr <<< 16 ||| fbufByte m (ptr + 1) <<< 8 ||| fbufByte m (ptr + 2) <<< 0
  | .fbuf24BppBgr888 =>
    fbufByte m (ptr + 2) <<< 16 ||| fbufByte m (ptr + 1) <<< 8 ||| fbufByte m ptr <<< 0
  | .fbuf32BppBgr888 =>
    let t := fbufLoad m ptr 4
    (t &&& 0x000000FF) <<< 16 ||| (t &&& (0x0000FF00 : FbufColor)) ||| (t &&& 0x00FF0000) >>> 16
  | .fbuf32BppBgr888Re => fbufLoad m ptr 4 >>> 8
  | .fbuf32BppRgb888 => fbufLoad m ptr 4 &&& 0x00FFFFFF
  | .fbuf32BppRgb888Re =>
    let t := fbufLoad m ptr 4
    (t &&& 0xFF000000) >>> 24 ||| (t &&& 0x00FF0000) >>> 8 ||| (t &&& 0x0000FF00) <<< 8

/-- The loop of `fbuf_getpixel_stub`: the colors it stores. -/
def fbufGetLoop (impl : Fbuf) (m : FbufBytes) (bytesPerPixel lineOffset : ℕ) :
    (n ptr x y : ℕ) → List FbufColor
  | 0, _, _, _ => []
  | n + 1, ptr, x, y =>
    fbufGetOne impl.type m ptr ::
      (let ptr := ptr + bytesPerPixel
      if x + 1 = impl.width then
        if y + 1 = impl.height then []
        else fbufGetLoop impl m bytesPerPixel lineOffset n (ptr + lineOffset) 0 (y + 1)
      else fbufGetLoop impl m bytesPerPixel lineOffset n ptr (x + 1) y)

def fbufGetpixelStub (impl : Option Fbuf) (x y n : ℕ) : List FbufColor :=
  match impl with
  | none => []
  | some impl =>
    if n = 0 ∨ impl.width ≤ x ∨ impl.height ≤ y then []
    else
      let bytesPerPixel := fbufBytesPerPixel impl.type
      let m := impl.backbuffer.getD impl.framebuffer
      let lineOffset := impl.pitch - impl.width * bytesPerPixel
      fbufGetLoop impl m bytesPerPixel lineOffset n (y * impl.pitch + x * bytesPerPixel) x y

/-- `fbuf_getpixel`, which reads from `fbuf_impl`. -/
def fbufGetpixel (fbufImpl : Option Fbuf) (x y n : ℕ) : List FbufColor := fbufGetpixelStub fbufImpl x y n

end SysX
