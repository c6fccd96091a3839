import SysX.Lib.ByteLanes
import Mathlib.Logic.Function.Basic
import Mathlib.Tactic.IntervalCases

/-!
PCI configuration space (`drivers/pci.c`, `arch/x86/pci.c`): accesses of one, two and four bytes at any
offset, put together from accesses to whole aligned registers.
-/
namespace SysX
open ByteLanes

/-- The configuration registers of all devices by configuration address, as plain memory. -/
abbrev PciRegisters := BitVec 32 → BitVec 32

def pciCfgAddress (bus dev func offset : BitVec 8) : BitVec 32 :=
  1#32 <<< 31 ||| bus.setWidth 32 <<< 16 ||| dev.setWidth 32 <<< 11 ||| func.setWidth 32 <<< 8 |||
    (offset.setWidth 32 &&& 0xFC#32)

def pciCfgReadDwordAligned (regs : PciRegisters) (bus dev func offset : BitVec 8) : BitVec 32 :=
  regs (pciCfgAddress bus dev func offset)

def pciCfgWriteDwordAligned (regs : PciRegisters) (bus dev func offset : BitVec 8) (val : BitVec 32) :
    PciRegisters :=
  Function.update regs (pciCfgAddress bus dev func offset) val

/-- `offset & ((1 << 0) | (1 << 1))` -/
def offsetOff (offset : BitVec 8) : BitVec 8 := offset &&& (1 <<< 0 ||| 1 <<< 1)

def pciCfgReadDword (regs : PciRegisters) (bus dev func offset : BitVec 8) : BitVec 32 :=
  let off := (offsetOff offset).toNat
  let offset := offset - offsetOff offset
  if off = 0 then pciCfgReadDwordAligned regs bus dev func offset
  else
    pciCfgReadDwordAligned regs bus dev func offset >>> (off * 8) |||
      pciCfgReadDwordAligned regs bus dev func (offset + 4) <<< (32 - off * 8)

/-- The table `mask` of `pci_cfg_write_dword`. -/
def dwordMask : ℕ → BitVec 32
  | 0 => 0x00000000
  | 1 => 0x000000FF
  | 2 => 0x0000FFFF
  | _ => 0x00FFFFFF

def pciCfgWriteDword (regs : PciRegisters) (bus dev func offset : BitVec 8) (val : BitVec 32) :
    PciRegisters :=
  let off := (offsetOff offset).toNat
  let offset := offset - offsetOff offset
  if off = 0 then pciCfgWriteDwordAligned regs bus dev func offset val
  else
    let regs := pciCfgWriteDwordAligned regs bus dev func offset
      (pciCfgReadDwordAligned regs bus dev func offset &&& dwordMask off ||| val <<< (off * 8))
    -- the second half is shifted up like the first one
    pciCfgWriteDwordAligned regs bus dev func (offset + 4)
      (pciCfgReadDwordAligned regs bus dev func (offset + 4) &&& ~~~dwordMask off ||| val <<< (32 - off * 8))

def pciCfgReadWord (regs : PciRegisters) (bus dev func offset : BitVec 8) : BitVec 16 :=
  let off := (offsetOff offset).toNat
  let offset := offset - offsetOff offset
  let ret := (pciCfgReadDwordAligned regs bus dev func offset >>> (off * 8)).setWidth 16
  if off = 3 then
    ret ||| ((pciCfgReadDwordAligned regs bus dev func (offset + 4) &&& 0xFF#32) <<< 8).setWidth 16
  else ret

/-- The table `mask` of `pci_cfg_write_word`. -/
def wordMask : ℕ → BitVec 32
  | 0 => 0xFFFF0000
  | 1 => 0xFF0000FF
  | 2 => 0x0000FFFF
  | _ => 0x00FFFFFF

def pciCfgWriteWord (regs : PciRegisters) (bus dev func offset : BitVec 8) (val : BitVec 16) :
    PciRegisters :=
  let off := (offsetOff offset).toNat
  let offset := offset - offsetOff offset
  let regs := pciCfgWriteDwordAligned regs bus dev func offset
    (pciCfgReadDwordAligned regs bus dev func offset &&& wordMask off ||| val.setWidth 32 <<< (off * 8))
  if off = 3 then
    pciCfgWriteDwordAligned regs bus dev func (offset + 4)
      (pciCfgReadDwordAligned regs bus dev func (offset + 4) &&& 0xFFFFFF00#32 ||| val.setWidth 32 >>> 8)
  else regs

def pciCfgReadByte (regs : PciRegisters) (bus dev func offset : BitVec 8) : BitVec 8 :=
  let off := (offsetOff offset).toNat
  (pciCfgReadDwordAligned regs bus dev func (offset - offsetOff offset) >>> (off * 8)).setWidth 8

/-- The table `mask` of `pci_cfg_write_byte`. -/
def byteMask : ℕ → BitVec 32
  | 0 => 0xFFFFFF00
  | 1 => 0xFFFF00FF
  | 2 => 0xFF00FFFF
  | _ => 0x00FFFFFF

def pciCfgWriteByte (regs : PciRegisters) (bus dev func offset val : BitVec 8) : PciRegisters :=
  let off := (offsetOff offset).toNat
  let offset := offset - offsetOff offset
  pciCfgWriteDwordAligned regs bus dev func offset
    (pciCfgReadDwordAligned regs bus dev func offset &&& byteMask off ||| val.setWidth 32 <<< (off * 8))

/-- The width of an access. -/
inductive PciWidth
  | byte
  | word
  | dword
  deriving DecidableEq

/-- How many bytes an access covers. -/
abbrev PciWidth.bytes : PciWidth → ℕ
  | byte => 1
  | word => 2
  | dword => 4

def PciWidth.read : (w : PciWidth) → PciRegisters → (bus dev func offset : BitVec 8) → BitVec (8 * w.bytes)
  | byte => pciCfgReadByte
  | word => pciCfgReadWord
  | dword => pciCfgReadDword

def PciWidth.write :
    (w : PciWidth) → PciRegisters → (bus dev func offset : BitVec 8) → BitVec (8 * w.bytes) → PciRegisters
  | byte => pciCfgWriteByte
  | word => pciCfgWriteWord
  | dword => pciCfgWriteDword

/-- Byte `i` of the configuration space of one device. -/
def cfgByte (regs : PciRegisters) (bus dev func : BitVec 8) (i : ℕ) : BitVec 8 :=
  lane (regs (pciCfgAddress bus dev func (BitVec.ofNat 8 i))) (i % 4)

/-- `regs'` is `regs` with the bytes of `val` at `offset` in the space of the device. -/
structure CfgWritten {n : ℕ} (regs regs' : PciRegisters) (bus dev func : BitVec 8) (offset w : ℕ)
    (val : BitVec n) : Prop where
  inside : ∀ j < w, cfgByte regs' bus dev func (offset + j) = lane val j
  outside : ∀ i < 256, ¬ (offset ≤ i ∧ i < offset + w) →
    cfgByte regs' bus dev func i = cfgByte regs bus dev func i
  elsewhere : ∀ a, (∀ o, a ≠ pciCfgAddress bus dev func o) → regs' a = regs a

/-! The registers of one device. -/

variable {regs : PciRegisters} {bus dev func offset : BitVec 8} {i j : ℕ}

theorem toNat_offsetOff : (offsetOff offset).toNat = offset.toNat % 4 := by
  have h : (1 <<< 0 ||| 1 <<< 1 : BitVec 8) = 3#8 := rfl
  rw [offsetOff, h, BitVec.toNat_and]
  exact Nat.and_two_pow_sub_one_eq_mod _ 2

/-- The offset of the register that holds the first byte. -/
theorem toNat_aligned : (offset - offsetOff offset).toNat = 4 * (offset.toNat / 4) := by
  have h : offsetOff offset ≤ offset := by
    simp only [BitVec.le_def, toNat_offsetOff]
    exact Nat.mod_le _ _
  rw [BitVec.toNat_sub_of_le h, toNat_offsetOff]
  omega

theorem toNat_aligned_next (h : offset.toNat / 4 < 63) :
    (offset - offsetOff offset + 4).toNat = 4 * (offset.toNat / 4 + 1) := by
  rw [BitVec.toNat_add, toNat_aligned]
  simp only [BitVec.reduceToNat]
  omega

theorem lane_pciCfgAddress (o : BitVec 8) : lane (pciCfgAddress bus dev func o) 0 = o &&& 0xFC#8 := by
  ext i hi
  simp only [pciCfgAddress]
  interval_cases i <;> simp

/-- Two offsets select one register when they lie in the same four bytes. -/
theorem pciCfgAddress_inj {o o' : BitVec 8} :
    pciCfgAddress bus dev func o = pciCfgAddress bus dev func o' ↔ o.toNat / 4 = o'.toNat / 4 := by
  have hmask : ∀ b : BitVec 8, b &&& 0xFC#8 = b >>> 2 <<< 2 := by
    intro b
    ext i hi
    interval_cases i <;> simp
  have hshift : ∀ b : BitVec 8, (b >>> 2).toNat = b.toNat / 4 := by
    intro b
    rw [BitVec.toNat_ushiftRight, Nat.shiftRight_eq_div_pow]
  constructor
  · intro h
    have hlow := congrArg (fun a => lane a 0 >>> 2) h
    simp only [lane_pciCfgAddress, hmask] at hlow
    have hdown : ∀ b : BitVec 8, b >>> 2 <<< 2 >>> 2 = b >>> 2 := by
      intro b
      ext i hi
      interval_cases i <;> simp
    rw [hdown, hdown] at hlow
    rw [← hshift, ← hshift, hlow]
  · intro h
    have hhigh : o >>> 2 = o' >>> 2 := BitVec.eq_of_toNat_eq (by rw [hshift, hshift, h])
    have hwide : ∀ b : BitVec 8, b.setWidth 32 &&& 0xFC#32 = (b &&& 0xFC#8).setWidth 32 := by
      intro b
      ext i hi
      interval_cases i <;> simp
    rw [pciCfgAddress, pciCfgAddress, hwide, hwide, hmask, hmask, hhigh]

theorem lane_pciCfgReadDwordAligned (hj : j < 4) :
    lane (pciCfgReadDwordAligned regs bus dev func offset) j =
      cfgByte regs bus dev func (4 * (offset.toNat / 4) + j) := by
  have hlt := offset.isLt
  have haddr : pciCfgAddress bus dev func offset =
      pciCfgAddress bus dev func (BitVec.ofNat 8 (4 * (offset.toNat / 4) + j)) := by
    rw [pciCfgAddress_inj, BitVec.toNat_ofNat]
    omega
  have hmod : (4 * (offset.toNat / 4) + j) % 4 = j := by omega
  rw [cfgByte, hmod, ← haddr, pciCfgReadDwordAligned]

theorem cfgByte_pciCfgWriteDwordAligned {val : BitVec 32} (hi : i < 256) :
    cfgByte (pciCfgWriteDwordAligned regs bus dev func offset val) bus dev func i =
      if i / 4 = offset.toNat / 4 then lane val (i % 4) else cfgByte regs bus dev func i := by
  have haddr : pciCfgAddress bus dev func (BitVec.ofNat 8 i) = pciCfgAddress bus dev func offset ↔
      i / 4 = offset.toNat / 4 := by
    rw [pciCfgAddress_inj, BitVec.toNat_ofNat, Nat.mod_eq_of_lt hi]
  unfold cfgByte pciCfgWriteDwordAligned
  by_cases h : i / 4 = offset.toNat / 4
  · rw [if_pos h, haddr.mpr h, Function.update_self]
  · rw [if_neg h, Function.update_of_ne (mt haddr.mp h)]

theorem pciCfgWriteDwordAligned_elsewhere {val : BitVec 32} {a : BitVec 32}
    (h : ∀ o, a ≠ pciCfgAddress bus dev func o) :
    pciCfgWriteDwordAligned regs bus dev func offset val a = regs a :=
  Function.update_of_ne (h offset) _ _

/-! The mask tables by bytes. -/

theorem lane_dwordMask {k : ℕ} (hk : k < 4) (hj : j < 4) :
    lane (dwordMask k) j = if k ≤ j then 0 else BitVec.allOnes 8 := by
  interval_cases k <;> interval_cases j <;> rfl

theorem lane_wordMask {k : ℕ} (hk : k < 4) (hj : j < 4) :
    lane (wordMask k) j = if k ≤ j ∧ j < k + 2 then 0 else BitVec.allOnes 8 := by
  interval_cases k <;> interval_cases j <;> rfl

theorem lane_byteMask {k : ℕ} (hk : k < 4) (hj : j < 4) :
    lane (byteMask k) j = if k ≤ j ∧ j < k + 1 then 0 else BitVec.allOnes 8 := by
  interval_cases k <;> interval_cases j <;> rfl

/-! Reads give the bytes from the offset on. -/

theorem lane_pciCfgReadByte :
    lane (pciCfgReadByte regs bus dev func offset) 0 = cfgByte regs bus dev func offset.toNat := by
  have hlt : offset.toNat % 4 < 4 := Nat.mod_lt _ (by omega)
  have hsum : 4 * (4 * (offset.toNat / 4) / 4) + offset.toNat % 4 = offset.toNat := by omega
  rw [pciCfgReadByte, lane_setWidth _ (by omega), lane_shiftRight, toNat_offsetOff, Nat.zero_add,
    lane_pciCfgReadDwordAligned hlt, toNat_aligned, hsum]

theorem lane_pciCfgReadWord (h : offset.toNat + 2 ≤ 256) (hj : j < 2) :
    lane (pciCfgReadWord regs bus dev func offset) j = cfgByte regs bus dev func (offset.toNat + j) := by
  have hlow : ∀ a : BitVec 32, lane ((a >>> (offset.toNat % 4 * 8)).setWidth 16) j =
      lane a (j + offset.toNat % 4) := by
    intro a
    rw [lane_setWidth _ (by omega), lane_shiftRight]
  unfold pciCfgReadWord
  simp only [toNat_offsetOff]
  split_ifs with hoff
  · have hhigh : ∀ a : BitVec 32, lane (((a &&& 0xFF#32) <<< 8).setWidth 16) j =
        if 1 ≤ j then lane a (j - 1) &&& lane 0xFF#32 (j - 1) else 0 := by
      intro a
      rw [lane_setWidth _ (by omega), ← lane_and]
      exact lane_shiftLeft _ 1 (by omega)
    rw [lane_or, hlow, hhigh]
    interval_cases j
    · have hsum : 4 * (4 * (offset.toNat / 4) / 4) + (0 + offset.toNat % 4) = offset.toNat + 0 := by omega
      rw [lane_pciCfgReadDwordAligned (by omega), toNat_aligned, hsum]
      simp
    · have hsum : 4 * (4 * (offset.toNat / 4 + 1) / 4) + 0 = offset.toNat + 1 := by omega
      have hbyte : lane 0xFF#32 0 = BitVec.allOnes 8 := rfl
      rw [lane_of_le _ (by omega), if_pos (Nat.le_refl 1), Nat.sub_self, hbyte,
        lane_pciCfgReadDwordAligned (by omega), toNat_aligned_next (by omega), hsum,
        BitVec.and_allOnes]
      simp
  · have hsum : 4 * (4 * (offset.toNat / 4) / 4) + (j + offset.toNat % 4) = offset.toNat + j := by omega
    rw [hlow, lane_pciCfgReadDwordAligned (by omega), toNat_aligned, hsum]

theorem lane_pciCfgReadDword (h : offset.toNat + 4 ≤ 256) (hj : j < 4) :
    lane (pciCfgReadDword regs bus dev func offset) j = cfgByte regs bus dev func (offset.toNat + j) := by
  unfold pciCfgReadDword
  simp only [toNat_offsetOff]
  split_ifs with hoff
  · have hsum : 4 * (4 * (offset.toNat / 4) / 4) + j = offset.toNat + j := by omega
    rw [lane_pciCfgReadDwordAligned hj, toNat_aligned, hsum]
  · have hwidth : 32 - offset.toNat % 4 * 8 = (4 - offset.toNat % 4) * 8 := by omega
    rw [lane_or, lane_shiftRight, hwidth, lane_shiftLeft _ _ (by omega)]
    by_cases hreg : j + offset.toNat % 4 < 4
    · have hsum : 4 * (4 * (offset.toNat / 4) / 4) + (j + offset.toNat % 4) = offset.toNat + j := by omega
      rw [lane_pciCfgReadDwordAligned hreg, toNat_aligned, hsum, if_neg (by omega)]
      simp
    · have hsum : 4 * (4 * (offset.toNat / 4 + 1) / 4) + (j - (4 - offset.toNat % 4)) =
          offset.toNat + j := by omega
      rw [lane_of_le _ (by omega), if_pos (by omega), lane_pciCfgReadDwordAligned (by omega),
        toNat_aligned_next (by omega), hsum]
      simp

/-- A read of any width at any offset is the little-endian number in the space. -/
theorem PciWidth.lane_read (w : PciWidth) (h : offset.toNat + w.bytes ≤ 256) (hj : j < w.bytes) :
    lane (w.read regs bus dev func offset) j = cfgByte regs bus dev func (offset.toNat + j) := by
  cases w with
  | byte =>
    obtain rfl : j = 0 := Nat.lt_one_iff.mp hj
    exact lane_pciCfgReadByte
  | word => exact lane_pciCfgReadWord h hj
  | dword => exact lane_pciCfgReadDword h hj

/-- The registers of the device hold the bytes of `space`, lowest first. -/
def HoldsSpace (regs : PciRegisters) (bus dev func : BitVec 8) (space : ℕ → BitVec 8) : Prop :=
  ∀ offset : BitVec 8, offset.toNat % 4 = 0 → ∀ j < 4,
    lane (pciCfgReadDwordAligned regs bus dev func offset) j = space (offset.toNat + j)

theorem HoldsSpace.cfgByte {space : ℕ → BitVec 8} (h : HoldsSpace regs bus dev func space) (hi : i < 256) :
    SysX.cfgByte regs bus dev func i = space i := by
  have hreg : (BitVec.ofNat 8 (4 * (i / 4))).toNat = 4 * (i / 4) := by
    rw [BitVec.toNat_ofNat]
    omega
  have hbyte := h (BitVec.ofNat 8 (4 * (i / 4))) (by rw [hreg]; omega) (i % 4) (Nat.mod_lt _ (by decide))
  rw [lane_pciCfgReadDwordAligned (Nat.mod_lt _ (by decide)), hreg, Nat.mul_div_cancel_left _ (by decide),
    Nat.div_add_mod] at hbyte
  exact hbyte

/-- A read is the little-endian number in the space, and so put together from reads of bytes. -/
theorem pci_cfg_read_value {space : ℕ → BitVec 8} (hregs : HoldsSpace regs bus dev func space) (w : PciWidth)
    (offset : BitVec 8) (h : offset.toNat + w.bytes ≤ 256) :
    (w.read regs bus dev func offset).toNat =
        Nat.ofDigits 256 ((List.range w.bytes).map fun j => (space (offset.toNat + j)).toNat) ∧
      ∀ j < w.bytes, lane (w.read regs bus dev func offset) j =
        pciCfgReadByte regs bus dev func (offset + BitVec.ofNat 8 j) := by
  have hlane : ∀ j < w.bytes, lane (w.read regs bus dev func offset) j = space (offset.toNat + j) := by
    intro j hj
    rw [w.lane_read h hj, hregs.cfgByte (by omega)]
  refine ⟨?_, fun j hj => ?_⟩
  · rw [← ofDigits_lane]
    congr 1
    apply List.map_congr_left
    intro j hj
    rw [hlane j (List.mem_range.mp hj)]
  · have hsum : (offset + BitVec.ofNat 8 j).toNat = offset.toNat + j := by
      rw [BitVec.toNat_add, BitVec.toNat_ofNat]
      omega
    have hbyte : ∀ b : BitVec 8, lane b 0 = b := by
      intro b
      exact BitVec.extractLsb'_eq_self
    rw [hlane j hj, ← hbyte (pciCfgReadByte regs bus dev func (offset + BitVec.ofNat 8 j)), lane_pciCfgReadByte, hsum,
      hregs.cfgByte (by omega)]

/-- An unaligned word of a space that holds the offsets. -/
theorem pci_cfg_read_value_word :
    (PciWidth.word.read (fun _ => 0x03020100#32) 0 3 0 1).toNat =
        Nat.ofDigits 256 ((List.range PciWidth.word.bytes).map fun j => (BitVec.ofNat 8 ((1 + j) % 4)).toNat) ∧
      ∀ j < PciWidth.word.bytes, lane (PciWidth.word.read (fun _ => 0x03020100#32) 0 3 0 1) j =
        pciCfgReadByte (fun _ => 0x03020100#32) 0 3 0 (1 + BitVec.ofNat 8 j) := by
  refine @pci_cfg_read_value (fun _ => 0x03020100#32) 0 3 0 (fun i => BitVec.ofNat 8 (i % 4)) ?_ .word 1 (by decide)
  intro offset haligned j hj
  have hmod : (offset.toNat + j) % 4 = j := by omega
  show lane 0x03020100#32 j = BitVec.ofNat 8 ((offset.toNat + j) % 4)
  rw [hmod]
  interval_cases j <;> rfl

/-! Writes, byte by byte. -/

/-- A register is read, the bytes in `P` are cleared by the mask and filled from the value. -/
theorem cfgByte_patched {mask v : BitVec 32} {P : ℕ → Prop} [DecidablePred P] {b : ℕ → BitVec 8}
    (hmask : ∀ j < 4, lane mask j = if P j then 0 else BitVec.allOnes 8)
    (hv : ∀ j < 4, lane v j = if P j then b j else 0) (hi : i < 256) :
    cfgByte (pciCfgWriteDwordAligned regs bus dev func offset
      (pciCfgReadDwordAligned regs bus dev func offset &&& mask ||| v)) bus dev func i =
      if i / 4 = offset.toNat / 4 ∧ P (i % 4) then b (i % 4) else cfgByte regs bus dev func i := by
  have hmod : i % 4 < 4 := Nat.mod_lt _ (by omega)
  rw [cfgByte_pciCfgWriteDwordAligned hi]
  by_cases hreg : i / 4 = offset.toNat / 4
  · have hold : 4 * (offset.toNat / 4) + i % 4 = i := by omega
    rw [if_pos hreg, lane_or, lane_and, lane_pciCfgReadDwordAligned hmod, hold, hmask _ hmod, hv _ hmod]
    by_cases hP : P (i % 4)
    · simp [hreg, hP]
    · rw [if_neg hP, if_neg hP, if_neg (fun h => hP h.2), BitVec.and_allOnes]
      simp
  · rw [if_neg hreg, if_neg (fun h => hreg h.1)]

theorem cfgByte_pciCfgWriteByte {val : BitVec 8} (hi : i < 256) :
    cfgByte (pciCfgWriteByte regs bus dev func offset val) bus dev func i =
      if offset.toNat ≤ i ∧ i < offset.toNat + 1 then lane val (i - offset.toNat)
      else cfgByte regs bus dev func i := by
  have hoff : offset.toNat % 4 < 4 := Nat.mod_lt _ (by omega)
  unfold pciCfgWriteByte
  simp only [toNat_offsetOff]
  rw [cfgByte_patched (fun j hj => lane_byteMask hoff hj)
    (fun j hj => lane_setWidth_shiftLeft (m := 1) val _ (by omega)) hi, toNat_aligned]
  by_cases h : offset.toNat ≤ i ∧ i < offset.toNat + 1
  · have hsub : i % 4 - offset.toNat % 4 = i - offset.toNat := by omega
    rw [if_pos (by omega), if_pos h, hsub]
  · rw [if_neg (by omega), if_neg h]

theorem cfgByte_pciCfgWriteWord {val : BitVec 16} (h : offset.toNat + 2 ≤ 256) (hi : i < 256) :
    cfgByte (pciCfgWriteWord regs bus dev func offset val) bus dev func i =
      if offset.toNat ≤ i ∧ i < offset.toNat + 2 then lane val (i - offset.toNat)
      else cfgByte regs bus dev func i := by
  have hoff : offset.toNat % 4 < 4 := Nat.mod_lt _ (by omega)
  have hfirst := @cfgByte_patched regs bus dev func (offset - offsetOff offset) i _ _ _ _ _
    (fun j hj => lane_wordMask hoff hj) (fun j hj => lane_setWidth_shiftLeft (m := 2) val _ (by omega)) hi
  have hmask : ∀ j < 4, lane 0xFFFFFF00#32 j = if j = 0 then 0 else BitVec.allOnes 8 := by
    intro j hj
    interval_cases j <;> rfl
  have hnext : ∀ j < 4, lane (val.setWidth 32 >>> 8) j = if j = 0 then lane val 1 else 0 := by
    intro j hj
    have hdown : lane (val.setWidth 32 >>> 8) j = lane (val.setWidth 32) (j + 1) := lane_shiftRight _ 1 j
    rw [hdown]
    split_ifs with hj0
    · rw [hj0, lane_setWidth _ (by omega)]
    · by_cases hj3 : j = 3
      · rw [lane_of_le _ (by omega)]
      · rw [lane_setWidth _ (by omega), lane_of_le _ (by omega)]
  rw [toNat_aligned] at hfirst
  unfold pciCfgWriteWord
  simp only [toNat_offsetOff]
  by_cases h3 : offset.toNat % 4 = 3
  · rw [if_pos h3, cfgByte_patched hmask hnext hi, toNat_aligned_next (by omega), hfirst]
    by_cases hlast : i = offset.toNat + 1
    · have hsub : i - offset.toNat = 1 := by omega
      rw [if_pos (by omega), if_pos (by omega), hsub]
    · rw [if_neg (by omega)]
      by_cases hin : i = offset.toNat
      · have hsub : i % 4 - offset.toNat % 4 = i - offset.toNat := by omega
        rw [if_pos (by omega), if_pos (by omega), hsub]
      · rw [if_neg (by omega), if_neg (by omega)]
  · rw [if_neg h3, hfirst]
    by_cases hin : offset.toNat ≤ i ∧ i < offset.toNat + 2
    · have hsub : i % 4 - offset.toNat % 4 = i - offset.toNat := by omega
      rw [if_pos (by omega), if_pos hin, hsub]
    · rw [if_neg (by omega), if_neg hin]

theorem cfgByte_pciCfgWriteDword_aligned {val : BitVec 32} (h : offset.toNat % 4 = 0) (hi : i < 256) :
    cfgByte (pciCfgWriteDword regs bus dev func offset val) bus dev func i =
      if offset.toNat ≤ i ∧ i < offset.toNat + 4 then lane val (i - offset.toNat)
      else cfgByte regs bus dev func i := by
  unfold pciCfgWriteDword
  simp only [toNat_offsetOff]
  rw [if_pos h, cfgByte_pciCfgWriteDwordAligned hi, toNat_aligned]
  by_cases hin : offset.toNat ≤ i ∧ i < offset.toNat + 4
  · have hsub : i % 4 = i - offset.toNat := by omega
    rw [if_pos (by omega), if_pos hin, hsub]
  · rw [if_neg (by omega), if_neg hin]

/-- The second register keeps its upper bytes, and the low bytes of the value are put into these. -/
theorem cfgByte_pciCfgWriteDword_unaligned {val : BitVec 32} (h : offset.toNat % 4 ≠ 0)
    (hend : offset.toNat + 4 ≤ 256) (hi : i < 256) :
    cfgByte (pciCfgWriteDword regs bus dev func offset val) bus dev func i =
      if i / 4 = offset.toNat / 4 + 1 then
        (if offset.toNat % 4 ≤ i % 4 then cfgByte regs bus dev func i else 0) |||
          (if 4 - offset.toNat % 4 ≤ i % 4 then lane val (i % 4 - (4 - offset.toNat % 4)) else 0)
      else if i / 4 = offset.toNat / 4 ∧ offset.toNat ≤ i then lane val (i - offset.toNat)
      else cfgByte regs bus dev func i := by
  have hoff : offset.toNat % 4 < 4 := Nat.mod_lt _ (by omega)
  have hmod : i % 4 < 4 := Nat.mod_lt _ (by omega)
  have hfirst : ∀ i < 256, _ := fun i hi =>
    @cfgByte_patched regs bus dev func (offset - offsetOff offset) i _ _ _ _ _
      (fun j hj => lane_dwordMask hoff hj) (fun j hj => lane_shiftLeft val _ (by omega)) hi
  have hwidth : 32 - offset.toNat % 4 * 8 = (4 - offset.toNat % 4) * 8 := by omega
  simp only [toNat_aligned] at hfirst
  unfold pciCfgWriteDword
  simp only [toNat_offsetOff]
  rw [if_neg h, cfgByte_pciCfgWriteDwordAligned hi, toNat_aligned_next (by omega)]
  by_cases hreg : i / 4 = offset.toNat / 4 + 1
  · have hsame : 4 * (4 * (offset.toNat / 4 + 1) / 4) + i % 4 = i := by omega
    rw [if_pos (by omega), if_pos hreg, lane_or, lane_and, lane_pciCfgReadDwordAligned hmod,
      toNat_aligned_next (by omega), hsame, hfirst i hi, if_neg (by omega), lane_not _ (by omega),
      lane_dwordMask hoff hmod, hwidth, lane_shiftLeft _ _ (by omega)]
    congr 1
    split_ifs
    · exact BitVec.and_allOnes
    · simp
  · rw [if_neg (by omega), if_neg hreg, hfirst i hi]
    by_cases hin : i / 4 = offset.toNat / 4 ∧ offset.toNat ≤ i
    · have hsub : i % 4 - offset.toNat % 4 = i - offset.toNat := by omega
      rw [if_pos (by omega), if_pos hin, hsub]
    · rw [if_neg (by omega), if_neg hin]

/-- What the value and the second register must be for an unaligned write of four bytes to come out
right: the bytes of the value that belong into the second register are zero or repeat a lower byte, and
the bytes that are put into its upper end have no bit that is not set there. -/
def UpperHalfFits {n : ℕ} (w : PciWidth) (off : ℕ) (val : BitVec n) (old : ℕ → BitVec 8) : Prop :=
  match w, off with
  | .dword, 1 => lane val 3 = 0 ∧ old 3 ||| lane val 0 = old 3
  | .dword, 2 => lane val 2 = 0 ∧ lane val 3 = 0 ∧ old 2 ||| lane val 0 = old 2 ∧
      old 3 ||| lane val 1 = old 3
  | .dword, 3 => lane val 1 = 0 ∧ lane val 2 = lane val 0 ∧ lane val 3 = lane val 1 ∧
      old 3 ||| lane val 2 = old 3
  | _, _ => True

theorem CfgWritten.of_cfgByte {n w : ℕ} {val : BitVec n} {regs' : PciRegisters}
    (hend : offset.toNat + w ≤ 256)
    (h : ∀ i < 256, cfgByte regs' bus dev func i =
      if offset.toNat ≤ i ∧ i < offset.toNat + w then lane val (i - offset.toNat)
      else cfgByte regs bus dev func i)
    (helse : ∀ a, (∀ o, a ≠ pciCfgAddress bus dev func o) → regs' a = regs a) :
    CfgWritten regs regs' bus dev func offset.toNat w val := by
  refine ⟨?_, ?_, helse⟩
  · intro j hj
    rw [h _ (by omega), if_pos (by omega), Nat.add_sub_cancel_left]
  · intro i hi hout
    rw [h i hi, if_neg hout]

theorem PciWidth.write_elsewhere (w : PciWidth) (val : BitVec (8 * w.bytes)) {a : BitVec 32}
    (h : ∀ o, a ≠ pciCfgAddress bus dev func o) : w.write regs bus dev func offset val a = regs a := by
  cases w with
  | byte => exact pciCfgWriteDwordAligned_elsewhere h
  | word =>
    simp only [PciWidth.write, pciCfgWriteWord]
    split_ifs <;> simp only [pciCfgWriteDwordAligned_elsewhere h]
  | dword =>
    simp only [PciWidth.write, pciCfgWriteDword]
    split_ifs <;> simp only [pciCfgWriteDwordAligned_elsewhere h]

/-- Only the second register of an unaligned write of four bytes can come out wrong. -/
theorem cfgWritten_dword_unaligned {val : BitVec 32} (h : offset.toNat % 4 ≠ 0)
    (hend : offset.toNat + 4 ≤ 256) :
    CfgWritten regs (pciCfgWriteDword regs bus dev func offset val) bus dev func offset.toNat 4 val ↔
      ∀ m < 4, ((if offset.toNat % 4 ≤ m then cfgByte regs bus dev func (4 * (offset.toNat / 4 + 1) + m)
          else 0) ||| (if 4 - offset.toNat % 4 ≤ m then lane val (m - (4 - offset.toNat % 4)) else 0)) =
        if m < offset.toNat % 4 then lane val (4 - offset.toNat % 4 + m)
        else cfgByte regs bus dev func (4 * (offset.toNat / 4 + 1) + m) := by
  have hupper : ∀ m < 4, cfgByte (pciCfgWriteDword regs bus dev func offset val) bus dev func
      (4 * (offset.toNat / 4 + 1) + m) =
      ((if offset.toNat % 4 ≤ m then cfgByte regs bus dev func (4 * (offset.toNat / 4 + 1) + m) else 0) |||
        (if 4 - offset.toNat % 4 ≤ m then lane val (m - (4 - offset.toNat % 4)) else 0)) := by
    intro m hm
    have hdiv : (4 * (offset.toNat / 4 + 1) + m) / 4 = offset.toNat / 4 + 1 := by omega
    have hmod : (4 * (offset.toNat / 4 + 1) + m) % 4 = m := by omega
    rw [cfgByte_pciCfgWriteDword_unaligned h hend (by omega), if_pos hdiv, hmod]
  constructor
  · intro hw m hm
    rw [← hupper m hm]
    split_ifs with hlt
    · have hsum : 4 * (offset.toNat / 4 + 1) + m = offset.toNat + (4 - offset.toNat % 4 + m) := by omega
      rw [hsum]
      exact hw.inside _ (by omega)
    · exact hw.outside _ (by omega) (by omega)
  · intro hm
    refine .of_cfgByte hend (fun i hi => ?_) fun a ha => PciWidth.write_elsewhere .dword val ha
    by_cases hreg : i / 4 = offset.toNat / 4 + 1
    · have hsum : 4 * (offset.toNat / 4 + 1) + i % 4 = i := by omega
      have hi' := hupper (i % 4) (by omega)
      rw [hm (i % 4) (by omega), hsum] at hi'
      rw [hi']
      by_cases hlt : i % 4 < offset.toNat % 4
      · have hsub : 4 - offset.toNat % 4 + i % 4 = i - offset.toNat := by omega
        rw [if_pos hlt, if_pos (by omega), hsub]
      · rw [if_neg hlt, if_neg (by omega)]
    · rw [cfgByte_pciCfgWriteDword_unaligned h hend hi, if_neg hreg]
      by_cases hin : i / 4 = offset.toNat / 4 ∧ offset.toNat ≤ i
      · rw [if_pos hin, if_pos (by omega)]
      · rw [if_neg hin, if_neg (by omega)]

/-- An unaligned write of four bytes comes out right exactly when its upper half happens to fit. -/
theorem cfgWritten_dword_unaligned_iff {val : BitVec 32} (h : offset.toNat % 4 ≠ 0)
    (hend : offset.toNat + 4 ≤ 256) :
    CfgWritten regs (pciCfgWriteDword regs bus dev func offset val) bus dev func offset.toNat 4 val ↔
      UpperHalfFits .dword (offset.toNat % 4) val
        fun j => cfgByte regs bus dev func (4 * (offset.toNat / 4 + 1) + j) := by
  rw [cfgWritten_dword_unaligned h hend]
  have hoff : offset.toNat % 4 < 4 := Nat.mod_lt _ (by omega)
  generalize offset.toNat % 4 = k at *
  have hall : ∀ P : ℕ → Prop, (∀ m < 4, P m) ↔ P 0 ∧ P 1 ∧ P 2 ∧ P 3 := by
    intro P
    constructor
    · intro hP
      exact ⟨hP 0 (by omega), hP 1 (by omega), hP 2 (by omega), hP 3 (by omega)⟩
    · rintro ⟨h0, h1, h2, h3⟩ m hm
      interval_cases m <;> assumption
  rw [hall]
  interval_cases k
  · exact absurd rfl h
  · simp [UpperHalfFits, eq_comm]
  · simp [UpperHalfFits, eq_comm]
  · simp [UpperHalfFits, eq_comm]

/-- A write to configuration space stores the little-endian bytes of the value and nothing else, and a
read gives the value back, exactly when it is not an unaligned one of four bytes or its upper half fits. -/
theorem pci_cfg_write_iff (regs : PciRegisters) (bus dev func offset : BitVec 8) (w : PciWidth)
    (val : BitVec (8 * w.bytes)) (h : offset.toNat + w.bytes ≤ 256) :
    (CfgWritten regs (w.write regs bus dev func offset val) bus dev func offset.toNat w.bytes val ∧
      w.read (w.write regs bus dev func offset val) bus dev func offset = val) ↔
    UpperHalfFits w (offset.toNat % 4) val
      fun j => cfgByte regs bus dev func (4 * (offset.toNat / 4 + 1) + j) := by
  have hread : CfgWritten regs (w.write regs bus dev func offset val) bus dev func offset.toNat w.bytes val →
      w.read (w.write regs bus dev func offset val) bus dev func offset = val := by
    intro hw
    apply eq_of_lane
    intro j hj
    rw [w.lane_read h hj, hw.inside j hj]
  rw [and_iff_left_of_imp hread]
  have helse : ∀ a, (∀ o, a ≠ pciCfgAddress bus dev func o) →
      w.write regs bus dev func offset val a = regs a := fun a ha => w.write_elsewhere val ha
  cases w with
  | byte =>
    exact iff_of_true (.of_cfgByte h (fun i hi => cfgByte_pciCfgWriteByte hi) helse) trivial
  | word =>
    exact iff_of_true (.of_cfgByte h (fun i hi => cfgByte_pciCfgWriteWord h hi) helse) trivial
  | dword =>
    by_cases hoff : offset.toNat % 4 = 0
    · rw [hoff]
      exact iff_of_true (.of_cfgByte h (fun i hi => cfgByte_pciCfgWriteDword_aligned hoff hi) helse) trivial
    · exact cfgWritten_dword_unaligned_iff hoff h

theorem pci_cfg_write_iff_sample :
    (CfgWritten (fun _ => 0) (pciCfgWriteWord (fun _ => 0) 0 3 0 7 0xBEEF) 0 3 0 7 2 0xBEEF#16 ∧
      pciCfgReadWord (pciCfgWriteWord (fun _ => 0) 0 3 0 7 0xBEEF) 0 3 0 7 = 0xBEEF) ↔ True :=
  pci_cfg_write_iff (fun _ => 0) 0 3 0 7 .word 0xBEEF#16 (by decide)

/-- A space of zeros is enough for a single bit to come out in the wrong byte. -/
theorem pci_write_loses_upper_half :
    ¬ ∀ (regs : PciRegisters) (bus dev func offset : BitVec 8) (w : PciWidth) (val : BitVec (8 * w.bytes)),
      offset.toNat + w.bytes ≤ 256 →
      CfgWritten regs (w.write regs bus dev func offset val) bus dev func offset.toNat w.bytes val := by
  intro h
  have hbyte := (h (fun _ => 0) 0 0 0 2 .dword 0x12345678#32 (by decide)).inside 2 (by decide)
  exact absurd hbyte (by decide)

end SysX
