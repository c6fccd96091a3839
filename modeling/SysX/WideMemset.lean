import SysX.BulkFill
import SysX.Machine
import Mathlib.Tactic.Ring

/-!
The memset of wide units: the generic functions of `lib/string.c`, and `memset16` and `memset32` of
`arch/x86cpu/string.asm`, where `rep stosw` and `rep stosd` fill the memory.
-/
namespace SysX

/-- The store of one unit of `bytes` bytes at a 32-bit address. -/
def storeUnit (bytes c : ℕ) (m : FbufBytes) (str : ℕ) : FbufBytes := writeLe m (fun i => w32 (str + i)) bytes c

namespace LibString

/-- The loop of the generic functions. Each pass goes on by one byte, whatever the size of a unit is. -/
def memsetLoop (bytes c str : ℕ) : (n i : ℕ) → FbufBytes → FbufBytes
  | 0, _, m => m
  | n + 1, i, m => memsetLoop bytes c str n (i + 1) (storeUnit bytes c m (w32 (str + i)))

def memset16 (m : FbufBytes) (str : ℕ) (c : BitVec 16) (n : ℕ) : FbufBytes := memsetLoop 2 c.toNat str n 0 m

def memset32 (m : FbufBytes) (str : ℕ) (c : BitVec 32) (n : ℕ) : FbufBytes := memsetLoop 4 c.toNat str n 0 m

def memset64 (m : FbufBytes) (str : ℕ) (c : BitVec 64) (n : ℕ) : FbufBytes := memsetLoop 8 c.toNat str n 0 m

end LibString

namespace X86

/-- `rep stos` with a clear direction flag: `ecx` units from `edi` on. -/
def repStos (bytes eax : ℕ) : (ecx edi : ℕ) → FbufBytes → FbufBytes
  | 0, _, m => m
  | ecx + 1, edi, m => repStos bytes eax ecx (w32 (edi + bytes)) (storeUnit bytes eax m edi)

/-- The argument `c` takes up a whole word of the stack, of which `stosw` stores the lowest 16 bits. -/
def memset16 (m : FbufBytes) (str : ℕ) (c : BitVec 16) (n : ℕ) : FbufBytes := repStos 2 c.toNat n str m

def memset32 (m : FbufBytes) (str : ℕ) (c : BitVec 32) (n : ℕ) : FbufBytes := repStos 4 c.toNat n str m

end X86

/-! What the functions are for. -/

/-- The memory with `n` units of `bytes` bytes from `str` on. -/
def unitsSet (bytes c str n : ℕ) (m : FbufBytes) : FbufBytes := fun a =>
  if str ≤ a ∧ a < str + n * bytes then UInt8.ofNat (c / 256 ^ ((a - str) % bytes)) else m a

/-- The generic `memset16` writes `n` units whatever there was before, like the assembly version. -/
def Memset16Right (str : ℕ) (c : BitVec 16) (n : ℕ) : Prop :=
  ∀ m, LibString.memset16 m str c n = unitsSet 2 c.toNat str n m ∧ LibString.memset16 m str c n = X86.memset16 m str c n

def Memset32Right (str : ℕ) (c : BitVec 32) (n : ℕ) : Prop :=
  ∀ m, LibString.memset32 m str c n = unitsSet 4 c.toNat str n m ∧ LibString.memset32 m str c n = X86.memset32 m str c n

/-- There is no assembly version of `memset64`. -/
def Memset64Right (str : ℕ) (c : BitVec 64) (n : ℕ) : Prop :=
  ∀ m, LibString.memset64 m str c n = unitsSet 8 c.toNat str n m

section Units

variable {bytes c str n i a : ℕ} {m : FbufBytes}

theorem storeUnit_of_lt (h : str + bytes ≤ 4294967296) : storeUnit bytes c m str = unitsSet bytes c str 1 m := by
  have hcell : ∀ j < bytes, w32 (str + j) = str + j := fun j hj => w32_of_lt (by omega)
  funext a
  unfold unitsSet storeUnit
  by_cases ha : str ≤ a ∧ a < str + 1 * bytes
  · obtain ⟨j, rfl⟩ := Nat.exists_eq_add_of_le ha.1
    have hj : j < bytes := by omega
    have hinj : ∀ x < bytes, ∀ y < bytes, w32 (str + x) = w32 (str + y) → x = y := by
      intro x hx y hy hxy
      rw [hcell x hx, hcell y hy] at hxy
      omega
    have happly := writeLe_apply (m := m) (v := c) hinj hj
    rw [hcell j hj] at happly
    rw [if_pos ha, happly, Nat.add_sub_cancel_left, Nat.mod_eq_of_lt hj]
  · rw [if_neg ha]
    apply writeLe_of_ne
    intro j hj
    rw [hcell j hj]
    omega

/-- One unit, and the others behind it. -/
theorem unitsSet_succ : unitsSet bytes c (str + bytes) n (unitsSet bytes c str 1 m) = unitsSet bytes c str (n + 1) m := by
  have hmul : (n + 1) * bytes = n * bytes + bytes := Nat.succ_mul n bytes
  funext a
  unfold unitsSet
  rw [hmul]
  by_cases hrest : str + bytes ≤ a ∧ a < str + bytes + n * bytes
  · obtain ⟨j, rfl⟩ := Nat.exists_eq_add_of_le hrest.1
    have hoff : str + bytes + j - str = bytes + j := by omega
    rw [if_pos hrest, if_pos (by omega), Nat.add_sub_cancel_left, hoff, Nat.add_mod_left]
  · rw [if_neg hrest]
    exact if_congr (by omega) rfl rfl

/-- `rep stos` does what the functions are for. -/
theorem repStos_eq (hbytes : 0 < bytes) (h : str + n * bytes ≤ 4294967296) : X86.repStos bytes c n str m = unitsSet bytes c str n m := by
  induction n generalizing str m with
  | zero =>
    funext a
    rw [X86.repStos, unitsSet, if_neg (by omega)]
  | succ n ih =>
    have hmul : (n + 1) * bytes = n * bytes + bytes := Nat.succ_mul n bytes
    rw [X86.repStos, storeUnit_of_lt (by omega)]
    cases n with
    | zero => rw [X86.repStos]
    | succ n =>
      have hmul' : (n + 1) * bytes = n * bytes + bytes := Nat.succ_mul n bytes
      rw [w32_of_lt (by omega), ih (by omega), unitsSet_succ]

/-- What the framebuffer takes for granted of these functions. -/
theorem memsetUnits_unitsSet (color : FbufColor) : memsetUnits bytes color n str m = unitsSet bytes color.toNat str n m := by
  funext a
  unfold unitsSet
  by_cases ha : str ≤ a ∧ a < str + n * bytes
  · obtain ⟨j, rfl⟩ := Nat.exists_eq_add_of_le ha.1
    rw [if_pos ha, memsetUnits_inside (by omega), Nat.add_sub_cancel_left]
  · rw [if_neg ha]
    exact memsetUnits_outside (by omega)

theorem X86.memset32_eq {color : FbufColor} (h : str + n * 4 ≤ 4294967296) :
    X86.memset32 m str color n = SysX.memset32 m str color n := by
  rw [X86.memset32, repStos_eq (by decide) h, SysX.memset32, memsetUnits_unitsSet]

theorem X86.memset16_eq {color : BitVec 16} (h : str + n * 2 ≤ 4294967296) :
    X86.memset16 m str color n = SysX.memset16 m str (color.setWidth 32) n := by
  have hcolor : (color.setWidth 32).toNat = color.toNat := BitVec.toNat_setWidth_of_le (by decide)
  rw [X86.memset16, repStos_eq (by decide) h, SysX.memset16, memsetUnits_unitsSet, hcolor]

/-- The generic loop stays below the end of the last unit it writes. -/
theorem memsetLoop_outside (hbytes : 0 < bytes) (h : str + i + n + bytes ≤ a + 1) (hfit : str + i + n + bytes ≤ 4294967296 + 1) :
    LibString.memsetLoop bytes c str n i m a = m a := by
  induction n generalizing i m with
  | zero => rfl
  | succ n ih =>
    have hcell : w32 (str + i) = str + i := w32_of_lt (by omega)
    rw [LibString.memsetLoop, ih (by omega) (by omega), hcell, storeUnit_of_lt (by omega), unitsSet, if_neg (by omega)]

/-- The last byte of the units that are asked for is written only when it belongs to the first unit. -/
theorem memsetLoop_iff (hbytes : 2 ≤ bytes) (h : str + n * bytes ≤ 4294967296) :
    (∀ m, LibString.memsetLoop bytes c str n 0 m = unitsSet bytes c str n m) ↔ n ≤ 1 := by
  constructor
  · intro hall
    by_contra hn
    have htwo : 2 ≤ n := Nat.lt_of_not_le hn
    obtain ⟨n, rfl⟩ := Nat.exists_eq_add_of_le htwo
    obtain ⟨k, rfl⟩ := Nat.exists_eq_add_of_le hbytes
    set last := str + (2 + n) * (2 + k) - 1 with hlast
    have hprod : (2 + n) * (2 + k) = n + n + n * k + k + k + 4 := by ring
    have hroom : n ≤ n + n * k := Nat.le_add_right n _
    set v := UInt8.ofNat (c / 256 ^ ((last - str) % (2 + k)))
    have hloop := congrFun (hall fun _ => v + 1) last
    rw [memsetLoop_outside (by omega) (by omega) (by omega), unitsSet, if_pos (by omega)] at hloop
    exact absurd hloop (by simp [v])
  · intro hn m
    rcases Nat.le_one_iff_eq_zero_or_eq_one.mp hn with rfl | rfl
    · funext a
      rw [LibString.memsetLoop, unitsSet, if_neg (by omega)]
    · rw [Nat.one_mul] at h
      rw [LibString.memsetLoop, LibString.memsetLoop, Nat.add_zero, w32_of_lt (by omega), storeUnit_of_lt h]

end Units

/-- The generic functions write their units exactly where there is at most one: from the second one on the units
overlap, and the last of them is never reached. The assembly versions write all units. -/
theorem wide_memset_iff (str n : ℕ) (c : BitVec 16) (c' : BitVec 32) (c'' : BitVec 64) :
    (str + n * 2 ≤ 4294967296 → (Memset16Right str c n ↔ n ≤ 1)) ∧
    (str + n * 4 ≤ 4294967296 → (Memset32Right str c' n ↔ n ≤ 1)) ∧
    (str + n * 8 ≤ 4294967296 → (Memset64Right str c'' n ↔ n ≤ 1)) := by
  refine ⟨fun h => ?_, fun h => ?_, fun h => memsetLoop_iff (by decide) h⟩
  · rw [← memsetLoop_iff (c := c.toNat) (by decide) h]
    refine forall_congr' fun m => and_iff_left_of_imp fun hm => ?_
    rw [hm, X86.memset16, repStos_eq (by decide) h]
  · rw [← memsetLoop_iff (c := c'.toNat) (by decide) h]
    refine forall_congr' fun m => and_iff_left_of_imp fun hm => ?_
    rw [hm, X86.memset32, repStos_eq (by decide) h]

/-- Two units of the value `0x1234`: the last byte is not written, and the second one is that of a low byte. -/
theorem memset16_overlaps : ¬ ∀ (str n : ℕ) (c : BitVec 16), str + n * 2 ≤ 4294967296 → Memset16Right str c n := by
  intro h
  have hlast := congrFun (h 0 2 0x1234 (by decide) fun _ => 0).1 3
  revert hlast
  decide

end SysX
