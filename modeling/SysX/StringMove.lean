import SysX.Lib.Moves
import SysX.Lib.X86
import SysX.Machine
import Mathlib.Tactic.Common

/-!
`memmove` in its two forms: the generic one of `lib/string.c`, and the assembly code of `arch/x86cpu/string.asm`.
-/
namespace SysX

namespace LibString

/-- The byte at `src + i` goes to `dest + i`. -/
def moveByte (dest src : Word) (i : ℕ) (m : ℕ → UInt8) : ℕ → UInt8 :=
  Function.update m (dest + BitVec.ofNat 32 i).toNat (m (src + BitVec.ofNat 32 i).toNat)

/-- `for(size_t i = 0; i < n; i++)` -/
def memmoveUp (dest src : Word) : (n : ℕ) → (ℕ → UInt8) → ℕ → UInt8
  | 0, m => m
  | n + 1, m => moveByte dest src n (memmoveUp dest src n m)

/-- `for(int i = n - 1; i >= 0; i--)`, with `n` passes left. -/
def memmoveDown (dest src : Word) : (n : ℕ) → (ℕ → UInt8) → ℕ → UInt8
  | 0, m => m
  | n + 1, m => memmoveDown dest src n (moveByte dest src n m)

def memmove (dest src n : Word) (m : ℕ → UInt8) : ℕ → UInt8 :=
  if dest = src then m
  else if dest < src then memmoveUp dest src n.toNat m
  else
    let i := (n - 1).toInt
    memmoveDown dest src (i + 1).toNat m

end LibString

inductive MemmoveLabel where
  | move | done
  deriving DecidableEq

/-- `memmove` in `string.asm` -/
def memmoveAsm : List (X86.Instr MemmoveLabel) :=
  [ .push .ebp,
    .mov .ebp .esp,
    .push .edi,
    .push .esi,
    .pushf,
    .load .edi .ebp (2 * 4),
    .load .esi .ebp (3 * 4),
    .load .ecx .ebp (4 * 4),
    .cld,
    .cmp .edi .esi,
    .je .done,
    .jb .move,
    .add .edi .ecx,
    .dec .edi,
    .add .esi .ecx,
    .dec .esi,
    .std,
    .label .move,
    .repMovsb,
    .label .done,
    .popf,
    .pop .esi,
    .pop .edi,
    .leave,
    .ret ]

/-- The caller has pushed the arguments and the return address. -/
structure MemmoveCall (s : X86.Cpu) (dest src n : Word) : Prop where
  dest : s.stack (s.reg .esp + 4) = dest
  src : s.stack (s.reg .esp + 8) = src
  n : s.stack (s.reg .esp + 12) = n

/-! The generic form. -/

section Generic

variable {m : ℕ → UInt8} {dest src n : Word} {k : ℕ}

theorem toNat_add_ofNat {p : Word} {i : ℕ} (h : p.toNat + i < 2 ^ 32) : (p + BitVec.ofNat 32 i).toNat = p.toNat + i := by
  rw [BitVec.toNat_add, BitVec.toNat_ofNat, Nat.mod_eq_of_lt (show i < 2 ^ 32 by omega), Nat.mod_eq_of_lt h]

theorem memmoveUp_eq (hd : dest.toNat + k ≤ 2 ^ 32) (hs : src.toNat + k ≤ 2 ^ 32) :
    LibString.memmoveUp dest src k m = moveUp dest.toNat src.toNat k m := by
  induction k with
  | zero => rfl
  | succ k ih =>
    rw [LibString.memmoveUp, moveUp, ih (by omega) (by omega), LibString.moveByte, toNat_add_ofNat (by omega),
      toNat_add_ofNat (by omega)]

theorem memmoveDown_eq (hd : dest.toNat + k ≤ 2 ^ 32) (hs : src.toNat + k ≤ 2 ^ 32) :
    LibString.memmoveDown dest src k m = moveDown dest.toNat src.toNat k m := by
  induction k generalizing m with
  | zero => rfl
  | succ k ih =>
    rw [LibString.memmoveDown, moveDown, ih (by omega) (by omega), LibString.moveByte, toNat_add_ofNat (by omega),
      toNat_add_ofNat (by omega)]

/-- The signed index takes every value below the count, as long as that has no more than 2^31. -/
theorem toInt_pred_succ (hn : n.toNat ≤ 2 ^ 31) : ((n - 1).toInt + 1).toNat = n.toNat := by
  have hpred : (n - 1).toNat = (2 ^ 32 - 1 + n.toNat) % 2 ^ 32 := BitVec.toNat_sub n 1
  rw [BitVec.toInt_eq_toNat_cond]
  split_ifs <;> omega

theorem memmove_eq (hn : n.toNat ≤ 2 ^ 31) (hd : dest.toNat + n.toNat ≤ 2 ^ 32) (hs : src.toNat + n.toNat ≤ 2 ^ 32) :
    LibString.memmove dest src n m = moveWithin m dest.toNat src.toNat n.toNat := by
  unfold LibString.memmove moveWithin
  simp only [toInt_pred_succ hn, memmoveUp_eq hd hs, memmoveDown_eq hd hs, BitVec.toNat_inj, BitVec.lt_def]

end Generic

/-! The assembly code. -/

section Assembly

open X86 (Cpu)

variable {s t u : Cpu} {dest src n : Word}

/-- What the code between the prologue and the epilogue keeps for the return of a call in the state `s`. -/
structure MemmoveFrame (s t : Cpu) : Prop where
  eax : t.reg .eax = s.reg .eax
  ebp : t.reg .ebp = s.reg .esp - 4
  esp : t.reg .esp = s.reg .esp - 16
  savedEbp : t.stack (s.reg .esp - 4) = s.reg .ebp
  savedEdi : t.stack (s.reg .esp - 8) = s.reg .edi
  savedEsi : t.stack (s.reg .esp - 12) = s.reg .esi
  savedFlags : t.stack (s.reg .esp - 16) = s.flags.toWord

/-- The state in which the code chooses the direction. -/
structure MemmoveLoaded (s t : Cpu) (dest src n : Word) : Prop extends MemmoveFrame s t where
  edi : t.reg .edi = dest
  esi : t.reg .esi = src
  ecx : t.reg .ecx = n
  cf : t.flags.cf = decide (dest < src)
  zf : t.flags.zf = decide (dest = src)
  df : t.flags.df = false
  mem : t.mem = s.mem

theorem memmove_prologue (h : MemmoveCall s dest src n) :
    ∃ t, Loop.Reaches (X86.step memmoveAsm) (0, s) (10, t) ∧ MemmoveLoaded s t dest src n := by
  have hrun : Loop.Reaches (X86.step memmoveAsm) (0, s) (10, X86.runBlock (memmoveAsm.take 10) s) :=
    X86.reaches_block 0 10 (by decide) (by decide)
  have hdest : s.stack (s.reg .esp + 4#32) = dest := h.dest
  have hsrc : s.stack (s.reg .esp + 8#32) = src := h.src
  have hn : s.stack (s.reg .esp + 12#32) = n := h.n
  refine ⟨_, hrun, ?_⟩
  constructor
  · constructor <;> simp [memmoveAsm, X86.runBlock, X86.exec, Cpu.push, BitVec.sub_eq_add_neg, BitVec.add_assoc]
  all_goals simp [memmoveAsm, X86.runBlock, X86.exec, Cpu.push, BitVec.sub_eq_add_neg, BitVec.add_assoc, hdest, hsrc, hn,
    BitVec.ult_eq_decide, BitVec.lt_def]

theorem MemmoveFrame.congr (h : MemmoveFrame s t) (hstack : u.stack = t.stack) (heax : u.reg .eax = t.reg .eax)
    (hebp : u.reg .ebp = t.reg .ebp) (hesp : u.reg .esp = t.reg .esp) : MemmoveFrame s u where
  eax := heax.trans h.eax
  ebp := hebp.trans h.ebp
  esp := hesp.trans h.esp
  savedEbp := by rw [hstack, h.savedEbp]
  savedEdi := by rw [hstack, h.savedEdi]
  savedEsi := by rw [hstack, h.savedEsi]
  savedFlags := by rw [hstack, h.savedFlags]

/-- The move itself, in either direction. -/
theorem MemmoveFrame.move (h : MemmoveFrame s t) :
    Loop.Reaches (X86.step memmoveAsm) (17, t) (19, t.repMovsb (t.reg .ecx).toNat) ∧
      MemmoveFrame s (t.repMovsb (t.reg .ecx).toNat) := by
  constructor
  · exact X86.reaches_block 17 2 (by decide) (by decide)
  · apply h.congr Cpu.repMovsb_stack <;> apply Cpu.repMovsb_reg <;> decide

theorem memmove_body (h : MemmoveLoaded s t dest src n) (hd : dest.toNat + n.toNat ≤ 2 ^ 32)
    (hs : src.toNat + n.toNat ≤ 2 ^ 32) :
    ∃ u, Loop.Reaches (X86.step memmoveAsm) (10, t) (19, u) ∧ MemmoveFrame s u ∧
      u.mem = moveWithin s.mem dest.toNat src.toNat n.toNat := by
  have hje : X86.step memmoveAsm (10, t) = .inl (if dest = src then 19 else 11, t) := by
    have hstep : X86.step memmoveAsm (10, t) = .inl (if t.flags.zf then 19 else 11, t) := rfl
    simp [hstep, h.zf]
  have hjb : X86.step memmoveAsm (11, t) = .inl (if dest < src then 17 else 12, t) := by
    have hstep : X86.step memmoveAsm (11, t) = .inl (if t.flags.cf then 17 else 12, t) := rfl
    simp [hstep, h.cf]
  unfold moveWithin
  simp only [BitVec.toNat_inj, ← BitVec.lt_def]
  by_cases heq : dest = src
  · rw [if_pos heq] at hje ⊢
    exact ⟨t, .single hje, h.toMemmoveFrame, h.mem⟩
  rw [if_neg heq] at hje ⊢
  by_cases hlt : dest < src
  · rw [if_pos hlt] at hjb ⊢
    obtain ⟨hmove, hframe⟩ := h.move
    refine ⟨_, .head hje (.head hjb hmove), hframe, ?_⟩
    rw [h.ecx, Cpu.repMovsb_mem_up h.df (by simp [h.edi]) (by simp [h.esi]) hd hs, h.mem]
  · rw [if_neg hlt] at hjb ⊢
    -- from here on, the registers point to the last bytes
    have hends : Loop.Reaches (X86.step memmoveAsm) (12, t) (17, X86.runBlock ((memmoveAsm.drop 12).take 5) t) :=
      X86.reaches_block 12 5 (by decide) (by decide)
    have hlast : MemmoveFrame s (X86.runBlock ((memmoveAsm.drop 12).take 5) t) := h.congr rfl rfl rfl rfl
    obtain ⟨hmove, hframe⟩ := hlast.move
    refine ⟨_, .head hje (.head hjb (hends.trans hmove)), hframe, ?_⟩
    have hecx : (X86.runBlock ((memmoveAsm.drop 12).take 5) t).reg .ecx = n := h.ecx
    rw [hecx, Cpu.repMovsb_mem_down rfl _ _ hd hs]
    · exact congrArg _ h.mem
    · simp [memmoveAsm, X86.runBlock, X86.exec, h.edi, h.ecx, BitVec.ofNat_add]
    · simp [memmoveAsm, X86.runBlock, X86.exec, h.esi, h.ecx, BitVec.ofNat_add]

/-- The return address has gone from the stack, and the rest is as the caller left it, but for the counter. -/
structure MemmoveReturn (s t : Cpu) : Prop where
  esp : t.reg .esp = s.reg .esp + 4
  kept : ∀ r ∈ [X86.Reg.eax, .esi, .edi, .ebp], t.reg r = s.reg r
  flags : t.flags = s.flags

theorem memmove_epilogue (h : MemmoveFrame s t) :
    ∃ u, Loop.Returns (X86.step memmoveAsm) (19, t) (some u) ∧ MemmoveReturn s u ∧ u.mem = t.mem := by
  have hrun : Loop.Reaches (X86.step memmoveAsm) (19, t) (24, X86.runBlock ((memmoveAsm.drop 19).take 5) t) :=
    X86.reaches_block 19 5 (by decide) (by decide)
  have hflags : t.stack (t.reg .esp) = s.flags.toWord := by rw [h.esp, h.savedFlags]
  have hesi : t.stack (t.reg .esp + 4#32) = s.reg .esi := by
    rw [← h.savedEsi, h.esp]
    congr 1
    bv_omega
  have hedi : t.stack (t.reg .esp + 4#32 + 4#32) = s.reg .edi := by
    rw [← h.savedEdi, h.esp]
    congr 1
    bv_omega
  have hebp : t.stack (t.reg .ebp) = s.reg .ebp := by rw [h.ebp, h.savedEbp]
  refine ⟨_, .of_reaches hrun (.done rfl), ?_, rfl⟩
  constructor
  · simp [memmoveAsm, X86.runBlock, X86.exec, Cpu.pop, h.ebp, BitVec.sub_add_cancel]
  · simp [memmoveAsm, X86.runBlock, X86.exec, Cpu.pop, h.eax, hesi, hedi, hebp]
  · simp [memmoveAsm, X86.runBlock, X86.exec, Cpu.pop, hflags]

/-- A call of the assembly code comes back to its caller with the move done. -/
theorem memmoveAsm_calls (h : MemmoveCall s dest src n) (hd : dest.toNat + n.toNat ≤ 2 ^ 32)
    (hs : src.toNat + n.toNat ≤ 2 ^ 32) :
    ∃ t, X86.Calls memmoveAsm s t ∧ MemmoveReturn s t ∧ t.mem = moveWithin s.mem dest.toNat src.toNat n.toNat := by
  obtain ⟨t₁, hprologue, hloaded⟩ := memmove_prologue h
  obtain ⟨t₂, hbody, hframe, hmem⟩ := memmove_body hloaded hd hs
  obtain ⟨t, hepilogue, hreturn, hsame⟩ := memmove_epilogue hframe
  exact ⟨t, .of_reaches (hprologue.trans hbody) hepilogue, hreturn, hsame.trans hmem⟩

end Assembly

/-- The C code moves every byte of the range, whatever the overlap, and the assembly code does the same. -/
theorem memmove_agrees (m : ℕ → UInt8) (dest src n : Word) (hn : n.toNat ≤ 2 ^ 31) (hd : dest.toNat + n.toNat ≤ 2 ^ 32)
    (hs : src.toNat + n.toNat ≤ 2 ^ 32) :
    (∀ i < n.toNat, LibString.memmove dest src n m (dest.toNat + i) = m (src.toNat + i)) ∧
    (∀ a, ¬(dest.toNat ≤ a ∧ a < dest.toNat + n.toNat) → LibString.memmove dest src n m a = m a) ∧
    ∀ s : X86.Cpu, s.mem = m → MemmoveCall s dest src n →
      ∃ t, X86.Calls memmoveAsm s t ∧ t.mem = LibString.memmove dest src n m := by
  rw [memmove_eq hn hd hs]
  refine ⟨fun i hi => ?_, fun a ha => ?_, fun s hm hcall => ?_⟩
  · rw [moveWithin_apply, if_pos ⟨Nat.le_add_right _ _, Nat.add_lt_add_left hi _⟩, Nat.add_sub_cancel_left]
  · rw [moveWithin_apply, if_neg ha]
  · obtain ⟨t, ht, _, hmem⟩ := memmoveAsm_calls hcall hd hs
    exact ⟨t, ht, by rw [hmem, hm]⟩

/-- A call that moves three bytes from 0 to 1. -/
def memmoveThree : X86.Cpu where
  reg := fun _ => 0
  flags := ⟨false, false, false⟩
  stack := fun a => if a = 4 then 1 else if a = 12 then 3 else 0
  mem := .ofNat

theorem memmove_agrees_three : ∃ t, X86.Calls memmoveAsm memmoveThree t ∧ t.mem 3 = 2 := by
  obtain ⟨t, ht, hmem⟩ :=
    (memmove_agrees .ofNat 1 0 3 (by decide) (by decide) (by decide)).2.2 memmoveThree rfl ⟨rfl, rfl, rfl⟩
  refine ⟨t, ht, ?_⟩
  rw [hmem]
  decide

end SysX
