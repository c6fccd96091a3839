import SysX.Lib.Loop
import SysX.Lib.Moves
import Mathlib.Algebra.Group.Nat.Defs
import Mathlib.Data.List.Basic
import Mathlib.Logic.Function.Basic

/-!
Assembly code for the 80386, as far as string moves need it. The words of the stack are kept apart from the memory that
instructions move, as are those of a caller that keeps to the calling convention.
-/
namespace SysX.X86

inductive Reg where
  | eax | ecx | esi | edi | ebp | esp
  deriving DecidableEq

/-- The flags that the instructions below read. -/
structure Flags where
  cf : Bool
  zf : Bool
  df : Bool

def Flags.toWord (f : Flags) : BitVec 32 :=
  (BitVec.ofBool f.cf).setWidth 32 ||| (BitVec.ofBool f.zf).setWidth 32 <<< 6 ||| (BitVec.ofBool f.df).setWidth 32 <<< 10

def Flags.ofWord (w : BitVec 32) : Flags := ⟨w.getLsbD 0, w.getLsbD 6, w.getLsbD 10⟩

@[simp] theorem Flags.ofWord_toWord (f : Flags) : Flags.ofWord f.toWord = f := by
  rcases f with ⟨_ | _, _ | _, _ | _⟩ <;> rfl

structure Cpu where
  reg : Reg → BitVec 32
  flags : Flags
  stack : BitVec 32 → BitVec 32
  mem : ℕ → UInt8

/-- Instructions, with labels among them. -/
inductive Instr (L : Type) where
  | label (l : L)
  | push (r : Reg)
  | pop (r : Reg)
  | pushf
  | popf
  | mov (dst src : Reg)
  /-- `mov dst, [base + disp]` from the stack -/
  | load (dst base : Reg) (disp : BitVec 32)
  | add (dst src : Reg)
  | dec (dst : Reg)
  | cmp (a b : Reg)
  | je (l : L)
  | jb (l : L)
  | cld
  | std
  | repMovsb
  | leave
  | ret
  deriving DecidableEq

namespace Cpu

def set (s : Cpu) (r : Reg) (v : BitVec 32) : Cpu := { s with reg := Function.update s.reg r v }

def push (s : Cpu) (v : BitVec 32) : Cpu :=
  let sp := s.reg .esp - 4
  { s.set .esp sp with stack := Function.update s.stack sp v }

/-- The word on top of the stack, and what is left. -/
def pop (s : Cpu) : BitVec 32 × Cpu := (s.stack (s.reg .esp), s.set .esp (s.reg .esp + 4))

/-- One byte, in the direction of `DF`. -/
def movsb (s : Cpu) : Cpu :=
  let d : BitVec 32 := if s.flags.df then -1 else 1
  let m := Function.update s.mem (s.reg .edi).toNat (s.mem (s.reg .esi).toNat)
  { (s.set .esi (s.reg .esi + d)).set .edi (s.reg .edi + d) with mem := m }

/-- As many bytes as `ecx` says. -/
def repMovsb : ℕ → Cpu → Cpu
  | 0, s => s
  | n + 1, s => repMovsb n ((movsb s).set .ecx (s.reg .ecx - 1))

end Cpu

/-- Instructions that go on with the next one. -/
def exec {L : Type} (i : Instr L) (s : Cpu) : Cpu :=
  match i with
  | .push r => s.push (s.reg r)
  | .pop r => s.pop.2.set r s.pop.1
  | .pushf => s.push s.flags.toWord
  | .popf => { s.pop.2 with flags := .ofWord s.pop.1 }
  | .mov dst src => s.set dst (s.reg src)
  | .load dst base disp => s.set dst (s.stack (s.reg base + disp))
  | .add dst src =>
    let v := s.reg dst + s.reg src
    { s.set dst v with flags := { s.flags with cf := v.ult (s.reg dst), zf := v = 0 } }
  | .dec dst =>
    let v := s.reg dst - 1
    { s.set dst v with flags := { s.flags with zf := v = 0 } }
  | .cmp a b => { s with flags := { s.flags with cf := (s.reg a).ult (s.reg b), zf := s.reg a = s.reg b } }
  | .cld => { s with flags := { s.flags with df := false } }
  | .std => { s with flags := { s.flags with df := true } }
  | .repMovsb => s.repMovsb (s.reg .ecx).toNat
  | .leave =>
    let s := s.set .esp (s.reg .ebp)
    s.pop.2.set .ebp s.pop.1
  | .label _ | .je _ | .jb _ | .ret => s

variable {L : Type} [DecidableEq L]

/-- One instruction of the code. A return gives the state behind it, and the end of the code nothing. -/
def step (code : List (Instr L)) (s : ℕ × Cpu) : (ℕ × Cpu) ⊕ Option Cpu :=
  match code[s.1]? with
  | none => .inr none
  | some .ret => .inr (some s.2.pop.2)
  | some (.je l) => .inl (if s.2.flags.zf then code.findIdx (· = .label l) else s.1 + 1, s.2)
  | some (.jb l) => .inl (if s.2.flags.cf then code.findIdx (· = .label l) else s.1 + 1, s.2)
  | some i => .inl (s.1 + 1, exec i s.2)

/-- A call of the code in the state `s` comes back in the state `t`. -/
def Calls (code : List (Instr L)) (s t : Cpu) : Prop := Loop.Returns (step code) (0, s) (some t)

/-! Blocks. -/

section Block

variable {code : List (Instr L)} {i : ℕ} {s : Cpu}

/-- Behind it comes the next instruction, whatever the state. -/
def Instr.goesOn : Instr L → Bool
  | .je _ | .jb _ | .ret => false
  | _ => true

def runBlock (block : List (Instr L)) (s : Cpu) : Cpu := block.foldl (fun s x => exec x s) s

theorem step_of_goesOn {x : Instr L} (hx : code[i]? = some x) (h : x.goesOn) : step code (i, s) = .inl (i + 1, exec x s) := by
  unfold step
  cases x <;> simp_all [Instr.goesOn]

/-- The code runs through `k` such instructions from the `i`th one on. -/
theorem reaches_block (i k : ℕ) (hlen : i + k ≤ code.length) (h : ∀ x ∈ (code.drop i).take k, x.goesOn) :
    Loop.Reaches (step code) (i, s) (i + k, runBlock ((code.drop i).take k) s) := by
  induction k generalizing i s with
  | zero => exact .refl
  | succ k ih =>
    have hi : i < code.length := by omega
    rw [List.drop_eq_getElem_cons hi, List.take_succ_cons] at h ⊢
    have hrest := ih (s := exec code[i] s) (i + 1) (by omega) fun x hx => h x (by simp [hx])
    rw [Nat.add_right_comm, Nat.add_assoc] at hrest
    exact .head (step_of_goesOn (List.getElem?_eq_getElem hi) (h _ (by simp))) hrest

end Block

/-! String moves. -/

namespace Cpu

variable {s : Cpu} {k d e : ℕ} {r : Reg}

@[simp] theorem set_flags {v : BitVec 32} : (s.set r v).flags = s.flags := rfl

@[simp] theorem set_stack {v : BitVec 32} : (s.set r v).stack = s.stack := rfl

@[simp] theorem set_mem {v : BitVec 32} : (s.set r v).mem = s.mem := rfl

@[simp] theorem set_reg {v : BitVec 32} : (s.set r v).reg = Function.update s.reg r v := rfl

@[simp] theorem repMovsb_stack : (repMovsb k s).stack = s.stack := by
  induction k generalizing s with
  | zero => rfl
  | succ k ih => rw [repMovsb, ih, movsb, set_stack, set_stack, set_stack]

theorem repMovsb_reg (hedi : r ≠ .edi) (hesi : r ≠ .esi) (hecx : r ≠ .ecx) : (repMovsb k s).reg r = s.reg r := by
  induction k generalizing s with
  | zero => rfl
  | succ k ih => simp [repMovsb, ih, movsb, hedi, hesi, hecx]

/-- With `DF` clear, the move starts at the first bytes. -/
theorem repMovsb_mem_up (hdf : s.flags.df = false) (hedi : s.reg .edi = .ofNat 32 d) (hesi : s.reg .esi = .ofNat 32 e)
    (hd : d + k ≤ 2 ^ 32) (he : e + k ≤ 2 ^ 32) : (repMovsb k s).mem = moveUp d e k s.mem := by
  induction k generalizing s d e with
  | zero => rfl
  | succ k ih =>
    have hdfirst : (s.reg .edi).toNat = d := by
      rw [hedi, BitVec.toNat_ofNat]
      omega
    have hefirst : (s.reg .esi).toNat = e := by
      rw [hesi, BitVec.toNat_ofNat]
      omega
    rw [repMovsb, ih (d := d + 1) (e := e + 1) _ _ _ (by omega) (by omega), moveUp_succ]
    · simp [movsb, hdfirst, hefirst]
    · simp [movsb, hdf]
    · simp [movsb, hdf, hedi, BitVec.ofNat_add]
    · simp [movsb, hdf, hesi, BitVec.ofNat_add]

/-- With `DF` set, it starts at the last ones. -/
theorem repMovsb_mem_down (hdf : s.flags.df = true) (hedi : s.reg .edi = .ofNat 32 (d + k) - 1)
    (hesi : s.reg .esi = .ofNat 32 (e + k) - 1) (hd : d + k ≤ 2 ^ 32) (he : e + k ≤ 2 ^ 32) :
    (repMovsb k s).mem = moveDown d e k s.mem := by
  induction k generalizing s with
  | zero => rfl
  | succ k ih =>
    have hdlast : (s.reg .edi).toNat = d + k := by
      rw [hedi]
      bv_omega
    have helast : (s.reg .esi).toNat = e + k := by
      rw [hesi]
      bv_omega
    rw [repMovsb, ih _ _ _ (by omega) (by omega), moveDown]
    · simp [movsb, hdlast, helast]
    · simp [movsb, hdf]
    · simp [movsb, hdf, hedi]
      bv_omega
    · simp [movsb, hdf, hesi]
      bv_omega

end Cpu

end SysX.X86
