import SysX.Lib.Comp
import SysX.Lib.BitField
import Mathlib.Logic.Function.Basic

/-!
The machine the kernel runs on: physical memory as frames of 32-bit words, the x86 two-level
page walk through which the kernel reaches it, and the kernel's own tables.
-/
namespace SysX
open BitField

abbrev Word := BitVec 32

/-! Page directory and page table entries. A 4 MiB directory entry (`entry_pse`) and a page table
entry keep their flags in the same bits. -/

namespace Word

def present (e : Word) : Bool := e.getLsbD 0
def rw (e : Word) : Bool := e.getLsbD 1
def user (e : Word) : Bool := e.getLsbD 2
def wthru (e : Word) : Bool := e.getLsbD 3
def ncache (e : Word) : Bool := e.getLsbD 4
def accessed (e : Word) : Bool := e.getLsbD 5
def dirty (e : Word) : Bool := e.getLsbD 6
def pgsz (e : Word) : Bool := e.getLsbD 7
def global (e : Word) : Bool := e.getLsbD 8
def avail (e : Word) : ℕ := getField e 9 3
/-- `pt` of a directory entry, `pa` of a page table entry. -/
def pt (e : Word) : ℕ := getField e 12 20
/-- `pa` of a 4 MiB directory entry. -/
def psePa (e : Word) : ℕ := getField e 22 10
/-- `avail & VMM_AVAIL_TRAPPED` -/
def trapped (e : Word) : Bool := (avail e).testBit 0

end Word

/-- `(size_t) -1` -/
def sizeMax : ℕ := 4294967295

/-! Addresses of the linker script and flags of `mm/vmm.h`. -/

def rmapStart : ℕ := 0xBFC00000
def rmapEnd : ℕ := 0xC0000000
/-- `kernel_start`, which the bootstrap code sets to the start of the recursive mapping. -/
def kernelStart : ℕ := rmapStart
/-- `VMM_PD_PTE`: the directory entry that points back to the directory. -/
def pdPte : ℕ := rmapStart / 4194304

def flagPresent : Word := 1#32
def flagRw : Word := 2#32
def flagUser : Word := 4#32
def flagGlobal : Word := 8#32
def flagCache : Word := 16#32
def flagCacheWthru : Word := 32#32
def flagTrapped : Word := 64#32

inductive TrapType where
  | none
  | cow
  deriving DecidableEq, Inhabited, Repr

/-- `&vmm_traps[idx]` of the block at `base`. -/
structure TrapPtr where
  base : ℕ
  idx : ℕ
  deriving DecidableEq, Repr

structure Trap where
  type : TrapType
  vmm : ℕ
  vaddr : ℕ
  info : Option TrapPtr
  deriving DecidableEq, Repr

inductive TaskType where
  | kernel
  | user
  | userSys
  | deletePending
  deriving DecidableEq, Inhabited, Repr

structure Task where
  type : TaskType
  ready : Bool
  pid : ℕ
  stackBottom : ℕ
  stackSize : ℕ
  tSwitch : ℕ
  deriving DecidableEq, Inhabited, Repr

structure Proc where
  pid : ℕ
  vmm : ℕ
  /-- `elf_segments`: virtual address and size of each loaded segment. -/
  elfSegments : List (ℕ × ℕ)
  tasks : List (Option ℕ)
  deriving DecidableEq, Inhabited, Repr

/-- The state of the memory manager and of the process and task layer above it. `mem f i` is the
`i`-th word of physical frame `f`. Tasks and processes are named by their addresses, and the task
ring is listed from `task_kernel` on. `heap n` is what the `n`-th heap allocation returns. -/
structure Machine where
  mem : ℕ → ℕ → Word
  pmmBitmap : ℕ → Word
  pmmFrames : ℕ
  vmmCurrent : ℕ
  vmmKernel : ℕ
  kernelEnd : ℕ
  vmmTraps : List Trap
  vmmTrapsBase : ℕ
  vmmTrapsMutex : Bool
  vmmFrstage : List (Option ℕ)
  heap : ℕ → Option ℕ
  heapCalls : ℕ
  task : ℕ → Task
  taskRing : List ℕ
  taskCurrent : Option ℕ
  timerTick : ℕ
  proc : ℕ → Proc
  procPidtab : List (Option ℕ)
  deriving Inhabited

abbrev Kernel := Comp Machine

/-- Arithmetic on `size_t` and `uintptr_t`. -/
def w32 (n : ℕ) : ℕ := n % 4294967296

theorem w32_of_lt {n : ℕ} (h : n < 4294967296) : w32 n = n := Nat.mod_eq_of_lt h

def sub32 (a b : ℕ) : ℕ := w32 (a + (4294967296 - b % 4294967296))

namespace Machine

/-- The frame of the page directory in `cr3`. -/
def cr3 (s : Machine) : ℕ := s.vmmCurrent / 4096

def set (s : Machine) (f i : ℕ) (d : Word) : Machine :=
  { s with mem := fun g j => if g = f ∧ j = i then d else s.mem g j }

/-- Replace the contents of a whole frame. -/
def setFrame (s : Machine) (f : ℕ) (c : ℕ → Word) : Machine :=
  { s with mem := fun g j => if g = f then c j else s.mem g j }

end Machine

/-- The page walk for a kernel access, `w` when it is a write. Write protection is enforced in
ring 0 (`cr0` has the WP bit set by the bootstrap code), and an absent page faults. -/
def mmu (m : ℕ → ℕ → Word) (pd : ℕ) (w : Bool) (va : ℕ) : Option ℕ :=
  let pde := m pd (va / 4194304)
  if pde.present = false ∨ (w = true ∧ pde.rw = false) then none
  else if pde.pgsz then some (pde.psePa * 1024 + va / 4096 % 1024)
  else
    let pte := m pde.pt (va / 4096 % 1024)
    if pte.present = false ∨ (w = true ∧ pte.rw = false) then none else some pte.pt

def frameAt (w : Bool) (va : ℕ) : Kernel ℕ := Comp.readOr fun s => mmu s.mem s.cr3 w va

/-- Read the word at a virtual address. -/
def load (va : ℕ) : Kernel Word := do
  let f ← frameAt false va
  Comp.read fun s => s.mem f (va % 4096 / 4)

/-- Write the word at a virtual address. -/
def store (va : ℕ) (d : Word) : Kernel Unit := do
  let f ← frameAt true va
  Comp.modify fun s => s.set f (va % 4096 / 4) d

/-- A read-modify-write of the word at a virtual address. -/
def update (va : ℕ) (g : Word → Word) : Kernel Unit := do
  let d ← load va
  store va (g d)

/-- `memset(va, 0, 4096)` for a page-aligned address. -/
def memsetPage (va : ℕ) : Kernel Unit := do
  let f ← frameAt true va
  Comp.modify fun s => s.setFrame f fun _ => 0

/-- `memcpy(dst, src, 4096)` for page-aligned addresses. -/
def memcpyPage (dst src : ℕ) : Kernel Unit := do
  let g ← frameAt false src
  let f ← frameAt true dst
  Comp.modify fun s => s.setFrame f (s.mem g)

/-- `krealloc`: only the returned pointer matters here. -/
def krealloc : Kernel (Option ℕ) := do
  let r ← Comp.read fun s => s.heap s.heapCalls
  Comp.modify fun s => { s with heapCalls := s.heapCalls + 1 }
  pure r

end SysX
