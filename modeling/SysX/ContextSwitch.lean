import SysX.Lib.AddressSpace
import SysX.Tasks

/-!
The switch from one task to another (`task_switch` in `arch/x86cpu/task_lowlevel.asm`) and the entry and the end of an
interrupt (`idt_handler_stub` in `arch/x86cpu/desctabs.asm`). Task structures are named by their addresses and kept apart
from the stacks, which are bytes that the address space in `CR3` leads to.
-/
namespace SysX

/-- `struct context` -/
structure Context where
  edi : Word
  esi : Word
  ebp : Word
  esp : Word
  ebx : Word
  edx : Word
  ecx : Word
  eax : Word
  eip : Word
  cs : Word
  eflags : Word
  espUsr : Word
  ssUsr : Word
  deriving DecidableEq

/-- The registers of the processor. -/
structure Regs where
  edi : Word
  esi : Word
  ebp : Word
  esp : Word
  ebx : Word
  edx : Word
  ecx : Word
  eax : Word
  eip : Word
  eflags : Word
  cs : BitVec 16
  ss : BitVec 16
  ds : BitVec 16
  es : BitVec 16
  fs : BitVec 16
  gs : BitVec 16
  deriving DecidableEq

/-- The registers of the FPU, and those of SSE, as the images of them that are stored in memory. -/
structure ExtRegs where
  fpu : ℕ → UInt8
  sse : ℕ → UInt8

/-- `task_t` -/
structure TaskStruct where
  regs : Context
  common : TaskCommon
  regsExt : ExtRegs

/-- The end of an interrupt is announced to the local APIC, or to the PICs and the RTC. -/
inductive Eoi where
  | lapic (reg : Word)
  | pics
  deriving DecidableEq

/-- `space` gives the address space for a value of `CR3`, `ss` is the stack segment in ring 0, and `procVmm` is the
field `vmm` of an entry of `proc_pidtab`. Without support for the APIC, `apicEnabled` is no symbol. -/
structure SwitchState where
  space : Word → AddressSpace
  cr3 : Word
  ss : BitVec 16
  ram : ℕ → UInt8
  ext : ExtRegs
  task : Word → TaskStruct
  taskCurrent : Word
  vmmCurrent : Word
  esp0 : Word
  procVmm : ℕ → Option Word
  x86extOn : BitVec 16
  apicEnabled : Option Bool
  lapicBase : Word
  eoi : List Eoi

abbrev SwitchOp := Comp SwitchState

/-- `test eax, 0b11` with a code segment, or a data segment, in `eax` -/
def selectsUser (selector : Word) : Bool := selector &&& 3#32 ≠ 0#32

namespace SwitchState

def setTask (s : SwitchState) (t : Word) (f : TaskStruct → TaskStruct) : SwitchState :=
  { s with task := Function.update s.task t (f (s.task t)) }

/-- The words at an address, in the current address space. -/
def words (s : SwitchState) (a : Word) (n : ℕ) : Option (List Word) := (s.space s.cr3).loadWords s.ram a n

end SwitchState

def readWords (a : Word) (n : ℕ) : SwitchOp (List Word) := Comp.readOr fun s => s.words a n

def writeWords (a : Word) (ws : List Word) : SwitchOp Unit := do
  let ram ← Comp.readOr fun s => (s.space s.cr3).storeWords s.ram a ws
  Comp.modify fun s => { s with ram := ram }

/-! Interrupts. -/

def Regs.user (r : Regs) : Bool := selectsUser (r.cs.setWidth 32)

/-- What the processor and the stub push, where `vectorAddr` is the address of the vector among it (`idt_context_t`). -/
def Regs.pushed (r : Regs) (vectorAddr vector excCode : Word) : List Word :=
  [r.gs.setWidth 32, r.fs.setWidth 32, r.es.setWidth 32, r.ds.setWidth 32,
    r.edi, r.esi, r.ebp, vectorAddr, r.ebx, r.edx, r.ecx, r.eax, vector, excCode,
    r.eip, r.cs.setWidth 32, r.eflags] ++ if r.user then [r.esp, r.ss.setWidth 32] else []

/-- How many words these are. -/
def Regs.pushedWords (r : Regs) : ℕ := if r.user then 19 else 17

/-- The way from the interrupted program into `idt_stub`, with the address of the context as its argument. -/
def intrEnter (r : Regs) (vector excCode : Word) : SwitchOp Word := do
  let esp0 ← Comp.read SwitchState.esp0
  let top := if r.user then esp0 else r.esp
  let context := top - .ofNat 32 (4 * r.pushedWords)
  writeWords context (r.pushed (context + 48#32) vector excCode)
  pure context

/-- `popa`, `skip` bytes that are skipped, and `iret` -/
def popaIret (esp skip : Word) (ds es fs gs : BitVec 16) : SwitchOp Regs := do
  let general ← readWords esp 8
  let frame ← readWords (esp + 32#32 + skip) 3
  let outer ← if selectsUser (frame.getD 1 0) then readWords (esp + 32#32 + skip + 12#32) 2 else do
    let ss ← Comp.read SwitchState.ss
    pure [esp + 32#32 + skip + 12#32, ss.setWidth 32]
  pure
    { edi := general.getD 0 0
      esi := general.getD 1 0
      ebp := general.getD 2 0
      ebx := general.getD 4 0
      edx := general.getD 5 0
      ecx := general.getD 6 0
      eax := general.getD 7 0
      eip := frame.getD 0 0
      cs := (frame.getD 1 0).setWidth 16
      eflags := frame.getD 2 0
      esp := outer.getD 0 0
      ss := (outer.getD 1 0).setWidth 16
      ds := ds
      es := es
      fs := fs
      gs := gs }

/-- The way back, behind `call idt_stub`. -/
def intrReturn (context : Word) : SwitchOp Regs := do
  let segments ← readWords context 4
  popaIret (context + 16#32) 8#32 ((segments.getD 3 0).setWidth 16) ((segments.getD 2 0).setWidth 16)
    ((segments.getD 1 0).setWidth 16) ((segments.getD 0 0).setWidth 16)

/-! `task_switch` -/

/-- `.save_general`, `.save_usr` -/
def saveGeneral (context task : Word) : SwitchOp Unit := do
  let general ← readWords (context + 16#32) 8
  let frame ← readWords (context + 56#32) 3
  let cs := frame.getD 1 0
  let old ← Comp.read fun s => (s.task task).regs
  let usr ← if selectsUser cs then readWords (context + 68#32) 2 else pure [old.espUsr, old.ssUsr]
  Comp.modify fun s => s.setTask task fun t => { t with regs :=
    { edi := general.getD 0 0
      esi := general.getD 1 0
      ebp := general.getD 2 0
      esp := general.getD 3 0
      ebx := general.getD 4 0
      edx := general.getD 5 0
      ecx := general.getD 6 0
      eax := general.getD 7 0
      eip := frame.getD 0 0
      cs := cs
      eflags := frame.getD 2 0
      espUsr := usr.getD 0 0
      ssUsr := usr.getD 1 0 } }

/-- The address of `regs_ext`. -/
def regsExtAddr (task : Word) : Word := task + .ofNat 32 (4 * 8 + 4 * 5 + 24)

def Aligned16 (a : Word) : Prop := a.toNat % 16 = 0

instance (a : Word) : Decidable (Aligned16 a) := inferInstanceAs (Decidable (_ = _))

/-- `FXSAVE`, `FXRSTOR` and `MOVAPS` fault where their operand is not on a multiple of 16. -/
def aligned16 (a : Word) : SwitchOp Unit := if Aligned16 a then pure () else Comp.fault

def fpuOn (x86extOn : BitVec 16) : Bool := x86extOn.getLsbD 0 || x86extOn.getLsbD 1
def sseOn (x86extOn : BitVec 16) : Bool := x86extOn.getLsbD 2
def xsaveOn (x86extOn : BitVec 16) : Bool := x86extOn.getLsbD 3

/-- `.save_ext`, where `fninit` is what `FSAVE` leaves in the FPU -/
def saveExt (fninit : (ℕ → UInt8) → ℕ → UInt8) (task : Word) : SwitchOp Unit := do
  let on ← Comp.read SwitchState.x86extOn
  if xsaveOn on then do
    aligned16 (regsExtAddr task)
    Comp.modify fun s => s.setTask task fun t => { t with regsExt := s.ext }
  else Comp.when (fpuOn on) do
    Comp.modify fun s => s.setTask task fun t => { t with regsExt := { t.regsExt with fpu := s.ext.fpu } }
    Comp.modify fun s => { s with ext := { s.ext with fpu := fninit s.ext.fpu } }
    Comp.when (sseOn on) do
      aligned16 (regsExtAddr task + 108#32 + 4#32)
      Comp.modify fun s => s.setTask task fun t => { t with regsExt := { t.regsExt with sse := s.ext.sse } }

/-- `.load_ext` -/
def loadExt (task : Word) : SwitchOp Unit := do
  let on ← Comp.read SwitchState.x86extOn
  if xsaveOn on then do
    aligned16 (regsExtAddr task)
    Comp.modify fun s => { s with ext := (s.task task).regsExt }
  else Comp.when (fpuOn on) do
    Comp.modify fun s => { s with ext := { s.ext with fpu := (s.task task).regsExt.fpu } }
    Comp.when (sseOn on) do
      aligned16 (regsExtAddr task + 108#32 + 4#32)
      Comp.modify fun s => { s with ext := { s.ext with sse := (s.task task).regsExt.sse } }

/-- `.switch_pd` from where the task is marked as ready, and `.load_esp0` -/
def switchPd (task : Word) : SwitchOp Unit := do
  Comp.modify fun s => { s with taskCurrent := task }
  Comp.modify fun s => s.setTask task fun t => { t with common := { t.common with ready := true } }
  let vmm ← Comp.readOr fun s => s.procVmm (s.task task).common.pid
  let current ← Comp.read SwitchState.vmmCurrent
  Comp.when (vmm ≠ current) (Comp.modify fun s => { s with cr3 := vmm, vmmCurrent := vmm })
  Comp.modify fun s => { s with esp0 := .ofNat 32 (s.task task).common.stackBottom }

/-- `.eoi` -/
def sendEoi : SwitchOp Unit := do
  let enabled ← Comp.read SwitchState.apicEnabled
  if enabled = some true then do
    let base ← Comp.read SwitchState.lapicBase
    let reg := base + 0x0B0#32
    let mapped ← Comp.read fun s => decide ((s.space s.cr3).Writable reg 4)
    if mapped then Comp.modify fun s => { s with eoi := s.eoi ++ [.lapic reg] } else Comp.fault
  else Comp.modify fun s => { s with eoi := s.eoi ++ [.pics] }

/-- What goes to the stack of a task in ring 0. -/
def Context.ring0Words (c : Context) : List Word :=
  [c.edi, c.esi, c.ebp, c.esp, c.ebx, c.edx, c.ecx, c.eax, c.eip, c.cs, c.eflags]

/-- What goes to the stack for a task in ring 3. -/
def Context.ring3Words (c : Context) : List Word := c.ring0Words ++ [c.espUsr, c.ssUsr]

/-- `.load_general` -/
def loadGeneral (esp task : Word) : SwitchOp Regs := do
  let c ← Comp.read fun s => (s.task task).regs
  let data := c.cs + 0x08#32
  let ds := data.setWidth 16
  if selectsUser data then do
    let arg ← readWords (esp + 4 * 2) 1
    let edi := arg.getD 0 0
    writeWords edi c.ring3Words
    sendEoi
    popaIret edi 0#32 ds ds ds ds
  else do
    let edi := c.esp - (4 * (8 + 3) - 4 * (2 + 3))
    writeWords edi c.ring0Words
    sendEoi
    popaIret edi 0#32 ds ds ds ds

/-- The arguments are on the stack at `esp`, behind the return address. -/
def taskSwitch (fninit : (ℕ → UInt8) → ℕ → UInt8) (esp : Word) : SwitchOp Regs := do
  let current ← Comp.read SwitchState.taskCurrent
  Comp.when (current ≠ 0#32) do
    let context ← readWords (esp + 4 * 2) 1
    saveGeneral (context.getD 0 0) current
    saveExt fninit current
  let task ← readWords (esp + 4 * 1) 1
  switchPd (task.getD 0 0)
  loadExt (task.getD 0 0)
  loadGeneral esp (task.getD 0 0)

/-! What the parts do. -/

/-- The context that is saved for an interrupted program, with the fields for ring 3 where it was in ring 3. -/
def Regs.context (r : Regs) (vectorAddr : Word) (old : Context) : Context where
  edi := r.edi
  esi := r.esi
  ebp := r.ebp
  esp := vectorAddr
  ebx := r.ebx
  edx := r.edx
  ecx := r.ecx
  eax := r.eax
  eip := r.eip
  cs := r.cs.setWidth 32
  eflags := r.eflags
  espUsr := if r.user then r.esp else old.espUsr
  ssUsr := if r.user then r.ss.setWidth 32 else old.ssUsr

/-- The registers of a task that goes on from a context, where `ss` is the stack segment in ring 0. -/
def Context.toRegs (ss : BitVec 16) (c : Context) : Regs where
  edi := c.edi
  esi := c.esi
  ebp := c.ebp
  esp := if selectsUser c.cs then c.espUsr else c.esp + 20#32
  ebx := c.ebx
  edx := c.edx
  ecx := c.ecx
  eax := c.eax
  eip := c.eip
  eflags := c.eflags
  cs := c.cs.setWidth 16
  ss := if selectsUser c.cs then c.ssUsr.setWidth 16 else ss
  ds := c.cs.setWidth 16 + 8#16
  es := c.cs.setWidth 16 + 8#16
  fs := c.cs.setWidth 16 + 8#16
  gs := c.cs.setWidth 16 + 8#16

/-- The registers with the data segments that belong to the code segment. -/
def Regs.resumed (r : Regs) : Regs := { r with ds := r.cs + 8#16, es := r.cs + 8#16, fs := r.cs + 8#16, gs := r.cs + 8#16 }

theorem selectsUser_data (cs : Word) : selectsUser (cs + 0x08#32) = selectsUser cs := by
  have h : (cs + 8#32) &&& 3#32 = cs &&& 3#32 := by
    apply BitVec.eq_of_toNat_eq
    have hmask (n : ℕ) : n &&& 3 = n % 4 := Nat.and_two_pow_sub_one_eq_mod n 2
    simp only [BitVec.toNat_and, BitVec.toNat_add, BitVec.toNat_ofNat]
    rw [hmask, hmask]
    omega
  rw [selectsUser, selectsUser, h]

/-- Where an interrupted program has its context, on its own stack if it is in ring 0. -/
def Regs.ContextAt (r : Regs) (context : Word) : Prop :=
  r.user = false → context = r.esp - .ofNat 32 (4 * r.pushedWords)

/-- Nothing but the data segments is lost. -/
theorem Regs.toRegs_context {r : Regs} {ss : BitVec 16} {context : Word} {old : Context}
    (hss : r.user = false → r.ss = ss) (hcontext : r.ContextAt context) :
    (r.context (context + 48#32) old).toRegs ss = r.resumed := by
  have hcs : (r.cs.setWidth 32).setWidth 16 = r.cs := BitVec.setWidth_setWidth_of_le _ (by omega)
  have hss' : (r.ss.setWidth 32).setWidth 16 = r.ss := BitVec.setWidth_setWidth_of_le _ (by omega)
  cases huser : r.user with
  | true =>
    have hcs' : selectsUser (r.cs.setWidth 32) = true := huser
    simp [Context.toRegs, Regs.context, resumed, huser, hcs, hss', hcs']
  | false =>
    have hcs' : selectsUser (r.cs.setWidth 32) = false := huser
    have hesp : context + 48#32 + 20#32 = r.esp := by
      rw [hcontext huser, pushedWords, huser, if_neg (by simp)]
      bv_omega
    simp [Context.toRegs, Regs.context, resumed, huser, hcs, hcs', hss huser, hesp]

/-- A program that goes on in ring 0 does so on the stack segment of the kernel. -/
theorem Context.ss_of_toRegs {c : Context} {ss : BitVec 16} (h : (c.toRegs ss).user = false) : (c.toRegs ss).ss = ss := by
  have hcs : (c.cs.setWidth 16).setWidth 32 &&& 3#32 = c.cs &&& 3#32 := by
    apply BitVec.eq_of_toNat_eq
    have hmask (n : ℕ) : n &&& 3 = n % 4 := Nat.and_two_pow_sub_one_eq_mod n 2
    simp only [BitVec.toNat_and, BitVec.toNat_setWidth, BitVec.toNat_ofNat]
    rw [hmask, hmask]
    omega
  have huser : selectsUser c.cs = false := by
    rw [← h, Regs.user, selectsUser, selectsUser]
    exact congrArg (fun x => decide (x ≠ 0#32)) hcs.symm
  simp [toRegs, huser]

section Run

variable {s s' : SwitchState} {r : Regs} {a context task vector excCode : Word} {n : ℕ} {ws : List Word}

theorem readWords_eq (h : s.words a n = some ws) : readWords a n s = some (ws, s) := Comp.readOr_eq h

theorem SwitchState.words_slice (h : s.words a n = some ws) (i k : ℕ) (hk : i + k ≤ n) :
    s.words (a + .ofNat 32 (4 * i)) k = some ((ws.drop i).take k) := AddressSpace.loadWords_slice h i hk

theorem Regs.length_pushed : (r.pushed a vector excCode).length = r.pushedWords := by
  unfold pushed pushedWords
  split_ifs <;> rfl

/-- The context is that of `r`. -/
def SwitchState.Interrupted (s : SwitchState) (r : Regs) (context : Word) : Prop :=
  ∃ vector excCode, s.words context r.pushedWords = some (r.pushed (context + 48#32) vector excCode)

theorem SwitchState.Interrupted.slice (h : s.Interrupted r context) (i k : ℕ) (hk : i + k ≤ r.pushedWords) :
    ∃ vector excCode, s.words (context + .ofNat 32 (4 * i)) k =
      some (((r.pushed (context + 48#32) vector excCode).drop i).take k) := by
  obtain ⟨vector, excCode, h⟩ := h
  exact ⟨vector, excCode, s.words_slice h i k hk⟩

theorem writeWords_eq : writeWords a ws s =
    ((s.space s.cr3).storeWords s.ram a ws).map fun ram => ((), { s with ram := ram }) := by
  unfold writeWords
  rw [Comp.bind_apply, Comp.readOr_apply]
  cases (s.space s.cr3).storeWords s.ram a ws <;> rfl

/-- The entry puts the registers at the context, and changes nothing but the stack. -/
theorem intrEnter_run (hsep : (s.space s.cr3).Separate context (4 * r.pushedWords))
    (h : intrEnter r vector excCode s = some (context, s')) :
    s'.Interrupted r context ∧ r.ContextAt context ∧ ∃ ram, s' = { s with ram := ram } := by
  unfold intrEnter at h
  rw [Comp.read_bind] at h
  obtain ⟨_, s₁, hwrite, h⟩ := Comp.bind_eq_some.mp h
  rw [Comp.pure_apply, Option.some.injEq, Prod.mk.injEq] at h
  obtain ⟨rfl, rfl⟩ := h
  rw [writeWords_eq, Option.map_eq_some_iff] at hwrite
  obtain ⟨ram, hram, heq⟩ := hwrite
  obtain rfl : { s with ram := ram } = s₁ := congrArg Prod.snd heq
  refine ⟨⟨vector, excCode, ?_⟩, fun huser => ?_, ram, rfl⟩
  · have hwords := AddressSpace.loadWords_storeWords hram (by rwa [Regs.length_pushed])
    rw [Regs.length_pushed] at hwords
    exact hwords
  · simp [huser]

theorem saveGeneral_run (h : s.Interrupted r context) : saveGeneral context task s =
    some ((), s.setTask task fun t => { t with regs := r.context (context + 48#32) t.regs }) := by
  have hlen : 17 ≤ r.pushedWords := by
    unfold Regs.pushedWords
    split_ifs <;> omega
  obtain ⟨v, e, hgeneral⟩ := h.slice 4 8 (by omega)
  obtain ⟨v', e', hframe⟩ := h.slice 14 3 (by omega)
  unfold saveGeneral
  rw [Comp.bind_of_eq (readWords_eq hgeneral), Comp.bind_of_eq (readWords_eq hframe), Comp.read_bind]
  have hcs : selectsUser ((((r.pushed (context + 48#32) v' e').drop 14).take 3).getD 1 0) = r.user := rfl
  rw [hcs]
  cases huser : r.user with
  | true =>
    obtain ⟨v'', e'', husr⟩ := h.slice 17 2 (by simp [Regs.pushedWords, huser])
    rw [if_pos rfl, Comp.bind_of_eq (readWords_eq husr)]
    simp [Regs.pushed, Regs.context, huser, SwitchState.setTask]
  | false =>
    rw [if_neg (by simp), Comp.pure_bind_apply]
    simp [Regs.pushed, Regs.context, huser, SwitchState.setTask]

theorem popaIret_ring0 {c : Context} {d : BitVec 16} (h : s.words a 11 = some c.ring0Words)
    (hcs : selectsUser c.cs = false) : popaIret a 0#32 d d d d s =
      some ({ c.toRegs s.ss with esp := a + 44#32, ds := d, es := d, fs := d, gs := d }, s) := by
  have hgeneral := s.words_slice h 0 8 (by omega)
  have hframe := s.words_slice h 8 3 (by omega)
  have hss : (s.ss.setWidth 32).setWidth 16 = s.ss := BitVec.setWidth_setWidth_of_le _ (by omega)
  have hesp : a + 32#32 + 0#32 + 12#32 = a + 44#32 := by bv_omega
  have hcs' : selectsUser ((((c.ring0Words).drop 8).take 3).getD 1 0) = false := hcs
  rw [Nat.mul_zero, BitVec.add_zero] at hgeneral
  unfold popaIret
  rw [Comp.bind_of_eq (readWords_eq hgeneral), BitVec.add_zero, Comp.bind_of_eq (readWords_eq hframe), hcs',
    if_neg (by simp), Comp.read_bind, Comp.pure_bind_apply]
  simp [Context.ring0Words, Context.toRegs, hcs, hss, BitVec.add_assoc]

theorem popaIret_ring3 {c : Context} {d : BitVec 16} (h : s.words a 13 = some c.ring3Words)
    (hcs : selectsUser c.cs = true) : popaIret a 0#32 d d d d s =
      some ({ c.toRegs s.ss with ds := d, es := d, fs := d, gs := d }, s) := by
  have hgeneral := s.words_slice h 0 8 (by omega)
  have hframe := s.words_slice h 8 3 (by omega)
  have houter := s.words_slice h 11 2 (by omega)
  have hcs' : selectsUser ((((c.ring3Words).drop 8).take 3).getD 1 0) = true := hcs
  have hadd : a + 32#32 + 12#32 = a + .ofNat 32 (4 * 11) := by bv_omega
  rw [Nat.mul_zero, BitVec.add_zero] at hgeneral
  unfold popaIret
  rw [Comp.bind_of_eq (readWords_eq hgeneral), BitVec.add_zero, Comp.bind_of_eq (readWords_eq hframe), hcs',
    if_pos rfl, hadd, Comp.bind_of_eq (readWords_eq houter)]
  simp [Context.ring3Words, Context.ring0Words, Context.toRegs, hcs]

/-- An interrupt that does not switch goes back to where it came from. -/
theorem intrReturn_run (h : s.Interrupted r context) (hss : r.user = false → r.ss = s.ss) (htop : r.ContextAt context) :
    intrReturn context s = some (r, s) := by
  have hlen : 17 ≤ r.pushedWords := by
    unfold Regs.pushedWords
    split_ifs <;> omega
  obtain ⟨v, e, h⟩ := h
  have hsegments := s.words_slice h 0 4 (by omega)
  have hgeneral := s.words_slice h 4 8 (by omega)
  have hframe := s.words_slice h 14 3 (by omega)
  have hword (x : BitVec 16) : (x.setWidth 32).setWidth 16 = x := BitVec.setWidth_setWidth_of_le _ (by omega)
  have hcs : selectsUser ((((r.pushed (context + 48#32) v e).drop 14).take 3).getD 1 0) = r.user := rfl
  have hadd : context + 16#32 + 32#32 + 8#32 = context + .ofNat 32 (4 * 14) := by bv_omega
  rw [Nat.mul_zero, BitVec.add_zero] at hsegments
  unfold intrReturn popaIret
  rw [Comp.bind_of_eq (readWords_eq hsegments), Comp.bind_of_eq (readWords_eq hgeneral), hadd,
    Comp.bind_of_eq (readWords_eq hframe), hcs]
  cases huser : r.user with
  | true =>
    have houter := s.words_slice h 17 2 (by simp [Regs.pushedWords, huser])
    have hadd' : context + .ofNat 32 (4 * 14) + 12#32 = context + .ofNat 32 (4 * 17) := by bv_omega
    rw [if_pos rfl, hadd', Comp.bind_of_eq (readWords_eq houter)]
    simp [Regs.pushed, huser, hword]
  | false =>
    have hesp : context + .ofNat 32 (4 * 14) + 12#32 = r.esp := by
      rw [htop huser, Regs.pushedWords, huser]
      simp
      bv_omega
    rw [if_neg (by simp), hesp, Comp.read_bind, Comp.pure_bind_apply, ← hss huser]
    simp [Regs.pushed, hword]

end Run

/-! `task_switch` as a whole. -/

/-- What is in `regs_ext` behind the save. -/
def savedExt (on : BitVec 16) (old ext : ExtRegs) : ExtRegs where
  fpu := if xsaveOn on || fpuOn on then ext.fpu else old.fpu
  sse := if xsaveOn on || (fpuOn on && sseOn on) then ext.sse else old.sse

/-- What is in the registers behind the load. -/
def loadedExt (on : BitVec 16) (regsExt ext : ExtRegs) : ExtRegs := savedExt on ext regsExt

/-- No instruction on `regs_ext` of the task faults. -/
def ExtAligned (on : BitVec 16) (task : Word) : Prop :=
  if xsaveOn on then Aligned16 (regsExtAddr task)
  else fpuOn on → sseOn on → Aligned16 (regsExtAddr task + 108#32 + 4#32)

instance (on : BitVec 16) (task : Word) : Decidable (ExtAligned on task) := inferInstanceAs (Decidable (ite _ _ _))

section Ext

variable {s s' : SwitchState} {task : Word} {fninit : (ℕ → UInt8) → ℕ → UInt8}

/-- The other fields stay, and `FSAVE` leaves the FPU behind as after `FNINIT`. -/
theorem saveExt_eq : saveExt fninit task s = if ExtAligned s.x86extOn task then
    some ((), { s.setTask task fun t => { t with regsExt := savedExt s.x86extOn t.regsExt s.ext } with
      ext := if xsaveOn s.x86extOn || !fpuOn s.x86extOn then s.ext else { s.ext with fpu := fninit s.ext.fpu } })
    else none := by
  rcases Bool.eq_false_or_eq_true (xsaveOn s.x86extOn) with hx | hx
  · by_cases ha : Aligned16 (regsExtAddr task) <;>
      simp [saveExt, ExtAligned, savedExt, aligned16, hx, ha, SwitchState.setTask]
  · rcases Bool.eq_false_or_eq_true (fpuOn s.x86extOn) with hf | hf
    · rcases Bool.eq_false_or_eq_true (sseOn s.x86extOn) with hs | hs
      · by_cases ha : Aligned16 (regsExtAddr task + 108#32 + 4#32) <;>
          simp [saveExt, ExtAligned, savedExt, aligned16, hx, hf, hs, ha, SwitchState.setTask]
      · simp [saveExt, ExtAligned, savedExt, hx, hf, hs, SwitchState.setTask]
    · simp [saveExt, ExtAligned, savedExt, hx, hf, SwitchState.setTask]

theorem loadExt_eq : loadExt task s = if ExtAligned s.x86extOn task then
    some ((), { s with ext := loadedExt s.x86extOn (s.task task).regsExt s.ext }) else none := by
  rcases Bool.eq_false_or_eq_true (xsaveOn s.x86extOn) with hx | hx
  · by_cases ha : Aligned16 (regsExtAddr task) <;> simp [loadExt, ExtAligned, loadedExt, savedExt, aligned16, hx, ha]
  · rcases Bool.eq_false_or_eq_true (fpuOn s.x86extOn) with hf | hf
    · rcases Bool.eq_false_or_eq_true (sseOn s.x86extOn) with hs | hs
      · by_cases ha : Aligned16 (regsExtAddr task + 108#32 + 4#32) <;>
          simp [loadExt, ExtAligned, loadedExt, savedExt, aligned16, hx, hf, hs, ha]
      · simp [loadExt, ExtAligned, loadedExt, savedExt, hx, hf, hs]
    · simp [loadExt, ExtAligned, loadedExt, savedExt, hx, hf]

end Ext

/-- The end of the interrupt can be announced. -/
def EoiReaches (s : SwitchState) : Prop :=
  s.apicEnabled = some true → (s.space s.cr3).Writable (s.lapicBase + 0x0B0#32) 4

instance (s : SwitchState) : Decidable (EoiReaches s) := inferInstanceAs (Decidable (_ → _))

/-- What `popa` and `iret` take from the stack. -/
def Context.frameWords (c : Context) : List Word := if selectsUser c.cs then c.ring3Words else c.ring0Words

/-- The address of these words. In ring 3 it comes from where the address of the interrupted context is in the address
space of the interrupted task, but it is the address space `sp` of the next one that is used. -/
def Context.frameAt (c : Context) (sp : AddressSpace) (ram : ℕ → UInt8) (esp : Word) : Option Word :=
  if selectsUser c.cs then (sp.loadWords ram (esp + 4 * 2) 1).map fun arg => arg.getD 0 0 else some (c.esp - 24#32)

section Load

variable {s s' : SwitchState} {a esp task : Word} {r : Regs} {c : Context} {d : BitVec 16}

theorem sendEoi_eq : sendEoi s = if EoiReaches s then some ((), { s with eoi := s.eoi ++
    [if s.apicEnabled = some true then .lapic (s.lapicBase + 0x0B0#32) else .pics] }) else none := by
  unfold sendEoi
  rw [Comp.read_bind]
  by_cases ha : s.apicEnabled = some true
  · by_cases hw : (s.space s.cr3).Writable (s.lapicBase + 0x0B0#32) 4 <;> simp [EoiReaches, ha, hw]
  · simp [EoiReaches, ha]

/-- The frame is taken from where it was put. -/
theorem frame_eq {ram : ℕ → UInt8} (hram : (s.space s.cr3).storeWords s.ram a c.frameWords = some ram)
    (hsep : (s.space s.cr3).Separate a (4 * c.frameWords.length)) :
    (writeWords a c.frameWords >>= fun _ => sendEoi >>= fun _ => popaIret a 0#32 d d d d) s =
    if EoiReaches s then some ({ c.toRegs s.ss with
      esp := if selectsUser c.cs then c.espUsr else a + 44#32, ds := d, es := d, fs := d, gs := d },
      { s with
        ram := ram
        eoi := s.eoi ++ [if s.apicEnabled = some true then .lapic (s.lapicBase + 0x0B0#32) else .pics] }) else none := by
  have hwords := AddressSpace.loadWords_storeWords hram hsep
  have hwrite : writeWords a c.frameWords s = some ((), { s with ram := ram }) := by rw [writeWords_eq, hram, Option.map_some]
  have hreaches : EoiReaches { s with ram := ram } ↔ EoiReaches s := Iff.rfl
  rw [Comp.bind_of_eq hwrite, Comp.bind_apply, sendEoi_eq]
  by_cases heoi : EoiReaches s
  · rw [if_pos heoi, if_pos (hreaches.mpr heoi), Option.bind_some]
    let s₁ : SwitchState := { s with
      ram := ram
      eoi := s.eoi ++ [if s.apicEnabled = some true then .lapic (s.lapicBase + 0x0B0#32) else .pics] }
    unfold Context.frameWords at hwords
    cases hcs : selectsUser c.cs with
    | true =>
      rw [hcs, if_pos rfl] at hwords
      refine (popaIret_ring3 (s := s₁) (d := d) hwords hcs).trans ?_
      simp [Context.toRegs, hcs, s₁]
    | false =>
      rw [hcs, if_neg (by simp)] at hwords
      refine (popaIret_ring0 (s := s₁) (d := d) hwords hcs).trans ?_
      simp [s₁]
  · rw [if_neg heoi, if_neg (fun h => heoi (hreaches.mp h)), Option.bind_none]

theorem frame_run (hsep : (s.space s.cr3).Separate a (4 * c.frameWords.length))
    (h : (writeWords a c.frameWords >>= fun _ => sendEoi >>= fun _ => popaIret a 0#32 d d d d) s = some (r, s')) :
    r = { c.toRegs s.ss with
      esp := if selectsUser c.cs then c.espUsr else a + 44#32, ds := d, es := d, fs := d, gs := d } ∧
    ∃ ram eoi, s' = { s with ram := ram, eoi := eoi } := by
  obtain ⟨_, s₁, hwrite, -⟩ := Comp.bind_eq_some.mp h
  rw [writeWords_eq, Option.map_eq_some_iff] at hwrite
  obtain ⟨ram, hram, -⟩ := hwrite
  rw [frame_eq hram hsep] at h
  by_cases heoi : EoiReaches s
  · rw [if_pos heoi, Option.some.injEq, Prod.mk.injEq] at h
    exact ⟨h.1.symm, _, _, h.2.symm⟩
  · rw [if_neg heoi] at h
    cases h

theorem frame_isSome (hsep : (s.space s.cr3).Separate a (4 * c.frameWords.length)) :
    ((writeWords a c.frameWords >>= fun _ => sendEoi >>= fun _ => popaIret a 0#32 d d d d) s).isSome ↔
      (s.space s.cr3).Writable a (4 * c.frameWords.length) ∧ EoiReaches s := by
  rw [← AddressSpace.storeWords_isSome (m := s.ram)]
  cases hram : (s.space s.cr3).storeWords s.ram a c.frameWords with
  | none =>
    rw [Comp.bind_apply, writeWords_eq, hram]
    simp
  | some ram =>
    rw [frame_eq hram hsep]
    by_cases heoi : EoiReaches s <;> simp [heoi]

theorem loadGeneral_eq {c : Context} (hc : (s.task task).regs = c) : loadGeneral esp task s =
    (c.frameAt (s.space s.cr3) s.ram esp).bind fun a => (writeWords a c.frameWords >>= fun _ => sendEoi >>= fun _ =>
      popaIret a 0#32 ((c.cs + 0x08#32).setWidth 16) ((c.cs + 0x08#32).setWidth 16) ((c.cs + 0x08#32).setWidth 16)
        ((c.cs + 0x08#32).setWidth 16)) s := by
  unfold loadGeneral
  rw [Comp.read_bind, hc]
  dsimp only
  rw [selectsUser_data]
  unfold Context.frameAt Context.frameWords
  cases hcs : selectsUser c.cs with
  | true =>
    rw [if_pos rfl, if_pos rfl, if_pos rfl]
    cases harg : s.words (esp + 4 * 2) 1 with
    | none =>
      have hnone : readWords (esp + 4 * 2) 1 s = none := by rw [readWords, Comp.readOr_apply, harg]; rfl
      have hload : (s.space s.cr3).loadWords s.ram (esp + 4 * 2) 1 = none := harg
      rw [Comp.bind_apply, hnone, hload]
      rfl
    | some arg =>
      have hload : (s.space s.cr3).loadWords s.ram (esp + 4 * 2) 1 = some arg := harg
      rw [Comp.bind_of_eq (readWords_eq harg), hload]
      rfl
  | false =>
    rw [if_neg (by simp), if_neg (by simp), if_neg (by simp)]
    rfl

theorem loadGeneral_run {c : Context} (hc : (s.task task).regs = c)
    (hsep : ∀ a, c.frameAt (s.space s.cr3) s.ram esp = some a → (s.space s.cr3).Separate a (4 * c.frameWords.length))
    (h : loadGeneral esp task s = some (r, s')) :
    r = c.toRegs s.ss ∧ ∃ ram eoi, s' = { s with ram := ram, eoi := eoi } := by
  rw [loadGeneral_eq hc, Option.bind_eq_some_iff] at h
  obtain ⟨a, ha, h⟩ := h
  obtain ⟨hr, hs⟩ := frame_run (hsep a ha) h
  refine ⟨?_, hs⟩
  have hds : (c.cs + 0x08#32).setWidth 16 = c.cs.setWidth 16 + 8#16 := BitVec.setWidth_add _ _ (by omega)
  rw [hr, hds]
  unfold Context.frameAt at ha
  cases hcs : selectsUser c.cs with
  | true => simp [Context.toRegs, hcs]
  | false =>
    rw [hcs, if_neg (by simp), Option.some.injEq] at ha
    have hesp : c.esp - 24#32 + 44#32 = c.esp + 20#32 := by bv_omega
    simp [Context.toRegs, hcs, ← ha, hesp]

theorem loadGeneral_isSome (esp : Word) {c : Context} (hc : (s.task task).regs = c)
    (hsep : ∀ a, c.frameAt (s.space s.cr3) s.ram esp = some a → (s.space s.cr3).Separate a (4 * c.frameWords.length)) :
    (loadGeneral esp task s).isSome ↔ (∃ a, c.frameAt (s.space s.cr3) s.ram esp = some a ∧
      (s.space s.cr3).Writable a (4 * c.frameWords.length)) ∧ EoiReaches s := by
  rw [loadGeneral_eq hc]
  cases ha : c.frameAt (s.space s.cr3) s.ram esp with
  | none => simp
  | some a =>
    rw [Option.bind_some, frame_isSome (hsep a ha)]
    simp

end Load

/-- The registers of the extensions that are on are the same. -/
structure ExtHeld (on : BitVec 16) (ext ext' : ExtRegs) : Prop where
  fpu : xsaveOn on || fpuOn on → ext'.fpu = ext.fpu
  sse : xsaveOn on || (fpuOn on && sseOn on) → ext'.sse = ext.sse

theorem ExtHeld.trans {on : BitVec 16} {e₁ e₂ e₃ : ExtRegs} (h : ExtHeld on e₁ e₂) (h' : ExtHeld on e₂ e₃) :
    ExtHeld on e₁ e₃ := ⟨fun hon => (h'.fpu hon).trans (h.fpu hon), fun hon => (h'.sse hon).trans (h.sse hon)⟩

theorem ExtHeld.savedExt (on : BitVec 16) (old ext : ExtRegs) : ExtHeld on ext (savedExt on old ext) :=
  ⟨fun hon => if_pos hon, fun hon => if_pos hon⟩

/-- `task_switch` is called for an interrupted program, with the next task and the context as its arguments. -/
structure SwitchCall (s : SwitchState) (r : Regs) (context esp task : Word) : Prop where
  interrupted : s.Interrupted r context
  args : s.words (esp + 4 * 1) 2 = some [task, context]
  other : task ≠ s.taskCurrent

/-- What has been done when it comes to the general registers of the next task. -/
structure SwitchedTo (s : SwitchState) (r : Regs) (context task : Word) (s' : SwitchState) : Prop where
  space : s'.space = s.space
  ss : s'.ss = s.ss
  on : s'.x86extOn = s.x86extOn
  current : s'.taskCurrent = task
  saved : s.taskCurrent ≠ 0#32 →
    (s'.task s.taskCurrent).regs = r.context (context + 48#32) (s.task s.taskCurrent).regs ∧
      ExtHeld s.x86extOn s.ext (s'.task s.taskCurrent).regsExt
  loaded : ExtHeld s.x86extOn (s.task task).regsExt s'.ext
  rest : ∀ u, u ≠ s.taskCurrent → (s'.task u).regs = (s.task u).regs ∧ (s'.task u).regsExt = (s.task u).regsExt

section Switch

variable {s s' : SwitchState} {r r' : Regs} {context esp task : Word} {fninit : (ℕ → UInt8) → ℕ → UInt8}

/-- The structure of the current task and what is left in the FPU, behind the save. -/
def savedState (fninit : (ℕ → UInt8) → ℕ → UInt8) (r : Regs) (context : Word) (s : SwitchState) : SwitchState :=
  if s.taskCurrent = 0#32 then s
  else { s.setTask s.taskCurrent fun t => { t with
      regs := r.context (context + 48#32) t.regs
      regsExt := savedExt s.x86extOn t.regsExt s.ext } with
    ext := if xsaveOn s.x86extOn || !fpuOn s.x86extOn then s.ext else { s.ext with fpu := fninit s.ext.fpu } }

/-- Nothing but the current task and the FPU changes. -/
structure OnlyCurrent (s s' : SwitchState) : Prop where
  space : s'.space = s.space
  cr3 : s'.cr3 = s.cr3
  ss : s'.ss = s.ss
  ram : s'.ram = s.ram
  vmmCurrent : s'.vmmCurrent = s.vmmCurrent
  procVmm : s'.procVmm = s.procVmm
  on : s'.x86extOn = s.x86extOn
  apic : s'.apicEnabled = s.apicEnabled ∧ s'.lapicBase = s.lapicBase
  task : ∀ u, u ≠ s.taskCurrent → s'.task u = s.task u

theorem savedState_only (fninit : (ℕ → UInt8) → ℕ → UInt8) (r : Regs) (context : Word) (s : SwitchState) :
    OnlyCurrent s (savedState fninit r context s) := by
  unfold savedState
  by_cases hcur : s.taskCurrent = 0#32
  · rw [if_pos hcur]
    exact ⟨rfl, rfl, rfl, rfl, rfl, rfl, rfl, ⟨rfl, rfl⟩, fun _ _ => rfl⟩
  · rw [if_neg hcur]
    exact ⟨rfl, rfl, rfl, rfl, rfl, rfl, rfl, ⟨rfl, rfl⟩, fun u hu => Function.update_of_ne hu _ _⟩

/-- The state in the address space of the task `vmm`, with the registers of the extensions as the task has them. -/
def loadedState (task vmm : Word) (s : SwitchState) : SwitchState :=
  { s.setTask task fun t => { t with common := { t.common with ready := true } } with
    taskCurrent := task
    cr3 := if vmm ≠ s.vmmCurrent then vmm else s.cr3
    vmmCurrent := vmm
    esp0 := .ofNat 32 (s.task task).common.stackBottom
    ext := loadedExt s.x86extOn (s.task task).regsExt s.ext }

theorem switchPd_eq : switchPd task s = (s.procVmm (s.task task).common.pid).map fun vmm =>
    ((), { s.setTask task fun t => { t with common := { t.common with ready := true } } with
      taskCurrent := task
      cr3 := if vmm ≠ s.vmmCurrent then vmm else s.cr3
      vmmCurrent := vmm
      esp0 := .ofNat 32 (s.task task).common.stackBottom }) := by
  unfold switchPd
  rw [Comp.modify_bind, Comp.modify_bind, Comp.bind_apply, Comp.readOr_apply]
  have hpid : (s.setTask task fun t => { t with common := { t.common with ready := true } }).task task =
      { s.task task with common := { (s.task task).common with ready := true } } := Function.update_self ..
  cases hvmm : s.procVmm (s.task task).common.pid with
  | none => simp [SwitchState.setTask, hvmm]
  | some vmm =>
    by_cases heq : vmm = s.vmmCurrent
    · simp [SwitchState.setTask, hvmm, heq, Comp.when]
    · simp [SwitchState.setTask, hvmm, heq, Comp.when]

theorem SwitchCall.args_each (h : SwitchCall s r context esp task) :
    s.words (esp + 4 * 1) 1 = some [task] ∧ s.words (esp + 4 * 2) 1 = some [context] := by
  have hfirst := s.words_slice h.args 0 1 (by omega)
  have hsecond := s.words_slice h.args 1 1 (by omega)
  have hadd : esp + 4 * 1 + .ofNat 32 (4 * 1) = esp + 4 * 2 := by bv_omega
  rw [Nat.mul_zero, BitVec.add_zero] at hfirst
  rw [hadd] at hsecond
  exact ⟨hfirst, hsecond⟩

theorem taskSwitch_eq (h : SwitchCall s r context esp task) : taskSwitch fninit esp s =
    if s.taskCurrent ≠ 0#32 → ExtAligned s.x86extOn s.taskCurrent then
      (s.procVmm (s.task task).common.pid).bind fun vmm =>
        if ExtAligned s.x86extOn task then
          loadGeneral esp task (loadedState task vmm (savedState fninit r context s)) else none
    else none := by
  obtain ⟨htask, hcontext⟩ := h.args_each
  have honly := savedState_only fninit r context s
  have hsaved : (Comp.when (s.taskCurrent ≠ 0#32) do
      let context ← readWords (esp + 4 * 2) 1
      saveGeneral (context.getD 0 0) s.taskCurrent
      saveExt fninit s.taskCurrent) s =
      if s.taskCurrent ≠ 0#32 → ExtAligned s.x86extOn s.taskCurrent then
        some ((), savedState fninit r context s) else none := by
    by_cases hcur : s.taskCurrent = 0#32
    · rw [Comp.when_false (by simpa using hcur), if_pos (fun hne => absurd hcur hne), savedState, if_pos hcur]
      rfl
    · rw [Comp.when_true hcur, Comp.bind_of_eq (readWords_eq hcontext), List.getD_cons_zero,
        Comp.bind_of_eq (saveGeneral_run h.interrupted), saveExt_eq, savedState, if_neg hcur]
      by_cases ha : ExtAligned s.x86extOn s.taskCurrent
      · rw [if_pos (by exact ha), if_pos (fun _ => ha)]
        simp [SwitchState.setTask]
      · rw [if_neg (by exact ha), if_neg (fun hall => ha (hall hcur))]
  have hwords : (savedState fninit r context s).words (esp + 4 * 1) 1 = some [task] := by
    rw [SwitchState.words, honly.space, honly.cr3, honly.ram]
    exact htask
  unfold taskSwitch
  rw [Comp.read_bind, Comp.bind_apply, hsaved]
  by_cases ha : s.taskCurrent ≠ 0#32 → ExtAligned s.x86extOn s.taskCurrent
  · rw [if_pos ha, if_pos ha, Option.bind_some,
      Comp.bind_of_eq (readWords_eq hwords), List.getD_cons_zero, Comp.bind_apply, switchPd_eq,
      honly.task task h.other, honly.procVmm]
    cases s.procVmm (s.task task).common.pid with
    | none => rfl
    | some vmm =>
      rw [Option.map_some, Option.bind_some, Option.bind_some, Comp.bind_apply, loadExt_eq]
      by_cases hb : ExtAligned s.x86extOn task
      · rw [if_pos (by exact honly.on ▸ hb), if_pos hb, Option.bind_some]
        simp [loadedState, SwitchState.setTask, honly.task task h.other]
      · rw [if_neg (by exact honly.on ▸ hb), if_neg hb, Option.bind_none]
  · rw [if_neg ha, if_neg ha, Option.bind_none]

/-- The address space in which the next task goes on. -/
def SwitchState.nextSpace (s : SwitchState) (vmm : Word) : AddressSpace :=
  s.space (if vmm ≠ s.vmmCurrent then vmm else s.cr3)

/-- No two addresses of the frame that the next task goes on from are one byte. -/
def FrameSeparate (s : SwitchState) (esp task : Word) : Prop :=
  ∀ vmm a, s.procVmm (s.task task).common.pid = some vmm →
    (s.task task).regs.frameAt (s.nextSpace vmm) s.ram esp = some a →
    (s.nextSpace vmm).Separate a (4 * (s.task task).regs.frameWords.length)

theorem loadedState_regs (task vmm : Word) (t : SwitchState) (u : Word) :
    ((loadedState task vmm t).task u).regs = (t.task u).regs ∧
      ((loadedState task vmm t).task u).regsExt = (t.task u).regsExt := by
  unfold loadedState SwitchState.setTask
  rcases eq_or_ne u task with rfl | hu
  · simp
  · simp [hu]

/-- The general registers are loaded where the address space and the context are those of the next task. -/
theorem loadedState_frame (fninit : (ℕ → UInt8) → ℕ → UInt8) (vmm : Word) (h : SwitchCall s r context esp task) :
    ((loadedState task vmm (savedState fninit r context s)).task task).regs = (s.task task).regs ∧
      (loadedState task vmm (savedState fninit r context s)).space (loadedState task vmm (savedState fninit r context s)).cr3 =
        s.nextSpace vmm ∧
      (loadedState task vmm (savedState fninit r context s)).ram = s.ram := by
  have honly := savedState_only fninit r context s
  refine ⟨?_, ?_, honly.ram⟩
  · rw [(loadedState_regs task vmm _ task).1, honly.task task h.other]
  · simp only [loadedState, SwitchState.setTask, SwitchState.nextSpace, honly.space, honly.cr3, honly.vmmCurrent]

theorem taskSwitch_run (h : SwitchCall s r context esp task) (hsep : FrameSeparate s esp task)
    (hrun : taskSwitch fninit esp s = some (r', s')) :
    r' = (s.task task).regs.toRegs s.ss ∧ SwitchedTo s r context task s' := by
  have honly := savedState_only fninit r context s
  rw [taskSwitch_eq h] at hrun
  have hload : ∃ vmm, s.procVmm (s.task task).common.pid = some vmm ∧
      loadGeneral esp task (loadedState task vmm (savedState fninit r context s)) = some (r', s') := by
    split_ifs at hrun
    · exact Option.bind_eq_some_iff.mp hrun
    · simp at hrun
  obtain ⟨vmm, hvmm, hload⟩ := hload
  obtain ⟨hregs, hspace, hram⟩ := loadedState_frame fninit vmm h
  obtain ⟨hr, ram, eoi, rfl⟩ := loadGeneral_run hregs (by
    intro a ha
    rw [hspace] at ha ⊢
    rw [hram] at ha
    exact hsep vmm a hvmm ha) hload
  refine ⟨hr.trans (congrArg (fun ss => (s.task task).regs.toRegs ss) honly.ss), honly.space, honly.ss, honly.on, rfl,
    fun hcur => ?_, ?_, fun u hu => ?_⟩
  · have hsaved : (savedState fninit r context s).task s.taskCurrent = { s.task s.taskCurrent with
        regs := r.context (context + 48#32) (s.task s.taskCurrent).regs
        regsExt := savedExt s.x86extOn (s.task s.taskCurrent).regsExt s.ext } := by
      rw [savedState, if_neg hcur]
      exact Function.update_self ..
    have hkept := loadedState_regs task vmm (savedState fninit r context s) s.taskCurrent
    exact ⟨hkept.1.trans (by rw [hsaved]), by
      rw [show _ = _ from hkept.2, hsaved]
      exact .savedExt _ _ _⟩
  · change ExtHeld _ _ (loadedExt _ _ _)
    rw [honly.on, honly.task task h.other]
    exact .savedExt _ _ _
  · have hkept := loadedState_regs task vmm (savedState fninit r context s) u
    rw [honly.task u hu] at hkept
    exact hkept

theorem extAligned_iff {on : BitVec 16} (h : Aligned16 task) :
    ExtAligned on task ↔ xsaveOn on = false ∧ (fpuOn on && sseOn on) = false := by
  have hext : ¬ Aligned16 (regsExtAddr task) := by
    unfold Aligned16 regsExtAddr at *
    bv_omega
  have hsse : ¬ Aligned16 (regsExtAddr task + 108#32 + 4#32) := by
    unfold Aligned16 regsExtAddr at *
    bv_omega
  unfold ExtAligned
  rcases Bool.eq_false_or_eq_true (xsaveOn on) with hx | hx
  · simp [hx, hext]
  · rcases Bool.eq_false_or_eq_true (fpuOn on) with hf | hf <;> simp [hx, hf, hsse]

/-- What a switch to `task`, whose process has the configuration `vmm`, needs. -/
structure SwitchCompletes (s : SwitchState) (esp task vmm : Word) : Prop where
  ext : xsaveOn s.x86extOn = false ∧ (fpuOn s.x86extOn && sseOn s.x86extOn) = false
  frame : ∃ a, (s.task task).regs.frameAt (s.space vmm) s.ram esp = some a ∧
    (s.space vmm).Writable a (4 * (s.task task).regs.frameWords.length)
  eoi : s.apicEnabled = some true → (s.space vmm).Writable (s.lapicBase + 0x0B0#32) 4

theorem taskSwitch_isSome {vmm : Word} (h : SwitchCall s r context esp task) (hsep : FrameSeparate s esp task)
    (hcr3 : s.cr3 = s.vmmCurrent) (hproc : s.procVmm (s.task task).common.pid = some vmm) (htask : Aligned16 task)
    (hcurrent : Aligned16 s.taskCurrent) : (taskSwitch fninit esp s).isSome ↔ SwitchCompletes s esp task vmm := by
  have honly := savedState_only fninit r context s
  have hnext : s.nextSpace vmm = s.space vmm := by
    unfold SwitchState.nextSpace
    split_ifs with hne
    · rfl
    · rw [hcr3, not_not.mp hne]
  obtain ⟨hregs, hspace, hram⟩ := loadedState_frame fninit vmm h
  have hload := loadGeneral_isSome esp hregs (by
    intro a ha
    rw [hspace] at ha ⊢
    rw [hram] at ha
    exact hsep vmm a hproc ha)
  have heoi : EoiReaches (loadedState task vmm (savedState fninit r context s)) ↔
      (s.apicEnabled = some true → (s.space vmm).Writable (s.lapicBase + 0x0B0#32) 4) := by
    have hapic : (loadedState task vmm (savedState fninit r context s)).apicEnabled = s.apicEnabled ∧
        (loadedState task vmm (savedState fninit r context s)).lapicBase = s.lapicBase := honly.apic
    rw [EoiReaches, hspace, hapic.1, hapic.2, hnext]
  rw [hspace, hram, hnext, heoi] at hload
  rw [taskSwitch_eq h, hproc, Option.bind_some]
  constructor
  · intro hsome
    split_ifs at hsome with ha hb
    · exact ⟨(extAligned_iff htask).mp hb, (hload.mp hsome).1, (hload.mp hsome).2⟩
    · simp at hsome
    · simp at hsome
  · intro hc
    rw [if_pos fun _ => (extAligned_iff hcurrent).mpr hc.ext, if_pos ((extAligned_iff htask).mpr hc.ext)]
    exact hload.mpr ⟨hc.frame, hc.eoi⟩

/-- A switch goes on with the registers that are in the structure of the next task, if and only if neither XSAVE nor SSE
is on, the frame of that task can be put on a stack in its own address space (in ring 3 its address is taken from the
interrupted task's stack, as far as that is mapped there), and the end of the interrupt can be announced. -/
theorem task_switch_completes_iff {vmm : Word} (h : SwitchCall s r context esp task) (hsep : FrameSeparate s esp task)
    (hcr3 : s.cr3 = s.vmmCurrent) (hproc : s.procVmm (s.task task).common.pid = some vmm) (htask : Aligned16 task)
    (hcurrent : Aligned16 s.taskCurrent) :
    (∃ s', taskSwitch fninit esp s = some ((s.task task).regs.toRegs s.ss, s')) ↔ SwitchCompletes s esp task vmm := by
  have hsome : (taskSwitch fninit esp s).isSome ↔ SwitchCompletes s esp task vmm :=
    taskSwitch_isSome h hsep hcr3 hproc htask hcurrent
  rw [← hsome, Option.isSome_iff_exists]
  constructor
  · rintro ⟨s', hs⟩
    exact ⟨_, hs⟩
  · rintro ⟨p, hp⟩
    exact ⟨p.2, hp.trans (by rw [← (taskSwitch_run h hsep hp).1])⟩

end Switch

/-! A kernel task is interrupted, and a user task in another address space is next. -/

/-- Every byte is where its address says. -/
def flatSpace : AddressSpace := fun a => some (a.toNat, true)

theorem flatSpace_separate {a : Word} {n : ℕ} (hn : n ≤ 2 ^ 32) : flatSpace.Separate a n := by
  intro i hi j hj hij
  have hcell (k : ℕ) : flatSpace.cell a k = (a + .ofNat 32 k).toNat := rfl
  rw [hcell, hcell] at hij
  simp only [BitVec.toNat_add, BitVec.toNat_ofNat] at hij
  omega

theorem flatSpace_writable {a : Word} {n : ℕ} : flatSpace.Writable a n := fun _ _ => rfl

def kernelRegs : Regs where
  edi := 1
  esi := 2
  ebp := 3
  esp := 0x5000
  ebx := 4
  edx := 5
  ecx := 6
  eax := 7
  eip := 0xC0100000
  eflags := 0x202
  cs := 0x08
  ss := 0x10
  ds := 0x10
  es := 0x10
  fs := 0x10
  gs := 0x10

def userContext : Context where
  edi := 11
  esi := 12
  ebp := 13
  esp := 14
  ebx := 15
  edx := 16
  ecx := 17
  eax := 18
  eip := 0x08048000
  cs := 0x1B
  eflags := 0x202
  espUsr := 0x7000
  ssUsr := 0x23

def switchSample : SwitchState where
  space _ := flatSpace
  cr3 := 0x8000
  ss := 0x10
  ram := (flatSpace.storeWords (fun _ => 0) (0x5000 - 80)
    ([0xC0200000, 0x2000, 0x5000 - 68] ++ kernelRegs.pushed (0x5000 - 20) 32 0)).getD fun _ => 0
  ext := ⟨fun _ => 1, fun _ => 0⟩
  task t :=
    { regs := userContext
      common := { TaskCommon.blank with pid := if t = 0x2000 then 1 else 0 }
      regsExt := ⟨fun _ => 2, fun _ => 0⟩ }
  taskCurrent := 0x1000
  vmmCurrent := 0x8000
  esp0 := 0
  procVmm pid := some (if pid = 1 then 0x9000 else 0x8000)
  x86extOn := 0b001
  apicEnabled := some false
  lapicBase := 0
  eoi := []

theorem switchSample_words : switchSample.words (0x5000 - 80) 20 =
    some ([0xC0200000, 0x2000, 0x5000 - 68] ++ kernelRegs.pushed (0x5000 - 20) 32 0) := by
  have hsome : (flatSpace.storeWords (fun _ => 0) (0x5000 - 80)
      ([0xC0200000, 0x2000, 0x5000 - 68] ++ kernelRegs.pushed (0x5000 - 20) 32 0)).isSome :=
    AddressSpace.storeWords_isSome.mpr flatSpace_writable
  obtain ⟨ram, hram⟩ := Option.isSome_iff_exists.mp hsome
  have hload := AddressSpace.loadWords_storeWords hram (flatSpace_separate (by decide))
  have heq : switchSample.ram = ram := by
    unfold switchSample
    rw [hram]
    rfl
  unfold SwitchState.words
  rw [heq]
  exact hload

theorem switchSample_call : SwitchCall switchSample kernelRegs (0x5000 - 68) (0x5000 - 80) 0x2000 where
  interrupted := ⟨32, 0, switchSample.words_slice switchSample_words 3 17 (by decide)⟩
  args := switchSample.words_slice switchSample_words 1 2 (by decide)
  other := by decide

theorem task_switch_completes_sample :
    ∃ s', taskSwitch id (0x5000 - 80) switchSample = some (userContext.toRegs 0x10, s') := by
  have hframe : userContext.frameAt flatSpace switchSample.ram (0x5000 - 80) = some (0x5000 - 68) := by
    have harg : flatSpace.loadWords switchSample.ram (0x5000 - 80 + 4 * 2) 1 = some [0x5000 - 68] :=
      switchSample.words_slice switchSample_words 2 1 (by decide)
    unfold Context.frameAt
    rw [harg]
    rfl
  have hproc : switchSample.procVmm (switchSample.task 0x2000).common.pid = some 0x9000 := by decide
  exact (task_switch_completes_iff switchSample_call (fun _ _ _ _ => flatSpace_separate (by decide)) rfl hproc
    (by decide) (by decide)).mpr ⟨by decide, ⟨_, hframe, flatSpace_writable⟩, by decide⟩

end SysX
