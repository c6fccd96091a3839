import SysX.Staging
import SysX.Tasks
import SysX.Translation

/-!
`task_create` with its calls of the memory manager (`exec/task.c`, and `proc_add_task` in `exec/process.c`), and
what is left of a task that could not be created. Registers of a task are not part of this state.
-/
namespace SysX

namespace Machine

def setTask (s : Machine) (task : ℕ) (f : Task → Task) : Machine :=
  { s with task := Function.update s.task task (f (s.task task)) }

def setProcTasks (s : Machine) (proc : ℕ) (tasks : List (Option ℕ)) : Machine :=
  { s with proc := Function.update s.proc proc { s.proc proc with tasks := tasks } }

/-- A frame that holds a page table of the current VMM or of the process. -/
def PageTable (s : Machine) (proc f : ℕ) : Prop :=
  ∃ vmm ∈ [s.vmmCurrent, (s.proc proc).vmm], ∃ i, (s.mem (vmm / 4096) i).HasTable ∧ (s.mem (vmm / 4096) i).pt = f

@[simp] theorem setTask_proc (s : Machine) (task : ℕ) (f : Task → Task) : (s.setTask task f).proc = s.proc := rfl

@[simp] theorem setProcTasks_tasks (s : Machine) (proc : ℕ) (tasks : List (Option ℕ)) :
    ((s.setProcTasks proc tasks).proc proc).tasks = tasks := by
  simp [setProcTasks]

end Machine

namespace Kernel

/-- `task_create_stub`, whose block comes from `kmemalign`. -/
def taskCreateStub : Kernel (Option ℕ) := do
  let block ← krealloc
  match block with
  | none => pure none
  | some task => do
    Comp.modify fun s => s.setTask task fun _ => TaskCommon.blank.toTask
    pure (some task)

/-- How many values the `pid` of a task has. -/
def taskPidMod : ℕ := 2 ^ 28

def procPutTask (proc task i : ℕ) (tasks : List (Option ℕ)) : Kernel (Option ℕ) := do
  Comp.modify fun s => s.setProcTasks proc (tasks.set i (some task))
  Comp.modify fun s => s.setTask task fun c => { c with pid := (s.proc proc).pid % taskPidMod }
  pure (some i)

/-- `proc_add_task`, which gives its mutex back at every exit. -/
def procAddTask (proc task : ℕ) : Kernel (Option ℕ) := do
  let tasks ← Comp.read fun s => (s.proc proc).tasks
  match tasks.findIdx? fun t => t = some task ∨ t = none with
  | some i => if tasks[i]? = some (some task) then pure (some i) else procPutTask proc task i tasks
  | none => do
    let block ← krealloc
    match block with
    | none => pure none
    | some _ => procPutTask proc task tasks.length (tasks ++ List.replicate procTaskAllocsz none)

/-- The beginning of `task_create`: a structure that the process refers to. -/
def taskRegister (proc : ℕ) : Kernel (Option ℕ) := do
  let task ← taskCreateStub
  match task with
  | none => pure none
  | some task => do
    let idx ← procAddTask proc task
    pure (idx.map fun _ => task)

/-- The size of a stack in whole frames. -/
def stackRound (stackSz : ℕ) : ℕ :=
  if stackSz % taskFramesz ≠ 0 then w32 (stackSz + (taskFramesz - stackSz % taskFramesz)) else stackSz

/-- How many frames the stack gets, if there are that many. -/
def stackPages (stackSz : ℕ) : ℕ := w32 (stackRound stackSz + (taskFramesz - 1)) / taskFramesz

def stackFlags (user : Bool) : Word := flagPresent ||| flagRw ||| flagCache ||| if user then flagUser else 0#32

/-- The frames of the stack, from its bottom on. `frames` is `stack_frames`. -/
def taskStackLoop (K : Callees) (vmm bottom : ℕ) (flags : Word) : (n frames : ℕ) → Kernel ℕ
  | 0, frames => pure frames
  | n + 1, frames => do
    let frame ← pmmAllocFree 1
    match frame with
    | none => pure frames
    | some frame => do
      vmmPgmap K vmm (w32 (frame * taskFramesz)) (sub32 bottom ((frames + 1) * taskFramesz)) 0 flags
      taskStackLoop K vmm bottom flags n (frames + 1)

/-- `task_insert` behind `task_kernel`, which is a null pointer as long as there is no task. -/
def taskInsertKernel (task : ℕ) : Kernel Unit := do
  let ring ← Comp.read (·.taskRing)
  match ring with
  | [] => Comp.fault
  | kernel :: rest => Comp.modify fun s => { s with taskRing := kernel :: task :: rest }

/-- `stack_bottom` of the new task. -/
def taskStackBottom (K : Callees) (vmm stackSz stackBottom : ℕ) : Kernel ℕ :=
  if stackBottom ≠ 0 then pure stackBottom
  else do
    let va ← vmmFirstFree K vmm 0 kernelStart (stackRound stackSz) 0 true
    pure (w32 (va + stackRound stackSz))

/-- The part of `task_create` behind the registration. -/
def taskStack (K : Callees) (user : Bool) (proc task stackSz entry stackBottom : ℕ) : Kernel (Option ℕ) := do
  let vmm ← Comp.read fun s => (s.proc proc).vmm
  let bottom ← taskStackBottom K vmm stackSz stackBottom
  Comp.modify fun s => s.setTask task fun c => { c with stackBottom := bottom }
  if bottom = 0 then pure none
  else do
    let frames ← taskStackLoop K vmm bottom (stackFlags user) (stackPages stackSz) 0
    if frames * taskFramesz ≤ (if user then taskKernelStackSize else 0) then pure none
    else do
      Comp.modify fun s => s.setTask task fun c =>
        { c with
          stackSize := frames * taskFramesz
          tSwitch := s.timerTick
          type := if user then .user else .kernel
          ready := if entry ≠ 0 then true else c.ready }
      taskInsertKernel task
      pure (some task)

def taskCreate (K : Callees) (user : Bool) (proc stackSz entry stackBottom : ℕ) : Kernel (Option ℕ) := do
  let task ← taskRegister proc
  match task with
  | none => pure none
  | some task => taskStack K user proc task stackSz entry stackBottom

/-! What a failure must leave, and when there is none. -/

/-- Nothing is left in `t` of a task that was to be created in `s`: its structure would have been the next block of
the heap. -/
structure CreateUndone (proc : ℕ) (s t : Machine) : Prop where
  unreferenced : ∀ task, s.heap s.heapCalls = some task → some task ∉ (t.proc proc).tasks
  bitmap : ∀ f, pmmBit t.pmmBitmap f ≠ pmmBit s.pmmBitmap f → t.PageTable proc f
  mappings : ∀ p < userPages,
    transAt t.mem ((s.proc proc).vmm / 4096) p = transAt s.mem ((s.proc proc).vmm / 4096) p
  ring : t.taskRing = s.taskRing

/-- `task_create` fails without a trace, and it does fail when no addresses are free for the stack. -/
structure CreateAtomic (K : Callees) (user : Bool) (proc stackSz entry stackBottom : ℕ) (s : Machine) : Prop where
  undone : ∀ t, taskCreate K user proc stackSz entry stackBottom s = some (none, t) → CreateUndone proc s t
  noSpace : stackBottom = 0 → ∀ task t u, taskRegister proc s = some (some task, t) →
    vmmFirstFree K (t.proc proc).vmm 0 kernelStart (stackRound stackSz) 0 true t = some (0, u) →
    ∃ v, taskCreate K user proc stackSz entry stackBottom s = some (none, v)

/-- `pmm_first_free` finds no frame. -/
def PmmFull (s : Machine) : Prop := pmmFirstFreeLoop s.pmmBitmap s.pmmFrames 1 loopFuel 0 = some none

/-- There are addresses for the stack and a first frame. -/
def StackRoom (K : Callees) (vmm stackSz stackBottom : ℕ) (s : Machine) : Prop :=
  if stackBottom ≠ 0 then stackPages stackSz ≠ 0 ∧ ¬ PmmFull s
  else ∀ va t, vmmFirstFree K vmm 0 kernelStart (stackRound stackSz) 0 true s = some (va, t) →
    va ≠ 0 ∧ w32 (va + stackRound stackSz) ≠ 0 ∧ ¬ PmmFull t

/-- A task that gets a structure and a place in its process has room for its stack. -/
def CreateFits (K : Callees) (proc stackSz stackBottom : ℕ) (s : Machine) : Prop :=
  ∀ task t, taskRegister proc s = some (some task, t) → StackRoom K (t.proc proc).vmm stackSz stackBottom t

/-! The registration. -/

theorem CreateUndone.of_same {proc : ℕ} {s t : Machine} (hproc : t.proc = s.proc) (hbitmap : t.pmmBitmap = s.pmmBitmap)
    (hmem : t.mem = s.mem) (hring : t.taskRing = s.taskRing)
    (htask : ∀ task, s.heap s.heapCalls = some task → some task ∉ (s.proc proc).tasks) : CreateUndone proc s t where
  unreferenced task h := by
    rw [hproc]
    exact htask task h
  bitmap f h := absurd (by rw [hbitmap]) h
  mappings p _ := by rw [hmem]
  ring := hring

/-- A task is in the array of its process, or there was neither room for it nor a reference to it before. -/
theorem procAddTask_run (proc task : ℕ) (s : Machine) :
    (∃ i t, procAddTask proc task s = some (some i, t) ∧ some task ∈ (t.proc proc).tasks) ∨
    (procAddTask proc task s = some (none, { s with heapCalls := s.heapCalls + 1 }) ∧
      some task ∉ (s.proc proc).tasks) := by
  have hput : ∀ i tasks u, i < tasks.length →
      ∃ t, procPutTask proc task i tasks u = some (some i, t) ∧ some task ∈ (t.proc proc).tasks := by
    intro i tasks u hi
    refine ⟨_, rfl, ?_⟩
    rw [Machine.setTask_proc, Machine.setProcTasks_tasks]
    exact List.mem_set hi (some task)
  unfold procAddTask
  rw [Comp.read_bind]
  cases hslot : (s.proc proc).tasks.findIdx? fun t => t = some task ∨ t = none with
  | some i =>
    obtain ⟨hi, -, -⟩ := List.findIdx?_eq_some_iff_getElem.mp hslot
    left
    dsimp only
    by_cases hthere : (s.proc proc).tasks[i]? = some (some task)
    · rw [if_pos hthere]
      exact ⟨i, s, rfl, List.mem_of_getElem? hthere⟩
    · rw [if_neg hthere]
      obtain ⟨t, ht, hmem⟩ := hput i _ s hi
      exact ⟨i, t, ht, hmem⟩
  | none =>
    have hnot : some task ∉ (s.proc proc).tasks := by
      intro hmem
      have := List.findIdx?_eq_none_iff.mp hslot _ hmem
      simp at this
    cases hheap : s.heap s.heapCalls with
    | none =>
      right
      refine ⟨?_, hnot⟩
      simp only [krealloc, bind_assoc, Comp.read_bind, Comp.modify_bind, hheap]
      rfl
    | some block =>
      left
      obtain ⟨t, ht, hmem⟩ := hput (s.proc proc).tasks.length ((s.proc proc).tasks ++
        List.replicate procTaskAllocsz none) { s with heapCalls := s.heapCalls + 1 } (by simp [procTaskAllocsz])
      refine ⟨(s.proc proc).tasks.length, t, ?_, hmem⟩
      rw [← ht]
      simp only [krealloc, bind_assoc, Comp.read_bind, Comp.modify_bind, hheap]
      rfl

/-- The registration returns, either without a trace or with a reference in the process. -/
theorem taskRegister_run (proc : ℕ) (s : Machine) :
    (∃ task t, taskRegister proc s = some (some task, t) ∧ s.heap s.heapCalls = some task ∧
      some task ∈ (t.proc proc).tasks) ∨
    ∃ t, taskRegister proc s = some (none, t) ∧ CreateUndone proc s t := by
  cases hheap : s.heap s.heapCalls with
  | none =>
    right
    refine ⟨{ s with heapCalls := s.heapCalls + 1 }, ?_, .of_same rfl rfl rfl rfl fun task h => ?_⟩
    · simp only [taskRegister, taskCreateStub, krealloc, bind_assoc, Comp.read_bind, Comp.modify_bind, hheap]
      rfl
    · rw [hheap] at h
      cases h
  | some task =>
    let s₁ := { s with heapCalls := s.heapCalls + 1 }.setTask task fun _ => TaskCommon.blank.toTask
    have hstub : taskCreateStub s = some (some task, s₁) := by
      simp only [taskCreateStub, krealloc, bind_assoc, Comp.read_bind, Comp.modify_bind, hheap]
      rfl
    unfold taskRegister
    rw [Comp.bind_of_eq hstub]
    dsimp only
    rcases procAddTask_run proc task s₁ with ⟨i, t, ht, hmem⟩ | ⟨ht, hnot⟩
    · left
      rw [Comp.bind_of_eq ht]
      exact ⟨task, t, rfl, rfl, hmem⟩
    · right
      rw [Comp.bind_of_eq ht]
      refine ⟨_, rfl, .of_same rfl rfl rfl rfl fun task' h => ?_⟩
      rw [hheap] at h
      cases h
      exact hnot

/-! The stack. -/

theorem PmmFull.alloc {s : Machine} (h : PmmFull s) : pmmAllocFree 1 s = some (none, s) := by
  have hfree : pmmFirstFree 1 s = some (none, s) := Comp.readOr_eq h
  rw [pmmAllocFree, Comp.bind_of_eq hfree]
  rfl

theorem pmmAllocFree_full {s t : Machine} (h : pmmAllocFree 1 s = some (none, t)) : PmmFull s := by
  obtain ⟨r, u, hu, h⟩ := Comp.bind_eq_some.mp h
  rw [pmmFirstFree, Comp.readOr_apply, Option.map_eq_some_iff] at hu
  obtain ⟨r', hr, hru⟩ := hu
  cases hru
  cases r with
  | none => exact hr
  | some f =>
    obtain ⟨_, _, _, h⟩ := Comp.bind_eq_some.mp h
    cases h

section Stack

variable {K : Callees} {vmm bottom : ℕ} {flags : Word}

theorem taskStackLoop_le {n frames r : ℕ} {s t : Machine}
    (h : taskStackLoop K vmm bottom flags n frames s = some (r, t)) : frames ≤ r := by
  induction n generalizing frames s with
  | zero =>
    cases h
    exact Nat.le_refl _
  | succ n ih =>
    rw [taskStackLoop] at h
    obtain ⟨frame, u, -, h⟩ := Comp.bind_eq_some.mp h
    cases frame with
    | none =>
      cases h
      exact Nat.le_refl _
    | some frame =>
      obtain ⟨_, v, -, h⟩ := Comp.bind_eq_some.mp h
      exact Nat.le_of_succ_le (ih h)

/-- The stack is empty exactly when its first frame was not asked for or not there. -/
theorem taskStackLoop_empty {n : ℕ} {s : Machine} (h : n = 0 ∨ PmmFull s) :
    taskStackLoop K vmm bottom flags n 0 s = some (0, s) := by
  cases n with
  | zero => rfl
  | succ n =>
    have hfull := h.resolve_left (Nat.succ_ne_zero n)
    rw [taskStackLoop, Comp.bind_of_eq hfull.alloc]
    rfl

theorem taskStackLoop_pos {n r : ℕ} {s t : Machine} (hn : n ≠ 0) (hroom : ¬ PmmFull s)
    (h : taskStackLoop K vmm bottom flags n 0 s = some (r, t)) : 0 < r := by
  obtain ⟨n, rfl⟩ := Nat.exists_eq_succ_of_ne_zero hn
  rw [taskStackLoop] at h
  obtain ⟨frame, u, hu, h⟩ := Comp.bind_eq_some.mp h
  cases frame with
  | none => exact absurd (pmmAllocFree_full hu) hroom
  | some frame =>
    obtain ⟨_, v, -, h⟩ := Comp.bind_eq_some.mp h
    exact taskStackLoop_le h

end Stack

section Create

variable {K : Callees} {user : Bool} {proc task stackSz entry stackBottom b : ℕ} {s t : Machine}

/-- Without a place or a first frame the task is given up, and the process keeps what it has of it. -/
theorem taskStack_fails (hb : taskStackBottom K (s.proc proc).vmm stackSz stackBottom s = some (b, t))
    (h : b = 0 ∨ stackPages stackSz = 0 ∨ PmmFull t) :
    ∃ u, taskStack K user proc task stackSz entry stackBottom s = some (none, u) ∧ u.proc = t.proc := by
  unfold taskStack
  rw [Comp.read_bind, Comp.bind_of_eq hb, Comp.modify_bind]
  by_cases hzero : b = 0
  · rw [if_pos hzero]
    exact ⟨_, rfl, rfl⟩
  · have hloop : taskStackLoop K (s.proc proc).vmm b (stackFlags user) (stackPages stackSz) 0
        (t.setTask task fun c => { c with stackBottom := b }) =
          some (0, t.setTask task fun c => { c with stackBottom := b }) :=
      taskStackLoop_empty (h.resolve_left hzero)
    rw [if_neg hzero, Comp.bind_of_eq hloop, if_pos (by simp)]
    exact ⟨_, rfl, rfl⟩

/-- With a place and a first frame it is not. -/
theorem taskStack_succeeds {r : Option ℕ} {u : Machine}
    (hb : taskStackBottom K (s.proc proc).vmm stackSz stackBottom s = some (b, t))
    (hzero : b ≠ 0) (hpages : stackPages stackSz ≠ 0) (hroom : ¬ PmmFull t)
    (h : taskStack K user proc task stackSz entry stackBottom s = some (r, u)) : r = some task := by
  unfold taskStack at h
  rw [Comp.read_bind, Comp.bind_of_eq hb, Comp.modify_bind, if_neg hzero] at h
  obtain ⟨frames, v, hv, h⟩ := Comp.bind_eq_some.mp h
  have hpos : 0 < frames := taskStackLoop_pos (s := t.setTask task _) hpages hroom hv
  have hsize : ¬ frames * taskFramesz ≤ if user then taskKernelStackSize else 0 := by
    unfold taskFramesz taskKernelStackSize
    split_ifs <;> omega
  rw [if_neg hsize, Comp.modify_bind] at h
  obtain ⟨_, w, -, h⟩ := Comp.bind_eq_some.mp h
  cases h
  rfl

theorem taskCreate_of_registered (hreg : taskRegister proc s = some (some task, t)) :
    taskCreate K user proc stackSz entry stackBottom s = taskStack K user proc task stackSz entry stackBottom t := by
  rw [taskCreate, Comp.bind_of_eq hreg]

/-- The search for a place returns with the processes as they were. -/
theorem taskStackBottom_proc (n : ℕ) {vmm : ℕ}
    (h : taskStackBottom (callees n) vmm stackSz stackBottom s = some (b, t)) : t.proc = s.proc := by
  have hI : MmStable fun m => m.proc = s.proc := by
    intro m m' hm hm'
    rw [hm']
    exact hm
  have hkeep : Comp.Keeps (fun m => m.proc = s.proc) (taskStackBottom (callees n) vmm stackSz stackBottom) :=
    .ite (fun _ => .pure _ _) fun _ => .bind ((hI.callees n).vmmFirstFree _ _ _ _ _ _) fun _ => .pure _ _
  exact hkeep s b t rfl h

/-- Where the stack goes: to the given address, or to the end of a free range that has been searched for. -/
theorem taskStackBottom_eq {vmm : ℕ} : taskStackBottom K vmm stackSz stackBottom s = some (b, t) ↔
    stackBottom ≠ 0 ∧ b = stackBottom ∧ t = s ∨
    stackBottom = 0 ∧ ∃ va, vmmFirstFree K vmm 0 kernelStart (stackRound stackSz) 0 true s = some (va, t) ∧
      b = w32 (va + stackRound stackSz) := by
  unfold taskStackBottom
  by_cases hgiven : stackBottom = 0
  · rw [if_neg (by simpa using hgiven), Comp.bind_eq_some]
    simp only [hgiven, ne_eq, not_true_eq_false, false_and, true_and, false_or]
    constructor
    · rintro ⟨va, u, hu, h⟩
      cases h
      exact ⟨va, hu, rfl⟩
    · rintro ⟨va, hu, rfl⟩
      exact ⟨va, t, hu, rfl⟩
  · rw [if_pos hgiven]
    simp [hgiven, eq_comm]

end Create

/-- A process asks for the free range of no page only by a fault. -/
theorem vmmFirstFree_pages {K : Callees} {vmm lo hi sz align va : ℕ} {reverse : Bool} {s t : Machine}
    (h : vmmFirstFree K vmm lo hi sz align reverse s = some (va, t)) : w32 (sz + 4095) / 4096 ≠ 0 := by
  intro hzero
  unfold vmmFirstFree at h
  rw [if_pos hzero] at h
  cases h

/-- A failure after the registration is one that leaves the process with a reference. -/
theorem not_undone {n : ℕ} {user : Bool} {proc task stackSz entry stackBottom b : ℕ} {s t u : Machine}
    (hreg : taskRegister proc s = some (some task, t)) (hheap : s.heap s.heapCalls = some task)
    (hmem : some task ∈ (t.proc proc).tasks)
    (hb : taskStackBottom (callees n) (t.proc proc).vmm stackSz stackBottom t = some (b, u))
    (h : b = 0 ∨ stackPages stackSz = 0 ∨ PmmFull u) :
    ¬ ∀ v, taskCreate (callees n) user proc stackSz entry stackBottom s = some (none, v) → CreateUndone proc s v := by
  intro hundone
  obtain ⟨v, hv, hproc⟩ := taskStack_fails hb h
  refine (hundone v ?_).unreferenced task hheap ?_
  · rw [taskCreate_of_registered hreg, hv]
  · rw [hproc, taskStackBottom_proc n hb]
    exact hmem

theorem CreateAtomic.stackRoom {n : ℕ} {user : Bool} {proc task stackSz entry stackBottom : ℕ} {s t : Machine}
    (h : CreateAtomic (callees n) user proc stackSz entry stackBottom s)
    (hreg : taskRegister proc s = some (some task, t)) (hheap : s.heap s.heapCalls = some task)
    (hmem : some task ∈ (t.proc proc).tasks) : StackRoom (callees n) (t.proc proc).vmm stackSz stackBottom t := by
  have hroom : ∀ {b u}, taskStackBottom (callees n) (t.proc proc).vmm stackSz stackBottom t = some (b, u) →
      b ≠ 0 ∧ stackPages stackSz ≠ 0 ∧ ¬ PmmFull u := by
    intro b u hb
    by_contra hno
    exact not_undone hreg hheap hmem hb (by tauto) h.undone
  unfold StackRoom
  by_cases hgiven : stackBottom = 0
  · rw [if_neg (by simpa using hgiven)]
    intro va u hva
    have hb := taskStackBottom_eq.mpr (.inr ⟨hgiven, va, hva, rfl⟩)
    obtain ⟨hne, hpages, hfull⟩ := hroom hb
    refine ⟨?_, hne, hfull⟩
    -- a task whose stack ends at the size itself
    rintro rfl
    obtain ⟨v, hv⟩ := h.noSpace hgiven task t u hreg hva
    rw [taskCreate_of_registered hreg] at hv
    exact Option.some_ne_none task (taskStack_succeeds hb hne hpages hfull hv).symm
  · rw [if_pos hgiven]
    exact (hroom (taskStackBottom_eq.mpr (.inl ⟨hgiven, rfl, rfl⟩))).2

theorem StackRoom.atomic {K : Callees} {user : Bool} {proc task stackSz entry stackBottom : ℕ} {s t : Machine}
    (h : StackRoom K (t.proc proc).vmm stackSz stackBottom t) (hreg : taskRegister proc s = some (some task, t)) :
    CreateAtomic K user proc stackSz entry stackBottom s := by
  unfold StackRoom at h
  constructor
  · intro v hv
    rw [taskCreate_of_registered hreg] at hv
    have hrun := hv
    unfold taskStack at hrun
    rw [Comp.read_bind] at hrun
    obtain ⟨b, u, hb, -⟩ := Comp.bind_eq_some.mp hrun
    have hroom : b ≠ 0 ∧ stackPages stackSz ≠ 0 ∧ ¬ PmmFull u := by
      rcases taskStackBottom_eq.mp hb with ⟨hgiven, rfl, rfl⟩ | ⟨hgiven, va, hva, rfl⟩
      · rw [if_pos hgiven] at h
        exact ⟨hgiven, h⟩
      · rw [if_neg (by simpa using hgiven)] at h
        obtain ⟨-, hne, hfull⟩ := h va u hva
        exact ⟨hne, vmmFirstFree_pages hva, hfull⟩
    cases taskStack_succeeds hb hroom.1 hroom.2.1 hroom.2.2 hv
  · intro hgiven task' t' u hreg' hva
    rw [hreg] at hreg'
    cases hreg'
    rw [if_neg (by simpa using hgiven)] at h
    exact absurd rfl (h 0 u hva).1

/-- `task_create` is atomic exactly where a registered task gets addresses and at least one frame for its stack: all
of its later exits leave the reference in the process, and a search that finds no addresses is not noticed. -/
theorem task_create_atomic_iff (n : ℕ) (user : Bool) (proc stackSz entry stackBottom : ℕ) (s : Machine) :
    CreateAtomic (callees n) user proc stackSz entry stackBottom s ↔
      CreateFits (callees n) proc stackSz stackBottom s := by
  rcases taskRegister_run proc s with ⟨task, t, hreg, hheap, hmem⟩ | ⟨t, hreg, hundone⟩
  · constructor
    · intro h task' t' hreg'
      rw [hreg] at hreg'
      cases hreg'
      exact h.stackRoom hreg hheap hmem
    · intro h
      exact (h task t hreg).atomic hreg
  · have hcreate : taskCreate (callees n) user proc stackSz entry stackBottom s = some (none, t) := by
      rw [taskCreate, Comp.bind_of_eq hreg]
      rfl
    constructor
    · intro _ task t' hreg'
      rw [hreg] at hreg'
      cases hreg'
    · intro _
      refine ⟨fun v hv => ?_, fun _ _ _ _ _ _ => ⟨t, hcreate⟩⟩
      rw [hcreate] at hv
      cases hv
      exact hundone

/-- A machine of 32 frames, all of them taken, with an address for a task structure. -/
def taskStackSample : Machine :=
  { (default : Machine) with
    pmmBitmap := fun _ => BitVec.allOnes 32
    pmmFrames := 32
    vmmCurrent := 0x1000
    vmmKernel := 0x1000
    heap := fun _ => some 0xC0010000
    taskRing := [0xC0000000]
    proc := fun _ => { pid := 1, vmm := 0x1000, elfSegments := [], tasks := [none, none, none, none] } }

/-- The stack of this task is wanted at a given address, but there is no frame for it. The process refers to the
structure that has been freed. -/
theorem task_create_keeps_reference :
    ¬ CreateAtomic (callees 2) false 0xC0020000 4096 0xC0001000 0x80000000 taskStackSample := by
  have hfull : pmmFirstFreeLoop (fun _ => BitVec.allOnes 32) 32 1 loopFuel 0 = some none := by decide +kernel
  intro h
  refine not_undone (b := 0x80000000) rfl rfl ?_ (taskStackBottom_eq.mpr (.inl ⟨by decide, rfl, rfl⟩)) ?_ h.undone
  · simp [Machine.setTask, Machine.setProcTasks, taskStackSample]
  · exact .inr (.inr hfull)

end Kernel

end SysX
