import SysX.Reloc
import SysX.Staging
import SysX.TaskSwitch
import Mathlib.Data.Finset.Filter

/-!
The end of a process (`proc_delete`, `task_delete` and the `task_yield` that deletes the current task). The
structure of the process goes away with its last task, from inside the loop of `proc_delete` where the current
task is not among them.
-/
namespace SysX

/-- `struct proc`, but for its array of tasks, which the scheduler's state has under the PID. -/
structure ProcStruct where
  pid : ℕ
  vmm : ℕ
  elfSegments : Option (List ElfPrgload)
  muTasks : Bool
  muFds : Bool

def ProcStruct.lock (proc : ProcStruct) : ProcStruct := { proc with muTasks := true, muFds := true }

/-- What is done once to an object. -/
inductive TeardownEvent
  | unload (vmm : ℕ) (segments : List ElfPrgload)
  | vmmFreed (vmm : ℕ)
  | vmmStaged (vmm : ℕ)
  | procFreed (proc : ℕ)
  | taskFreed (task : ℕ)
deriving DecidableEq

/-- The scheduler together with the processes: `proc` has the structures that are allocated, `pidtab` is
`proc_pidtab`, and `frstageGrows` tells whether there is memory for more slots in `vmm_frstage`. -/
structure Exec where
  cpu : Sched
  proc : ℕ → Option ProcStruct
  pidtab : ℕ → Option ℕ
  procKernel : ℕ
  vmmKernel : ℕ
  vmmCurrent : ℕ
  frstage : List (Option ℕ)
  frstageGrows : Bool
  events : List TeardownEvent

abbrev ExecOp := Comp Exec

namespace Exec

def onCpu {α : Type} (c : SchedOp α) : ExecOp α := fun e =>
  (c e.cpu).map fun q => (q.1, { e with cpu := q.2 })

def record (ev : TeardownEvent) : ExecOp Unit := Comp.modify fun e => { e with events := e.events ++ [ev] }

/-- An access to the structure at `p`, which must not have been freed. -/
def procDeref (p : ℕ) : ExecOp ProcStruct := Comp.readOr fun e => e.proc p

def vmmStageFree (vmm : ℕ) : ExecOp Unit := do
  let hole ← Comp.read fun e => e.frstage.findIdx? fun v => v = none
  match hole with
  | some i => do
    Comp.modify fun e => { e with frstage := e.frstage.set i (some vmm) }
    record (.vmmStaged vmm)
  | none => do
    let grows ← Comp.read Exec.frstageGrows
    Comp.when grows do
      Comp.modify fun e =>
        { e with frstage := e.frstage ++ some vmm :: List.replicate (vmmFrstageAllocsz - 1) none }
      record (.vmmStaged vmm)

def vmmFree (vmm : ℕ) : ExecOp Unit := do
  let e ← Comp.read id
  if vmm = e.vmmKernel then pure ()
  else if vmm = e.vmmCurrent then vmmStageFree vmm
  else record (.vmmFreed vmm)

def cleanupSlot (i : ℕ) : ExecOp Unit := do
  let v ← Comp.readOr fun e => e.frstage[i]?
  let cur ← Comp.read Exec.vmmCurrent
  match v with
  | none => pure ()
  | some v => Comp.when (v ≠ cur) do
    vmmFree v
    Comp.modify fun e => { e with frstage := e.frstage.set i none }

def vmmDoCleanup : ExecOp Unit := do
  let len ← Comp.read fun e => e.frstage.length
  Comp.forRange cleanupSlot len 0

def procPidFree (pid : ℕ) : ExecOp Unit :=
  Comp.modify fun e => { e with pidtab := Function.update e.pidtab pid none }

def procDoDelete (p : ℕ) : ExecOp Unit := do
  let proc ← procDeref p
  vmmFree proc.vmm
  let proc ← procDeref p
  procPidFree proc.pid
  Comp.modify fun e => { e with proc := Function.update e.proc p none }
  record (.procFreed p)

/-- The part of `task_do_delete` for the process of the task. Through `proc->vmm` the frames of the stack are
found, which go back first. -/
def taskLeaveProc (task : ℕ) : ExecOp Unit := do
  let pid ← Comp.read fun e => (e.cpu.task task).pid
  let proc ← Comp.read fun e => e.pidtab pid
  match proc with
  | none => pure ()
  | some p => do
    let _ ← procDeref p
    onCpu (procRemoveTask task)
    let tasks ← Comp.read fun e => e.cpu.procTasks pid
    -- no remaining tasks
    Comp.when (tasks = none) (procDoDelete p)

/-- "remove task from queue" -/
def taskUnlink (task : ℕ) : SchedOp Unit := do
  let prev ← Comp.read fun s => s.prev task
  let next ← Comp.read fun s => s.next task
  taskSetNext prev next
  let next ← Comp.read fun s => s.next task
  let prev ← Comp.read fun s => s.prev task
  taskSetPrev next prev

def taskDoDelete (task : ℕ) : ExecOp Unit := do
  onCpu taskYieldBlock
  taskLeaveProc task
  onCpu (taskUnlink task)
  onCpu taskYieldUnblock
  record (.taskFreed task)

def taskDelete (task : ℕ) : ExecOp Unit := do
  let current ← Comp.read fun e => e.cpu.taskCurrent
  if current = some task then
    onCpu (Comp.modify fun s => s.setTask task fun c => { c with type := .deletePending })
  else taskDoDelete task

/-- "delete all tasks": the loop over `n` slots from slot `i` on. Its condition reads `proc->num_tasks`, the
length of the array, which stays what it is as long as the process exists. -/
def deleteTasks (p : ℕ) : (n i : ℕ) → (deletingCurrent : Bool) → ExecOp Bool
  | 0, _, deletingCurrent => do
    let _ ← procDeref p
    pure deletingCurrent
  | n + 1, i, deletingCurrent => do
    let proc ← procDeref p
    let tasks ← Comp.readOr fun e => e.cpu.procTasks proc.pid
    let slot ← Comp.readOr fun _ => tasks[i]?
    match slot with
    | none => deleteTasks p n (i + 1) deletingCurrent
    | some task => do
      let current ← Comp.read fun e => e.cpu.taskCurrent
      if current = some task then deleteTasks p n (i + 1) true
      else do
        taskDelete task
        deleteTasks p n (i + 1) deletingCurrent

/-- Acquiring a mutex that another task holds does not return. -/
def procAcquire (p : ℕ) : ExecOp Unit := do
  let proc ← procDeref p
  if proc.muTasks ∨ proc.muFds then Comp.fault
  else Comp.modify fun e => { e with proc := Function.update e.proc p (some proc.lock) }

def procDelete (p : ℕ) : ExecOp Unit := do
  let kernel ← Comp.read Exec.procKernel
  if p = kernel then Comp.fault
  else do
    procAcquire p
    let proc ← procDeref p
    let tasks ← Comp.readOr fun e => e.cpu.procTasks proc.pid
    let deletingCurrent ← deleteTasks p tasks.length 0 false
    let proc ← procDeref p
    match proc.elfSegments with
    | none => pure ()
    | some segments => record (.unload proc.vmm segments)
    Comp.when deletingCurrent do
      let current ← Comp.readOr fun e => e.cpu.taskCurrent
      taskDelete current

/-- `task_yield`, with the task that it switches to. -/
def taskYield (fuel : ℕ) : ExecOp (Option ℕ) := do
  let e ← Comp.read id
  match e.cpu.taskKernel with
  | none => pure none
  | some kernel =>
    if e.cpu.yieldBlockCnt ≠ 0 then pure none
    else do
      vmmDoCleanup
      match e.cpu.taskCurrent with
      | none =>
        if (e.cpu.task kernel).ready then do
          onCpu (taskSwitchTo kernel)
          pure (some kernel)
        else pure none
      | some current => do
        let sel ← onCpu (Comp.readOr fun s => taskWalk s current (taskSelect s) fuel current (current, 0))
        if sel.1 = current then pure none
        else do
          let type ← Comp.read fun e => (e.cpu.task current).type
          Comp.when (type = .deletePending) (do
            taskDoDelete current
            onCpu (Comp.modify fun s => { s with taskCurrent := none }))
          onCpu (taskSwitchTo sel.1)
          pure (some sel.1)

/-! The parts, and what each of them leaves. -/

section Parts

variable {e : Exec} {s' : Sched}

theorem onCpu_of_eq {α : Type} {c : SchedOp α} {a : α} (h : c e.cpu = some (a, s')) :
    onCpu c e = some (a, { e with cpu := s' }) := by
  rw [onCpu, h]
  rfl

theorem procDeref_of_eq {p : ℕ} {proc : ProcStruct} (h : e.proc p = some proc) :
    procDeref p e = some (proc, e) := by
  rw [procDeref, Comp.readOr_apply, h]
  rfl

theorem procDeref_freed {p : ℕ} (h : e.proc p = none) : procDeref p e = none := by
  rw [procDeref, Comp.readOr_apply, h]
  rfl

/-- A slot is left for one more configuration. -/
def Room (e : Exec) : Prop := none ∈ e.frstage ∨ e.frstageGrows = true

instance (e : Exec) : Decidable e.Room := by
  unfold Room
  infer_instance

/-- What `vmm_free` does with a configuration. -/
def vmmFreeEvents (e : Exec) (vmm : ℕ) : List TeardownEvent :=
  if vmm = e.vmmKernel then []
  else if vmm = e.vmmCurrent then if e.Room then [.vmmStaged vmm] else []
  else [.vmmFreed vmm]

theorem vmmFree_run (e : Exec) (vmm : ℕ) : ∃ frstage, vmmFree vmm e =
    some ((), { e with frstage := frstage, events := e.events ++ e.vmmFreeEvents vmm }) := by
  unfold vmmFree vmmFreeEvents
  rw [Comp.read_bind]
  simp only [id]
  by_cases hk : vmm = e.vmmKernel
  · rw [if_pos hk, if_pos hk, List.append_nil]
    exact ⟨e.frstage, rfl⟩
  rw [if_neg hk, if_neg hk]
  by_cases hc : vmm = e.vmmCurrent
  · rw [if_pos hc, if_pos hc]
    unfold vmmStageFree
    rw [Comp.read_bind]
    cases hf : e.frstage.findIdx? fun v => v = none with
    | some i =>
      have hroom : e.Room := by
        obtain ⟨hi, hnone, -⟩ := List.findIdx?_eq_some_iff_getElem.mp hf
        exact .inl (List.mem_iff_getElem.mpr ⟨i, hi, by simpa using hnone⟩)
      rw [if_pos hroom]
      exact ⟨_, rfl⟩
    | none =>
      have hno : none ∉ e.frstage := fun hmem => by simpa using List.findIdx?_eq_none_iff.mp hf none hmem
      by_cases hg : e.frstageGrows = true
      · rw [if_pos (show e.Room from .inr hg)]
        refine ⟨e.frstage ++ some vmm :: List.replicate (vmmFrstageAllocsz - 1) none, ?_⟩
        dsimp only
        rw [Comp.read_bind, Comp.when_true hg]
        rfl
      · rw [if_neg (fun h : e.Room => h.elim hno hg), List.append_nil]
        refine ⟨e.frstage, ?_⟩
        dsimp only
        rw [Comp.read_bind, Comp.when_false hg]
        rfl
  · rw [if_neg hc, if_neg hc]
    exact ⟨e.frstage, rfl⟩

theorem procDoDelete_run {p : ℕ} {proc : ProcStruct} (h : e.proc p = some proc) :
    ∃ frstage, procDoDelete p e = some ((), { e with
      frstage := frstage
      pidtab := Function.update e.pidtab proc.pid none
      proc := Function.update e.proc p none
      events := e.events ++ e.vmmFreeEvents proc.vmm ++ [.procFreed p] }) := by
  obtain ⟨frstage, hfree⟩ := vmmFree_run e proc.vmm
  refine ⟨frstage, ?_⟩
  have hagain : procDeref p { e with frstage := frstage, events := e.events ++ e.vmmFreeEvents proc.vmm } =
      some (proc, _) := procDeref_of_eq (by exact h)
  unfold procDoDelete
  rw [Comp.bind_of_eq (procDeref_of_eq h), Comp.bind_of_eq hfree, Comp.bind_of_eq hagain]
  rfl

/-! The slots of a process. -/

/-- The slots without the tasks of `del`. -/
def eraseSlots (del : List ℕ) (slots : List (Option ℕ)) : List (Option ℕ) :=
  slots.map fun o => o.filter fun t => t ∉ del

theorem mem_eraseSlots {del : List ℕ} {slots : List (Option ℕ)} {t : ℕ} :
    some t ∈ eraseSlots del slots ↔ some t ∈ slots ∧ t ∉ del := by
  simp only [eraseSlots, List.mem_map]
  constructor
  · rintro ⟨o, ho, heq⟩
    obtain ⟨rfl, hdel⟩ := Option.filter_eq_some_iff.mp heq
    exact ⟨ho, by simpa using hdel⟩
  · rintro ⟨ho, hdel⟩
    exact ⟨some t, ho, by simp [Option.filter, hdel]⟩

theorem eraseSlots_append (del : List ℕ) (t : ℕ) (slots : List (Option ℕ)) :
    ((eraseSlots del slots).map fun o => if o = some t then none else o) = eraseSlots (del ++ [t]) slots := by
  rw [eraseSlots, eraseSlots, List.map_map]
  refine List.map_congr_left fun o _ => ?_
  cases o with
  | none => rfl
  | some u =>
    by_cases hu : u ∈ del
    · simp [Option.filter, hu]
    · by_cases ht : u = t <;> simp [Option.filter, hu, ht]

theorem eraseSlots_nil (slots : List (Option ℕ)) : eraseSlots [] slots = slots := by
  rw [eraseSlots]
  refine (List.map_congr_left fun o _ => ?_).trans (List.map_id _)
  cases o <;> simp [Option.filter]

theorem countP_isSome_eq_zero {slots : List (Option ℕ)} :
    slots.countP Option.isSome = 0 ↔ ∀ t, some t ∉ slots := by
  rw [List.countP_eq_zero]
  constructor
  · intro h t ht
    exact h _ ht rfl
  · intro h o ho hsome
    obtain ⟨t, rfl⟩ := Option.isSome_iff_exists.mp hsome
    exact h t ho

/-- `task_do_delete` of the scheduler alone is these steps. -/
theorem taskDoDelete_steps {s : Sched} {task : ℕ} {u : Unit} (h : SysX.taskDoDelete task s = some (u, s')) :
    ∃ s₁ s₂, procRemoveTask task { s with yieldBlockCnt := s.yieldBlockCnt + 1 } = some ((), s₁) ∧
      taskUnlink task s₁ = some ((), s₂) ∧ s' = { s₂ with yieldBlockCnt := s₂.yieldBlockCnt - 1 } := by
  unfold SysX.taskDoDelete taskYieldBlock at h
  rw [Comp.modify_bind] at h
  obtain ⟨_, s₁, hproc, h⟩ := Comp.bind_eq_some.mp h
  cases h
  exact ⟨s₁, _, hproc, rfl, rfl⟩

/-- The array of a process with these slots, which goes when none of them is used. -/
def slotsLeft (slots : List (Option ℕ)) : Option (List (Option ℕ)) :=
  if slots.countP Option.isSome = 0 then none else some slots

theorem slotsLeft_of_mem {slots : List (Option ℕ)} {t : ℕ} (h : some t ∈ slots) : slotsLeft slots = some slots :=
  if_neg fun h0 => countP_isSome_eq_zero.mp h0 t h

theorem slotsLeft_of_empty {slots : List (Option ℕ)} (h : ∀ t, some t ∉ slots) : slotsLeft slots = none :=
  if_pos (countP_isSome_eq_zero.mpr h)

theorem procRemoveTask_slots {s s₁ : Sched} {task pid : ℕ} {del : List ℕ} {slots : List (Option ℕ)} {u : Unit}
    (hpid : (s.task task).pid = pid) (hs : s.procTasks pid = some (eraseSlots del slots))
    (h : procRemoveTask task s = some (u, s₁)) :
    s₁.procTasks pid = slotsLeft (eraseSlots (del ++ [task]) slots) := by
  unfold procRemoveTask at h
  rw [Comp.read_bind, Comp.read_bind, hpid, hs] at h
  dsimp only at h
  rw [eraseSlots_append] at h
  cases h
  exact Function.update_self ..

theorem taskUnlink_procTasks {s : Sched} {task : ℕ} {u : Unit} (h : taskUnlink task s = some (u, s')) :
    s'.procTasks = s.procTasks := by
  cases h
  rfl

section Leave

variable {task pid p : ℕ} {proc : ProcStruct} {s₁ : Sched} (hpid : (e.cpu.task task).pid = pid)
  (htab : e.pidtab pid = some p) (hproc : e.proc p = some proc) (hremove : procRemoveTask task e.cpu = some ((), s₁))
include hpid htab hproc hremove

theorem taskLeaveProc_steps : taskLeaveProc task e =
    Comp.when (s₁.procTasks pid = none) (procDoDelete p) { e with cpu := s₁ } := by
  unfold taskLeaveProc
  rw [Comp.read_bind, hpid, Comp.read_bind, htab]
  dsimp only
  rw [Comp.bind_of_eq (procDeref_of_eq hproc), Comp.bind_of_eq (onCpu_of_eq hremove), Comp.read_bind]

theorem taskLeaveProc_more (hleft : s₁.procTasks pid ≠ none) :
    taskLeaveProc task e = some ((), { e with cpu := s₁ }) := by
  rw [taskLeaveProc_steps hpid htab hproc hremove, Comp.when_false hleft]
  rfl

theorem taskLeaveProc_last (hleft : s₁.procTasks pid = none) : ∃ frstage,
    taskLeaveProc task e = some ((), { e with
      cpu := s₁
      frstage := frstage
      pidtab := Function.update e.pidtab proc.pid none
      proc := Function.update e.proc p none
      events := e.events ++ e.vmmFreeEvents proc.vmm ++ [.procFreed p] }) := by
  obtain ⟨frstage, hrun⟩ := procDoDelete_run (e := { e with cpu := s₁ }) hproc
  refine ⟨frstage, ?_⟩
  rw [taskLeaveProc_steps hpid htab hproc hremove, Comp.when_true hleft, hrun]
  rfl

end Leave

/-- Deleting a task takes it out of the ring and out of its process. Where it was the last one, the process goes
with it. -/
theorem taskDoDelete_exec {task pid p : ℕ} {proc : ProcStruct} {del : List ℕ} {slots : List (Option ℕ)}
    (hpid : (e.cpu.task task).pid = pid) (htab : e.pidtab pid = some p) (hproc : e.proc p = some proc)
    (hs : e.cpu.procTasks pid = some (eraseSlots del slots)) :
    ∃ s', SysX.taskDoDelete task e.cpu = some ((), s') ∧
      ((∃ t, some t ∈ eraseSlots (del ++ [task]) slots) →
        s'.procTasks pid = some (eraseSlots (del ++ [task]) slots) ∧
        taskDoDelete task e = some ((), { e with cpu := s', events := e.events ++ [.taskFreed task] })) ∧
      ((∀ t, some t ∉ eraseSlots (del ++ [task]) slots) → ∃ frstage,
        taskDoDelete task e = some ((), { e with
          cpu := s'
          frstage := frstage
          pidtab := Function.update e.pidtab proc.pid none
          proc := Function.update e.proc p none
          events := e.events ++ e.vmmFreeEvents proc.vmm ++ [.procFreed p] ++ [.taskFreed task] })) := by
  obtain ⟨s', hrun, -⟩ := taskDoDelete_run e.cpu task
  obtain ⟨s₁, s₂, hremove, hunlink, hs'⟩ := taskDoDelete_steps hrun
  have hleft := procRemoveTask_slots (s := { e.cpu with yieldBlockCnt := e.cpu.yieldBlockCnt + 1 }) hpid hs hremove
  have hkeep := taskUnlink_procTasks hunlink
  let e₀ : Exec := { e with cpu := { e.cpu with yieldBlockCnt := e.cpu.yieldBlockCnt + 1 } }
  have hblock : onCpu taskYieldBlock e = some ((), e₀) := rfl
  -- the steps behind the one that leaves the process
  have hrest : ∀ f : Exec, f.cpu = s₁ → taskLeaveProc task e₀ = some ((), f) →
      taskDoDelete task e = some ((), { f with cpu := s', events := f.events ++ [.taskFreed task] }) := by
    intro f hf hleave
    have hun : onCpu (taskUnlink task) f = some ((), { f with cpu := s₂ }) := onCpu_of_eq (by rw [hf, hunlink])
    unfold taskDoDelete
    rw [Comp.bind_of_eq hblock, Comp.bind_of_eq hleave, Comp.bind_of_eq hun, hs']
    rfl
  refine ⟨s', hrun, fun hmore => ?_, fun hlast => ?_⟩
  · obtain ⟨t, ht⟩ := hmore
    rw [slotsLeft_of_mem ht] at hleft
    have hne : s₁.procTasks pid ≠ none := by simp [hleft]
    have hleave : taskLeaveProc task e₀ = some ((), { e₀ with cpu := s₁ }) :=
      taskLeaveProc_more (e := e₀) hpid htab hproc hremove hne
    exact ⟨by rw [hs', ← hleft, ← hkeep], hrest { e₀ with cpu := s₁ } rfl hleave⟩
  · rw [slotsLeft_of_empty hlast] at hleft
    obtain ⟨frstage, hleave⟩ := taskLeaveProc_last (e := e₀) hpid htab hproc hremove hleft
    exact ⟨frstage, hrest { e₀ with
      cpu := s₁
      frstage := frstage
      pidtab := Function.update e.pidtab proc.pid none
      proc := Function.update e.proc p none
      events := e.events ++ e.vmmFreeEvents proc.vmm ++ [.procFreed p] } rfl hleave⟩

end Parts

/-! The loop of `proc_delete`. -/

/-- The tasks in these slots but for the current one. -/
def others (current : Option ℕ) (slots : List (Option ℕ)) : List ℕ :=
  (slots.filterMap id).filter fun t => current ≠ some t

theorem mem_others {current : Option ℕ} {slots : List (Option ℕ)} {t : ℕ} :
    t ∈ others current slots ↔ some t ∈ slots ∧ current ≠ some t := by
  simp [others]

theorem others_take_succ (current : Option ℕ) {slots : List (Option ℕ)} {i : ℕ} {o : Option ℕ}
    (ho : slots[i]? = some o) : others current (slots.take (i + 1)) =
      others current (slots.take i) ++ (o.filter fun t => current ≠ some t).toList := by
  rw [List.take_add_one, ho, others, others, List.filterMap_append, List.filter_append]
  congr 1
  cases o with
  | none => rfl
  | some t => by_cases h : current = some t <;> simp [Option.filter, h]

/-- The process `p` with its slots, each of whose tasks belongs to it and is in the ring. -/
structure Slots (e : Exec) (p : ℕ) (proc : ProcStruct) (slots : List (Option ℕ)) (k : ℕ) (M : Finset ℕ) : Prop where
  alive : e.proc p = some proc
  pidtab : e.pidtab proc.pid = some p
  array : e.cpu.procTasks proc.pid = some slots
  nodup : (slots.filterMap id).Nodup
  owned : ∀ t, some t ∈ slots → (e.cpu.task t).pid = proc.pid
  ring : e.cpu.HasRing k M
  queued : ∀ t, some t ∈ slots → t ∈ M ∧ t ≠ k

/-- The tasks of `del` have been deleted, and nothing else is different. -/
structure Deleted (e₀ : Exec) (pid : ℕ) (slots : List (Option ℕ)) (k : ℕ) (M : Finset ℕ) (del : List ℕ)
    (e : Exec) : Prop where
  state : e = { e₀ with cpu := e.cpu, events := e₀.events ++ del.map .taskFreed }
  array : e.cpu.procTasks pid = some (eraseSlots del slots)
  ring : e.cpu.HasRing k (M.filter (· ∉ del))
  task : ∀ u, (e.cpu.task u).toTask = (e₀.cpu.task u).toTask
  vars : e₀.cpu.SameVars e.cpu

section Loop

variable {e₀ e : Exec} {p k : ℕ} {proc : ProcStruct} {slots : List (Option ℕ)} {M : Finset ℕ} {del : List ℕ}

theorem Slots.start (h : Slots e₀ p proc slots k M) : Deleted e₀ proc.pid slots k M [] e₀ where
  state := by rw [List.map_nil, List.append_nil]
  array := by rw [eraseSlots_nil, h.array]
  ring := by simpa using h.ring
  task := fun _ => rfl
  vars := .refl _

theorem Deleted.alive (hd : Deleted e₀ proc.pid slots k M del e) (h : Slots e₀ p proc slots k M) :
    e.proc p = some proc := by
  rw [hd.state]
  exact h.alive

/-- The step for one task: it is deleted, and with the last one the process is freed. -/
theorem Deleted.step (hd : Deleted e₀ proc.pid slots k M del e) (h : Slots e₀ p proc slots k M) {t : ℕ}
    (ht : some t ∈ slots) (hnew : t ∉ del) :
    ((∃ u, some u ∈ eraseSlots (del ++ [t]) slots) →
      ∃ e', taskDoDelete t e = some ((), e') ∧ Deleted e₀ proc.pid slots k M (del ++ [t]) e') ∧
    ((∀ u, some u ∉ eraseSlots (del ++ [t]) slots) → ∃ frstage s', SysX.taskDoDelete t e.cpu = some ((), s') ∧
      taskDoDelete t e = some ((), { e with
        cpu := s'
        frstage := frstage
        pidtab := Function.update e.pidtab proc.pid none
        proc := Function.update e.proc p none
        events := e.events ++ e.vmmFreeEvents proc.vmm ++ [.procFreed p] ++ [.taskFreed t] })) := by
  have hpid : (e.cpu.task t).pid = proc.pid := by
    have := congrArg Task.pid (hd.task t)
    rw [this]
    exact h.owned t ht
  have htab : e.pidtab proc.pid = some p := by
    rw [hd.state]
    exact h.pidtab
  obtain ⟨s', hrun, hmore, hlast⟩ := taskDoDelete_exec hpid htab (hd.alive h) hd.array
  refine ⟨fun hu => ?_, fun hu => ?_⟩
  · obtain ⟨hslots, hexec⟩ := hmore hu
    obtain ⟨s'', hrun', hlinks⟩ := taskDoDelete_run e.cpu t
    cases hrun.symm.trans hrun'
    obtain ⟨hM, hk⟩ := h.queued t ht
    have hring := hd.ring.erase (Finset.mem_filter.mpr ⟨hM, hnew⟩) hk hrun
    refine ⟨_, hexec, ?_, hslots, ?_, fun u => (hlinks.task u).trans (hd.task u), ?_⟩
    · dsimp only
      rw [hd.state]
      simp [List.append_assoc]
    · have hset : M.filter (· ∉ del ++ [t]) = (M.filter (· ∉ del)).erase t := by
        ext u
        simp only [Finset.mem_filter, Finset.mem_erase, List.mem_append, List.mem_singleton]
        tauto
      rw [hset]
      exact hring
    · exact ⟨hlinks.vars.addr.trans hd.vars.addr, hlinks.vars.kernel.trans hd.vars.kernel,
        hlinks.vars.current.trans hd.vars.current, hlinks.vars.tick.trans hd.vars.tick⟩
  · obtain ⟨frstage, hexec⟩ := hlast hu
    exact ⟨frstage, s', hrun, hexec⟩

/-- What the loop finds in a slot. -/
theorem Deleted.slot (hd : Deleted e₀ proc.pid slots k M del e) (h : Slots e₀ p proc slots k M) (n i : ℕ)
    (flag : Bool) {o : Option ℕ} (ho : slots[i]? = some o) (hnew : ∀ t, o = some t → t ∉ del) :
    deleteTasks p (n + 1) i flag e = match o with
      | none => deleteTasks p n (i + 1) flag e
      | some t =>
        if e₀.cpu.taskCurrent = some t then deleteTasks p n (i + 1) true e
        else (taskDoDelete t >>= fun _ => deleteTasks p n (i + 1) flag) e := by
  have harray : Comp.readOr (fun e : Exec => e.cpu.procTasks proc.pid) e = some (eraseSlots del slots, e) := by
    rw [Comp.readOr_apply, hd.array]
    rfl
  have hsame : (eraseSlots del slots)[i]? = some o := by
    rw [eraseSlots, List.getElem?_map, ho, Option.map_some]
    cases o with
    | none => rfl
    | some t => simp [Option.filter, hnew t rfl]
  have hslot : Comp.readOr (fun _ : Exec => (eraseSlots del slots)[i]?) e = some (o, e) := by
    rw [Comp.readOr_apply, hsame]
    rfl
  rw [deleteTasks, Comp.bind_of_eq (procDeref_of_eq (hd.alive h)), Comp.bind_of_eq harray, Comp.bind_of_eq hslot]
  cases o with
  | none => rfl
  | some t =>
    dsimp only
    rw [Comp.read_bind, hd.vars.current]
    by_cases hc : e₀.cpu.taskCurrent = some t
    · rw [if_pos hc, if_pos hc]
    · have hdel : taskDelete t e = taskDoDelete t e := by
        unfold taskDelete
        rw [Comp.read_bind, hd.vars.current, if_neg hc]
      rw [if_neg hc, if_neg hc, Comp.bind_apply, hdel]
      rfl

theorem Slots.not_mem_others (h : Slots e₀ p proc slots k M) {i t : ℕ} (ht : slots[i]? = some (some t))
    (current : Option ℕ) : t ∉ others current (slots.take i) := by
  intro hmem
  have hin := (mem_others.mp hmem).1
  have hsplit : slots = slots.take i ++ some t :: slots.drop (i + 1) := by
    obtain ⟨hi, heq⟩ := List.getElem?_eq_some_iff.mp ht
    rw [← heq, ← List.drop_eq_getElem_cons hi, List.take_append_drop]
  have hnodup := h.nodup
  rw [hsplit, List.filterMap_append, List.filterMap_cons] at hnodup
  have hdisj := (List.nodup_append.mp hnodup).2.2
  exact hdisj t (List.mem_filterMap.mpr ⟨some t, hin, rfl⟩) t (by simp) rfl

/-- The next slot of the loop: its task was not met before. -/
theorem Slots.next_slot (h : Slots e₀ p proc slots k M) (current : Option ℕ) {i : ℕ} (hlt : i < slots.length) :
    ∃ o, slots[i]? = some o ∧ slots.drop i = o :: slots.drop (i + 1) ∧
      (∀ t, o = some t → t ∉ others current (slots.take i)) ∧
        others current (slots.take (i + 1)) =
          others current (slots.take i) ++ (o.filter fun t => current ≠ some t).toList := by
  have ho := List.getElem?_eq_getElem hlt
  refine ⟨slots[i], ho, List.drop_eq_getElem_cons hlt, ?_, others_take_succ current ho⟩
  intro t ht
  rw [ht] at ho
  exact h.not_mem_others ho _

/-- A task that is not the current one is deleted. -/
theorem filter_other {current : Option ℕ} {t : ℕ} (ht : current ≠ some t) :
    (Option.filter (fun u => decide (current ≠ some u)) (some t)).toList = [t] := by
  simp [Option.filter, ht]

/-- With the current task among them, the loop deletes all others. -/
theorem deleteTasks_current (h : Slots e₀ p proc slots k M) {c : ℕ} (hcur : e₀.cpu.taskCurrent = some c)
    (hc : some c ∈ slots) (n : ℕ) {i : ℕ} (hi : i + n = slots.length) (flag : Bool) {e : Exec}
    (hd : Deleted e₀ proc.pid slots k M (others (some c) (slots.take i)) e) :
    ∃ e', deleteTasks p n i flag e = some (flag || decide (some c ∈ slots.drop i), e') ∧
      Deleted e₀ proc.pid slots k M (others (some c) slots) e' := by
  induction n generalizing i flag e with
  | zero =>
    have hall : slots.take i = slots := List.take_of_length_le (by omega)
    have hnone : slots.drop i = [] := List.drop_of_length_le (by omega)
    rw [hall] at hd
    refine ⟨e, ?_, hd⟩
    rw [deleteTasks, Comp.bind_of_eq (procDeref_of_eq (hd.alive h)), hnone]
    simp
  | succ n ih =>
    have hlt : i < slots.length := by omega
    obtain ⟨o, ho, hdrop, hnew, htake⟩ := h.next_slot (some c) hlt
    rw [hd.slot h n i flag ho hnew, hdrop]
    cases o with
    | none =>
      obtain ⟨e', hrun, hd'⟩ := ih (i := i + 1) (by omega) flag (e := e) (by rw [htake]; simpa using hd)
      exact ⟨e', by simpa using hrun, hd'⟩
    | some t =>
      dsimp only
      by_cases ht : c = t
      · subst ht
        obtain ⟨e', hrun, hd'⟩ := ih (i := i + 1) (by omega) true (e := e)
          (by rw [htake]; simpa [Option.filter] using hd)
        rw [if_pos hcur]
        exact ⟨e', by simpa using hrun, hd'⟩
      · have hmem : some t ∈ slots := List.mem_of_getElem? ho
        have hkeep : some c ∈ eraseSlots (others (some c) (slots.take i) ++ [t]) slots := by
          refine mem_eraseSlots.mpr ⟨hc, ?_⟩
          rw [List.mem_append, List.mem_singleton, mem_others]
          rintro (h' | h')
          · exact h'.2 rfl
          · exact ht h'
        obtain ⟨e₁, hdel, hd₁⟩ := (hd.step h hmem (hnew t rfl)).1 ⟨c, hkeep⟩
        have hne : some c ≠ some t := fun heq => ht (Option.some.inj heq)
        obtain ⟨e', hrun, hd'⟩ := ih (i := i + 1) (by omega) flag (e := e₁)
          (by rw [htake, filter_other hne]; exact hd₁)
        rw [hcur, if_neg hne, Comp.bind_of_eq hdel]
        refine ⟨e', ?_, hd'⟩
        simpa [ht] using hrun

/-- Without the current task among them, the tasks of the slots to come are left. -/
theorem Slots.mem_left (h : Slots e₀ p proc slots k M)
    (hcur : ∀ c, e₀.cpu.taskCurrent = some c → some c ∉ slots) (i u : ℕ) :
    some u ∈ eraseSlots (others e₀.cpu.taskCurrent (slots.take i)) slots ↔ some u ∈ slots.drop i := by
  rw [mem_eraseSlots]
  constructor
  · rintro ⟨hin, hout⟩
    have hpart : some u ∈ slots.take i ++ slots.drop i := by rwa [List.take_append_drop]
    rcases List.mem_append.mp hpart with hpassed | hlater
    · exact absurd (mem_others.mpr ⟨hpassed, fun heq => hcur u heq hin⟩) hout
    · exact hlater
  · intro hlater
    obtain ⟨j, hj, heq⟩ := List.mem_iff_getElem.mp hlater
    have hu : slots[i + j]? = some (some u) := by
      rw [← heq, List.getElem_drop, List.getElem?_eq_getElem]
    refine ⟨List.mem_of_mem_drop hlater, fun hin => ?_⟩
    refine h.not_mem_others hu e₀.cpu.taskCurrent (mem_others.mpr ⟨?_, (mem_others.mp hin).2⟩)
    exact (List.take_sublist_take_left (Nat.le_add_right i j)).subset (mem_others.mp hin).1

/-- Without the current task among them, the loop goes on with a process that the last task has taken along. -/
theorem deleteTasks_freed (h : Slots e₀ p proc slots k M)
    (hcur : ∀ c, e₀.cpu.taskCurrent = some c → some c ∉ slots) (n : ℕ) {i : ℕ} (hi : i + n = slots.length)
    (flag : Bool) {e : Exec} (hmore : ∃ t, some t ∈ slots.drop i)
    (hd : Deleted e₀ proc.pid slots k M (others e₀.cpu.taskCurrent (slots.take i)) e) :
    deleteTasks p n i flag e = none := by
  induction n generalizing i flag e with
  | zero =>
    obtain ⟨t, ht⟩ := hmore
    rw [List.drop_of_length_le (by omega)] at ht
    cases ht
  | succ n ih =>
    have hlt : i < slots.length := by omega
    obtain ⟨o, ho, hdrop, hnew, htake⟩ := h.next_slot e₀.cpu.taskCurrent hlt
    rw [hdrop] at hmore
    rw [hd.slot h n i flag ho hnew]
    cases o with
    | none =>
      refine ih (i := i + 1) (by omega) flag ?_ (by rw [htake]; simpa using hd)
      simpa using hmore
    | some t =>
      have hmem : some t ∈ slots := List.mem_of_getElem? ho
      have hne : e₀.cpu.taskCurrent ≠ some t := fun heq => hcur t heq hmem
      rw [filter_other hne] at htake
      have hstep := hd.step h hmem (hnew t rfl)
      dsimp only
      rw [if_neg hne]
      have hleft (u : ℕ) := h.mem_left hcur (i + 1) u
      rw [htake] at hleft
      by_cases hlater : ∃ u, some u ∈ slots.drop (i + 1)
      · obtain ⟨u, hu⟩ := hlater
        obtain ⟨e₁, hdel, hd₁⟩ := hstep.1 ⟨u, (hleft u).mpr hu⟩
        rw [Comp.bind_of_eq hdel]
        exact ih (i := i + 1) (by omega) flag ⟨u, hu⟩ (by rw [htake]; exact hd₁)
      · have hlast : ∀ u, some u ∉ eraseSlots (others e₀.cpu.taskCurrent (slots.take i) ++ [t]) slots :=
          fun u hu => hlater ⟨u, (hleft u).mp hu⟩
        obtain ⟨frstage, s', -, hdel⟩ := hstep.2 hlast
        rw [Comp.bind_of_eq hdel]
        -- the loop condition reads the structure again
        cases n with
        | zero =>
          rw [deleteTasks, Comp.bind_apply, procDeref_freed (Function.update_self ..)]
          rfl
        | succ n =>
          rw [deleteTasks, Comp.bind_apply, procDeref_freed (Function.update_self ..)]
          rfl

/-- A process without tasks keeps everything. -/
theorem deleteTasks_empty (h : Slots e₀ p proc slots k M) (hnone : ∀ t, some t ∉ slots) (n : ℕ) {i : ℕ}
    (hi : i + n = slots.length) (flag : Bool) : deleteTasks p n i flag e₀ = some (flag, e₀) := by
  induction n generalizing i with
  | zero =>
    rw [deleteTasks, Comp.bind_of_eq (procDeref_of_eq h.alive)]
    rfl
  | succ n ih =>
    have hlt : i < slots.length := by omega
    have ho : slots[i]? = some none := by
      rw [List.getElem?_eq_getElem hlt]
      cases hs : slots[i] with
      | none => rfl
      | some t => exact absurd (hs ▸ List.getElem_mem hlt) (hnone t)
    rw [h.start.slot h n i flag ho fun t ht => by cases ht]
    exact ih (by omega)

end Loop

/-! The pass over the staged configurations. -/

theorem vmmFree_other {e : Exec} {vmm : ℕ} (h : vmm ≠ e.vmmCurrent) :
    vmmFree vmm e = some ((), { e with events := e.events ++ e.vmmFreeEvents vmm }) := by
  unfold vmmFree vmmFreeEvents
  rw [Comp.read_bind]
  simp only [id]
  by_cases hk : vmm = e.vmmKernel
  · rw [if_pos hk, if_pos hk, List.append_nil]
    rfl
  · rw [if_neg hk, if_neg h, if_neg hk, if_neg h]
    rfl

/-- The state after the first `i` slots. -/
structure Cleaned (e : Exec) (i : ℕ) (f : Exec) : Prop where
  state : f = { e with frstage := f.frstage, events := f.events }
  length : f.frstage.length = e.frstage.length
  events : ∃ freed : List ℕ, f.events = e.events ++ freed.map .vmmFreed ∧ ∀ v ∈ freed, some v ∈ e.frstage
  staged : ∀ v, some v ∈ f.frstage → some v ∈ e.frstage
  current : ∀ j < i, ∀ v, f.frstage[j]? = some (some v) → v = e.vmmCurrent

theorem Cleaned.slot {e f : Exec} {i : ℕ} (h : Cleaned e i f) (hi : i < e.frstage.length) :
    ∃ g, cleanupSlot i f = some ((), g) ∧ Cleaned e (i + 1) g := by
  have hcur : f.vmmCurrent = e.vmmCurrent := by rw [h.state]
  obtain ⟨o, ho⟩ : ∃ o, f.frstage[i]? = some o := ⟨_, List.getElem?_eq_getElem (by rw [h.length]; exact hi)⟩
  have hread : Comp.readOr (fun f : Exec => f.frstage[i]?) f = some (o, f) := by
    rw [Comp.readOr_apply, ho]
    rfl
  have hlast : ∀ g : Exec, Cleaned e i g → (∀ v, g.frstage[i]? = some (some v) → v = e.vmmCurrent) →
      Cleaned e (i + 1) g := by
    intro g hg hgi
    refine ⟨hg.state, hg.length, hg.events, hg.staged, fun j hj v hv => ?_⟩
    rcases Nat.lt_succ_iff_lt_or_eq.mp hj with hj | rfl
    · exact hg.current j hj v hv
    · exact hgi v hv
  unfold cleanupSlot
  rw [Comp.bind_of_eq hread, Comp.read_bind]
  cases o with
  | none => exact ⟨f, rfl, hlast f h fun v hv => by rw [ho] at hv; cases hv⟩
  | some v =>
    dsimp only
    by_cases hv : v = f.vmmCurrent
    · rw [Comp.when_false (not_not.mpr hv)]
      refine ⟨f, rfl, hlast f h fun u hu => ?_⟩
      rw [ho] at hu
      cases hu
      exact hv.trans hcur
    · rw [Comp.when_true hv, Comp.bind_of_eq (vmmFree_other hv)]
      refine ⟨_, rfl, hlast _ ⟨?_, ?_, ?_, ?_, ?_⟩ ?_⟩
      · dsimp only
        rw [h.state]
      · simpa using h.length
      · obtain ⟨freed, hev, hmem⟩ := h.events
        by_cases hk : v = f.vmmKernel
        · refine ⟨freed, ?_, hmem⟩
          simp [vmmFreeEvents, hk, hev]
        · refine ⟨freed ++ [v], ?_, fun u hu => ?_⟩
          · simp [vmmFreeEvents, hk, hv, hev]
          · rcases List.mem_append.mp hu with hu | hu
            · exact hmem u hu
            · cases List.mem_singleton.mp hu
              exact h.staged v (List.mem_of_getElem? ho)
      · intro u hu
        rcases List.mem_or_eq_of_mem_set hu with hu | hu
        · exact h.staged u hu
        · cases hu
      · intro j hj u hu
        have hne : i ≠ j := by omega
        rw [List.getElem?_set_ne hne] at hu
        exact h.current j hj u hu
      · intro u hu
        have hlen : i < f.frstage.length := by rw [h.length]; exact hi
        dsimp only at hu
        rw [List.getElem?_set_self hlen] at hu
        cases hu

theorem vmmDoCleanup_run (e : Exec) :
    ∃ f, vmmDoCleanup e = some ((), f) ∧ Cleaned e e.frstage.length f := by
  have hstart : Cleaned e 0 e := ⟨rfl, rfl, ⟨[], by simp, by simp⟩, fun _ => id, fun j hj => absurd hj (Nat.not_lt_zero j)⟩
  have hloop := @Comp.forRange_total Exec (Cleaned e) cleanupSlot e.frstage.length 0
    (fun i _ hi f hf => hf.slot (by omega)) e hstart
  rw [Nat.zero_add] at hloop
  unfold vmmDoCleanup
  rw [Comp.read_bind]
  exact hloop

/-- What is left in the slots are configurations in use. -/
theorem Cleaned.left {e f : Exec} (h : Cleaned e e.frstage.length f) {v : ℕ} (hv : some v ∈ f.frstage) :
    v = e.vmmCurrent := by
  obtain ⟨j, hj, heq⟩ := List.mem_iff_getElem.mp hv
  refine h.current j (h.length ▸ hj) v ?_
  rw [List.getElem?_eq_getElem hj, heq]

/-! `proc_delete` as a whole. -/

/-- A process that may be deleted: it is not the kernel process, nobody holds it, and its configuration is its
own and not staged. Nothing has been done yet. -/
structure Deletable (e : Exec) (p : ℕ) (proc : ProcStruct) (slots : List (Option ℕ)) (k : ℕ) (M : Finset ℕ) : Prop
    extends Slots e p proc slots k M where
  notKernel : p ≠ e.procKernel
  muTasks : proc.muTasks = false
  muFds : proc.muFds = false
  kernel : e.cpu.taskKernel = some k
  vmm : proc.vmm ≠ e.vmmKernel
  notStaged : some proc.vmm ∉ e.frstage
  events : e.events = []

/-- The current task is one of the process. -/
def DeletesCurrent (e : Exec) (slots : List (Option ℕ)) : Prop :=
  ∃ c, e.cpu.taskCurrent = some c ∧ some c ∈ slots

/-- The state in which `proc_delete` holds the process. -/
def locked (e : Exec) (p : ℕ) (proc : ProcStruct) : Exec :=
  { e with proc := Function.update e.proc p (some proc.lock) }

def unloadEvents (proc : ProcStruct) : List TeardownEvent :=
  match proc.elfSegments with
  | none => []
  | some segments => [.unload proc.vmm segments]

section Delete

variable {e : Exec} {p k : ℕ} {proc : ProcStruct} {slots : List (Option ℕ)} {M : Finset ℕ}

theorem Slots.locked (h : Slots e p proc slots k M) : Slots (locked e p proc) p proc.lock slots k M where
  alive := Function.update_self ..
  pidtab := h.pidtab
  array := h.array
  nodup := h.nodup
  owned := h.owned
  ring := h.ring
  queued := h.queued

/-- `proc_delete` up to its loop. -/
theorem procDelete_eq (h : Deletable e p proc slots k M) : procDelete p e =
    (deleteTasks p slots.length 0 false >>= fun deletingCurrent => do
      let proc ← procDeref p
      match proc.elfSegments with
      | none => pure ()
      | some segments => record (.unload proc.vmm segments)
      Comp.when deletingCurrent do
        let current ← Comp.readOr fun e => e.cpu.taskCurrent
        taskDelete current) (locked e p proc) := by
  have hacq : procAcquire p e = some ((), locked e p proc) := by
    unfold procAcquire
    rw [Comp.bind_of_eq (procDeref_of_eq h.alive), if_neg (by simp [h.muTasks, h.muFds])]
    rfl
  have hder : procDeref p (locked e p proc) = some (proc.lock, locked e p proc) :=
    procDeref_of_eq h.toSlots.locked.alive
  have harray : Comp.readOr (fun e : Exec => e.cpu.procTasks proc.lock.pid) (locked e p proc) =
      some (slots, locked e p proc) := by
    rw [Comp.readOr_apply]
    exact congrArg _ h.array
  unfold procDelete
  rw [Comp.read_bind, if_neg h.notKernel, Comp.bind_of_eq hacq, Comp.bind_of_eq hder, Comp.bind_of_eq harray]

theorem unload_run {f : Exec} (hf : f.proc p = some proc.lock) (flag : Bool) :
    (procDeref p >>= fun proc => do
      match proc.elfSegments with
      | none => pure ()
      | some segments => record (.unload proc.vmm segments)
      Comp.when flag do
        let current ← Comp.readOr fun e => e.cpu.taskCurrent
        taskDelete current) f =
    (Comp.when flag do
      let current ← Comp.readOr fun e => e.cpu.taskCurrent
      taskDelete current) { f with events := f.events ++ unloadEvents proc } := by
  rw [Comp.bind_of_eq (procDeref_of_eq hf)]
  unfold unloadEvents ProcStruct.lock
  cases hs : proc.elfSegments with
  | none => simp only [List.append_nil]
  | some segments => rfl

/-- A process that loses its last task in the loop is read after it is freed. -/
theorem procDelete_freed (h : Deletable e p proc slots k M) (hcur : ¬ DeletesCurrent e slots)
    (hmore : ∃ t, some t ∈ slots) : procDelete p e = none := by
  have hloop := deleteTasks_freed h.toSlots.locked (fun c hc hin => hcur ⟨c, hc, hin⟩) slots.length
    (i := 0) (Nat.zero_add _) false (by simpa using hmore) (by simpa [others] using h.toSlots.locked.start)
  rw [procDelete_eq h, Comp.bind_apply, hloop]
  rfl

/-- A process without tasks only has its segments unloaded. -/
theorem procDelete_empty (h : Deletable e p proc slots k M) (hnone : ∀ t, some t ∉ slots) :
    procDelete p e = some ((), { locked e p proc with events := unloadEvents proc }) := by
  have hloop := deleteTasks_empty h.toSlots.locked hnone slots.length (i := 0) (Nat.zero_add _) false
  rw [procDelete_eq h, Comp.bind_of_eq hloop, unload_run h.toSlots.locked.alive]
  have hev : (locked e p proc).events ++ unloadEvents proc = unloadEvents proc := by
    rw [show (locked e p proc).events = [] from h.events, List.nil_append]
  rw [hev]
  rfl

/-- The current task waits for its deletion, with which its process goes. -/
structure Pending (e : Exec) (p : ℕ) (proc : ProcStruct) (slots : List (Option ℕ)) (k : ℕ) (M : Finset ℕ) (c : ℕ)
    (f : Exec) : Prop where
  alive : f.proc p = some proc.lock
  pidtab : f.pidtab proc.pid = some p
  array : f.cpu.procTasks proc.pid = some (eraseSlots (others (some c) slots) slots)
  ring : f.cpu.HasRing k (M.filter (· ∉ others (some c) slots))
  pid : (f.cpu.task c).pid = proc.pid
  type : (f.cpu.task c).type = .deletePending
  current : f.cpu.taskCurrent = some c
  kernel : f.cpu.taskKernel = some k
  vmmKernel : f.vmmKernel = e.vmmKernel
  vmmCurrent : f.vmmCurrent = e.vmmCurrent
  grows : f.frstageGrows = e.frstageGrows
  notStaged : some proc.vmm ∉ f.frstage
  length : f.frstage.length = e.frstage.length
  events : ∃ freed : List ℕ, proc.vmm ∉ freed ∧ f.events =
    (others (some c) slots).map .taskFreed ++ unloadEvents proc ++ freed.map .vmmFreed

theorem procDelete_current (h : Deletable e p proc slots k M) {c : ℕ} (hcur : e.cpu.taskCurrent = some c)
    (hc : some c ∈ slots) : ∃ f, procDelete p e = some ((), f) ∧ Pending e p proc slots k M c f := by
  obtain ⟨f, hloop, hd⟩ := deleteTasks_current h.toSlots.locked hcur hc slots.length (i := 0) (Nat.zero_add _) false
    (by simpa [others] using h.toSlots.locked.start)
  have hflag : (false || decide (some c ∈ slots.drop 0)) = true := by simpa using hc
  rw [hflag] at hloop
  have hfcur : f.cpu.taskCurrent = some c := hd.vars.current.trans hcur
  let g : Exec := { f with events := f.events ++ unloadEvents proc }
  have hread : Comp.readOr (fun e : Exec => e.cpu.taskCurrent) g = some (c, g) := by
    rw [Comp.readOr_apply]
    exact congrArg _ hfcur
  have hdel : taskDelete c g = some ((), { g with
      cpu := f.cpu.setTask c fun t => { t with type := .deletePending } }) := by
    unfold taskDelete
    rw [Comp.read_bind, if_pos hfcur]
    rfl
  refine ⟨{ g with cpu := f.cpu.setTask c fun t => { t with type := .deletePending } }, ?_, ?_⟩
  · rw [procDelete_eq h, Comp.bind_of_eq hloop, unload_run (hd.alive h.toSlots.locked), Comp.when_true rfl,
      Comp.bind_of_eq hread, hdel]
  · have hfield := hd.state
    constructor
    · exact hd.alive h.toSlots.locked
    · dsimp only [g]
      rw [hfield]
      exact h.pidtab
    · exact hd.array
    · exact hd.ring.congr (fun t _ =>
        Sched.links_setTask f.cpu c (f := fun t => { t with type := .deletePending }) rfl rfl t) rfl
    · dsimp only
      rw [Sched.setTask_task_self]
      exact (congrArg Task.pid (hd.task c)).trans (h.owned c hc)
    · dsimp only
      rw [Sched.setTask_task_self]
    · exact hfcur
    · exact hd.vars.kernel.trans h.kernel
    · dsimp only [g]
      rw [hfield]
      rfl
    · dsimp only [g]
      rw [hfield]
      rfl
    · dsimp only [g]
      rw [hfield]
      rfl
    · dsimp only [g]
      rw [hfield]
      exact h.notStaged
    · dsimp only [g]
      rw [hfield]
      rfl
    · refine ⟨[], by simp, ?_⟩
      dsimp only [g]
      rw [hfield]
      simp [locked, h.events]

end Delete

/-! The time up to the switch. -/

/-- The timer ticks, tasks become ready or are made to wait, and the scheduler finds no other task. -/
inductive Waiting (e : Exec) : Exec → Prop
  | refl : Waiting e e
  | tick {f : Exec} (h : Waiting e f) (n : ℕ) : Waiting e { f with cpu := { f.cpu with timerTick := n } }
  | ready {f : Exec} (h : Waiting e f) (t : ℕ) (b : Bool) :
      Waiting e { f with cpu := f.cpu.setTask t fun c => { c with ready := b } }
  | idle {f g : Exec} {fuel : ℕ} (h : Waiting e f) (hr : taskYield fuel f = some (none, g)) : Waiting e g

/-- The scheduler chooses another task than the current one. -/
structure SwitchesTo (e : Exec) (fuel t : ℕ) : Prop where
  block : e.cpu.yieldBlockCnt = 0
  walk : ∃ c d, e.cpu.taskCurrent = some c ∧ t ≠ c ∧
    taskWalk e.cpu c (taskSelect e.cpu) fuel c (c, 0) = some (t, d)

section Wait

variable {e f g : Exec} {p k : ℕ} {proc : ProcStruct} {slots : List (Option ℕ)} {M : Finset ℕ} {c : ℕ}

theorem Pending.cpu (h : Pending e p proc slots k M c f) {s : Sched} (hprocs : s.procTasks = f.cpu.procTasks)
    (hlinks : ∀ t, s.next t = f.cpu.next t ∧ s.prev t = f.cpu.prev t) (haddr : s.kernelStartAddr = f.cpu.kernelStartAddr)
    (hpid : (s.task c).pid = (f.cpu.task c).pid) (htype : (s.task c).type = (f.cpu.task c).type)
    (hcur : s.taskCurrent = f.cpu.taskCurrent) (hkernel : s.taskKernel = f.cpu.taskKernel) :
    Pending e p proc slots k M c { f with cpu := s } where
  alive := h.alive
  pidtab := h.pidtab
  array := by rw [← h.array, ← hprocs]
  ring := h.ring.congr (fun t _ => hlinks t) haddr
  pid := hpid.trans h.pid
  type := htype.trans h.type
  current := hcur.trans h.current
  kernel := hkernel.trans h.kernel
  vmmKernel := h.vmmKernel
  vmmCurrent := h.vmmCurrent
  grows := h.grows
  notStaged := h.notStaged
  length := h.length
  events := h.events

theorem Pending.cleaned (h : Pending e p proc slots k M c f) (hc : Cleaned f f.frstage.length g) :
    Pending e p proc slots k M c g := by
  obtain ⟨hstate, hlen, ⟨freed', hev', hmem⟩, hstaged, -⟩ := hc
  obtain ⟨freed, hfreed, hev⟩ := h.events
  have hevents : ∃ freed : List ℕ, proc.vmm ∉ freed ∧ g.events =
      (others (some c) slots).map .taskFreed ++ unloadEvents proc ++ freed.map .vmmFreed := by
    refine ⟨freed ++ freed', fun hin => ?_, by rw [hev', hev, List.map_append, List.append_assoc]⟩
    rcases List.mem_append.mp hin with hin | hin
    · exact hfreed hin
    · exact h.notStaged (hmem _ hin)
  have hns : some proc.vmm ∉ g.frstage := fun hin => h.notStaged (hstaged _ hin)
  rw [hstate]
  exact ⟨h.alive, h.pidtab, h.array, h.ring, h.pid, h.type, h.current, h.kernel, h.vmmKernel, h.vmmCurrent, h.grows,
    hns, hlen.trans h.length, hevents⟩

/-- Nothing that happens before the switch concerns the process. -/
theorem Pending.waiting (h : Pending e p proc slots k M c f) (hw : Waiting f g) : Pending e p proc slots k M c g := by
  induction hw with
  | refl => exact h
  | tick _ n ih => exact ih.cpu rfl (fun _ => ⟨rfl, rfl⟩) rfl rfl rfl rfl rfl
  | @ready f' _ t b ih =>
    have htask : ∀ u, (f'.cpu.setTask t fun c => { c with ready := b }).task u =
        if u = t then { f'.cpu.task t with ready := b } else f'.cpu.task u := fun u => Function.update_apply ..
    refine ih.cpu rfl (fun u => Sched.links_setTask f'.cpu t (f := fun c => { c with ready := b }) rfl rfl u)
      rfl ?_ ?_ rfl rfl
    · rw [htask]
      split_ifs with hu
      · rw [hu]
      · rfl
    · rw [htask]
      split_ifs with hu
      · rw [hu]
      · rfl
  | @idle f' g' fuel _ hr ih =>
    unfold taskYield at hr
    rw [Comp.read_bind] at hr
    simp only [id, ih.kernel] at hr
    by_cases hblock : f'.cpu.yieldBlockCnt ≠ 0
    · rw [if_pos hblock] at hr
      cases hr
      exact ih
    · rw [if_neg hblock] at hr
      obtain ⟨f'', hclean, hcl⟩ := vmmDoCleanup_run f'
      have ih' := ih.cleaned hcl
      rw [Comp.bind_of_eq hclean] at hr
      simp only [ih.current] at hr
      obtain ⟨sel, f₃, hsel, hr⟩ := Comp.bind_eq_some.mp hr
      obtain ⟨_, hwalk, heq⟩ := Option.map_eq_some_iff.mp hsel
      obtain ⟨chosen, -, heq'⟩ := Option.map_eq_some_iff.mp hwalk
      cases heq'
      cases heq
      by_cases hsame : chosen.1 = c
      · rw [if_pos hsame] at hr
        cases hr
        exact ih'
      · rw [if_neg hsame] at hr
        obtain ⟨type, f₄, -, hr⟩ := Comp.bind_eq_some.mp hr
        obtain ⟨-, f₅, -, hr⟩ := Comp.bind_eq_some.mp hr
        obtain ⟨-, f₆, -, hr⟩ := Comp.bind_eq_some.mp hr
        cases hr

/-- The switch deletes the task, and the process with it. -/
theorem Pending.switch (h : Pending e p proc slots k M c f) (hs : Slots e p proc slots k M) (hc : some c ∈ slots)
    {fuel t : ℕ} (hsw : SwitchesTo f fuel t) :
    ∃ f' g, vmmDoCleanup f = some ((), f') ∧ Cleaned f f.frstage.length f' ∧
      taskYield fuel f = some (some t, g) ∧ g.pidtab proc.pid = none ∧
      g.cpu.HasRing k (M.filter fun u => some u ∉ slots) ∧
      g.events = f'.events ++ f'.vmmFreeEvents proc.vmm ++ [.procFreed p] ++ [.taskFreed c] := by
  obtain ⟨f', hclean, hcl⟩ := vmmDoCleanup_run f
  have h' := h.cleaned hcl
  obtain ⟨c', d, hcur, hne, hwalk⟩ := hsw.walk
  obtain rfl : c' = c := Option.some.inj (hcur.symm.trans h.current)
  have hcpu : f'.cpu = f.cpu := by rw [hcl.state]
  have hempty : ∀ u, some u ∉ eraseSlots (others (some c') slots ++ [c']) slots := by
    intro u hu
    obtain ⟨hin, hout⟩ := mem_eraseSlots.mp hu
    rw [List.mem_append, List.mem_singleton, mem_others] at hout
    by_cases huc : c' = u
    · exact hout (.inr huc.symm)
    · exact hout (.inl ⟨hin, fun heq => huc (Option.some.inj heq)⟩)
  obtain ⟨s', hrun, -, hlast⟩ := taskDoDelete_exec h'.pid h'.pidtab h'.alive h'.array
  obtain ⟨frstage, hexec⟩ := hlast hempty
  let f₁ : Exec := { f' with
    cpu := s'
    frstage := frstage
    pidtab := Function.update f'.pidtab proc.lock.pid none
    proc := Function.update f'.proc p none
    events := f'.events ++ f'.vmmFreeEvents proc.lock.vmm ++ [.procFreed p] ++ [.taskFreed c'] }
  obtain ⟨s'', hto, hswitched⟩ := taskSwitchTo_run { s' with taskCurrent := none } t
  have hsel : onCpu (Comp.readOr fun s => taskWalk s c' (taskSelect s) fuel c' (c', 0)) f' = some ((t, d), f') := by
    have hread : Comp.readOr (fun s => taskWalk s c' (taskSelect s) fuel c' (c', 0)) f'.cpu = some ((t, d), f'.cpu) := by
      rw [Comp.readOr_apply, hcpu, hwalk]
      rfl
    exact onCpu_of_eq hread
  have hnone : onCpu (Comp.modify fun s => { s with taskCurrent := none }) f₁ =
      some ((), { f₁ with cpu := { s' with taskCurrent := none } }) := rfl
  have hswitch : onCpu (taskSwitchTo t) { f₁ with cpu := { s' with taskCurrent := none } } =
      some ((), { f₁ with cpu := s'' }) := onCpu_of_eq hto
  refine ⟨f', { f₁ with cpu := s'' }, hclean, hcl, ?_, Function.update_self .., ?_, rfl⟩
  · unfold taskYield
    rw [Comp.read_bind]
    simp only [id, h.kernel]
    rw [if_neg (not_not.mpr hsw.block), Comp.bind_of_eq hclean]
    simp only [h.current]
    rw [Comp.bind_of_eq hsel, if_neg hne, Comp.read_bind, Comp.when_true h'.type, Comp.bind_assoc,
      Comp.bind_of_eq hexec, Comp.bind_of_eq hnone, Comp.bind_of_eq hswitch]
    rfl
  · obtain ⟨hM, hk⟩ := hs.queued c' hc
    have hmem : c' ∈ M.filter (· ∉ others (some c') slots) :=
      Finset.mem_filter.mpr ⟨hM, fun hin => (mem_others.mp hin).2 rfl⟩
    have hring := h'.ring.erase hmem hk hrun
    have hset : (M.filter (· ∉ others (some c') slots)).erase c' = M.filter fun u => some u ∉ slots := by
      ext u
      simp only [Finset.mem_filter, Finset.mem_erase, mem_others]
      constructor
      · rintro ⟨hu, hin, hout⟩
        exact ⟨hin, fun hslot => hout ⟨hslot, fun heq => hu (Option.some.inj heq).symm⟩⟩
      · rintro ⟨hin, hout⟩
        exact ⟨fun heq => hout (heq ▸ hc), hin, fun hslot => hout hslot.1⟩
    rw [← hset]
    exact hring.congr (fun u _ => hswitched.links u) hswitched.addr

end Wait

/-! The outcome. -/

/-- Everything that belongs to the process is gone, each thing once and in the right order. -/
structure TornDown (proc : ProcStruct) (slots : List (Option ℕ)) (k : ℕ) (M : Finset ℕ) (e : Exec) : Prop where
  freed : ∀ t, some t ∈ slots → e.events.count (.taskFreed t) = 1
  removed : e.cpu.HasRing k (M.filter fun u => some u ∉ slots)
  unloaded : ∀ segments, proc.elfSegments = some segments → ∃ before after,
    e.events = before ++ .unload proc.vmm segments :: after ∧
      (∀ ev ∈ before ++ after, ∀ v s, ev ≠ .unload v s) ∧ .vmmFreed proc.vmm ∉ before ∧ .vmmStaged proc.vmm ∉ before
  vmm : e.events.count (.vmmFreed proc.vmm) + e.events.count (.vmmStaged proc.vmm) = 1
  pid : e.pidtab proc.pid = none

/-- `proc_delete` returns, and the process is torn down: then, or, where the current task is one of its own, when
the yield in the state `e₂` has switched away. -/
def TearsDown (e : Exec) (p : ℕ) (proc : ProcStruct) (slots : List (Option ℕ)) (k : ℕ) (M : Finset ℕ)
    (e₂ : Exec) (fuel : ℕ) : Prop :=
  ∃ e₁, procDelete p e = some ((), e₁) ∧
    (¬ DeletesCurrent e slots → TornDown proc slots k M e₁) ∧
    (DeletesCurrent e slots → ∃ t e₃, taskYield fuel e₂ = some (some t, e₃) ∧ TornDown proc slots k M e₃)

section Outcome

variable {e f g : Exec} {p k : ℕ} {proc : ProcStruct} {slots : List (Option ℕ)} {M : Finset ℕ} {c : ℕ}

theorem count_taskFreed (l : List ℕ) (t : ℕ) : (l.map TeardownEvent.taskFreed).count (.taskFreed t) = l.count t :=
  List.count_map_of_injective l _ (fun _ _ h => TeardownEvent.taskFreed.inj h) t

theorem count_map_taskFreed {l : List ℕ} (ev : TeardownEvent) (h : ∀ t, ev ≠ .taskFreed t) :
    (l.map TeardownEvent.taskFreed).count ev = 0 := by
  rw [List.count_eq_zero, List.mem_map]
  rintro ⟨t, -, rfl⟩
  exact h t rfl

theorem count_map_vmmFreed (l : List ℕ) (ev : TeardownEvent) (h : ∀ v ∈ l, ev ≠ .vmmFreed v) :
    (l.map TeardownEvent.vmmFreed).count ev = 0 := by
  rw [List.count_eq_zero, List.mem_map]
  rintro ⟨v, hv, rfl⟩
  exact h v hv rfl

theorem count_unloadEvents (ev : TeardownEvent) (h : ∀ v s, ev ≠ .unload v s) :
    (unloadEvents proc).count ev = 0 := by
  rw [List.count_eq_zero]
  unfold unloadEvents
  cases proc.elfSegments with
  | none => exact List.not_mem_nil
  | some s =>
    rw [List.mem_singleton]
    exact h _ _

/-- What `vmm_free` does is an event of one kind. -/
theorem mem_vmmFreeEvents {v : ℕ} {ev : TeardownEvent} (h : ev ∈ e.vmmFreeEvents v) :
    ev = .vmmFreed v ∨ ev = .vmmStaged v := by
  unfold vmmFreeEvents at h
  split_ifs at h
  · cases h
  · exact .inr (List.mem_singleton.mp h)
  · cases h
  · exact .inl (List.mem_singleton.mp h)

theorem count_vmmFreeEvents {v : ℕ} (hk : v ≠ e.vmmKernel) :
    (e.vmmFreeEvents v).count (.vmmFreed v) + (e.vmmFreeEvents v).count (.vmmStaged v) = 1 ↔
      (v = e.vmmCurrent → e.Room) := by
  unfold vmmFreeEvents
  rw [if_neg hk]
  by_cases hc : v = e.vmmCurrent
  · by_cases hr : e.Room <;> simp [hc, hr]
  · simp [hc]

/-- Behind the pass over the staged configurations there is room where there are slots at all. -/
theorem Pending.room_iff (h : Pending e p proc slots k M c f) (hc : Cleaned f f.frstage.length g)
    (hcur : proc.vmm = e.vmmCurrent) : g.Room ↔ e.frstage ≠ [] ∨ e.frstageGrows = true := by
  have hg := h.cleaned hc
  unfold Room
  rw [hg.grows]
  refine or_congr_left ?_
  have hlen : g.frstage.length = e.frstage.length := hg.length
  constructor
  · intro hin hnil
    rw [hnil, List.length_nil, List.length_eq_zero_iff] at hlen
    rw [hlen] at hin
    cases hin
  · intro hne
    obtain ⟨o, ho⟩ := List.exists_mem_of_ne_nil g.frstage fun hnil => hne (by
      rw [hnil, List.length_nil] at hlen
      exact List.length_eq_zero_iff.mp hlen.symm)
    cases o with
    | none => exact ho
    | some v =>
      have hv := (hc.left ho).trans (h.vmmCurrent.trans hcur.symm)
      exact absurd (hv ▸ ho) hg.notStaged

/-- The state behind the switch is right exactly when the configuration was freed or staged. -/
theorem Pending.tornDown_iff (h : Pending e p proc slots k M c f) (hd : Deletable e p proc slots k M)
    (hcl : Cleaned f f.frstage.length g) {f' : Exec}
    (hev : f'.events = g.events ++ g.vmmFreeEvents proc.vmm ++ [.procFreed p] ++ [.taskFreed c])
    (hpid : f'.pidtab proc.pid = none) (hring : f'.cpu.HasRing k (M.filter fun u => some u ∉ slots)) :
    TornDown proc slots k M f' ↔ (proc.vmm = e.vmmCurrent → e.frstage ≠ [] ∨ e.frstageGrows = true) := by
  have hg := h.cleaned hcl
  obtain ⟨freed, hfreed, hevents⟩ := hg.events
  have hkernel : proc.vmm ≠ g.vmmKernel := by
    rw [hg.vmmKernel]
    exact hd.vmm
  have hvmm : f'.events.count (.vmmFreed proc.vmm) + f'.events.count (.vmmStaged proc.vmm) = 1 ↔
      (proc.vmm = e.vmmCurrent → e.frstage ≠ [] ∨ e.frstageGrows = true) := by
    have hfree := count_map_vmmFreed freed (.vmmFreed proc.vmm) fun v hv heq =>
      hfreed (TeardownEvent.vmmFreed.inj heq ▸ hv)
    have hstage := count_map_vmmFreed freed (.vmmStaged proc.vmm) fun v hv heq => by cases heq
    rw [hev, hevents]
    simp only [List.count_append, hfree, hstage,
      count_map_taskFreed (.vmmFreed proc.vmm) (fun t heq => by cases heq),
      count_map_taskFreed (.vmmStaged proc.vmm) (fun t heq => by cases heq),
      count_unloadEvents (.vmmFreed proc.vmm) (fun v s heq => by cases heq),
      count_unloadEvents (.vmmStaged proc.vmm) (fun v s heq => by cases heq)]
    simp only [List.count_singleton, reduceCtorEq, beq_iff_eq, if_false, Nat.zero_add, Nat.add_zero]
    rw [count_vmmFreeEvents hkernel, hg.vmmCurrent]
    exact forall_congr' fun hcur => h.room_iff hcl hcur
  refine ⟨fun htorn => hvmm.mp htorn.vmm, fun hroom => ⟨fun t ht => ?_, hring, fun segments hs => ?_, hvmm.mpr hroom, hpid⟩⟩
  · have hfree := count_map_vmmFreed freed (.taskFreed t) fun v hv heq => by cases heq
    have hlast : (g.vmmFreeEvents proc.vmm).count (.taskFreed t) = 0 := by
      rw [List.count_eq_zero]
      intro hin
      rcases mem_vmmFreeEvents hin with heq | heq <;> cases heq
    have hothers : (others (some c) slots).count t = if t = c then 0 else 1 := by
      by_cases htc : t = c
      · rw [if_pos htc, List.count_eq_zero, mem_others]
        exact fun hin => hin.2 (congrArg some htc.symm)
      · have hin : t ∈ others (some c) slots := mem_others.mpr ⟨ht, fun heq => htc (Option.some.inj heq).symm⟩
        rw [if_neg htc]
        exact List.count_eq_one_of_mem (hd.nodup.filter _) hin
    rw [hev, hevents]
    simp only [List.count_append, count_taskFreed, hfree, hlast, hothers,
      count_unloadEvents (.taskFreed t) (fun v s heq => by cases heq)]
    by_cases htc : t = c
    · simp [htc]
    · have hct : c ≠ t := fun heq => htc heq.symm
      simp [htc, hct]
  · refine ⟨(others (some c) slots).map .taskFreed,
      freed.map .vmmFreed ++ g.vmmFreeEvents proc.vmm ++ [.procFreed p] ++ [.taskFreed c], ?_, ?_, ?_, ?_⟩
    · rw [hev, hevents, unloadEvents, hs]
      simp [List.append_assoc]
    · intro ev hin v s heq
      subst heq
      simp only [List.mem_append, List.mem_map, reduceCtorEq, and_false, exists_false, List.mem_singleton,
        false_or, or_false] at hin
      rcases mem_vmmFreeEvents hin with heq | heq <;> cases heq
    · simp
    · simp

end Outcome

end Exec

open Exec

/-- The kernel task and one task of the process at `0x5000`, each of which may be the current one. -/
def teardownSample (current : ℕ) : Exec where
  cpu :=
    { kernelStartAddr := 0x100
      task := fun t => { TaskCommon.blank with
        ready := true
        pid := if t = 0x200 then 1 else 0
        prev := if t = 0x200 then 0x100 else 0x200
        next := if t = 0x200 then 0x100 else 0x200 }
      taskKernel := some 0x100
      taskCurrent := some current
      yieldBlockCnt := 0
      yieldTick := 0
      timerTick := 5
      procTasks := fun pid => if pid = 1 then some [some 0x200, none] else none }
  proc := fun p => if p = 0x5000 then some ⟨1, 0x7000, some [], false, false⟩ else none
  pidtab := fun pid => if pid = 1 then some 0x5000 else none
  procKernel := 0x4000
  vmmKernel := 0x1000
  vmmCurrent := 0x7000
  frstage := []
  frstageGrows := true
  events := []

theorem teardownSample_deletable (current : ℕ) : Deletable (teardownSample current) 0x5000
    ⟨1, 0x7000, some [], false, false⟩ [some 0x200, none] 0x100 {0x100, 0x200} where
  alive := rfl
  pidtab := rfl
  array := rfl
  nodup := by decide
  owned := by
    intro t ht
    simp only [List.mem_cons, Option.some.injEq, reduceCtorEq, List.not_mem_nil, or_false] at ht
    rw [ht]
    rfl
  ring := by
    refine ⟨⟨[0x200], ⟨by decide, ?_⟩, fun t => by simp⟩, fun t ht => ?_⟩
    · exact .cons_cons ⟨rfl, rfl⟩ (.cons_cons ⟨rfl, rfl⟩ (.singleton _))
    · simp only [Finset.mem_insert, Finset.mem_singleton] at ht
      rcases ht with rfl | rfl <;> simp [teardownSample]
  queued := by
    intro t ht
    simp only [List.mem_cons, Option.some.injEq, reduceCtorEq, List.not_mem_nil, or_false] at ht
    rw [ht]
    decide
  notKernel := by simp [teardownSample]
  muTasks := rfl
  muFds := rfl
  kernel := rfl
  vmm := by simp [teardownSample]
  notStaged := by simp [teardownSample]
  events := rfl

end SysX
