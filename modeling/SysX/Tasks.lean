import SysX.Machine

/-!
Tasks and the scheduler (`exec/task.c`). Task structures are named by their addresses. What tasks have in
the memory manager (their stacks and the VMM configurations staged for deletion) is not part of this state.
-/
namespace SysX

/-- `task_common_t` -/
structure TaskCommon extends Task where
  prev : ℕ
  next : ℕ

/-- A structure that `task_create_stub` has cleared. -/
def TaskCommon.blank : TaskCommon where
  type := .kernel
  ready := false
  pid := 0
  stackBottom := 0
  stackSize := 0
  tSwitch := 0
  prev := 0
  next := 0

/-- The state of the scheduler. `procTasks pid` is the array `tasks` of the process `pid`, if there is one, and
`kernelStartAddr` is `&kernel_start`, where the linker has put that variable. -/
structure Sched where
  kernelStartAddr : ℕ
  task : ℕ → TaskCommon
  taskKernel : Option ℕ
  taskCurrent : Option ℕ
  yieldBlockCnt : ℕ
  yieldTick : ℕ
  timerTick : ℕ
  procTasks : ℕ → Option (List (Option ℕ))

abbrev SchedOp := Comp Sched

/-- How many values `timer_tick_t` has. -/
def timerTickMod : ℕ := 2 ^ 32

def taskKernelStackSize : ℕ := 2048
def taskFramesz : ℕ := 4096
def procTaskAllocsz : ℕ := 4

namespace Sched

def next (s : Sched) (t : ℕ) : ℕ := (s.task t).next
def prev (s : Sched) (t : ℕ) : ℕ := (s.task t).prev

def setTask (s : Sched) (t : ℕ) (f : TaskCommon → TaskCommon) : Sched :=
  { s with task := Function.update s.task t (f (s.task t)) }

end Sched

def taskSetNext (t next : ℕ) : SchedOp Unit := Comp.modify fun s => s.setTask t fun c => { c with next := next }
def taskSetPrev (t prev : ℕ) : SchedOp Unit := Comp.modify fun s => s.setTask t fun c => { c with prev := prev }

def taskSetReady (t : ℕ) (ready : Bool) : SchedOp Unit :=
  Comp.modify fun s => s.setTask t fun c => { c with ready := ready }

def taskYieldBlock : SchedOp Unit := Comp.modify fun s => { s with yieldBlockCnt := s.yieldBlockCnt + 1 }
def taskYieldUnblock : SchedOp Unit := Comp.modify fun s => { s with yieldBlockCnt := s.yieldBlockCnt - 1 }

def taskInsert (task target : ℕ) : SchedOp Unit := do
  taskYieldBlock
  taskSetPrev task target
  let next ← Comp.read fun s => s.next target
  taskSetNext task next
  let next ← Comp.read fun s => s.next task
  taskSetPrev next task
  taskSetNext target task
  taskYieldUnblock

/-- `proc_add_task` for the process `pid`. `grown` tells whether the array could be enlarged. -/
def procAddTask (pid task : ℕ) (grown : Bool) : SchedOp (Option ℕ) := do
  let tasks ← Comp.readOr fun s => s.procTasks pid
  let put (i : ℕ) (tasks : List (Option ℕ)) : SchedOp (Option ℕ) := do
    Comp.modify fun s =>
      { s with procTasks := Function.update s.procTasks pid (some (tasks.set i (some task))) }
    Comp.modify fun s => s.setTask task fun c => { c with pid := pid }
    pure (some i)
  match tasks.findIdx? fun t => t = some task ∨ t = none with
  | some i => if tasks[i]? = some (some task) then pure (some i) else put i tasks
  | none =>
    if grown then put tasks.length (tasks ++ List.replicate procTaskAllocsz none) else pure none

/-- What the memory manager gives to `task_create`: the task structure, room in the array of the process,
where the free addresses for the stack start, and how many frames are left for it. -/
structure TaskMemory where
  task : Option ℕ
  grown : Bool
  firstFree : ℕ
  frames : ℕ

/-- The end of `task_create`, when the task has got its stack. -/
def taskStart (user : Bool) (entry task stackSize : ℕ) : SchedOp (Option ℕ) := do
  Comp.modify fun s => s.setTask task fun c => { c with stackSize := stackSize }
  Comp.modify fun s => s.setTask task fun c => { c with tSwitch := s.timerTick }
  Comp.modify fun s => s.setTask task fun c => { c with type := if user then .user else .kernel }
  Comp.when (entry ≠ 0) (Comp.modify fun s => s.setTask task fun c => { c with ready := true })
  let kernel ← Comp.readOr (·.taskKernel)
  taskInsert task kernel
  pure (some task)

def taskCreate (user : Bool) (pid stackSz entry stackBottom : ℕ) (mem : TaskMemory) : SchedOp (Option ℕ) :=
  match mem.task with
  | none => pure none
  | some task => do
    Comp.modify fun s => s.setTask task fun _ => TaskCommon.blank
    let idx ← procAddTask pid task mem.grown
    if idx = none then pure none
    else do
      let stackSz := if stackSz % taskFramesz ≠ 0 then stackSz + (taskFramesz - stackSz % taskFramesz) else stackSz
      let stackBottom := if stackBottom ≠ 0 then stackBottom else mem.firstFree + stackSz
      Comp.modify fun s => s.setTask task fun c => { c with stackBottom := stackBottom }
      if stackBottom = 0 then pure none
      else
        let stackFrames := min mem.frames ((stackSz + taskFramesz - 1) / taskFramesz)
        if stackFrames * taskFramesz ≤ (if user then taskKernelStackSize else 0) then pure none
        else taskStart user entry task (stackFrames * taskFramesz)

/-- The part of `task_do_delete` that takes the task out of its process, and the process out of the table when
it was the last one. -/
def procRemoveTask (task : ℕ) : SchedOp Unit := do
  let pid ← Comp.read fun s => (s.task task).pid
  let tasks ← Comp.read fun s => s.procTasks pid
  match tasks with
  | none => pure ()
  | some tasks =>
    let left := tasks.map fun t => if t = some task then none else t
    let remaining := left.countP Option.isSome
    Comp.modify fun s =>
      { s with procTasks := Function.update s.procTasks pid (if remaining = 0 then none else some left) }

def taskDoDelete (task : ℕ) : SchedOp Unit := do
  taskYieldBlock
  procRemoveTask task
  let prev ← Comp.read fun s => s.prev task
  let next ← Comp.read fun s => s.next task
  taskSetNext prev next
  let next ← Comp.read fun s => s.next task
  let prev ← Comp.read fun s => s.prev task
  taskSetPrev next prev
  taskYieldUnblock

def taskDelete (task : ℕ) : SchedOp Unit := do
  let current ← Comp.read (·.taskCurrent)
  if current = some task then Comp.modify fun s => s.setTask task fun c => { c with type := .deletePending }
  else taskDoDelete task

/-- `task_init_stub`, where `task` is the cleared structure of the kernel task. -/
def taskInitStub (task kernelStackBottom kernelStackTop : ℕ) : SchedOp Unit := do
  Comp.modify fun s => s.setTask task fun _ =>
    { TaskCommon.blank with
      prev := task
      next := task
      stackBottom := kernelStackBottom
      stackSize := kernelStackBottom - kernelStackTop }
  Comp.modify fun s => { s with taskKernel := some task }

/-- The loop of `task_yield`: the body sees each task behind `task`, until the current one comes again. -/
def taskWalk {β : Type} (s : Sched) (current : ℕ) (body : β → ℕ → β) : (fuel task : ℕ) → β → Option β
  | 0, _, _ => none
  | fuel + 1, task, b =>
    let task := s.next task
    -- the assertion of the loop
    if task < s.kernelStartAddr then none
    else if task = current then some b
    else taskWalk s current body fuel task (body b task)

/-- How long the task has been switched out. -/
def taskDelta (s : Sched) (task : ℕ) : ℕ :=
  (s.timerTick + timerTickMod - (s.task task).tSwitch) % timerTickMod

/-- The body of the loop: `task_selected` and `tdelta_max` after `task`. -/
def taskSelect (s : Sched) (sel : ℕ × ℕ) (task : ℕ) : ℕ × ℕ :=
  if ¬(s.task task).ready then sel
  else if sel.2 < taskDelta s task then (task, taskDelta s task)
  else sel

/-- `task_yield_tick = task_common(task)->t_switch = timer_tick` and `task_switch`, which leaves the ready flag of
the task set. -/
def taskSwitchTo (task : ℕ) : SchedOp Unit := do
  Comp.modify fun s => s.setTask task fun c => { c with tSwitch := s.timerTick }
  Comp.modify fun s => { s with yieldTick := s.timerTick }
  Comp.modify fun s => { s with taskCurrent := some task }
  taskSetReady task true

/-- `task_yield`, with the task that it switches to. -/
def taskYield (fuel : ℕ) : SchedOp (Option ℕ) := do
  let s ← Comp.read id
  match s.taskKernel with
  | none => pure none
  | some kernel =>
    if s.yieldBlockCnt ≠ 0 then pure none
    else
      match s.taskCurrent with
      | none =>
        if (s.task kernel).ready then do
          taskSwitchTo kernel
          pure (some kernel)
        else pure none
      | some current => do
        let sel ← Comp.readOr fun s => taskWalk s current (taskSelect s) fuel current (current, 0)
        if sel.1 = current then pure none
        else do
          let type ← Comp.read fun s => (s.task current).type
          Comp.when (type = .deletePending) (do
            taskDoDelete current
            Comp.modify fun s => { s with taskCurrent := none })
          taskSwitchTo sel.1
          pure (some sel.1)

end SysX
