import SysX.ContextSwitch
import SysX.Lib.Labelled
import Mathlib.Data.Set.Insert

/-!
What the switches add up to: with interrupts, switches, new and deleted tasks in any order, each task has a processor to
itself.
-/
namespace SysX

/-- What can be said of the tasks. -/
inductive TaskEvent where
  /-- The current task has come to these registers. -/
  | ran (r : Regs) (ext : ExtRegs)
  /-- A handler has left these registers of the extensions behind. -/
  | handled (ext : ExtRegs)
  | created (t : Word) (r : Regs) (ext : ExtRegs)
  | deleted (t : Word)
  | switched (t : Word)

/-- A processor for each task. -/
structure Processors where
  cpu : Word → Option (Regs × ExtRegs)
  current : Option Word

namespace Processors

/-- The processor of a task is what only the task itself changes, but that its data segments are reset when it is
switched to. -/
def after (p : Processors) : TaskEvent → Processors
  | .ran r ext => { p with cpu := fun t => if p.current = some t then some (r, ext) else p.cpu t }
  | .handled ext => { p with cpu := fun t => if p.current = some t then (p.cpu t).map fun cpu => (cpu.1, ext) else p.cpu t }
  | .created t r ext => { p with cpu := Function.update p.cpu t (some (r, ext)) }
  | .deleted t => ⟨Function.update p.cpu t none, if p.current = some t then none else p.current⟩
  | .switched t => ⟨Function.update p.cpu t ((p.cpu t).map fun cpu => (cpu.1.resumed, cpu.2)), some t⟩

end Processors

/-- A program runs, or it has been interrupted and its registers are at `context`. -/
inductive TaskPhase where
  | running (r : Regs)
  | interrupted (r : Regs) (context : Word)

/-- The registers that the current program has, or had when it was interrupted. -/
def TaskPhase.regs : TaskPhase → Regs
  | .running r => r
  | .interrupted r _ => r

structure Tasking where
  s : SwitchState
  phase : TaskPhase
  tasks : Set Word

/-- What a program and a handler leave alone: the stack segment of the kernel, and what `task_switch` has saved. -/
structure Tasking.Keeps (c : Tasking) (s' : SwitchState) : Prop where
  ss : s'.ss = c.s.ss
  on : s'.x86extOn = c.s.x86extOn
  current : s'.taskCurrent = c.s.taskCurrent
  task : ∀ t ∈ c.tasks, t ≠ c.s.taskCurrent →
    (s'.task t).regs = (c.s.task t).regs ∧ (s'.task t).regsExt = (c.s.task t).regsExt

/-- One step. Kernel code that runs for a task is part of its program, up to the last interrupt before a switch. -/
inductive TaskStep (fninit : (ℕ → UInt8) → ℕ → UInt8) : Tasking → List TaskEvent → Tasking → Prop
  | run {c : Tasking} {r r' : Regs} {s' : SwitchState} (hphase : c.phase = .running r) (hkeep : c.Keeps s')
    (hss : r'.user = false → r'.ss = c.s.ss) : TaskStep fninit c [.ran r' s'.ext] ⟨s', .running r', c.tasks⟩
  | enter {c : Tasking} {r : Regs} {vector excCode context : Word} {s' : SwitchState} (hphase : c.phase = .running r)
    (hsep : (c.s.space c.s.cr3).Separate context (4 * r.pushedWords))
    (h : intrEnter r vector excCode c.s = some (context, s')) : TaskStep fninit c [] ⟨s', .interrupted r context, c.tasks⟩
  | handle {c : Tasking} {r : Regs} {context : Word} {s' : SwitchState} (hphase : c.phase = .interrupted r context)
    (hkeep : c.Keeps s') (hframe : s'.words context r.pushedWords = c.s.words context r.pushedWords) :
    TaskStep fninit c [.handled s'.ext] ⟨s', .interrupted r context, c.tasks⟩
  | leave {c : Tasking} {r r' : Regs} {context : Word} {s' : SwitchState} (hphase : c.phase = .interrupted r context)
    (h : intrReturn context c.s = some (r', s')) : TaskStep fninit c [] ⟨s', .running r', c.tasks⟩
  | create {c : Tasking} {t : Word} (struct : TaskStruct) (ht : t ∉ c.tasks) (hcurrent : t ≠ c.s.taskCurrent)
    (hnull : t ≠ 0#32) : TaskStep fninit c [.created t (struct.regs.toRegs c.s.ss) struct.regsExt]
      ⟨c.s.setTask t fun _ => struct, c.phase, insert t c.tasks⟩
  | delete {c : Tasking} {t : Word} (hcurrent : t ≠ c.s.taskCurrent) :
    TaskStep fninit c [.deleted t] ⟨c.s, c.phase, c.tasks \ {t}⟩
  /-- the deletion that was pending, in `task_yield` -/
  | drop {c : Tasking} {r : Regs} {context : Word} (hphase : c.phase = .interrupted r context)
    (hcurrent : c.s.taskCurrent ≠ 0#32) : TaskStep fninit c [.deleted c.s.taskCurrent]
      ⟨{ c.s with taskCurrent := 0#32 }, c.phase, c.tasks \ {c.s.taskCurrent}⟩
  | switch {c : Tasking} {r r' : Regs} {context esp t : Word} {s' : SwitchState}
    (hphase : c.phase = .interrupted r context) (hcall : SwitchCall c.s r context esp t) (ht : t ∈ c.tasks)
    (hsep : FrameSeparate c.s esp t) (h : taskSwitch fninit esp c.s = some (r', s')) :
    TaskStep fninit c [.switched t] ⟨s', .running r', c.tasks⟩

/-- The processors are those that the tasks see. -/
structure Shows (c : Tasking) (p : Processors) : Prop where
  current : p.current = if c.s.taskCurrent = 0#32 then none else some c.s.taskCurrent
  own : c.s.taskCurrent ≠ 0#32 → ∃ ext, p.cpu c.s.taskCurrent = some (c.phase.regs, ext) ∧ ExtHeld c.s.x86extOn ext c.s.ext
  saved : ∀ t ∈ c.tasks, t ≠ c.s.taskCurrent → ∃ r ext, p.cpu t = some (r, ext) ∧
    (c.s.task t).regs.toRegs c.s.ss = r.resumed ∧ ExtHeld c.s.x86extOn ext (c.s.task t).regsExt
  ss : c.phase.regs.user = false → c.phase.regs.ss = c.s.ss
  context : ∀ r context, c.phase = .interrupted r context → c.s.Interrupted r context ∧ r.ContextAt context
  null : 0#32 ∉ c.tasks

namespace Shows

variable {c : Tasking} {p : Processors} {s' : SwitchState} {fninit : (ℕ → UInt8) → ℕ → UInt8} {r r' : Regs}
  {context t : Word}

theorem current_ne (h : Shows c p) (hne : t ≠ c.s.taskCurrent) : p.current ≠ some t := by
  rw [h.current]
  split_ifs
  · exact fun heq => by cases heq
  · exact fun heq => hne (Option.some.inj heq).symm

/-- The tasks that wait have kept what they had. -/
theorem savedKeeps (h : Shows c p) (hkeep : c.Keeps s') {p' : Processors}
    (hcpu : ∀ t ∈ c.tasks, t ≠ c.s.taskCurrent → p'.cpu t = p.cpu t) (t : Word) (ht : t ∈ c.tasks)
    (hne : t ≠ s'.taskCurrent) : ∃ r ext, p'.cpu t = some (r, ext) ∧
    (s'.task t).regs.toRegs s'.ss = r.resumed ∧ ExtHeld s'.x86extOn ext (s'.task t).regsExt := by
  rw [hkeep.current] at hne
  obtain ⟨r, ext, hp, hr, he⟩ := h.saved t ht hne
  obtain ⟨hregs, hext⟩ := hkeep.task t ht hne
  refine ⟨r, ext, (hcpu t ht hne).trans hp, ?_, ?_⟩
  · rw [hregs, hkeep.ss, hr]
  · rw [hext, hkeep.on]
    exact he

theorem run (h : Shows c p) (hkeep : c.Keeps s') (hss : r'.user = false → r'.ss = c.s.ss) :
    Shows ⟨s', .running r', c.tasks⟩ (p.after (.ran r' s'.ext)) where
  current := by
    dsimp only
    rw [hkeep.current]
    exact h.current
  own hcur := by
    dsimp only at hcur ⊢
    rw [hkeep.current] at hcur ⊢
    have hp : p.current = some c.s.taskCurrent := h.current.trans (if_neg hcur)
    exact ⟨s'.ext, if_pos hp, ⟨fun _ => rfl, fun _ => rfl⟩⟩
  saved := h.savedKeeps hkeep fun t _ hne => if_neg (h.current_ne hne)
  ss huser := (hss huser).trans hkeep.ss.symm
  context _ _ hphase := by cases hphase
  null := h.null

theorem handle (h : Shows c p) (hphase : c.phase = .interrupted r context) (hkeep : c.Keeps s')
    (hframe : s'.words context r.pushedWords = c.s.words context r.pushedWords) :
    Shows ⟨s', .interrupted r context, c.tasks⟩ (p.after (.handled s'.ext)) where
  current := by
    dsimp only
    rw [hkeep.current]
    exact h.current
  own hcur := by
    dsimp only at hcur ⊢
    rw [hkeep.current] at hcur ⊢
    have hp : p.current = some c.s.taskCurrent := h.current.trans (if_neg hcur)
    obtain ⟨ext, hcpu, -⟩ := h.own hcur
    rw [hphase] at hcpu
    refine ⟨s'.ext, ?_, ⟨fun _ => rfl, fun _ => rfl⟩⟩
    rw [Processors.after]
    exact (if_pos hp).trans (congrArg (Option.map _) hcpu)
  saved := h.savedKeeps hkeep fun t _ hne => if_neg (h.current_ne hne)
  ss huser := by
    have hss := h.ss
    rw [hphase] at hss
    exact (hss huser).trans hkeep.ss.symm
  context _ _ heq := by
    cases heq
    obtain ⟨⟨vector, excCode, hwords⟩, hcontext⟩ := h.context r context hphase
    exact ⟨⟨vector, excCode, hframe.trans hwords⟩, hcontext⟩
  null := h.null

/-- The registers, the saved tasks and the extensions are what they were. -/
theorem samePhase (h : Shows c p) {phase : TaskPhase} (ram : ℕ → UInt8) (hregs : phase.regs = c.phase.regs)
    (hcontext : ∀ r context, phase = .interrupted r context →
      SwitchState.Interrupted { c.s with ram := ram } r context ∧ r.ContextAt context) :
    Shows ⟨{ c.s with ram := ram }, phase, c.tasks⟩ p where
  current := h.current
  own hcur := by
    dsimp only
    rw [hregs]
    exact h.own hcur
  saved := h.saved
  ss huser := by
    dsimp only at huser ⊢
    rw [hregs] at huser ⊢
    exact h.ss huser
  context := hcontext
  null := h.null

theorem enter (h : Shows c p) {vector excCode : Word} (hphase : c.phase = .running r)
    (hsep : (c.s.space c.s.cr3).Separate context (4 * r.pushedWords))
    (hr : intrEnter r vector excCode c.s = some (context, s')) : Shows ⟨s', .interrupted r context, c.tasks⟩ p := by
  obtain ⟨hinterrupted, hcontext, ram, rfl⟩ := intrEnter_run hsep hr
  refine h.samePhase ram (by rw [hphase]; rfl) fun _ _ heq => ?_
  cases heq
  exact ⟨hinterrupted, hcontext⟩

theorem leave (h : Shows c p) (hphase : c.phase = .interrupted r context)
    (hr : intrReturn context c.s = some (r', s')) : Shows ⟨s', .running r', c.tasks⟩ p := by
  obtain ⟨hinterrupted, hcontext⟩ := h.context r context hphase
  have hss := h.ss
  rw [hphase] at hss
  rw [intrReturn_run hinterrupted hss hcontext, Option.some.injEq, Prod.mk.injEq] at hr
  obtain ⟨rfl, rfl⟩ := hr
  exact h.samePhase c.s.ram (by rw [hphase]; rfl) fun _ _ heq => by cases heq

theorem create (h : Shows c p) (struct : TaskStruct) (ht : t ∉ c.tasks) (hcurrent : t ≠ c.s.taskCurrent)
    (hnull : t ≠ 0#32) : Shows ⟨c.s.setTask t fun _ => struct, c.phase, insert t c.tasks⟩
      (p.after (.created t (struct.regs.toRegs c.s.ss) struct.regsExt)) where
  current := h.current
  own hcur := by
    obtain ⟨ext, hcpu, he⟩ := h.own hcur
    exact ⟨ext, (Function.update_of_ne hcurrent.symm _ _).trans hcpu, he⟩
  saved u hu hne := by
    rcases Set.mem_insert_iff.mp hu with rfl | hu
    · have hself : (c.s.setTask u fun _ => struct).task u = struct := Function.update_self ..
      refine ⟨_, _, Function.update_self .., ?_, ?_⟩
      · dsimp only
        rw [hself]
        rfl
      · dsimp only
        rw [hself]
        exact ⟨fun _ => rfl, fun _ => rfl⟩
    · have hut : u ≠ t := fun heq => ht (heq ▸ hu)
      have hother : (c.s.setTask t fun _ => struct).task u = c.s.task u := Function.update_of_ne hut _ _
      obtain ⟨r, ext, hcpu, hr, he⟩ := h.saved u hu hne
      refine ⟨r, ext, (Function.update_of_ne hut _ _).trans hcpu, ?_, ?_⟩
      · dsimp only
        rw [hother]
        exact hr
      · dsimp only
        rw [hother]
        exact he
  ss := h.ss
  context := h.context
  null hmem := (Set.mem_insert_iff.mp hmem).elim (fun heq => hnull heq.symm) h.null

theorem delete (h : Shows c p) (hcurrent : t ≠ c.s.taskCurrent) :
    Shows ⟨c.s, c.phase, c.tasks \ {t}⟩ (p.after (.deleted t)) where
  current := (if_neg (h.current_ne hcurrent)).trans h.current
  own hcur := by
    obtain ⟨ext, hcpu, he⟩ := h.own hcur
    exact ⟨ext, (Function.update_of_ne hcurrent.symm _ _).trans hcpu, he⟩
  saved u hu hne := by
    obtain ⟨r, ext, hcpu, hr, he⟩ := h.saved u hu.1 hne
    exact ⟨r, ext, (Function.update_of_ne hu.2 _ _).trans hcpu, hr, he⟩
  ss := h.ss
  context := h.context
  null hmem := h.null hmem.1

theorem drop (h : Shows c p) (hcurrent : c.s.taskCurrent ≠ 0#32) :
    Shows ⟨{ c.s with taskCurrent := 0#32 }, c.phase, c.tasks \ {c.s.taskCurrent}⟩
      (p.after (.deleted c.s.taskCurrent)) where
  current := if_pos (h.current.trans (if_neg hcurrent))
  own hcur := absurd rfl hcur
  saved u hu _ := by
    obtain ⟨r, ext, hcpu, hr, he⟩ := h.saved u hu.1 hu.2
    exact ⟨r, ext, (Function.update_of_ne hu.2 _ _).trans hcpu, hr, he⟩
  ss := h.ss
  context := h.context
  null hmem := h.null hmem.1

theorem switch (h : Shows c p) {esp : Word} (hphase : c.phase = .interrupted r context)
    (hcall : SwitchCall c.s r context esp t) (ht : t ∈ c.tasks) (hsep : FrameSeparate c.s esp t)
    (hr : taskSwitch fninit esp c.s = some (r', s')) : Shows ⟨s', .running r', c.tasks⟩ (p.after (.switched t)) := by
  obtain ⟨hregs, hto⟩ := taskSwitch_run hcall hsep hr
  obtain ⟨q, ext, hcpu, hq, he⟩ := h.saved t ht hcall.other
  have hnull : t ≠ 0#32 := fun heq => h.null (heq ▸ ht)
  have hown := h.own
  have hss := h.ss
  have hcontext := h.context r context hphase
  rw [hphase] at hown hss
  refine ⟨?_, fun _ => ?_, fun u hu hne => ?_, fun huser => ?_, fun _ _ heq => (by cases heq), h.null⟩
  · dsimp only
    rw [hto.current, if_neg hnull]
    rfl
  · -- the next task finds its registers again
    dsimp only
    rw [hto.current, hto.on]
    refine ⟨ext, ?_, he.trans hto.loaded⟩
    refine (Function.update_self ..).trans ?_
    rw [hcpu, Option.map_some, ← hq, ← hregs]
    rfl
  · dsimp only at hne ⊢
    rw [hto.current] at hne
    rw [hto.ss, hto.on]
    by_cases hcur : u = c.s.taskCurrent
    · -- the one that has been interrupted has its registers saved
      subst hcur
      have hcur : c.s.taskCurrent ≠ 0#32 := fun heq => h.null (heq ▸ hu)
      obtain ⟨ext, hcpu, he⟩ := hown hcur
      obtain ⟨hsaved, hext⟩ := hto.saved hcur
      refine ⟨r, ext, (Function.update_of_ne hne _ _).trans hcpu, ?_, he.trans hext⟩
      rw [hsaved]
      exact Regs.toRegs_context hss hcontext.2
    · obtain ⟨q, ext, hcpu, hq, he⟩ := h.saved u hu hcur
      obtain ⟨hkept, hext⟩ := hto.rest u hcur
      refine ⟨q, ext, (Function.update_of_ne hne _ _).trans hcpu, ?_, ?_⟩
      · rw [hkept, hq]
      · rw [hext]
        exact he
  · dsimp only [TaskPhase.regs] at huser ⊢
    rw [hregs] at huser ⊢
    exact (Context.ss_of_toRegs huser).trans hto.ss.symm

theorem step {c' : Tasking} {τ : List TaskEvent} (hstep : TaskStep fninit c τ c') (h : Shows c p) :
    Shows c' (τ.foldl Processors.after p) := by
  cases hstep with
  | run _ hkeep hss => exact h.run hkeep hss
  | enter hphase hsep hr => exact h.enter hphase hsep hr
  | handle hphase hkeep hframe => exact h.handle hphase hkeep hframe
  | leave hphase hr => exact h.leave hphase hr
  | create struct ht hcurrent hnull => exact h.create struct ht hcurrent hnull
  | delete hcurrent => exact h.delete hcurrent
  | drop _ hcurrent => exact h.drop hcurrent
  | switch hphase hcall ht hsep hr => exact h.switch hphase hcall ht hsep hr

end Shows

/-- Tasking has not begun. -/
structure Tasking.Boot (c : Tasking) : Prop where
  current : c.s.taskCurrent = 0#32
  tasks : c.tasks = ∅
  phase : ∃ r, c.phase = .running r ∧ (r.user = false → r.ss = c.s.ss)

def Processors.none : Processors := ⟨fun _ => .none, .none⟩

theorem Tasking.Boot.shows {c : Tasking} (h : c.Boot) : Shows c .none := by
  obtain ⟨r, hphase, hss⟩ := h.phase
  refine ⟨(if_pos h.current).symm, fun hcur => absurd h.current hcur, fun t ht => ?_, ?_, fun _ _ heq => ?_, ?_⟩
  · rw [h.tasks] at ht
    exact absurd ht (Set.notMem_empty t)
  · rw [hphase]
    exact hss
  · rw [hphase] at heq
    cases heq
  · rw [h.tasks]
    exact Set.notMem_empty _

/-- Before the first task there is nothing on the stack. -/
def bootTasking : Tasking := ⟨{ switchSample with taskCurrent := 0, ram := fun _ => 0 }, .running kernelRegs, ∅⟩

/-- With a user task. -/
def createdSample : SwitchState := bootTasking.s.setTask 0x2000 fun _ => switchSample.task 0x2000

theorem createdSample_enter : ∃ ram, intrEnter kernelRegs 32 0 createdSample =
      some (0x5000 - 68, { createdSample with ram := ram }) ∧
    ({ createdSample with ram := ram } : SwitchState).words (0x5000 - 68) 17 = some (kernelRegs.pushed (0x5000 - 20) 32 0) := by
  have hstore : (flatSpace.storeWords createdSample.ram (0x5000 - 68) (kernelRegs.pushed (0x5000 - 20) 32 0)).isSome :=
    AddressSpace.storeWords_isSome.mpr flatSpace_writable
  obtain ⟨ram, hram⟩ := Option.isSome_iff_exists.mp hstore
  refine ⟨ram, ?_, AddressSpace.loadWords_storeWords hram (flatSpace_separate (by decide))⟩
  have hwrite : writeWords (0x5000 - 68) (kernelRegs.pushed (0x5000 - 20) 32 0) createdSample =
      some ((), { createdSample with ram := ram }) := by
    rw [writeWords_eq]
    exact congrArg (Option.map _) hram
  unfold intrEnter
  rw [Comp.read_bind]
  exact Comp.bind_of_eq hwrite

/-- Where the handler has called `task_switch`. -/
def handledSample : SwitchState := { createdSample with ram := switchSample.ram }

theorem handledSample_call : SwitchCall handledSample kernelRegs (0x5000 - 68) (0x5000 - 80) 0x2000 :=
  ⟨switchSample_call.interrupted, switchSample_call.args, by decide⟩

theorem handledSample_switch :
    ∃ s', taskSwitch id (0x5000 - 80) handledSample = some (userContext.toRegs 0x10, s') := by
  have hproc : handledSample.procVmm (handledSample.task 0x2000).common.pid = some 0x9000 := by decide
  have hframe : userContext.frameAt flatSpace handledSample.ram (0x5000 - 80) = some (0x5000 - 68) := by
    have harg : flatSpace.loadWords handledSample.ram (0x5000 - 80 + 4 * 2) 1 = some [0x5000 - 68] :=
      switchSample.words_slice switchSample_words 2 1 (by decide)
    unfold Context.frameAt
    rw [harg]
    rfl
  have hsep : FrameSeparate handledSample (0x5000 - 80) 0x2000 := fun _ _ _ _ => flatSpace_separate (by decide)
  have hsome : (taskSwitch id (0x5000 - 80) handledSample).isSome :=
    (taskSwitch_isSome handledSample_call hsep rfl hproc (by decide) (by decide)).mpr
      ⟨by decide, ⟨_, hframe, flatSpace_writable⟩, by decide⟩
  obtain ⟨⟨r, s'⟩, hs⟩ := Option.isSome_iff_exists.mp hsome
  refine ⟨s', hs.trans ?_⟩
  rw [(taskSwitch_run handledSample_call hsep hs).1]
  rfl

end SysX
