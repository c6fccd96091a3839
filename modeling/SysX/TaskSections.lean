import SysX.TaskFairness
import SysX.Lib.Sections

/-!
`task_insert` and `task_do_delete` (`exec/task.c`) with interrupts between their loads and stores: what `task_yield_block` and
`task_yield_unblock` make of them, in every order of the steps of all tasks and of the interrupts.
-/
namespace SysX

open Lock (applyAll)
open Relation (ReflTransGen)

def taskQuantum : ℕ := 1000

/-- `timer_tick += delta` -/
def timerAdvance (delta : ℕ) (s : Sched) : Sched := { s with timerTick := (s.timerTick + delta) % timerTickMod }

/-- `timer_handler` (`hal/timer.c`), as far as tasks go. -/
def timerHandler (fuel delta : ℕ) : SchedOp (Option ℕ) := do
  Comp.modify (timerAdvance delta)
  let s ← Comp.read id
  if s.taskKernel ≠ none ∧
      (s.taskCurrent = none ∨ taskQuantum ≤ (s.timerTick + timerTickMod - s.yieldTick) % timerTickMod) then
    taskYield fuel
  else pure none

/-- What a section works on: two registers, the tasks, and those that are in the ring, which are no part of the program. -/
structure RingWork where
  p : ℕ
  q : ℕ
  sched : Sched
  members : Finset ℕ

namespace RingWork

def loadP (f : Sched → ℕ) (x : RingWork) : RingWork := { x with p := f x.sched }

def loadQ (f : Sched → ℕ) (x : RingWork) : RingWork := { x with q := f x.sched }

def storeTask (f : ℕ → ℕ → Sched → Sched) (x : RingWork) : RingWork := { x with sched := f x.p x.q x.sched }

def advance (delta : ℕ) (x : RingWork) : RingWork := { x with sched := timerAdvance delta x.sched }

end RingWork

/-- What `procRemoveTask` leads to. -/
def procRemoved (task : ℕ) (s : Sched) : Sched := (procRemoveTask task s).elim s Prod.snd

inductive RingOp where
  | insert (task target : ℕ)
  | delete (task : ℕ)

namespace RingOp

open RingWork

/-- What comes between `task_yield_block` and `task_yield_unblock`. -/
def body : RingOp → List (RingWork → RingWork)
  | insert task target =>
    [storeTask fun _ _ s => s.setTask task fun c => { c with prev := target },
      loadP fun s => s.next target,
      storeTask fun p _ s => s.setTask task fun c => { c with next := p },
      loadP fun s => s.next task,
      storeTask fun p _ s => s.setTask p fun c => { c with prev := task },
      storeTask fun _ _ s => s.setTask target fun c => { c with next := task }]
  | delete task =>
    [storeTask fun _ _ s => procRemoved task s,
      loadP fun s => s.prev task,
      loadQ fun s => s.next task,
      storeTask fun p q s => s.setTask p fun c => { c with next := q },
      loadP fun s => s.next task,
      loadQ fun s => s.prev task,
      storeTask fun p q s => s.setTask p fun c => { c with prev := q }]

def members (M : Finset ℕ) : RingOp → Finset ℕ
  | insert task _ => Insert.insert task M
  | delete task => M.erase task

/-- In one piece. -/
def run : RingOp → SchedOp Unit
  | insert task target => taskInsert task target
  | delete task => taskDoDelete task

/-- A new task is put behind one of the ring. A task that is neither the kernel task nor the current one is taken out. -/
def Allowed (k : ℕ) (s : Sched) (M : Finset ℕ) : RingOp → Prop
  | insert task target => task ∉ M ∧ target ∈ M ∧ s.kernelStartAddr ≤ task
  | delete task => task ∈ M ∧ task ≠ k ∧ s.taskCurrent ≠ some task

def block (x : RingWork) : RingWork := { x with sched := { x.sched with yieldBlockCnt := x.sched.yieldBlockCnt + 1 } }

def unblock (op : RingOp) (x : RingWork) : RingWork :=
  { x with sched := { x.sched with yieldBlockCnt := x.sched.yieldBlockCnt - 1 }, members := op.members x.members }

def code (op : RingOp) : List (RingWork → RingWork) := block :: (op.body ++ [op.unblock])

end RingOp

/-- Where a task is: in no section, in front of what is left of one, or in the loop of `task_yield_unblock`. -/
inductive RingPhase where
  | out
  | inside (op : RingOp) (p q : ℕ) (todo : List (RingWork → RingWork))
  | exchange (op : RingOp) (expected : ℕ)

/-- The tasks, those in the ring, and where each one is (`none` is what runs before the first switch). -/
structure Preempted where
  sched : Sched
  members : Finset ℕ
  phase : Option ℕ → RingPhase

/-- What becomes of the ring when `task_yield` returns `r`. -/
def yieldMembers (s : Sched) (r : Option ℕ) (M : Finset ℕ) : Finset ℕ :=
  match r, s.taskCurrent with
  | some _, some current => if (s.task current).type = .deletePending then M.erase current else M
  | _, _ => M

/-- What a task does elsewhere. -/
structure OtherWork (k : ℕ) (M : Finset ℕ) (s s' : Sched) : Prop where
  links : ∀ t ∈ M, s'.next t = s.next t ∧ s'.prev t = s.prev t
  kept : (s'.task k).type ≠ .deletePending
  vars : s.SameVars s'
  block : s'.yieldBlockCnt = s.yieldBlockCnt

namespace Preempted

/-- Where the current task is. -/
def now (s : Preempted) : RingPhase := s.phase s.sched.taskCurrent

def goTo (s : Preempted) (phase : RingPhase) : Option ℕ → RingPhase := Function.update s.phase s.sched.taskCurrent phase

/-- A step of the current task, or an interrupt. The exchange of `task_yield_unblock` is a weak one, and may fail at any time. -/
inductive Step (k : ℕ) (s : Preempted) : Preempted → Prop
  | block {op : RingOp} (h : s.now = .out) (hop : op.Allowed k s.sched s.members) :
    Step k s ⟨{ s.sched with yieldBlockCnt := s.sched.yieldBlockCnt + 1 }, s.members, s.goTo (.inside op 0 0 op.body)⟩
  | work {op : RingOp} {p q : ℕ} {f : RingWork → RingWork} {todo : List (RingWork → RingWork)} {x : RingWork}
    (h : s.now = .inside op p q (f :: todo)) (hx : f ⟨p, q, s.sched, s.members⟩ = x) :
    Step k s ⟨x.sched, x.members, s.goTo (.inside op x.p x.q todo)⟩
  | load {op : RingOp} {p q : ℕ} (h : s.now = .inside op p q []) :
    Step k s ⟨s.sched, s.members, s.goTo (.exchange op s.sched.yieldBlockCnt)⟩
  | retry {op : RingOp} {expected : ℕ} (h : s.now = .exchange op expected) (hpos : 0 < expected) :
    Step k s ⟨s.sched, s.members, s.goTo (.exchange op s.sched.yieldBlockCnt)⟩
  | exchange {op : RingOp} {expected : ℕ} (h : s.now = .exchange op expected) (hpos : 0 < expected)
    (heq : s.sched.yieldBlockCnt = expected) :
    Step k s ⟨{ s.sched with yieldBlockCnt := expected - 1 }, op.members s.members, s.goTo .out⟩
  | giveUp {op : RingOp} (h : s.now = .exchange op 0) : Step k s ⟨s.sched, op.members s.members, s.goTo .out⟩
  | elsewhere {s' : Sched} (h : s.now = .out) (hs : OtherWork k s.members s.sched s') : Step k s ⟨s', s.members, s.phase⟩
  | timer {fuel delta : ℕ} {r : Option ℕ} {s' : Sched} (h : timerHandler fuel delta s.sched = some (r, s')) :
    Step k s ⟨s', yieldMembers s.sched r s.members, s.phase⟩
  | yield {fuel : ℕ} {r : Option ℕ} {s' : Sched} (h : taskYield fuel s.sched = some (r, s')) :
    Step k s ⟨s', yieldMembers s.sched r s.members, s.phase⟩

abbrev Run (k : ℕ) : Preempted → Preempted → Prop := ReflTransGen (Step k)

end Preempted

/-! The same in whole sections. -/

/-- What happens outside of sections. -/
inductive RingElse (k : ℕ) : Sched × Finset ℕ → Sched × Finset ℕ → Prop
  | tick (delta : ℕ) (s : Sched) (M : Finset ℕ) : RingElse k (s, M) (timerAdvance delta s, M)
  | yield {fuel : ℕ} {r : Option ℕ} {s s' : Sched} (M : Finset ℕ) (h : taskYield fuel s = some (r, s')) :
    RingElse k (s, M) (s', yieldMembers s r M)
  | elsewhere {s s' : Sched} {M : Finset ℕ} (h : OtherWork k M s s') : RingElse k (s, M) (s', M)

inductive RingSerial (k : ℕ) : Sched × Finset ℕ → Sched × Finset ℕ → Prop
  | op {s s' : Sched} {M : Finset ℕ} (op : RingOp) (hop : op.Allowed k s M) (h : op.run s = some ((), s')) :
    RingSerial k (s, M) (s', op.members M)
  | other {x y : Sched × Finset ℕ} (h : RingElse k x y) : RingSerial k x y

/-- The sections as the general rules have them. -/
def ringRules (k : ℕ) : Sections.Rules RingOp RingWork where
  code := RingOp.code
  allowed op x := op.Allowed k x.sched x.members
  disturb := Set.range RingWork.advance
  outside x y := (y.sched, y.members) = (x.sched, x.members) ∨ RingElse k (x.sched, x.members) (y.sched, y.members)

/-! The steps of a section. -/

section Body

variable {k : ℕ} {op : RingOp} {f : RingWork → RingWork}

theorem procRemoved_eq (task : ℕ) (s : Sched) : ∃ procTasks, procRemoved task s = { s with procTasks := procTasks } ∧
    procRemoveTask task s = some ((), procRemoved task s) := by
  obtain ⟨procTasks, h⟩ := procRemoveTask_run s task
  refine ⟨procTasks, ?_, ?_⟩
  · rw [procRemoved, h]
    rfl
  · rw [procRemoved, h]
    rfl

theorem procRemoved_advance (task delta : ℕ) (s : Sched) :
    procRemoved task (timerAdvance delta s) = timerAdvance delta (procRemoved task s) := by
  unfold procRemoved procRemoveTask
  rw [Comp.read_bind, Comp.read_bind, Comp.read_bind, Comp.read_bind]
  have htasks : (timerAdvance delta s).procTasks ((timerAdvance delta s).task task).pid = s.procTasks (s.task task).pid := rfl
  rw [htasks]
  cases s.procTasks (s.task task).pid with
  | none => rfl
  | some tasks => rfl

/-- No step of the body touches the counter or the current task. -/
theorem RingOp.body_keeps (hf : f ∈ op.body) (x : RingWork) : (f x).sched.yieldBlockCnt = x.sched.yieldBlockCnt ∧
    (f x).sched.taskCurrent = x.sched.taskCurrent ∧ (f x).members = x.members := by
  cases op with
  | insert task target =>
    simp only [RingOp.body, List.mem_cons, List.not_mem_nil, or_false] at hf
    rcases hf with rfl | rfl | rfl | rfl | rfl | rfl <;> exact ⟨rfl, rfl, rfl⟩
  | delete task =>
    simp only [RingOp.body, List.mem_cons, List.not_mem_nil, or_false] at hf
    rcases hf with rfl | rfl | rfl | rfl | rfl | rfl | rfl
    · obtain ⟨procTasks, h, -⟩ := procRemoved_eq task x.sched
      rw [RingWork.storeTask, h]
      exact ⟨rfl, rfl, rfl⟩
    all_goals exact ⟨rfl, rfl, rfl⟩

/-- The clock may be changed before or after any step. -/
theorem RingOp.code_commute (hf : f ∈ op.code) (delta : ℕ) : Function.Commute f (RingWork.advance delta) := by
  intro x
  rw [RingOp.code, List.mem_cons, List.mem_append, List.mem_singleton] at hf
  rcases hf with rfl | hf | rfl
  · rfl
  · cases op with
    | insert task target =>
      simp only [RingOp.body, List.mem_cons, List.not_mem_nil, or_false] at hf
      rcases hf with rfl | rfl | rfl | rfl | rfl | rfl <;> rfl
    | delete task =>
      simp only [RingOp.body, List.mem_cons, List.not_mem_nil, or_false] at hf
      rcases hf with rfl | rfl | rfl | rfl | rfl | rfl | rfl
      · have h := procRemoved_advance task delta x.sched
        rw [RingWork.storeTask, RingWork.storeTask, RingWork.advance, RingWork.advance, h]
      all_goals rfl
  · rfl

theorem ringRules_movers (k : ℕ) : (ringRules k).Movers where
  commute := by
    rintro _ ⟨delta, rfl⟩ op f hf
    exact RingOp.code_commute hf delta
  allowed := by
    rintro _ ⟨delta, rfl⟩ op x hop
    cases op with
    | insert task target => exact hop
    | delete task => exact hop

/-- The code does what the operation does in one piece. -/
theorem RingOp.code_run (op : RingOp) (x : RingWork) : op.run x.sched = some ((), (applyAll op.code x).sched) ∧
    (applyAll op.code x).members = op.members x.members := by
  cases op with
  | insert task target => exact ⟨rfl, rfl⟩
  | delete task =>
    refine ⟨?_, rfl⟩
    obtain ⟨procTasks, -, h⟩ := procRemoved_eq task { x.sched with yieldBlockCnt := x.sched.yieldBlockCnt + 1 }
    show taskDoDelete task x.sched = _
    unfold taskDoDelete taskYieldBlock taskYieldUnblock taskSetNext taskSetPrev
    rw [Comp.modify_bind, Comp.bind_of_eq h]
    rfl

/-- Whole sections, with the registers left out. -/
theorem serial_of_sections {x y : RingWork} (h : ReflTransGen (Sections.Serial (ringRules k)) x y) :
    ReflTransGen (RingSerial k) (x.sched, x.members) (y.sched, y.members) := by
  induction h with
  | refl => exact .refl
  | @tail y z _ hlast ih =>
    cases hlast with
    | whole op hop =>
      obtain ⟨hrun, hmembers⟩ := op.code_run y
      have hstep := RingSerial.op op hop hrun
      rw [← hmembers] at hstep
      exact ih.tail hstep
    | disturb x hd =>
      obtain ⟨delta, rfl⟩ := hd
      exact ih.tail (.other (.tick delta y.sched y.members))
    | outside hst =>
      rcases hst with heq | hst
      · rwa [heq]
      · exact ih.tail (.other hst)

end Body

/-! Interrupts. -/

section Interrupt

variable {k fuel delta n : ℕ} {r : Option ℕ} {s s' : Sched} {op : RingOp} {M : Finset ℕ}

theorem RingOp.run_keeps (h : op.run s = some ((), s')) : s'.yieldBlockCnt = s.yieldBlockCnt := by
  obtain ⟨hrun, -⟩ := op.code_run ⟨0, 0, s, ∅⟩
  obtain rfl : s' = _ := (Prod.mk.inj (Option.some.inj (h.symm.trans hrun))).2
  have hbody : ∀ (fs : List (RingWork → RingWork)) (x : RingWork), (∀ f ∈ fs, f ∈ op.body) →
      (applyAll fs x).sched.yieldBlockCnt = x.sched.yieldBlockCnt := by
    intro fs
    induction fs with
    | nil => exact fun _ _ => rfl
    | cons f fs ih =>
      intro x hfs
      rw [Lock.applyAll_cons, ih (f x) fun g hg => hfs g (List.mem_cons_of_mem _ hg)]
      exact (RingOp.body_keeps (hfs f List.mem_cons_self) x).1
  rw [RingOp.code, Lock.applyAll_cons, Lock.applyAll_append]
  show (applyAll op.body (RingOp.block ⟨0, 0, s, ∅⟩)).sched.yieldBlockCnt - 1 = s.yieldBlockCnt
  rw [hbody op.body _ fun _ hf => hf]
  rfl

theorem taskYield_keeps (fuel : ℕ) : Comp.Keeps (fun s => s.yieldBlockCnt = n) (taskYield fuel) := by
  have hswitch (t : ℕ) : Comp.Keeps (fun s => s.yieldBlockCnt = n) (taskSwitchTo t) :=
    .bind (.modify fun _ h => h) fun _ => .bind (.modify fun _ h => h) fun _ => .bind (.modify fun _ h => h) fun _ =>
      .modify fun _ h => h
  have hdelete (t : ℕ) : Comp.Keeps (fun s => s.yieldBlockCnt = n) (taskDoDelete t) :=
    fun s _ s' hs hr => by
      change RingOp.run (.delete t) s = some ((), s') at hr
      exact (RingOp.run_keeps hr).trans hs
  unfold taskYield
  refine .bind (.read _ _) fun s => ?_
  split
  · exact .pure _ _
  refine .ite (fun _ => .pure _ _) fun _ => ?_
  split
  · exact .ite (fun _ => .bind (hswitch _) fun _ => .pure _ _) fun _ => .pure _ _
  · refine .bind (.readOr _ _) fun sel => .ite (fun _ => .pure _ _) fun _ => .bind (.read _ _) fun type => ?_
    refine .bind (.when fun _ => .bind (hdelete _) fun _ => .modify fun _ h => h) fun _ => ?_
    exact .bind (hswitch _) fun _ => .pure _ _

/-- In a section nothing is switched. -/
theorem taskYield_blocked (h : s.yieldBlockCnt ≠ 0) : taskYield fuel s = some (none, s) := by
  unfold taskYield
  rw [Comp.read_bind]
  dsimp only [id]
  cases s.taskKernel with
  | none => rfl
  | some kernel =>
    dsimp only
    rw [if_pos h]
    rfl

theorem timerHandler_run (h : timerHandler fuel delta s = some (r, s')) :
    r = none ∧ s' = timerAdvance delta s ∨ taskYield fuel (timerAdvance delta s) = some (r, s') := by
  unfold timerHandler at h
  rw [Comp.modify_bind, Comp.read_bind] at h
  split_ifs at h
  · exact .inr h
  · cases h
    exact .inl ⟨rfl, rfl⟩

theorem yieldMembers_none (s : Sched) (M : Finset ℕ) : yieldMembers s none M = M := by
  unfold yieldMembers
  cases s.taskCurrent <;> rfl

end Interrupt

/-! The steps of the tasks, and the sections as one. -/

namespace Preempted

variable {k : ℕ} {init : RingWork} {s t : Preempted}

/-- The general rules have come as far as the tasks. -/
inductive Simulates (k : ℕ) (init : RingWork) (s : Preempted) : Prop
  | out {p q : ℕ} (h : s.now = .out) (hcnt : s.sched.yieldBlockCnt = 0)
    (hrun : ReflTransGen (Sections.Step (ringRules k)) (none, init) (none, ⟨p, q, s.sched, s.members⟩))
  | inside {op : RingOp} {p q : ℕ} {todo : List (RingWork → RingWork)} (h : s.now = .inside op p q todo)
    (hcnt : s.sched.yieldBlockCnt = 1) (hmem : ∀ f ∈ todo, f ∈ op.body)
    (hrun : ReflTransGen (Sections.Step (ringRules k)) (none, init)
      (some (op, todo ++ [op.unblock]), ⟨p, q, s.sched, s.members⟩))
  | exchange {op : RingOp} {p q : ℕ} (h : s.now = .exchange op 1) (hcnt : s.sched.yieldBlockCnt = 1)
    (hrun : ReflTransGen (Sections.Step (ringRules k)) (none, init) (some (op, [op.unblock]), ⟨p, q, s.sched, s.members⟩))

/-- No other task is in a section. -/
structure Alone (k : ℕ) (init : RingWork) (s : Preempted) : Prop where
  others : ∀ i, i ≠ s.sched.taskCurrent → s.phase i = .out
  sim : Simulates k init s

theorem now_goTo {sched : Sched} {members : Finset ℕ} {phase : RingPhase} (h : sched.taskCurrent = s.sched.taskCurrent) :
    Preempted.now ⟨sched, members, s.goTo phase⟩ = phase := by
  unfold now goTo
  dsimp only
  rw [h, Function.update_self]

theorem others_goTo {sched : Sched} {phase : RingPhase} (hothers : ∀ i, i ≠ s.sched.taskCurrent → s.phase i = .out)
    (h : sched.taskCurrent = s.sched.taskCurrent) (i : Option ℕ) (hi : i ≠ sched.taskCurrent) : s.goTo phase i = .out := by
  rw [h] at hi
  rw [goTo, Function.update_of_ne hi]
  exact hothers i hi

/-- An interrupt in a section changes the clock at most. -/
theorem Simulates.advance (h : Simulates k init s) (hs : s.sched.yieldBlockCnt ≠ 0) (delta : ℕ) :
    Simulates k init ⟨timerAdvance delta s.sched, s.members, s.phase⟩ := by
  have hstep (op : RingOp) (fs : List (RingWork → RingWork)) (x : RingWork) :
      Sections.Step (ringRules k) (some (op, fs), x) (some (op, fs), x.advance delta) :=
    .disturb op fs x (Set.mem_range_self delta)
  cases h with
  | out _ hcnt _ => exact absurd hcnt hs
  | inside h hcnt hmem hrun => exact .inside h hcnt hmem (hrun.tail (hstep _ _ _))
  | exchange h hcnt hrun => exact .exchange h hcnt (hrun.tail (hstep _ _ _))

/-- Outside of sections all of it happens at once. -/
theorem Alone.outside (h : Alone k init s) (hs : s.sched.yieldBlockCnt = 0) {sched : Sched} {members : Finset ℕ}
    (hcnt : sched.yieldBlockCnt = 0) (helse : RingElse k (s.sched, s.members) (sched, members)) :
    Alone k init ⟨sched, members, s.phase⟩ := by
  cases h.sim with
  | @out p q hnow _ hrun =>
    have hall (i : Option ℕ) : s.phase i = .out := by
      rcases eq_or_ne i s.sched.taskCurrent with rfl | hi
      · exact hnow
      · exact h.others i hi
    refine ⟨fun i _ => hall i, .out (p := p) (q := q) (hall _) hcnt (hrun.tail ?_)⟩
    exact .outside (.inr helse)
  | inside _ hone _ _ =>
    rw [hone] at hs
    cases hs
  | exchange _ hone _ =>
    rw [hone] at hs
    cases hs

theorem Alone.yield (h : Alone k init s) {fuel : ℕ} {r : Option ℕ} {s' : Sched} (hr : taskYield fuel s.sched = some (r, s')) :
    Alone k init ⟨s', yieldMembers s.sched r s.members, s.phase⟩ := by
  by_cases hs : s.sched.yieldBlockCnt = 0
  · exact h.outside hs (taskYield_keeps fuel _ _ _ hs hr) (.yield s.members hr)
  · rw [taskYield_blocked hs] at hr
    cases hr
    rwa [yieldMembers_none]

theorem Alone.tick (h : Alone k init s) (delta : ℕ) : Alone k init ⟨timerAdvance delta s.sched, s.members, s.phase⟩ := by
  by_cases hs : s.sched.yieldBlockCnt = 0
  · exact h.outside hs hs (.tick delta s.sched s.members)
  · exact ⟨h.others, h.sim.advance hs delta⟩

theorem Alone.step (h : Alone k init s) (hst : Step k s t) : Alone k init t := by
  have hothers := h.others
  cases hst with
  | @block op hnow hop =>
    cases h.sim with
    | @out p q _ hcnt hrun =>
      refine ⟨others_goTo hothers rfl, .inside (now_goTo rfl) (by dsimp only; rw [hcnt]) (fun _ hf => hf) ?_⟩
      -- the registers are set, the section is entered, and yielding is blocked
      let x : RingWork := ⟨0, 0, s.sched, s.members⟩
      have hset : Sections.Step (ringRules k) (none, ⟨p, q, s.sched, s.members⟩) (none, x) := .outside (.inl rfl)
      have henter : Sections.Step (ringRules k) (none, x) (some (op, op.code), x) := .enter op hop
      exact ((hrun.tail hset).tail henter).tail (.work op RingOp.block _ _)
    | inside hnow' _ _ _ => cases hnow.symm.trans hnow'
    | exchange hnow' _ _ => cases hnow.symm.trans hnow'
  | @work op p q f todo x hnow hx =>
    cases h.sim with
    | out hnow' _ _ => cases hnow.symm.trans hnow'
    | inside hnow' hcnt hmem hrun =>
      cases hnow.symm.trans hnow'
      obtain ⟨hblock, hcurrent, -⟩ := RingOp.body_keeps (hmem f List.mem_cons_self) ⟨p, q, s.sched, s.members⟩
      rw [hx] at hblock hcurrent
      refine ⟨others_goTo hothers hcurrent, .inside (now_goTo hcurrent) (hblock.trans hcnt)
        (fun g hg => hmem g (List.mem_cons_of_mem _ hg)) (hrun.tail ?_)⟩
      subst hx
      exact .work op f _ _
    | exchange hnow' _ _ => cases hnow.symm.trans hnow'
  | @load op p q hnow =>
    cases h.sim with
    | out hnow' _ _ => cases hnow.symm.trans hnow'
    | inside hnow' hcnt _ hrun =>
      cases hnow.symm.trans hnow'
      rw [hcnt]
      exact ⟨others_goTo hothers rfl, .exchange (now_goTo rfl) hcnt hrun⟩
    | exchange hnow' _ _ => cases hnow.symm.trans hnow'
  | @retry op expected hnow _ =>
    cases h.sim with
    | out hnow' _ _ => cases hnow.symm.trans hnow'
    | inside hnow' _ _ _ => cases hnow.symm.trans hnow'
    | exchange hnow' hcnt hrun =>
      cases hnow.symm.trans hnow'
      rw [hcnt]
      exact ⟨others_goTo hothers rfl, .exchange (now_goTo rfl) hcnt hrun⟩
  | @exchange op expected hnow _ _ =>
    cases h.sim with
    | out hnow' _ _ => cases hnow.symm.trans hnow'
    | inside hnow' _ _ _ => cases hnow.symm.trans hnow'
    | @exchange op' p q hnow' hcnt hrun =>
      cases hnow.symm.trans hnow'
      refine ⟨others_goTo hothers rfl, .out (p := p) (q := q) (now_goTo rfl) rfl ?_⟩
      have hleft := (hrun.tail (.work op op.unblock [] _)).tail (.leave op _)
      simp only [RingOp.unblock] at hleft
      rwa [hcnt] at hleft
  | @giveUp op hnow =>
    cases h.sim with
    | out hnow' _ _ => cases hnow.symm.trans hnow'
    | inside hnow' _ _ _ => cases hnow.symm.trans hnow'
    | exchange hnow' _ _ => cases hnow.symm.trans hnow'
  | @elsewhere s' hnow hs =>
    cases h.sim with
    | out _ hcnt _ => exact h.outside hcnt (hs.block.trans hcnt) (.elsewhere hs)
    | inside hnow' _ _ _ => cases hnow.symm.trans hnow'
    | exchange hnow' _ _ => cases hnow.symm.trans hnow'
  | @timer fuel delta r s' hr =>
    rcases timerHandler_run hr with ⟨rfl, rfl⟩ | hyield
    · rw [yieldMembers_none]
      exact h.tick delta
    · exact (h.tick delta).yield hyield
  | @yield fuel r s' hr => exact h.yield hr

theorem Alone.run (h : Alone k init s) (hst : Run k s t) : Alone k init t := by
  induction hst with
  | refl => exact h
  | tail _ hlast ih => exact ih.step hlast

end Preempted

/-! The ring in whole sections. -/

/-- The ring is whole, and the current task belongs to it. -/
structure RingOk (k : ℕ) (x : Sched × Finset ℕ) : Prop where
  ring : x.1.HasRing k x.2
  kernel : x.1.taskKernel = some k
  current : ∀ t, x.1.taskCurrent = some t → t ∈ x.2
  kept : (x.1.task k).type ≠ .deletePending

namespace RingOk

variable {k t fuel : ℕ} {r : Option ℕ} {s s' : Sched} {M : Finset ℕ} {op : RingOp} {x y : Sched × Finset ℕ}

theorem whole (h : RingOk k (s, M)) (hop : op.Allowed k s M) (hr : op.run s = some ((), s')) : RingOk k (s', op.members M) := by
  cases op with
  | insert task target =>
    obtain ⟨hout, htarget, hlow⟩ := hop
    obtain ⟨s₁, hr', hlinks⟩ := taskInsert_run s task target
    cases hr.symm.trans hr'
    refine ⟨h.ring.insert hout htarget hlow hr, hlinks.vars.kernel.trans h.kernel, fun t ht => ?_, ?_⟩
    · exact Finset.mem_insert_of_mem (h.current t (hlinks.vars.current.symm.trans ht))
    · dsimp only
      rw [congrArg Task.type (hlinks.task k)]
      exact h.kept
  | delete task =>
    obtain ⟨hin, hk, hcurrent⟩ := hop
    obtain ⟨s₁, hr', hlinks⟩ := taskDoDelete_run s task
    cases hr.symm.trans hr'
    refine ⟨h.ring.erase hin hk hr, hlinks.vars.kernel.trans h.kernel, fun t ht => ?_, ?_⟩
    · have ht' := hlinks.vars.current.symm.trans ht
      exact Finset.mem_erase.mpr ⟨fun heq => hcurrent (heq ▸ ht'), h.current t ht'⟩
    · dsimp only
      rw [congrArg Task.type (hlinks.task k)]
      exact h.kept

theorem switched (hring : s.HasRing k M) (hkernel : s.taskKernel = some k) (hkept : (s.task k).type ≠ .deletePending)
    (ht : t ∈ M) (hs : s.Switched t s') : RingOk k (s', M) := by
  refine ⟨hring.congr (fun u _ => hs.links u) hs.addr, hs.kernel.trans hkernel, fun u hu => ?_, ?_⟩
  · obtain rfl := Option.some.inj (hs.current.symm.trans hu)
    exact ht
  · dsimp only
    rwa [hs.type]

theorem yield (h : RingOk k (s, M)) (hr : taskYield fuel s = some (r, s')) : RingOk k (s', yieldMembers s r M) := by
  cases taskYield_run hr with
  | stay => rwa [yieldMembers_none]
  | @start kernel s' hcurrent hkernel hs =>
    have hmembers : yieldMembers s (some kernel) M = M := by simp [yieldMembers, hcurrent]
    obtain rfl : kernel = k := Option.some.inj (hkernel.symm.trans h.kernel)
    rw [hmembers]
    exact switched h.ring h.kernel h.kept (h.ring.cyclic h.kernel).kernel.2 hs
  | @switch current d t s' hcurrent hwalk hne hkept hs =>
    have hmembers : yieldMembers s (some t) M = M := by simp [yieldMembers, hcurrent, hkept]
    obtain ⟨-, hchoice, -⟩ := taskWalk_choice h.ring (h.current current hcurrent) hwalk
    rw [hmembers]
    exact switched h.ring h.kernel h.kept (hchoice hne).1 hs
  | @delete current d t s₁ s' hcurrent hwalk hne hpending hdelete hs =>
    have hmembers : yieldMembers s (some t) M = M.erase current := by simp [yieldMembers, hcurrent, hpending]
    have hin := h.current current hcurrent
    have hk : current ≠ k := fun heq => h.kept (heq ▸ hpending)
    obtain ⟨-, hchoice, -⟩ := taskWalk_choice h.ring hin hwalk
    obtain ⟨s₂, hdelete', hlinks⟩ := taskDoDelete_run s current
    cases hdelete.symm.trans hdelete'
    have hring : Sched.HasRing { s₁ with taskCurrent := none } k (M.erase current) :=
      (h.ring.erase hin hk hdelete).congr (fun _ _ => ⟨rfl, rfl⟩) rfl
    have hkept : (s₁.task k).type ≠ .deletePending := by
      rw [congrArg Task.type (hlinks.task k)]
      exact h.kept
    rw [hmembers]
    exact switched hring (hlinks.vars.kernel.trans h.kernel) hkept (Finset.mem_erase.mpr ⟨hne, (hchoice hne).1⟩) hs

theorem step (h : RingOk k x) (hst : RingSerial k x y) : RingOk k y := by
  cases hst with
  | op op hop hr => exact h.whole hop hr
  | other hst =>
    cases hst with
    | tick delta s M => exact ⟨h.ring.congr (fun _ _ => ⟨rfl, rfl⟩) rfl, h.kernel, h.current, h.kept⟩
    | yield M hr => exact h.yield hr
    | elsewhere hs =>
      refine ⟨h.ring.congr hs.links hs.vars.addr, hs.vars.kernel.trans h.kernel, fun t ht => ?_, hs.kept⟩
      exact h.current t (hs.vars.current.symm.trans ht)

theorem run (h : RingOk k x) (hst : ReflTransGen (RingSerial k) x y) : RingOk k y := by
  induction hst with
  | refl => exact h
  | tail _ hlast ih => exact ih.step hlast

/-- The loop of `task_yield` comes to its end, and never to its assertion. -/
theorem yields (h : RingOk k (s, M)) (hfuel : M.card < fuel) : ∃ r s', taskYield fuel s = some (r, s') := by
  have hkernel : s.taskKernel = some k := h.kernel
  by_cases hs : s.yieldBlockCnt = 0
  · cases hcurrent : s.taskCurrent with
    | none =>
      obtain ⟨s₁, hs₁, -⟩ := taskSwitchTo_run s k
      unfold taskYield
      rw [Comp.read_bind]
      simp only [id, hkernel, hcurrent]
      rw [if_neg (not_not.mpr hs)]
      split_ifs
      · rw [Comp.bind_of_eq hs₁]
        exact ⟨_, _, rfl⟩
      · exact ⟨_, _, rfl⟩
    | some current =>
      obtain ⟨visited, hnodup, hmem, hwalk⟩ := h.ring.visits (h.current current hcurrent)
      have hlength : visited.length ≤ M.card := by
        rw [← List.toFinset_card_of_nodup hnodup]
        exact Finset.card_le_card fun t ht => ((hmem t).mp (List.mem_toFinset.mp ht)).1
      obtain ⟨⟨t, d⟩, hsel⟩ : ∃ sel, taskWalk s current (taskSelect s) fuel current (current, 0) = some sel :=
        ⟨_, hwalk (taskSelect s) (current, 0) fuel (by omega)⟩
      by_cases hne : t = current
      · have hread : Comp.readOr (fun s => taskWalk s current (taskSelect s) fuel current (current, 0)) s =
            some ((t, d), s) := Comp.readOr_eq hsel
        unfold taskYield
        rw [Comp.read_bind]
        simp only [id, hkernel, hcurrent]
        rw [if_neg (not_not.mpr hs), Comp.bind_of_eq hread, if_pos hne]
        exact ⟨_, _, rfl⟩
      · obtain ⟨s', hr, -⟩ := taskYield_switch (by rw [hkernel]; exact Option.some_ne_none k) hs hcurrent hsel hne
        exact ⟨_, s', hr⟩
  · exact ⟨none, s, taskYield_blocked hs⟩

end RingOk

/-- The current task leaves its section, if nothing interrupts it. -/
theorem Preempted.exists_leave (k : ℕ) {op : RingOp} {p q : ℕ} {todo : List (RingWork → RingWork)} {s : Preempted}
    (hnow : s.now = .inside op p q todo) (hmem : ∀ f ∈ todo, f ∈ op.body) (hcnt : s.sched.yieldBlockCnt = 1) :
    ∃ t, Run k s t ∧ t.now = .out ∧ t.members = op.members s.members := by
  induction todo generalizing s p q with
  | nil =>
    have hload := Step.load (k := k) hnow
    rw [hcnt] at hload
    refine ⟨_, .tail (.single hload) (.exchange (now_goTo rfl) Nat.one_pos hcnt), ?_, rfl⟩
    exact now_goTo rfl
  | cons f todo ih =>
    obtain ⟨hblock, hcurrent, hmembers⟩ := RingOp.body_keeps (hmem f List.mem_cons_self) ⟨p, q, s.sched, s.members⟩
    obtain ⟨t, hrun, hout, ht⟩ := ih (now_goTo hcurrent) (fun g hg => hmem g (List.mem_cons_of_mem _ hg)) (hblock.trans hcnt)
    exact ⟨t, .head (.work hnow rfl) hrun, hout, ht.trans (by rw [hmembers])⟩

end SysX
