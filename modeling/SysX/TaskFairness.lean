import SysX.TaskSwitch
import Mathlib.Data.Finset.Card
import Mathlib.Logic.Relation

/-!
The scheduler over whole runs: while tasks are created, deleted and made ready or not, the task that is switched
to is never one that was switched to after another ready task.
-/
namespace SysX

/-- The scheduler with the tasks of its ring and every switch and creation so far, as task and tick. -/
structure TaskConfig where
  s : Sched
  tasks : Finset ℕ
  stamps : List (ℕ × ℕ)

namespace TaskConfig

/-- The task `t` as it is stamped at the present tick. -/
def stamped (c : TaskConfig) : Option ℕ → List (ℕ × ℕ)
  | some t => (t, c.s.timerTick) :: c.stamps
  | none => c.stamps

/-- What a yield makes of the configuration: a current task whose deletion was pending has gone. -/
def yielded (c : TaskConfig) (r : Option ℕ) (s' : Sched) : TaskConfig where
  s := s'
  tasks :=
    match r, c.s.taskCurrent with
    | some _, some current =>
      if (c.s.task current).type = .deletePending then c.tasks.erase current else c.tasks
    | _, _ => c.tasks
  stamps := c.stamped r

def created (c : TaskConfig) (r : Option ℕ) (s' : Sched) : TaskConfig where
  s := s'
  tasks :=
    match r with
    | some t => insert t c.tasks
    | none => c.tasks
  stamps := c.stamped r

def deleted (c : TaskConfig) (t : ℕ) (s' : Sched) : TaskConfig where
  s := s'
  tasks := if c.s.taskCurrent = some t then c.tasks else c.tasks.erase t
  stamps := c.stamps

end TaskConfig

/-- The steps of a run. The timer tick does not wrap, new tasks get memory that no other task has, and the kernel
task is not deleted. The rest of the kernel may do anything that touches neither the ring nor the stamps, nor the
variables of the scheduler. -/
inductive SchedStep (k : ℕ) (c : TaskConfig) : TaskConfig → Prop
  | tick (delta : ℕ) (hwrap : c.s.timerTick + delta < timerTickMod) :
      SchedStep k c { c with s := { c.s with timerTick := c.s.timerTick + delta } }
  | ready {t : ℕ} {b : Bool} {s' : Sched} (hr : taskSetReady t b c.s = some ((), s')) :
      SchedStep k c { c with s := s' }
  | create {user : Bool} {pid stackSz entry stackBottom : ℕ} {mem : TaskMemory} {r : Option ℕ} {s' : Sched}
      (hfresh : ∀ t, mem.task = some t → t ∉ c.tasks ∧ c.s.kernelStartAddr ≤ t)
      (hr : taskCreate user pid stackSz entry stackBottom mem c.s = some (r, s')) :
      SchedStep k c (c.created r s')
  | delete {t : ℕ} {s' : Sched} (ht : t ∈ c.tasks) (hk : t ≠ k) (hr : taskDelete t c.s = some ((), s')) :
      SchedStep k c (c.deleted t s')
  | yield {fuel : ℕ} {r : Option ℕ} {s' : Sched} (hr : taskYield fuel c.s = some (r, s')) :
      SchedStep k c (c.yielded r s')
  | other {s' : Sched} (hlinks : ∀ t ∈ c.tasks, s'.next t = c.s.next t ∧ s'.prev t = c.s.prev t)
      (hstamp : ∀ t ∈ c.tasks, (s'.task t).tSwitch = (c.s.task t).tSwitch)
      (hkept : (s'.task k).type ≠ .deletePending) (hvars : c.s.SameVars s') : SchedStep k c { c with s := s' }

/-- What holds of the configurations of a run: the ring is whole, and no task was stamped in the future. -/
structure SchedOk (k : ℕ) (c : TaskConfig) : Prop where
  ring : c.s.HasRing k c.tasks
  kernel : c.s.taskKernel = some k
  current : ∀ t, c.s.taskCurrent = some t → t ∈ c.tasks
  kept : (c.s.task k).type ≠ .deletePending
  wrap : c.s.timerTick < timerTickMod
  past : ∀ t ∈ c.tasks, (c.s.task t).tSwitch ≤ c.s.timerTick
  recorded : ∀ t ∈ c.tasks, (t, (c.s.task t).tSwitch) ∈ c.stamps

/-- A step leaves the stamp of a task, or sets it to the present tick and records that. -/
structure Stamping (c c' : TaskConfig) : Prop where
  tick : c.s.timerTick ≤ c'.s.timerTick
  stamps : ∀ e ∈ c.stamps, e ∈ c'.stamps
  stamp : ∀ t ∈ c'.tasks, (t ∈ c.tasks ∧ (c'.s.task t).tSwitch = (c.s.task t).tSwitch) ∨
    ((c'.s.task t).tSwitch = c.s.timerTick ∧ (t, c.s.timerTick) ∈ c'.stamps)

theorem taskWalk_fuel {β : Type} {s : Sched} {body : β → ℕ → β} {b r : β} {current x fuel fuel' : ℕ}
    (h : taskWalk s current body fuel x b = some r) (hle : fuel ≤ fuel') :
    taskWalk s current body fuel' x b = some r := by
  induction fuel generalizing x b fuel' with
  | zero => cases h
  | succ fuel ih =>
    obtain ⟨fuel', rfl⟩ := Nat.exists_eq_succ_of_ne_zero (Nat.ne_zero_of_lt hle)
    rw [taskWalk] at h ⊢
    split_ifs at h ⊢ with hlow hend
    · exact h
    · exact ih h (Nat.le_of_succ_le_succ hle)

section Choice

variable {s : Sched} {k : ℕ} {M : Finset ℕ} {current fuel t d : ℕ}

/-- The task that the loop chooses: a ready one, and no ready one has been waiting for longer. -/
theorem taskWalk_choice (h : s.HasRing k M) (hc : current ∈ M)
    (hwalk : taskWalk s current (taskSelect s) fuel current (current, 0) = some (t, d)) :
    (∀ v ∈ M, v ≠ current → (s.task v).ready = true → taskDelta s v ≤ d) ∧
      (t ≠ current → t ∈ M ∧ (s.task t).ready = true ∧ taskDelta s t = d) ∧ (t = current → d = 0) := by
  obtain ⟨visited, -, hmem, hvisits⟩ := h.visits hc
  have hfold := hvisits (taskSelect s) (current, 0) (max fuel (visited.length + 1)) (by omega)
  rw [taskWalk_fuel hwalk (Nat.le_max_left _ _), Option.some_inj] at hfold
  obtain ⟨-, hall, hchoice⟩ := foldl_taskSelect (s := s) visited current 0
  rw [← hfold] at hall hchoice
  refine ⟨fun v hv hne => hall v ((hmem v).mpr ⟨hv, hne⟩), fun hne => ?_, fun heq => ?_⟩
  · rcases hchoice with heq | ⟨hin, hready, hdelta, -⟩
    · exact absurd (congrArg Prod.fst heq) hne
    · exact ⟨((hmem t).mp hin).1, hready, hdelta⟩
  · rcases hchoice with heq' | ⟨hin, -⟩
    · exact congrArg Prod.snd heq'
    · exact absurd heq ((hmem t).mp hin).2

end Choice

namespace SchedOk

variable {k t : ℕ} {c c' : TaskConfig} {s' : Sched}

/-- A step that stamps with the present keeps the stamps in the past. -/
theorem of_stamping (h : SchedOk k c) (hst : Stamping c c') (hring : c'.s.HasRing k c'.tasks)
    (hkernel : c'.s.taskKernel = some k) (hcurrent : ∀ t, c'.s.taskCurrent = some t → t ∈ c'.tasks)
    (hkept : (c'.s.task k).type ≠ .deletePending) (hwrap : c'.s.timerTick < timerTickMod) : SchedOk k c' := by
  refine ⟨hring, hkernel, hcurrent, hkept, hwrap, fun t ht => ?_, fun t ht => ?_⟩
  · rcases hst.stamp t ht with ⟨hold, heq⟩ | ⟨heq, -⟩
    · rw [heq]
      exact (h.past t hold).trans hst.tick
    · rw [heq]
      exact hst.tick
  · rcases hst.stamp t ht with ⟨hold, heq⟩ | ⟨heq, hin⟩
    · rw [heq]
      exact hst.stamps _ (h.recorded t hold)
    · rw [heq]
      exact hin

/-- A step of another part of the kernel, which touches neither the ring nor the stamps. -/
theorem quiet (h : SchedOk k c) (hlinks : ∀ t ∈ c.tasks, s'.next t = c.s.next t ∧ s'.prev t = c.s.prev t)
    (hstamp : ∀ t ∈ c.tasks, (s'.task t).tSwitch = (c.s.task t).tSwitch)
    (hkept : (s'.task k).type ≠ .deletePending) (hvars : c.s.SameVars s') :
    SchedOk k { c with s := s' } ∧ Stamping c { c with s := s' } := by
  have hst : Stamping c { c with s := s' } := ⟨hvars.tick.ge, fun _ he => he, fun t ht => .inl ⟨ht, hstamp t ht⟩⟩
  refine ⟨h.of_stamping hst (h.ring.congr hlinks hvars.addr) (hvars.kernel.trans h.kernel) ?_ hkept ?_, hst⟩
  · dsimp only
    rw [hvars.current]
    exact h.current
  · dsimp only
    rw [hvars.tick]
    exact h.wrap

/-- A switch to a task of the ring. -/
theorem switched {s₁ : Sched} {M : Finset ℕ} (h : SchedOk k c) (hring : s₁.HasRing k M)
    (hsub : ∀ u ∈ M, u ∈ c.tasks) (htask : ∀ u, (s₁.task u).toTask = (c.s.task u).toTask)
    (hkernel : s₁.taskKernel = c.s.taskKernel) (htick : s₁.timerTick = c.s.timerTick) (ht : t ∈ M)
    (hs : s₁.Switched t s') :
    SchedOk k ⟨s', M, (t, c.s.timerTick) :: c.stamps⟩ ∧ Stamping c ⟨s', M, (t, c.s.timerTick) :: c.stamps⟩ := by
  have htick' : s'.timerTick = c.s.timerTick := hs.tick.trans htick
  have hst : Stamping c ⟨s', M, (t, c.s.timerTick) :: c.stamps⟩ := by
    refine ⟨htick'.ge, fun e he => List.mem_cons_of_mem _ he, fun u hu => ?_⟩
    rcases eq_or_ne u t with rfl | hne
    · exact .inr ⟨hs.stamp.trans htick, List.mem_cons_self⟩
    · refine .inl ⟨hsub u hu, ?_⟩
      rw [hs.other u hne]
      exact congrArg Task.tSwitch (htask u)
  refine ⟨h.of_stamping hst (hring.congr (fun u _ => hs.links u) hs.addr) ?_ ?_ ?_ ?_, hst⟩
  · exact hs.kernel.trans (hkernel.trans h.kernel)
  · intro u hu
    rw [hs.current, Option.some_inj] at hu
    exact hu ▸ ht
  · rw [hs.type, congrArg Task.type (htask k)]
    exact h.kept
  · dsimp only
    rw [htick']
    exact h.wrap

theorem yield {fuel : ℕ} {r : Option ℕ} (h : SchedOk k c) (hr : taskYield fuel c.s = some (r, s')) :
    SchedOk k (c.yielded r s') ∧ Stamping c (c.yielded r s') := by
  cases taskYield_run hr with
  | stay => exact ⟨h, Nat.le_refl _, fun _ he => he, fun t ht => .inl ⟨ht, rfl⟩⟩
  | @start kernel s' hcurrent hkernel hs =>
    have heq : c.yielded (some kernel) s' = ⟨s', c.tasks, (kernel, c.s.timerTick) :: c.stamps⟩ := by
      simp [TaskConfig.yielded, TaskConfig.stamped, hcurrent]
    have hk : kernel = k := Option.some.inj (hkernel.symm.trans h.kernel)
    have hin : kernel ∈ c.tasks := hk ▸ (h.ring.cyclic h.kernel).kernel.2
    rw [heq]
    exact h.switched h.ring (fun _ hu => hu) (fun _ => rfl) rfl rfl hin hs
  | @switch current d t s' hcurrent hwalk hne hkept hs =>
    have heq : c.yielded (some t) s' = ⟨s', c.tasks, (t, c.s.timerTick) :: c.stamps⟩ := by
      simp [TaskConfig.yielded, TaskConfig.stamped, hcurrent, hkept]
    obtain ⟨-, hchoice, -⟩ := taskWalk_choice h.ring (h.current current hcurrent) hwalk
    rw [heq]
    exact h.switched h.ring (fun _ hu => hu) (fun _ => rfl) rfl rfl (hchoice hne).1 hs
  | @delete current d t s₁ s' hcurrent hwalk hne hpending hdelete hs =>
    have heq : c.yielded (some t) s' = ⟨s', c.tasks.erase current, (t, c.s.timerTick) :: c.stamps⟩ := by
      simp [TaskConfig.yielded, TaskConfig.stamped, hcurrent, hpending]
    have hin := h.current current hcurrent
    have hk : current ≠ k := fun heq => h.kept (heq ▸ hpending)
    obtain ⟨-, hchoice, -⟩ := taskWalk_choice h.ring hin hwalk
    obtain ⟨s₂, hdelete', hlinks⟩ := taskDoDelete_run c.s current
    cases hdelete.symm.trans hdelete'
    have hring : Sched.HasRing { s₁ with taskCurrent := none } k (c.tasks.erase current) :=
      (h.ring.erase hin hk hdelete).congr (fun _ _ => ⟨rfl, rfl⟩) rfl
    rw [heq]
    exact h.switched hring (fun _ hu => Finset.mem_of_mem_erase hu) hlinks.task hlinks.vars.kernel
      hlinks.vars.tick (Finset.mem_erase.mpr ⟨hne, (hchoice hne).1⟩) hs

theorem delete (h : SchedOk k c) (ht : t ∈ c.tasks) (hk : t ≠ k) (hr : taskDelete t c.s = some ((), s')) :
    SchedOk k (c.deleted t s') ∧ Stamping c (c.deleted t s') := by
  unfold taskDelete at hr
  rw [Comp.read_bind] at hr
  by_cases hcurrent : c.s.taskCurrent = some t
  · rw [if_pos hcurrent] at hr
    cases hr
    have heq (s' : Sched) : c.deleted t s' = { c with s := s' } := by
      simp [TaskConfig.deleted, hcurrent]
    rw [heq]
    refine h.quiet (fun u _ => Sched.links_setTask _ _ rfl rfl u) (fun u _ => ?_) ?_ ⟨rfl, rfl, rfl, rfl⟩
    · rcases eq_or_ne u t with rfl | hu
      · simp [Sched.setTask]
      · simp [Sched.setTask, hu]
    · simpa [Sched.setTask, hk.symm] using h.kept
  · rw [if_neg hcurrent] at hr
    obtain ⟨s₂, hr', hlinks⟩ := taskDoDelete_run c.s t
    cases hr.symm.trans hr'
    have heq : c.deleted t s' = ⟨s', c.tasks.erase t, c.stamps⟩ := by
      simp [TaskConfig.deleted, hcurrent]
    have hst : Stamping c ⟨s', c.tasks.erase t, c.stamps⟩ :=
      ⟨hlinks.vars.tick.ge, fun _ he => he, fun u hu =>
        .inl ⟨Finset.mem_of_mem_erase hu, congrArg Task.tSwitch (hlinks.task u)⟩⟩
    rw [heq]
    refine ⟨h.of_stamping hst (h.ring.erase ht hk hr) (hlinks.vars.kernel.trans h.kernel) ?_ ?_ ?_, hst⟩
    · intro u hu
      rw [hlinks.vars.current] at hu
      exact Finset.mem_erase.mpr ⟨fun heq => hcurrent (heq ▸ hu), h.current u hu⟩
    · rw [congrArg Task.type (hlinks.task k)]
      exact h.kept
    · dsimp only
      rw [hlinks.vars.tick]
      exact h.wrap

theorem create {user : Bool} {pid stackSz entry stackBottom : ℕ} {mem : TaskMemory} {r : Option ℕ}
    (h : SchedOk k c) (hfresh : ∀ t, mem.task = some t → t ∉ c.tasks ∧ c.s.kernelStartAddr ≤ t)
    (hr : taskCreate user pid stackSz entry stackBottom mem c.s = some (r, s')) :
    SchedOk k (c.created r s') ∧ Stamping c (c.created r s') := by
  have hkin : k ∈ c.tasks := (h.ring.cyclic h.kernel).kernel.2
  have hother {t u : ℕ} (hout : t ∉ c.tasks) (hu : u ∈ c.tasks) : u ≠ t := fun heq => hout (heq ▸ hu)
  cases taskCreate_run hr with
  | none honly hnone =>
    have heq : c.created none s' = { c with s := s' } := rfl
    rw [heq]
    cases htask : mem.task with
    | none =>
      rw [hnone htask]
      exact ⟨h, Nat.le_refl _, fun _ he => he, fun t ht => .inl ⟨ht, rfl⟩⟩
    | some t =>
      have hout := (hfresh t htask).1
      have hold {u : ℕ} (hu : u ∈ c.tasks) : s'.task u = c.s.task u := (honly t htask).task u (hother hout hu)
      refine h.quiet (fun u hu => ?_) (fun u hu => ?_) ?_ (honly t htask).vars
      · simp [Sched.next, Sched.prev, hold hu]
      · rw [hold hu]
      · rw [hold hkin]
        exact h.kept
  | @some t kernel s₁ _ htask honly hstamp hkernel hinsert =>
    obtain ⟨hout, hlow⟩ := hfresh t htask
    obtain ⟨s₂, hinsert', hlinks⟩ := taskInsert_run s₁ t kernel
    cases hinsert.symm.trans hinsert'
    have hold {u : ℕ} (hu : u ∈ c.tasks) : (s'.task u).toTask = (c.s.task u).toTask := by
      rw [hlinks.task, honly.task u (hother hout hu)]
    have hk : kernel = k := Option.some.inj (hkernel.symm.trans h.kernel)
    have hring : s'.HasRing k (insert t c.tasks) :=
      (honly.ring h.ring hout).insert hout (hk ▸ hkin) (honly.vars.addr ▸ hlow) hinsert
    have htick : s'.timerTick = c.s.timerTick := hlinks.vars.tick.trans honly.vars.tick
    have hst : Stamping c (c.created (some t) s') := by
      refine ⟨htick.ge, fun e he => List.mem_cons_of_mem _ he, fun u hu => ?_⟩
      rcases Finset.mem_insert.mp hu with rfl | hu
      · exact .inr ⟨(congrArg Task.tSwitch (hlinks.task u)).trans hstamp, List.mem_cons_self⟩
      · exact .inl ⟨hu, congrArg Task.tSwitch (hold hu)⟩
    refine ⟨h.of_stamping hst hring ?_ ?_ ?_ ?_, hst⟩
    · exact hlinks.vars.kernel.trans (honly.vars.kernel.trans h.kernel)
    · intro u hu
      rw [TaskConfig.created, hlinks.vars.current, honly.vars.current] at hu
      exact Finset.mem_insert_of_mem (h.current u hu)
    · rw [TaskConfig.created, congrArg Task.type (hold hkin)]
      exact h.kept
    · rw [TaskConfig.created, htick]
      exact h.wrap

theorem step (h : SchedOk k c) (hstep : SchedStep k c c') : SchedOk k c' ∧ Stamping c c' := by
  cases hstep with
  | tick delta hwrap =>
    have hst : Stamping c { c with s := { c.s with timerTick := c.s.timerTick + delta } } :=
      ⟨Nat.le_add_right _ _, fun _ he => he, fun t ht => .inl ⟨ht, rfl⟩⟩
    exact ⟨h.of_stamping hst (h.ring.congr (fun _ _ => ⟨rfl, rfl⟩) rfl) h.kernel h.current h.kept hwrap, hst⟩
  | @ready t b s' hr =>
    cases hr
    have hfield (u : ℕ) : ((c.s.setTask t fun c => { c with ready := b }).task u).tSwitch = (c.s.task u).tSwitch ∧
        ((c.s.setTask t fun c => { c with ready := b }).task u).type = (c.s.task u).type := by
      rcases eq_or_ne u t with rfl | hu
      · simp [Sched.setTask]
      · simp [Sched.setTask, hu]
    refine h.quiet (fun u _ => Sched.links_setTask _ _ rfl rfl u) (fun u _ => (hfield u).1) ?_ ⟨rfl, rfl, rfl, rfl⟩
    rw [(hfield k).2]
    exact h.kept
  | create hfresh hr => exact h.create hfresh hr
  | delete ht hk hr => exact h.delete ht hk hr
  | yield hr => exact h.yield hr
  | other hlinks hstamp hkept hvars => exact h.quiet hlinks hstamp hkept hvars

end SchedOk

/-- Any number of steps, one after another. -/
abbrev SchedRun (k : ℕ) : TaskConfig → TaskConfig → Prop := Relation.ReflTransGen (SchedStep k)

section Runs

variable {k t : ℕ} {c c' : TaskConfig}

theorem SchedRun.ok (hrun : SchedRun k c c') (h : SchedOk k c) : SchedOk k c' := by
  induction hrun with
  | refl => exact h
  | tail _ hstep ih => exact (ih.step hstep).1

/-- What is stamped no earlier than some tick stays so, and the stamp is on record. -/
theorem SchedRun.stamp {n : ℕ} (hrun : SchedRun k c c') (h : SchedOk k c) (hn : n ≤ c.s.timerTick)
    (ht : t ∈ c.tasks → n ≤ (c.s.task t).tSwitch) :
    n ≤ c'.s.timerTick ∧ (t ∈ c'.tasks → n ≤ (c'.s.task t).tSwitch) := by
  induction hrun with
  | refl => exact ⟨hn, ht⟩
  | @tail c₁ c₂ hrun hstep ih =>
    obtain ⟨hn, hold⟩ := ih
    have hst := ((SchedRun.ok hrun h).step hstep).2
    refine ⟨hn.trans hst.tick, fun hin => ?_⟩
    rcases hst.stamp t hin with ⟨hin', heq⟩ | ⟨heq, -⟩
    · rw [heq]
      exact hold hin'
    · rw [heq]
      exact hn

theorem SchedOk.delta (h : SchedOk k c) (ht : t ∈ c.tasks) :
    taskDelta c.s t = c.s.timerTick - (c.s.task t).tSwitch := by
  have hpast := h.past t ht
  have hwrap := h.wrap
  unfold taskDelta
  rw [Nat.sub_add_comm hpast, Nat.add_mod_right]
  exact Nat.mod_eq_of_lt (by omega)

/-- Of two tasks that could be switched to, the one that was chosen has the earlier stamp. -/
theorem SchedOk.chosen {fuel u v : ℕ} {s' : Sched} (h : SchedOk k c) (hcurrent : c.s.taskCurrent ≠ none)
    (hr : taskYield fuel c.s = some (some u, s')) (hv : v ∈ c.tasks) (hready : (c.s.task v).ready = true)
    (hne : c.s.taskCurrent ≠ some v) : u ∈ c.tasks ∧ (c.s.task u).tSwitch ≤ (c.s.task v).tSwitch := by
  have hstep {current d : ℕ} (hcur : c.s.taskCurrent = some current)
      (hwalk : taskWalk c.s current (taskSelect c.s) fuel current (current, 0) = some (u, d)) (hu : u ≠ current) :
      u ∈ c.tasks ∧ (c.s.task u).tSwitch ≤ (c.s.task v).tSwitch := by
    obtain ⟨hall, hchoice, -⟩ := taskWalk_choice h.ring (h.current current hcur) hwalk
    obtain ⟨hin, -, hdelta⟩ := hchoice hu
    have hle := hall v hv (fun heq => hne (heq ▸ hcur)) hready
    rw [← hdelta, h.delta hv, h.delta hin] at hle
    have hv := h.past v hv
    have hu := h.past u hin
    exact ⟨hin, by omega⟩
  cases taskYield_run hr with
  | start hnone => exact absurd hnone hcurrent
  | switch hcur hwalk hu => exact hstep hcur hwalk hu
  | delete hcur hwalk hu => exact hstep hcur hwalk hu

/-- A yield with a ready task that has waited switches to a ready task. -/
theorem SchedOk.progress {current v : ℕ} (h : SchedOk k c) (hcurrent : c.s.taskCurrent = some current)
    (hblock : c.s.yieldBlockCnt = 0) (hv : v ∈ c.tasks) (hne : v ≠ current)
    (hready : (c.s.task v).ready = true) (hwait : (c.s.task v).tSwitch < c.s.timerTick) :
    ∃ u ∈ c.tasks, u ≠ current ∧ (c.s.task u).ready = true ∧
      ∀ fuel, c.tasks.card ≤ fuel → ∃ s', taskYield fuel c.s = some (some u, s') ∧ s'.taskCurrent = some u := by
  have hin := h.current current hcurrent
  obtain ⟨visited, hnodup, hmem, hvisits⟩ := h.ring.visits hin
  have hlen : visited.length < c.tasks.card := by
    have hall : (current :: visited).Nodup :=
      List.nodup_cons.mpr ⟨fun hc => ((hmem current).mp hc).2 rfl, hnodup⟩
    have hsub : (current :: visited).toFinset ⊆ c.tasks := by
      intro t ht
      rcases List.mem_cons.mp (List.mem_toFinset.mp ht) with rfl | ht
      · exact hin
      · exact ((hmem t).mp ht).1
    have hcard := Finset.card_le_card hsub
    rwa [List.toFinset_card_of_nodup hall] at hcard
  have hwalk (fuel : ℕ) (hfuel : c.tasks.card ≤ fuel) :=
    hvisits (taskSelect c.s) (current, 0) fuel (hlen.trans_le hfuel)
  obtain ⟨hall, hchoice, hstay⟩ := taskWalk_choice h.ring hin (hwalk _ (Nat.le_refl _))
  have hwaited : taskDelta c.s v ≤ _ := hall v hv hne hready
  rw [h.delta hv] at hwaited
  have hmoved := fun heq => Nat.lt_irrefl _ ((Nat.sub_pos_of_lt hwait).trans_le (hwaited.trans (hstay heq).le))
  refine ⟨_, (hchoice hmoved).1, hmoved, (hchoice hmoved).2.1, fun fuel hfuel => ?_⟩
  exact taskYield_switch (h.kernel ▸ Option.some_ne_none k) hblock hcurrent (hwalk fuel hfuel) hmoved

/-- From `c` on the scheduler is fair, and a ready task that has waited is enough for a switch. -/
structure FairFrom (k : ℕ) (c : TaskConfig) : Prop where
  fair : ∀ {c₁ c₂ : TaskConfig} {u fuel fuel' : ℕ} {s₁ s₂ : Sched}, SchedRun k c c₁ →
    taskYield fuel c₁.s = some (some u, s₁) → SchedRun k (c₁.yielded (some u) s₁) c₂ →
    c₂.s.taskCurrent ≠ none → taskYield fuel' c₂.s = some (some u, s₂) →
    ∀ v ∈ c₂.tasks, (c₂.s.task v).ready = true → c₂.s.taskCurrent ≠ some v →
      c₁.s.timerTick ≤ (c₂.s.task v).tSwitch ∧ (v, (c₂.s.task v).tSwitch) ∈ c₂.stamps
  progress : ∀ {c₁ : TaskConfig} {current v : ℕ}, SchedRun k c c₁ → c₁.s.taskCurrent = some current →
    c₁.s.yieldBlockCnt = 0 → v ∈ c₁.tasks → v ≠ current → (c₁.s.task v).ready = true →
    (c₁.s.task v).tSwitch < c₁.s.timerTick →
      ∃ u ∈ c₁.tasks, u ≠ current ∧ (c₁.s.task u).ready = true ∧ ∀ fuel, c₁.tasks.card ≤ fuel →
        ∃ s', taskYield fuel c₁.s = some (some u, s') ∧ s'.taskCurrent = some u

/-- No run of the scheduler passes over a ready task in favour of one that was switched to later. -/
theorem task_fairness (h : SchedOk k c) : FairFrom k c := by
  refine ⟨?_, fun hrun hcurrent hblock hv hne hready hwait =>
    (SchedRun.ok hrun h).progress hcurrent hblock hv hne hready hwait⟩
  intro c₁ c₂ u fuel fuel' s₁ s₂ hrun hfirst hrun' hcurrent hagain v hv hready hne
  have h₁ := SchedRun.ok hrun h
  obtain ⟨hok, hst⟩ := h₁.yield hfirst
  have h₂ := SchedRun.ok hrun' hok
  obtain ⟨hu, hle⟩ := h₂.chosen hcurrent hagain hv hready hne
  have hsince := SchedRun.stamp hrun' hok hst.tick fun _ => (taskYield_stamp hfirst).ge
  exact ⟨(hsince.2 hu).trans hle, h₂.recorded v hv⟩

end Runs

/-- The scheduler as `task_init_stub` leaves it. -/
theorem SchedOk.init {s s' : Sched} {k bottom top : ℕ} (hlow : s.kernelStartAddr ≤ k)
    (hcurrent : s.taskCurrent = none) (hwrap : s.timerTick < timerTickMod)
    (hr : taskInitStub k bottom top s = some ((), s')) : SchedOk k ⟨s', {k}, [(k, 0)]⟩ := by
  obtain ⟨hring, hkernel⟩ := taskInitStub_run hlow hr
  cases hr
  refine ⟨hring, hkernel, fun t ht => ?_, ?_, hwrap, fun t ht => ?_, fun t ht => ?_⟩
  · exact absurd (hcurrent.symm.trans ht) (Option.some_ne_none t).symm
  · simp [Sched.setTask, TaskCommon.blank]
  · rw [Finset.mem_singleton.mp ht]
    simp [Sched.setTask, TaskCommon.blank]
  · rw [Finset.mem_singleton.mp ht]
    simp [Sched.setTask, TaskCommon.blank]

theorem task_fairness_sample : ∃ s, taskInitStub 0x100 0x3000 0x2000 bootSched = some ((), s) ∧
    FairFrom 0x100 ⟨s, {0x100}, [(0x100, 0)]⟩ :=
  ⟨_, rfl, task_fairness (.init (Nat.le_refl 0x100) rfl (by decide) rfl)⟩

end SysX
