import SysX.TaskRing

/-! What the creation of a task and a yield do to the ring and to the switch times of the tasks. -/
namespace SysX

variable {s s' : Sched} {M : Finset ℕ} {k t u : ℕ}

namespace Sched

/-- At most the structure of `t` has changed, and arrays of processes. -/
structure OnlyTask (t : ℕ) (s s' : Sched) : Prop where
  task : ∀ u, u ≠ t → s'.task u = s.task u
  vars : s.SameVars s'

namespace OnlyTask

theorem refl (t : ℕ) (s : Sched) : OnlyTask t s s := ⟨fun _ _ => rfl, .refl s⟩

theorem setTask (h : OnlyTask t s s') (f : TaskCommon → TaskCommon) : OnlyTask t s (s'.setTask t f) := by
  refine ⟨fun u hu => ?_, ⟨h.vars.addr, h.vars.kernel, h.vars.current, h.vars.tick⟩⟩
  rw [Sched.setTask]
  exact (Function.update_of_ne hu ..).trans (h.task u hu)

theorem ring (h : OnlyTask t s s') (hring : s.HasRing k M) (ht : t ∉ M) : s'.HasRing k M := by
  refine hring.congr (fun u hu => ?_) h.vars.addr
  have hne : u ≠ t := fun heq => ht (heq ▸ hu)
  simp [next, prev, h.task u hne]

end OnlyTask
end Sched

open Sched

theorem OnlyTask.keeps_setTask (f : Sched → TaskCommon → TaskCommon) :
    Comp.Keeps (OnlyTask t s) (Comp.modify fun s' => s'.setTask t (f s')) :=
  Comp.Keeps.modify fun s' h => h.setTask (f s')

theorem procAddTask_keeps (pid : ℕ) (grown : Bool) : Comp.Keeps (OnlyTask t s) (procAddTask pid t grown) := by
  unfold procAddTask
  refine Comp.Keeps.bind (Comp.Keeps.readOr _ _) fun tasks => ?_
  have hput (i : ℕ) (tasks : List (Option ℕ)) : Comp.Keeps (OnlyTask t s) (do
      Comp.modify fun s => { s with procTasks := Function.update s.procTasks pid (some (tasks.set i (some t))) }
      Comp.modify fun s => s.setTask t fun c => { c with pid := pid }
      pure (some i)) := by
    refine Comp.Keeps.bind (Comp.Keeps.modify fun s' h => ⟨h.task, ⟨h.vars.addr, h.vars.kernel, h.vars.current, h.vars.tick⟩⟩) fun _ => ?_
    exact Comp.Keeps.bind (OnlyTask.keeps_setTask _) fun _ => Comp.Keeps.pure _ _
  dsimp only
  split
  · split_ifs
    · exact Comp.Keeps.pure _ _
    · exact hput _ _
  · split_ifs
    · exact hput _ _
    · exact Comp.Keeps.pure _ _

/-- What `task_create` ends with: no task, or the given one, stamped and put behind the kernel task. -/
inductive TaskCreated (s : Sched) (task : Option ℕ) : Option ℕ → Sched → Prop
  | none {s' : Sched} (h : ∀ t, task = Option.some t → OnlyTask t s s')
      (hnone : task = Option.none → s' = s) : TaskCreated s task Option.none s'
  | some {t kernel : ℕ} {s₁ s' : Sched} (ht : task = Option.some t) (h : OnlyTask t s s₁)
      (hstamp : (s₁.task t).tSwitch = s.timerTick) (hkernel : s.taskKernel = Option.some kernel)
      (hr : taskInsert t kernel s₁ = Option.some ((), s')) : TaskCreated s task (Option.some t) s'

theorem taskStart_ensures {user : Bool} {entry stackSize : ℕ} :
    Comp.Ensures (OnlyTask t s) (taskStart user entry t stackSize) (TaskCreated s (some t)) := by
  unfold taskStart
  let stamped (s₁ : Sched) : Prop := OnlyTask t s s₁ ∧ (s₁.task t).tSwitch = s.timerTick
  have hkeep (f : TaskCommon → TaskCommon) (hf : ∀ c, (f c).tSwitch = c.tSwitch) :
      Comp.Keeps stamped (Comp.modify fun s' => s'.setTask t f) :=
    Comp.Keeps.modify fun s' h => ⟨h.1.setTask f, by rw [Sched.setTask_task_self, hf, h.2]⟩
  refine Comp.Ensures.bind (OnlyTask.keeps_setTask _) fun _ => ?_
  refine Comp.Ensures.bind (R := fun _ => stamped) ?_ fun _ => ?_
  · intro s₁ a s₂ h₁ h₂
    cases h₂
    refine ⟨h₁.setTask _, ?_⟩
    dsimp only
    rw [Sched.setTask_task_self]
    exact h₁.vars.tick
  refine Comp.Ensures.bind (hkeep _ fun _ => rfl) fun _ => ?_
  refine Comp.Ensures.bind (Comp.Keeps.when fun _ => hkeep _ fun _ => rfl) fun _ => ?_
  intro s₁ r s₂ h₁ hr
  obtain ⟨kernel, s₃, hkernel, hr⟩ := Comp.bind_eq_some.mp hr
  rw [Comp.readOr_apply, Option.map_eq_some_iff] at hkernel
  obtain ⟨kernel', hkernel, heq⟩ := hkernel
  cases heq
  obtain ⟨_, s₄, hinsert, hr⟩ := Comp.bind_eq_some.mp hr
  cases hr
  exact .some rfl h₁.1 h₁.2 (h₁.1.vars.kernel ▸ hkernel) hinsert

theorem taskCreate_run {user : Bool} {pid stackSz entry stackBottom : ℕ} {mem : TaskMemory} {r : Option ℕ}
    (h : taskCreate user pid stackSz entry stackBottom mem s = some (r, s')) :
    TaskCreated s mem.task r s' := by
  unfold taskCreate at h
  cases htask : mem.task with
  | none =>
    rw [htask] at h
    cases h
    exact .none (by simp) fun _ => rfl
  | some t =>
    rw [htask] at h
    have hfailed {s' : Sched} (h : OnlyTask t s s') : TaskCreated s (some t) none s' :=
      .none (fun u hu => Option.some.inj hu ▸ h) (by simp)
    -- every step before the last one changes the new structure only
    refine Comp.Ensures.bind (Q := TaskCreated s (some t)) (OnlyTask.keeps_setTask _) (fun _ => ?_) s r s'
      (OnlyTask.refl t s) h
    refine Comp.Ensures.bind (procAddTask_keeps pid mem.grown) fun idx => ?_
    have hpure : Comp.Ensures (OnlyTask t s) (pure none) (TaskCreated s (some t)) := by
      intro s₁ a s₂ h₁ h₂
      cases h₂
      exact hfailed h₁
    refine Comp.Ensures.ite (fun _ => hpure) fun _ => ?_
    refine Comp.Ensures.bind (OnlyTask.keeps_setTask _) fun _ => ?_
    refine Comp.Ensures.ite (fun _ => hpure) fun _ => ?_
    exact Comp.Ensures.ite (fun _ => hpure) fun _ => taskStart_ensures

/-- The state after a switch to `t`. -/
structure Sched.Switched (s : Sched) (t : ℕ) (s' : Sched) : Prop where
  links : ∀ u, s'.next u = s.next u ∧ s'.prev u = s.prev u
  current : s'.taskCurrent = some t
  stamp : (s'.task t).tSwitch = s.timerTick
  other : ∀ u, u ≠ t → s'.task u = s.task u
  type : ∀ u, (s'.task u).type = (s.task u).type
  kernel : s'.taskKernel = s.taskKernel
  addr : s'.kernelStartAddr = s.kernelStartAddr
  tick : s'.timerTick = s.timerTick

theorem taskSwitchTo_run (s : Sched) (t : ℕ) : ∃ s', taskSwitchTo t s = some ((), s') ∧ s.Switched t s' := by
  refine ⟨_, rfl, ⟨fun u => ?_, rfl, ?_, fun u hu => ?_, fun u => ?_, rfl, rfl, rfl⟩⟩
  · rcases eq_or_ne u t with rfl | hu
    · simp [next, prev, setTask]
    · simp [next, prev, setTask, hu]
  · simp [setTask]
  · simp [setTask, hu]
  · rcases eq_or_ne u t with rfl | hu
    · simp [setTask]
    · simp [setTask, hu]

/-- What the body of the loop has found out about the tasks it has seen: nobody among the ready ones has been
waiting for longer, and the choice is the first task of all or a ready one that has waited. -/
theorem foldl_taskSelect (l : List ℕ) (a d : ℕ) :
    let sel := l.foldl (taskSelect s) (a, d)
    d ≤ sel.2 ∧ (∀ t ∈ l, (s.task t).ready = true → taskDelta s t ≤ sel.2) ∧
      (sel = (a, d) ∨ sel.1 ∈ l ∧ (s.task sel.1).ready = true ∧ taskDelta s sel.1 = sel.2 ∧ d < sel.2) := by
  induction l generalizing a d with
  | nil => simp
  | cons t l ih =>
    dsimp only at ih ⊢
    rw [List.foldl_cons]
    by_cases hlonger : (s.task t).ready = true ∧ d < taskDelta s t
    · have hsel : taskSelect s (a, d) t = (t, taskDelta s t) := by
        simp [taskSelect, hlonger]
      rw [hsel]
      obtain ⟨hle, hall, hchoice⟩ := ih t (taskDelta s t)
      refine ⟨hlonger.2.le.trans hle, fun u hu hr => ?_, .inr ?_⟩
      · rcases List.mem_cons.mp hu with rfl | hu
        · exact hle
        · exact hall u hu hr
      · rcases hchoice with heq | ⟨hmem, hr, hdelta, hlt⟩
        · rw [heq]
          exact ⟨List.mem_cons_self, hlonger.1, rfl, hlonger.2⟩
        · exact ⟨List.mem_cons_of_mem _ hmem, hr, hdelta, hlonger.2.trans hlt⟩
    · have hsel : taskSelect s (a, d) t = (a, d) := by
        unfold taskSelect
        split_ifs with hr hlt
        · exact absurd ⟨hr, hlt⟩ hlonger
        · rfl
        · rfl
      rw [hsel]
      obtain ⟨hle, hall, hchoice⟩ := ih a d
      refine ⟨hle, fun u hu hr => ?_, ?_⟩
      · rcases List.mem_cons.mp hu with rfl | hu
        · exact (Nat.le_of_not_lt fun hlt => hlonger ⟨hr, hlt⟩).trans hle
        · exact hall u hu hr
      · exact hchoice.imp_right fun ⟨hmem, hrest⟩ => ⟨List.mem_cons_of_mem _ hmem, hrest⟩

/-- A yield that leaves the current task where it is, one without a current task, and a switch from one task to
another, which is deleted when that was pending. -/
inductive TaskYielded (s : Sched) (fuel : ℕ) : Option ℕ → Sched → Prop
  | stay : TaskYielded s fuel none s
  | start {kernel : ℕ} {s' : Sched} (hcurrent : s.taskCurrent = none) (hkernel : s.taskKernel = some kernel)
      (h : s.Switched kernel s') : TaskYielded s fuel (some kernel) s'
  | switch {current d t : ℕ} {s' : Sched} (hcurrent : s.taskCurrent = some current)
      (hwalk : taskWalk s current (taskSelect s) fuel current (current, 0) = some (t, d)) (hne : t ≠ current)
      (hkept : (s.task current).type ≠ .deletePending) (h : s.Switched t s') : TaskYielded s fuel (some t) s'
  | delete {current d t : ℕ} {s₁ s' : Sched} (hcurrent : s.taskCurrent = some current)
      (hwalk : taskWalk s current (taskSelect s) fuel current (current, 0) = some (t, d)) (hne : t ≠ current)
      (hpending : (s.task current).type = .deletePending) (hdelete : taskDoDelete current s = some ((), s₁))
      (h : Sched.Switched { s₁ with taskCurrent := none } t s') : TaskYielded s fuel (some t) s'

theorem taskYield_run {fuel : ℕ} {r : Option ℕ} (h : taskYield fuel s = some (r, s')) :
    TaskYielded s fuel r s' := by
  unfold taskYield at h
  rw [Comp.read_bind] at h
  dsimp only [id] at h
  cases hkernel : s.taskKernel with
  | none =>
    simp only [hkernel] at h
    cases h
    exact .stay
  | some kernel =>
    simp only [hkernel] at h
    by_cases hblock : s.yieldBlockCnt ≠ 0
    · rw [if_pos hblock] at h
      cases h
      exact .stay
    rw [if_neg hblock] at h
    cases hcurrent : s.taskCurrent with
    | none =>
      simp only [hcurrent] at h
      by_cases hready : (s.task kernel).ready
      · rw [if_pos hready] at h
        obtain ⟨s₁, hs₁, hswitched⟩ := taskSwitchTo_run s kernel
        rw [Comp.bind_of_eq hs₁] at h
        cases h
        exact .start hcurrent hkernel hswitched
      · rw [if_neg hready] at h
        cases h
        exact .stay
    | some current =>
      simp only [hcurrent] at h
      obtain ⟨sel, s₁, hsel, h⟩ := Comp.bind_eq_some.mp h
      rw [Comp.readOr_apply, Option.map_eq_some_iff] at hsel
      obtain ⟨⟨t, d⟩, hwalk, heq⟩ := hsel
      cases heq
      by_cases hsame : t = current
      · rw [if_pos hsame] at h
        cases h
        exact .stay
      rw [if_neg hsame, Comp.read_bind] at h
      by_cases hpending : (s.task current).type = .deletePending
      · rw [Comp.when_true hpending, Comp.bind_assoc] at h
        obtain ⟨s₁, hdelete, -⟩ := taskDoDelete_run s current
        obtain ⟨s₂, hs₂, hswitched⟩ := taskSwitchTo_run { s₁ with taskCurrent := none } t
        rw [Comp.bind_of_eq hdelete, Comp.modify_bind, Comp.bind_of_eq hs₂] at h
        cases h
        exact .delete hcurrent hwalk hsame hpending hdelete hswitched
      · rw [Comp.when_false hpending] at h
        obtain ⟨s₁, hs₁, hswitched⟩ := taskSwitchTo_run s t
        rw [Comp.pure_bind, Comp.bind_of_eq hs₁] at h
        cases h
        exact .switch hcurrent hwalk hsame hpending hswitched

theorem taskYield_stamp {fuel : ℕ} (h : taskYield fuel s = some (some t, s')) :
    (s'.task t).tSwitch = s.timerTick := by
  cases taskYield_run h with
  | start _ _ hs => exact hs.stamp
  | switch _ _ _ _ hs => exact hs.stamp
  | @delete current d t s₁ s' _ _ _ _ hdelete hs =>
    obtain ⟨s₂, hdelete', hlinks⟩ := taskDoDelete_run s current
    cases hdelete.symm.trans hdelete'
    exact hs.stamp.trans hlinks.vars.tick

/-- The switch is made as soon as the loop has chosen another task. -/
theorem taskYield_switch {current d fuel : ℕ} (hkernel : s.taskKernel ≠ none) (hblock : s.yieldBlockCnt = 0)
    (hcurrent : s.taskCurrent = some current)
    (hwalk : taskWalk s current (taskSelect s) fuel current (current, 0) = some (t, d)) (hne : t ≠ current) :
    ∃ s', taskYield fuel s = some (some t, s') ∧ s'.taskCurrent = some t := by
  obtain ⟨kernel, hkernel⟩ := Option.ne_none_iff_exists'.mp hkernel
  have hsel : Comp.readOr (fun s => taskWalk s current (taskSelect s) fuel current (current, 0)) s =
      some ((t, d), s) := by
    rw [Comp.readOr_apply, hwalk]
    rfl
  unfold taskYield
  rw [Comp.read_bind]
  simp only [id, hkernel, hcurrent]
  rw [if_neg (not_not.mpr hblock), Comp.bind_of_eq hsel, if_neg hne, Comp.read_bind]
  by_cases hpending : (s.task current).type = .deletePending
  · obtain ⟨s₁, hdelete, -⟩ := taskDoDelete_run s current
    obtain ⟨s₂, hs₂, hswitched⟩ := taskSwitchTo_run { s₁ with taskCurrent := none } t
    rw [Comp.when_true hpending, Comp.bind_assoc, Comp.bind_of_eq hdelete, Comp.modify_bind, Comp.bind_of_eq hs₂]
    exact ⟨s₂, rfl, hswitched.current⟩
  · obtain ⟨s₁, hs₁, hswitched⟩ := taskSwitchTo_run s t
    rw [Comp.when_false hpending, Comp.pure_bind, Comp.bind_of_eq hs₁]
    exact ⟨s₁, rfl, hswitched.current⟩

end SysX
