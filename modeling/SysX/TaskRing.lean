import SysX.Tasks
import SysX.Lib.LinkedRing
import Mathlib.Data.Finset.Erase
import Mathlib.Data.Finset.Insert

/-! The ring of tasks over every sequence of insertions and removals, and the walk of the scheduler on it. -/
namespace SysX

variable {s s' : Sched} {M : Finset ℕ} {k t target : ℕ}

namespace Sched

/-- The tasks of `M` form one ring with the kernel task, and all of them lie in kernel memory. -/
def HasRing (s : Sched) (k : ℕ) (M : Finset ℕ) : Prop :=
  (∃ l, IsRing s.next s.prev k l ∧ ∀ t, t ∈ k :: l ↔ t ∈ M) ∧ ∀ t ∈ M, s.kernelStartAddr ≤ t

theorem HasRing.congr (h : s.HasRing k M) (hlinks : ∀ t ∈ M, s'.next t = s.next t ∧ s'.prev t = s.prev t)
    (haddr : s'.kernelStartAddr = s.kernelStartAddr) : s'.HasRing k M := by
  obtain ⟨⟨l, hring, hmem⟩, hlow⟩ := h
  refine ⟨⟨l, hring.congr ?_ ?_, hmem⟩, haddr ▸ hlow⟩
  · exact fun t ht => (hlinks t ((hmem t).mp ht)).1
  · exact fun t ht => (hlinks t ((hmem t).mp ht)).2

section SetTask

variable (s : Sched) (t v : ℕ)

@[simp] theorem next_setNext :
    (s.setTask t fun c => { c with next := v }).next = Function.update s.next t v := by
  funext u
  rcases eq_or_ne u t with rfl | h
  · simp [next, setTask]
  · simp [next, setTask, h]

@[simp] theorem prev_setPrev :
    (s.setTask t fun c => { c with prev := v }).prev = Function.update s.prev t v := by
  funext u
  rcases eq_or_ne u t with rfl | h
  · simp [prev, setTask]
  · simp [prev, setTask, h]

theorem setTask_task_self (f : TaskCommon → TaskCommon) : (s.setTask t f).task t = f (s.task t) :=
  Function.update_self ..

/-- Another change of a task leaves its two pointers. -/
theorem links_setTask {f : TaskCommon → TaskCommon} (hnext : (f (s.task t)).next = (s.task t).next)
    (hprev : (f (s.task t)).prev = (s.task t).prev) (u : ℕ) :
    (s.setTask t f).next u = s.next u ∧ (s.setTask t f).prev u = s.prev u := by
  rcases eq_or_ne u t with rfl | h
  · simp [next, prev, setTask, hnext, hprev]
  · simp [next, prev, setTask, h]

@[simp] theorem prev_setNext : (s.setTask t fun c => { c with next := v }).prev = s.prev := by
  funext u
  rcases eq_or_ne u t with rfl | h
  · simp [prev, setTask]
  · simp [prev, setTask, h]

@[simp] theorem next_setPrev : (s.setTask t fun c => { c with prev := v }).next = s.next := by
  funext u
  rcases eq_or_ne u t with rfl | h
  · simp [next, setTask]
  · simp [next, setTask, h]

end SetTask

/-- The variables that only the scheduler itself and the timer change. -/
structure SameVars (s s' : Sched) : Prop where
  addr : s'.kernelStartAddr = s.kernelStartAddr
  kernel : s'.taskKernel = s.taskKernel
  current : s'.taskCurrent = s.taskCurrent
  tick : s'.timerTick = s.timerTick

theorem SameVars.refl (s : Sched) : s.SameVars s := ⟨rfl, rfl, rfl, rfl⟩

/-- The tasks with other links, of which nothing else has changed. -/
structure Relinked (s s' : Sched) (next prev : ℕ → ℕ) : Prop where
  next : s'.next = next
  prev : s'.prev = prev
  task : ∀ u, (s'.task u).toTask = (s.task u).toTask
  vars : s.SameVars s'

namespace Relinked

variable {s₁ : Sched} {n p : ℕ → ℕ}

theorem refl (s : Sched) : s.Relinked s s.next s.prev := ⟨rfl, rfl, fun _ => rfl, .refl s⟩

theorem setNext (h : s.Relinked s₁ n p) (t v : ℕ) :
    s.Relinked (s₁.setTask t fun c => { c with next := v }) (Function.update n t v) p := by
  refine ⟨by rw [next_setNext, h.next], by rw [prev_setNext, h.prev], fun u => ?_,
    ⟨h.vars.addr, h.vars.kernel, h.vars.current, h.vars.tick⟩⟩
  rcases eq_or_ne u t with rfl | hu
  · simpa [setTask] using h.task u
  · simpa [setTask, hu] using h.task u

theorem setPrev (h : s.Relinked s₁ n p) (t v : ℕ) :
    s.Relinked (s₁.setTask t fun c => { c with prev := v }) n (Function.update p t v) := by
  refine ⟨by rw [next_setPrev, h.next], by rw [prev_setPrev, h.prev], fun u => ?_,
    ⟨h.vars.addr, h.vars.kernel, h.vars.current, h.vars.tick⟩⟩
  rcases eq_or_ne u t with rfl | hu
  · simpa [setTask] using h.task u
  · simpa [setTask, hu] using h.task u

/-- The pointers change while yielding is blocked. -/
theorem unblock (h : Relinked { s with yieldBlockCnt := s.yieldBlockCnt + 1 } s₁ n p) :
    s.Relinked { s₁ with yieldBlockCnt := s₁.yieldBlockCnt - 1 } n p :=
  ⟨h.next, h.prev, h.task, ⟨h.vars.addr, h.vars.kernel, h.vars.current, h.vars.tick⟩⟩

end Relinked

end Sched

open Sched

theorem taskInsert_run (s : Sched) (t target : ℕ) : ∃ s', taskInsert t target s = some ((), s') ∧
    s.Relinked s' (Function.update (Function.update s.next t (s.next target)) target t)
      (Function.update (Function.update s.prev t target) (s.next target) t) := by
  have h₁ := (Relinked.refl { s with yieldBlockCnt := s.yieldBlockCnt + 1 }).setPrev t target
  have h₂ := h₁.setNext t (s.next target)
  have h₃ := h₂.setPrev (s.next target) t
  have h₄ := h₃.setNext target t
  refine ⟨_, ?_, h₄.unblock⟩
  have hnext : _ = s.next target := congrFun h₁.next target
  have hnext' : _ = s.next target := (congrFun h₂.next t).trans (Function.update_self ..)
  unfold taskInsert taskYieldBlock taskYieldUnblock taskSetNext taskSetPrev
  simp only [Comp.modify_bind, Comp.read_bind, Comp.modify_apply]
  rw [hnext]
  rw [hnext']

theorem procRemoveTask_run (s : Sched) (t : ℕ) :
    ∃ procTasks, procRemoveTask t s = some ((), { s with procTasks := procTasks }) := by
  unfold procRemoveTask
  simp only [Comp.read_bind]
  cases s.procTasks (s.task t).pid with
  | none => exact ⟨s.procTasks, rfl⟩
  | some tasks => exact ⟨_, rfl⟩

theorem taskDoDelete_run (s : Sched) (t : ℕ) : ∃ s', taskDoDelete t s = some ((), s') ∧
    s.Relinked s' (Function.update s.next (s.prev t) (s.next t)) (Function.update s.prev (s.next t) (s.prev t)) := by
  let s₀ : Sched := { s with yieldBlockCnt := s.yieldBlockCnt + 1 }
  obtain ⟨procTasks, hproc⟩ := procRemoveTask_run s₀ t
  have h₁ : Relinked s₀ { s₀ with procTasks := procTasks } s.next s.prev := ⟨rfl, rfl, fun _ => rfl, ⟨rfl, rfl, rfl, rfl⟩⟩
  have h₂ := h₁.setNext (s.prev t) (s.next t)
  have h₃ := h₂.setPrev (s.next t) (s.prev t)
  refine ⟨_, ?_, h₃.unblock⟩
  have hself : Function.update s.next (s.prev t) (s.next t) t = s.next t := by
    rcases eq_or_ne t (s.prev t) with heq | hne
    · rw [← heq, Function.update_self]
    · rw [Function.update_of_ne hne]
  have hnext := (congrFun h₂.next t).trans hself
  have hprev : _ = s.prev t := congrFun h₂.prev t
  unfold taskDoDelete taskYieldBlock taskYieldUnblock taskSetNext taskSetPrev
  rw [Comp.modify_bind, Comp.bind_of_eq hproc]
  simp only [Comp.modify_bind, Comp.read_bind, Comp.modify_apply]
  rw [show Sched.next { s₀ with procTasks := procTasks } t = s.next t from rfl,
    show Sched.prev { s₀ with procTasks := procTasks } t = s.prev t from rfl, hnext, hprev]

namespace Sched

theorem HasRing.insert (h : s.HasRing k M) (ht : t ∉ M) (htarget : target ∈ M) (hlow : s.kernelStartAddr ≤ t)
    (hr : taskInsert t target s = some ((), s')) : s'.HasRing k (Insert.insert t M) := by
  obtain ⟨⟨l, hring, hmem⟩, haddr⟩ := h
  obtain ⟨s'', hr', hlinks⟩ := taskInsert_run s t target
  cases hr.symm.trans hr'
  obtain ⟨l', hring', hperm⟩ := hring.exists_insert ((hmem target).mpr htarget) fun hl => ht ((hmem t).mp hl)
  have hsame : s'.kernelStartAddr = s.kernelStartAddr := hlinks.vars.addr
  refine ⟨⟨l', ?_, fun u => ?_⟩, fun u hu => ?_⟩
  · rw [hlinks.next, hlinks.prev]
    exact hring'
  · rw [hperm.mem_iff, List.mem_cons, hmem, Finset.mem_insert]
  · rw [hsame]
    rcases Finset.mem_insert.mp hu with rfl | hu
    · exact hlow
    · exact haddr u hu

theorem HasRing.erase (h : s.HasRing k M) (ht : t ∈ M) (hk : t ≠ k)
    (hr : taskDoDelete t s = some ((), s')) : s'.HasRing k (M.erase t) := by
  obtain ⟨⟨l, hring, hmem⟩, haddr⟩ := h
  obtain ⟨s'', hr', hlinks⟩ := taskDoDelete_run s t
  cases hr.symm.trans hr'
  have htl : t ∈ l := (List.mem_cons.mp ((hmem t).mpr ht)).resolve_left hk
  obtain ⟨l', hring', hperm⟩ := hring.exists_erase htl
  have hsame : s'.kernelStartAddr = s.kernelStartAddr := hlinks.vars.addr
  have hnot : t ∉ k :: l' := (List.nodup_cons.mp (hperm.nodup_iff.mpr hring.nodup)).1
  refine ⟨⟨l', ?_, fun u => ?_⟩, fun u hu => ?_⟩
  · rw [hlinks.next, hlinks.prev]
    exact hring'
  · have hu : u ∈ t :: k :: l' ↔ u ∈ M := hperm.mem_iff.trans (hmem u)
    rw [Finset.mem_erase, ← hu]
    constructor
    · intro hu'
      exact ⟨fun heq => hnot (heq ▸ hu'), List.mem_cons_of_mem _ hu'⟩
    · rintro ⟨hne, hu'⟩
      exact (List.mem_cons.mp hu').resolve_left hne
  · rw [hsame]
    exact haddr u (Finset.mem_of_mem_erase hu)

/-- The ring seen from any of its tasks. -/
theorem HasRing.seen (h : s.HasRing k M) (ht : t ∈ M) :
    ∃ l, IsRing s.next s.prev t l ∧ ∀ u, u ∈ t :: l ↔ u ∈ M := by
  obtain ⟨⟨l, hring, hmem⟩, -⟩ := h
  obtain ⟨l', hring', hperm⟩ := hring.exists_rotate ((hmem t).mpr ht)
  exact ⟨l', hring', fun u => hperm.mem_iff.trans (hmem u)⟩

end Sched

/-- The walk along a path of links that ends at the current task. -/
theorem taskWalk_path {β : Type} {body : β → ℕ → β} {b : β} {current x fuel : ℕ} {l : List ℕ}
    (h : (x :: (l ++ [current])).IsChain (Linked s.next s.prev)) (hout : current ∉ l)
    (hlow : ∀ t ∈ l ++ [current], s.kernelStartAddr ≤ t) (hfuel : l.length < fuel) :
    taskWalk s current body fuel x b = some (l.foldl body b) := by
  induction l generalizing x b fuel with
  | nil =>
    obtain ⟨fuel, rfl⟩ := Nat.exists_eq_succ_of_ne_zero (Nat.ne_zero_of_lt hfuel)
    obtain ⟨⟨hnext, -⟩, -⟩ := List.isChain_cons_cons.mp h
    have := hlow current List.mem_cons_self
    rw [taskWalk, hnext, if_neg (by omega), if_pos rfl, List.foldl_nil]
  | cons y l ih =>
    obtain ⟨fuel, rfl⟩ := Nat.exists_eq_succ_of_ne_zero (Nat.ne_zero_of_lt hfuel)
    obtain ⟨⟨hnext, -⟩, hrest⟩ := List.isChain_cons_cons.mp h
    obtain ⟨hne, hout⟩ : current ≠ y ∧ current ∉ l := by
      simpa using hout
    have := hlow y List.mem_cons_self
    rw [taskWalk, hnext, if_neg (by omega), if_neg (Ne.symm hne), List.foldl_cons]
    exact ih hrest hout (fun t ht => hlow t (List.mem_cons_of_mem _ ht)) (Nat.lt_of_succ_lt_succ hfuel)

/-- What `task_init_stub`, insertions and removals lead to, with the kernel task and the tasks inserted and not
yet removed. Anything else may happen in between that leaves the pointers of these tasks. -/
inductive TaskRingRun : Sched → ℕ → Finset ℕ → Prop
  | init {s s' : Sched} {k bottom top : ℕ} (hlow : s.kernelStartAddr ≤ k) (hr : taskInitStub k bottom top s = some ((), s')) :
      TaskRingRun s' k {k}
  | insert {s s' : Sched} {k : ℕ} {M : Finset ℕ} {t target : ℕ} (h : TaskRingRun s k M) (ht : t ∉ M) (htarget : target ∈ M)
      (hlow : s.kernelStartAddr ≤ t) (hr : taskInsert t target s = some ((), s')) :
      TaskRingRun s' k (Insert.insert t M)
  | remove {s s' : Sched} {k : ℕ} {M : Finset ℕ} {t : ℕ} (h : TaskRingRun s k M) (ht : t ∈ M) (hk : t ≠ k)
      (hr : taskDoDelete t s = some ((), s')) : TaskRingRun s' k (M.erase t)
  | other {s s' : Sched} {k : ℕ} {M : Finset ℕ} (h : TaskRingRun s k M)
      (hlinks : ∀ t ∈ M, s'.next t = s.next t ∧ s'.prev t = s.prev t) (haddr : s'.kernelStartAddr = s.kernelStartAddr) (hkernel : s'.taskKernel = s.taskKernel) :
      TaskRingRun s' k M

/-- The ring of the tasks of `M` as the pointers show it, and the walks on it. -/
structure CyclicTasks (s : Sched) (k : ℕ) (M : Finset ℕ) : Prop where
  kernel : s.taskKernel = some k ∧ k ∈ M
  inverse : ∀ t ∈ M, s.prev (s.next t) = t ∧ s.next (s.prev t) = t
  closed : ∀ t ∈ M, s.next t ∈ M ∧ s.prev t ∈ M
  cycle : ∀ t ∈ M, ∀ u, (∃ n, s.next^[n] t = u) ↔ u ∈ M
  visits : ∀ current ∈ M, ∃ visited : List ℕ, visited.Nodup ∧ (∀ t, t ∈ visited ↔ t ∈ M ∧ t ≠ current) ∧
    ∀ {β : Type} (body : β → ℕ → β) (b : β) (fuel : ℕ), visited.length < fuel →
      taskWalk s current body fuel current b = some (visited.foldl body b)

namespace Sched

theorem HasRing.visits (h : s.HasRing k M) {current : ℕ} (hc : current ∈ M) :
    ∃ visited : List ℕ, visited.Nodup ∧ (∀ t, t ∈ visited ↔ t ∈ M ∧ t ≠ current) ∧
      ∀ {β : Type} (body : β → ℕ → β) (b : β) (fuel : ℕ), visited.length < fuel →
        taskWalk s current body fuel current b = some (visited.foldl body b) := by
  obtain ⟨l, hring, hmem⟩ := h.seen hc
  obtain ⟨hout, hnodup⟩ := List.nodup_cons.mp hring.nodup
  refine ⟨l, hnodup, fun t => ?_, fun body b fuel hfuel => taskWalk_path hring.chain hout ?_ hfuel⟩
  · rw [← hmem, List.mem_cons]
    constructor
    · intro ht
      exact ⟨.inr ht, fun heq => hout (heq ▸ ht)⟩
    · rintro ⟨ht, hne⟩
      exact ht.resolve_left hne
  · intro t ht
    apply h.2
    rw [← hmem]
    rcases List.mem_append.mp ht with ht | ht
    · exact List.mem_cons_of_mem _ ht
    · exact List.mem_singleton.mp ht ▸ List.mem_cons_self

theorem HasRing.iterate (h : s.HasRing k M) (ht : t ∈ M) (n : ℕ) : s.next^[n] t ∈ M := by
  obtain ⟨⟨l, hring, hmem⟩, -⟩ := h
  induction n with
  | zero => exact ht
  | succ n ih =>
    rw [Function.iterate_succ_apply', ← hmem]
    exact (hring.next_mem ((hmem _).mpr ih)).1

theorem HasRing.cyclic (h : s.HasRing k M) (hkernel : s.taskKernel = some k) : CyclicTasks s k M := by
  obtain ⟨l, hring, hmem⟩ := h.1
  refine ⟨⟨hkernel, (hmem k).mp List.mem_cons_self⟩, fun t ht => ?_, fun t ht => ?_, fun t ht u => ?_,
    fun current hc => h.visits hc⟩
  · exact ⟨(hring.next_mem ((hmem t).mpr ht)).2, (hring.prev_mem ((hmem t).mpr ht)).2⟩
  · exact ⟨(hmem _).mp (hring.next_mem ((hmem t).mpr ht)).1, (hmem _).mp (hring.prev_mem ((hmem t).mpr ht)).1⟩
  · constructor
    · rintro ⟨n, rfl⟩
      exact h.iterate ht n
    · intro hu
      exact hring.reach ((hmem t).mpr ht) ((hmem u).mpr hu)

end Sched

theorem taskInitStub_run {bottom top : ℕ} (hlow : s.kernelStartAddr ≤ k)
    (hr : taskInitStub k bottom top s = some ((), s')) : s'.HasRing k {k} ∧ s'.taskKernel = some k := by
  cases hr
  refine ⟨⟨⟨[], IsRing.singleton ?_ ?_, ?_⟩, ?_⟩, rfl⟩
  · simp [next, setTask]
  · simp [prev, setTask]
  · simp
  · intro t ht
    rw [Finset.mem_singleton] at ht
    exact ht ▸ hlow

theorem TaskRingRun.ring (h : TaskRingRun s k M) : s.HasRing k M ∧ s.taskKernel = some k := by
  induction h with
  | init hlow hr => exact taskInitStub_run hlow hr
  | @insert s s' k M t target _ ht htarget hlow hr ih =>
    refine ⟨ih.1.insert ht htarget hlow hr, ?_⟩
    obtain ⟨s'', hr', hlinks⟩ := taskInsert_run s t target
    cases hr.symm.trans hr'
    exact hlinks.vars.kernel.trans ih.2
  | @remove s s' k M t _ ht hk hr ih =>
    refine ⟨ih.1.erase ht hk hr, ?_⟩
    obtain ⟨s'', hr', hlinks⟩ := taskDoDelete_run s t
    cases hr.symm.trans hr'
    exact hlinks.vars.kernel.trans ih.2
  | other _ hlinks haddr hkernel ih => exact ⟨ih.1.congr hlinks haddr, hkernel.trans ih.2⟩

/-- After every run the tasks inserted and not removed form one ring with the kernel task. -/
theorem task_ring (h : TaskRingRun s k M) : CyclicTasks s k M := h.ring.1.cyclic h.ring.2

/-- The scheduler before `task_init_stub`. -/
def bootSched : Sched where
  kernelStartAddr := 0x100
  task := fun _ => TaskCommon.blank
  taskKernel := none
  taskCurrent := none
  yieldBlockCnt := 0
  yieldTick := 0
  timerTick := 0
  procTasks := fun _ => none

/-- Two tasks put behind the kernel task, and the first of them removed. -/
theorem task_ring_sample : ∃ s₁ s₂ s₃ s₄, taskInitStub 0x100 0x3000 0x2000 bootSched = some ((), s₁) ∧
    taskInsert 0x200 0x100 s₁ = some ((), s₂) ∧ taskInsert 0x300 0x100 s₂ = some ((), s₃) ∧
    taskDoDelete 0x200 s₃ = some ((), s₄) ∧ CyclicTasks s₄ 0x100 (Finset.erase {0x300, 0x200, 0x100} 0x200) := by
  obtain ⟨s₁, hr₁, hlow⟩ : ∃ s₁, taskInitStub 0x100 0x3000 0x2000 bootSched = some ((), s₁) ∧
      s₁.kernelStartAddr = 0x100 := ⟨_, rfl, rfl⟩
  obtain ⟨s₂, hr₂, hlinks⟩ := taskInsert_run s₁ 0x200 0x100
  obtain ⟨s₃, hr₃, -⟩ := taskInsert_run s₂ 0x300 0x100
  obtain ⟨s₄, hr₄, -⟩ := taskDoDelete_run s₃ 0x200
  have h₁ : TaskRingRun s₁ 0x100 {0x100} := .init (Nat.le_refl 0x100) hr₁
  have h₂ : TaskRingRun s₂ 0x100 {0x200, 0x100} :=
    h₁.insert (by decide) (by decide) (by rw [hlow]; decide) hr₂
  have h₃ : TaskRingRun s₃ 0x100 {0x300, 0x200, 0x100} :=
    h₂.insert (by decide) (by decide) (by rw [hlinks.vars.addr, hlow]; decide) hr₃
  exact ⟨s₁, s₂, s₃, s₄, hr₁, hr₂, hr₃, hr₄, task_ring (h₃.remove (by decide) (by decide) hr₄)⟩

end SysX
