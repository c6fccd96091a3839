import SysX.Lib.Slots
import SysX.TaskStack

/-!
The task table of a process, to which `proc_add_task` in `exec/process.c` adds tasks.
-/
namespace SysX

/-- What is promised of `proc_add_task`, for the table before it, the table after it and the index that it returns. -/
structure AddsOnce (task : ℕ) (tasks tasks' : List (Option ℕ)) (r : Option ℕ) : Prop where
  present : some task ∈ tasks → tasks' = tasks ∧ ∃ i, r = some i ∧ tasks[i]? = some (some task)
  added : some task ∉ tasks → ∀ i, r = some i →
    tasks[i]? = some none ∧ tasks' = tasks.set i (some task) ∨
    i = tasks.length ∧ tasks' = tasks ++ [some task, none, none, none]
  stored : ∀ i, r = some i → tasks'[i]? = some (some task)
  once : tasks'.count (some task) ≤ max 1 (tasks.count (some task))
  failed : r = none → tasks' = tasks

namespace Kernel

variable {proc task i : ℕ} {tasks : List (Option ℕ)} {s : Machine}

theorem procPutTask_run :
    ∃ t, procPutTask proc task i tasks s = some (some i, t) ∧ (t.proc proc).tasks = tasks.set i (some task) := by
  refine ⟨_, rfl, ?_⟩
  rw [Machine.setTask_proc, Machine.setProcTasks_tasks]

/-- The three ways through `proc_add_task`, by what the search comes to. -/
theorem procAddTask_slot (proc task : ℕ) (s : Machine) : ∃ r t, procAddTask proc task s = some (r, t) ∧
    match Slots.search task (s.proc proc).tasks with
    | some i => r = some i ∧ (t.proc proc).tasks =
        if (s.proc proc).tasks[i]? = some (some task) then (s.proc proc).tasks else (s.proc proc).tasks.set i (some task)
    | none => r = none ∧ (t.proc proc).tasks = (s.proc proc).tasks ∨
        r = some (s.proc proc).tasks.length ∧
          (t.proc proc).tasks = (s.proc proc).tasks ++ [some task, none, none, none] := by
  unfold procAddTask Slots.search
  simp only [Comp.read_bind]
  cases (s.proc proc).tasks.findIdx? fun t => t = some task ∨ t = none with
  | some i =>
    dsimp only
    split_ifs with hthere
    · exact ⟨some i, s, rfl, rfl, rfl⟩
    · obtain ⟨t, hrun, htasks⟩ := @procPutTask_run proc task i (s.proc proc).tasks s
      exact ⟨some i, t, hrun, rfl, htasks⟩
  | none =>
    simp only [krealloc, Comp.bind_assoc, Comp.read_bind, Comp.modify_bind, Comp.pure_bind]
    cases s.heap s.heapCalls with
    | none => exact ⟨none, _, rfl, .inl ⟨rfl, rfl⟩⟩
    | some block =>
      obtain ⟨t, hrun, htasks⟩ := @procPutTask_run proc task (s.proc proc).tasks.length
        ((s.proc proc).tasks ++ List.replicate procTaskAllocsz none) { s with heapCalls := s.heapCalls + 1 }
      refine ⟨_, t, hrun, .inr ⟨rfl, ?_⟩⟩
      simp [htasks, procTaskAllocsz, List.replicate]

end Kernel

/-- `proc_add_task` keeps its promise exactly where the task is not in the table behind an empty slot. -/
theorem procAddTask_once_iff (proc task : ℕ) (s : Machine) :
    (∃ r t, Kernel.procAddTask proc task s = some (r, t) ∧ AddsOnce task (s.proc proc).tasks (t.proc proc).tasks r) ↔
      Slots.BeforeHoles task (s.proc proc).tasks := by
  obtain ⟨r, t, hrun, hslot⟩ := Kernel.procAddTask_slot proc task s
  have hthis : (∃ r t, Kernel.procAddTask proc task s = some (r, t) ∧
      AddsOnce task (s.proc proc).tasks (t.proc proc).tasks r) ↔ AddsOnce task (s.proc proc).tasks (t.proc proc).tasks r := by
    simp [hrun]
  rw [hthis]
  generalize (s.proc proc).tasks = tasks at hslot ⊢
  generalize (t.proc proc).tasks = tasks' at hslot ⊢
  cases hsearch : Slots.search task tasks with
  | none =>
    obtain ⟨habsent, -⟩ := Slots.search_eq_none hsearch
    have hcount : tasks.count (some task) = 0 := List.count_eq_zero.mpr habsent
    refine iff_of_true ?_ (Slots.beforeHoles_of_notMem habsent)
    rw [hsearch] at hslot
    rcases hslot with ⟨rfl, rfl⟩ | ⟨rfl, rfl⟩
    · exact ⟨fun ha => absurd ha habsent, nofun, nofun, le_max_right _ _, fun _ => rfl⟩
    · refine ⟨fun ha => absurd ha habsent, fun _ i hi => .inr ⟨(Option.some.inj hi).symm, rfl⟩, fun i hi => ?_, ?_, nofun⟩
      · obtain rfl := Option.some.inj hi
        simp
      · simp [hcount]
  | some i =>
    rw [hsearch] at hslot
    obtain ⟨rfl, rfl⟩ := hslot
    obtain ⟨hat, -⟩ := Slots.search_eq_some hsearch
    by_cases hthere : tasks[i]? = some (some task)
    · rw [if_pos hthere]
      refine iff_of_true ⟨fun _ => ⟨rfl, i, rfl, hthere⟩, fun habsent => ?_, fun j hj => ?_, le_max_right _ _, nofun⟩
        (Slots.beforeHoles_of_found hsearch hthere)
      · exact absurd (List.mem_of_getElem? hthere) habsent
      · obtain rfl := Option.some.inj hj
        exact hthere
    · have hnone : tasks[i]? = some none := hat.resolve_left hthere
      obtain ⟨hi, -⟩ := List.getElem?_eq_some_iff.mp hnone
      have hset : (tasks.set i (some task))[i]? = some (some task) := List.getElem?_set_self hi
      rw [if_neg hthere]
      by_cases hmem : some task ∈ tasks
      · refine iff_of_false (fun h => ?_) (Slots.not_beforeHoles hsearch hnone hmem)
        rw [(h.present hmem).1, hnone] at hset
        cases hset
      · have hcount : tasks.count (some task) = 0 := List.count_eq_zero.mpr hmem
        refine iff_of_true ⟨fun ha => absurd ha hmem, fun _ j hj => ?_, fun j hj => ?_, ?_, nofun⟩
          (Slots.beforeHoles_of_notMem hmem)
        · obtain rfl := Option.some.inj hj
          exact .inl ⟨hnone, rfl⟩
        · obtain rfl := Option.some.inj hj
          exact hset
        · simp [Slots.count_set_none hnone, hcount]

/-- A process whose first task was deleted, and whose second one is added again. -/
theorem procAddTask_twice : ¬ ∀ (proc task : ℕ) (s : Machine),
    ∃ r t, Kernel.procAddTask proc task s = some (r, t) ∧ AddsOnce task (s.proc proc).tasks (t.proc proc).tasks r := by
  intro h
  obtain ⟨r, t, hrun, hadds⟩ := h 0 7 { (default : Machine) with
    proc := fun _ => { (default : Proc) with tasks := [none, some 7, none, none] } }
  cases hrun
  exact absurd hadds.once (by decide)

end SysX
