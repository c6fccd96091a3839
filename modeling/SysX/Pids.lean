import SysX.Exclusive
import Mathlib.Order.Bounds.Basic

/-!
The PID table (`exec/process.c`) over any history of allocations and frees. The PIDs in use are a
partial map `owner` from numbers to processes, which the table represents.
-/
namespace SysX

/-- What `proc_pid_alloc` can do: take the first hole, grow the full table, or fail. -/
inductive PidAllocStep (s : Files) (proc : ℕ) : Option ℕ → Files → Prop
  | hole {i : ℕ} (hi : s.pidtab[i]? = some none)
      (hlt : ∀ j < i, ∃ p, s.pidtab[j]? = some (some p)) :
      PidAllocStep s proc (some i)
        { s with pidtab := s.pidtab.set i (some proc), pid := Function.update s.pid proc i }
  | grown (hfull : ∀ j < s.pidtab.length, ∃ p, s.pidtab[j]? = some (some p))
      (hmax : s.pidtab.length ≤ procPidMax) :
      PidAllocStep s proc (some s.pidtab.length)
        { s with
          pidtab := s.pidtab ++ some proc :: List.replicate (procPidtabAllocSz - 1) none
          pid := Function.update s.pid proc s.pidtab.length
          otherCalls := s.otherCalls + 1 }
  | limit (hfull : ∀ j < s.pidtab.length, ∃ p, s.pidtab[j]? = some (some p))
      (hmax : procPidMax < s.pidtab.length) : PidAllocStep s proc none s
  | memory (hheap : s.otherHeap s.otherCalls = false) :
      PidAllocStep s proc none { s with otherCalls := s.otherCalls + 1 }

section

variable {s t : Files} {owner : ℕ → Option ℕ} {proc pid : ℕ}

theorem getElem?_of_ne_none {l : List (Option ℕ)} {j : ℕ} (hj : j < l.length) (hne : l[j] ≠ none) :
    ∃ p, l[j]? = some (some p) := by
  obtain ⟨p, hp⟩ := Option.ne_none_iff_exists'.mp hne
  exact ⟨p, by rw [List.getElem?_eq_getElem hj, hp]⟩

/-- `proc_pid_alloc` always returns. -/
theorem procPidAlloc_total (s : Files) (proc : ℕ) :
    ∃ r t, procPidAlloc proc s = some (r, t) ∧ PidAllocStep s proc r t := by
  rw [procPidAlloc, Comp.read_bind]
  cases hf : s.pidtab.findIdx? (· = none) with
  | some i =>
    obtain ⟨hi, hp, hlt⟩ := List.findIdx?_eq_some_iff_getElem.mp hf
    refine ⟨some i, _, rfl, .hole ?_ ?_⟩
    · rw [List.getElem?_eq_getElem hi]
      simpa using hp
    · intro j hj
      apply getElem?_of_ne_none (by omega)
      simpa using hlt j hj
  | none =>
    have hfull : ∀ j < s.pidtab.length, ∃ p, s.pidtab[j]? = some (some p) := by
      intro j hj
      apply getElem?_of_ne_none hj
      simpa using List.findIdx?_eq_none_iff.mp hf _ (List.getElem_mem hj)
    dsimp only
    by_cases hmax : procPidMax < s.pidtab.length ∨ taskPidLimit ≤ s.pidtab.length
    · refine ⟨none, s, by rw [if_pos hmax]; rfl, .limit hfull ?_⟩
      have h : procPidMax < taskPidLimit := by decide
      omega
    · rw [if_neg hmax]
      push Not at hmax
      simp only [otherAlloc, Comp.bind_assoc, Comp.read_bind, Comp.modify_bind, Comp.pure_bind]
      cases hheap : s.otherHeap s.otherCalls with
      | false => exact ⟨none, _, rfl, .memory hheap⟩
      | true => exact ⟨_, _, rfl, .grown hfull hmax.1⟩

theorem procPidAlloc_cases {r : Option ℕ} (h : procPidAlloc proc s = some (r, t)) :
    PidAllocStep s proc r t := by
  obtain ⟨r', t', h', hstep⟩ := procPidAlloc_total s proc
  rw [h] at h'
  cases h'
  exact hstep

/-- The table represents `owner`: it maps exactly the PIDs in use, and each process in it knows its
number. It has grown in whole steps, so it never goes past the limit. -/
structure PidTable (owner : ℕ → Option ℕ) (s : Files) : Prop where
  get : ∀ n, s.procGet n = owner n
  pid : ∀ n p, owner n = some p → s.pid p = n
  steps : procPidtabAllocSz ∣ s.pidtab.length
  max : s.pidtab.length ≤ procPidMax + 1

theorem procGet_eq_some {n p : ℕ} : s.procGet n = some p ↔ s.pidtab[n]? = some (some p) := by
  rw [Files.procGet, Option.join_eq_some_iff]

theorem procGet_of_le {n : ℕ} (h : s.pidtab.length ≤ n) : s.procGet n = none := by
  rw [Files.procGet, List.getElem?_eq_none h]
  rfl

theorem PidTable.lt_of_owner (inv : PidTable owner s) {n p : ℕ} (h : owner n = some p) :
    n < s.pidtab.length := by
  by_contra hle
  rw [← inv.get n, procGet_of_le (not_lt.mp hle)] at h
  cases h

theorem PidTable.owner_of_full (inv : PidTable owner s) {n p : ℕ}
    (h : s.pidtab[n]? = some (some p)) : owner n = some p := by
  rw [← inv.get n]
  exact procGet_eq_some.mpr h

/-- Entries beyond the table and cleared entries are free. -/
theorem procGet_append_zero {l : List (Option ℕ)} {k n : ℕ} :
    ((l ++ List.replicate k none)[n]?).join = (l[n]?).join := by
  rw [List.getElem?_append]
  split_ifs with h
  · rfl
  · rw [List.getElem?_eq_none (not_lt.mp h), List.getElem?_replicate]
    split_ifs <;> rfl

/-- A process that has no PID gets one. -/
theorem PidTable.alloc (inv : PidTable owner s) (hnew : ∀ n, owner n ≠ some proc)
    (h : PidAllocStep s proc (some pid) t) :
    PidTable (Function.update owner pid (some proc)) t := by
  have hpid : ∀ n p, Function.update owner pid (some proc) n = some p →
      Function.update s.pid proc pid p = n := by
    intro n p hn
    by_cases hp : n = pid
    · subst hp
      rw [Function.update_self] at hn
      cases hn
      exact Function.update_self ..
    · rw [Function.update_of_ne hp] at hn
      have hne : p ≠ proc := by
        rintro rfl
        exact hnew n hn
      rw [Function.update_of_ne hne]
      exact inv.pid n p hn
  cases h with
  | hole hi hlt =>
    obtain ⟨hlen, -⟩ := List.getElem?_eq_some_iff.mp hi
    constructor
    · intro n
      by_cases hn : n = pid
      · subst hn
        simp [Files.procGet, hlen]
      · rw [Function.update_of_ne hn, ← inv.get n, Files.procGet, Files.procGet,
          List.getElem?_set_ne (Ne.symm hn)]
    · exact hpid
    · rw [List.length_set]
      exact inv.steps
    · rw [List.length_set]
      exact inv.max
  | grown hfull hmax =>
    constructor
    · intro n
      rw [Files.procGet, List.append_cons, procGet_append_zero]
      by_cases hn : n = s.pidtab.length
      · subst hn
        simp
      · rw [Function.update_of_ne hn, ← inv.get n, Files.procGet, List.getElem?_append]
        split_ifs with hlt
        · rfl
        · have hout : [some proc][n - s.pidtab.length]? = none :=
            List.getElem?_eq_none (by simp; omega)
          rw [hout, List.getElem?_eq_none (not_lt.mp hlt)]
    · exact hpid
    · rw [List.length_append]
      exact Nat.dvd_add inv.steps ⟨1, rfl⟩
    · -- the length was a multiple of four below the limit, which is one less than such a multiple
      rw [List.length_append]
      obtain ⟨k, hk⟩ := inv.steps
      simp only [procPidMax, procPidtabAllocSz, List.length_cons, List.length_replicate] at *
      omega

theorem PidTable.fail (inv : PidTable owner s) (h : PidAllocStep s proc none t) :
    PidTable owner t ∧ t.pidtab = s.pidtab ∧ t.pid = s.pid := by
  cases h with
  | limit => exact ⟨inv, rfl, rfl⟩
  | memory => exact ⟨⟨inv.get, inv.pid, inv.steps, inv.max⟩, rfl, rfl⟩

theorem PidTable.free (inv : PidTable owner s) (h : procPidFree pid s = some ((), t)) :
    PidTable (Function.update owner pid none) t := by
  cases h
  constructor
  · intro n
    by_cases hn : n = pid
    · subst hn
      rw [Function.update_self, Files.procGet, List.getElem?_set_self']
      cases s.pidtab[n]? <;> rfl
    · rw [Function.update_of_ne hn, ← inv.get n, Files.procGet, Files.procGet,
        List.getElem?_set_ne (Ne.symm hn)]
  · intro n p hn
    by_cases hp : n = pid
    · subst hp
      rw [Function.update_self] at hn
      cases hn
    · rw [Function.update_of_ne hp] at hn
      exact inv.pid n p hn
  · rw [List.length_set]
    exact inv.steps
  · rw [List.length_set]
    exact inv.max

/-- The allocated PID is the least one not in use. -/
theorem PidTable.least (inv : PidTable owner s) (h : PidAllocStep s proc (some pid) t) :
    IsLeast {n | owner n = none} pid := by
  cases h with
  | hole hi hlt =>
    constructor
    · change owner pid = none
      rw [← inv.get pid, Files.procGet, hi]
      rfl
    · intro n hn
      by_contra hlt'
      obtain ⟨p, hp⟩ := hlt n (not_le.mp hlt')
      have hnone : owner n = none := hn
      rw [inv.owner_of_full hp] at hnone
      cases hnone
  | grown hfull =>
    constructor
    · change owner s.pidtab.length = none
      rw [← inv.get, procGet_of_le le_rfl]
    · intro n hn
      by_contra hlt'
      obtain ⟨p, hp⟩ := hfull n (not_le.mp hlt')
      have hnone : owner n = none := hn
      rw [inv.owner_of_full hp] at hnone
      cases hnone

/-- A run of `proc_pid_alloc` and `proc_pid_free` from the empty table, with the PIDs in use. Each
process is a fresh block, so it has no PID before it asks for one, and only a PID in use is freed. -/
inductive PidRun : (ℕ → Option ℕ) → Files → Prop
  | init {s : Files} (h : s.pidtab = []) : PidRun (fun _ => none) s
  | alloc {owner : ℕ → Option ℕ} {s t : Files} {proc pid : ℕ} (run : PidRun owner s)
      (hnew : ∀ n, owner n ≠ some proc) (h : procPidAlloc proc s = some (some pid, t)) :
      PidRun (Function.update owner pid (some proc)) t
  | fail {owner : ℕ → Option ℕ} {s t : Files} {proc : ℕ} (run : PidRun owner s)
      (hnew : ∀ n, owner n ≠ some proc) (h : procPidAlloc proc s = some (none, t)) : PidRun owner t
  | free {owner : ℕ → Option ℕ} {s t : Files} {proc pid : ℕ} (run : PidRun owner s)
      (huse : owner pid = some proc) (h : procPidFree pid s = some ((), t)) :
      PidRun (Function.update owner pid none) t

theorem PidRun.table (run : PidRun owner s) : PidTable owner s := by
  induction run with
  | init h =>
    constructor
    · intro n
      exact procGet_of_le (by simp [h])
    · intro n p hn
      cases hn
    · simp [h]
    · simp [h]
  | alloc _ hnew h ih => exact ih.alloc hnew (procPidAlloc_cases h)
  | fail _ _ h ih => exact (ih.fail (procPidAlloc_cases h)).1
  | free _ _ h ih => exact ih.free h

/-- A number that is no process's PID is free. -/
theorem PidTable.owner_eq_none (inv : PidTable owner s) (n : ℕ) :
    owner n = none ↔ ∀ m p, owner m = some p → s.pid p ≠ n := by
  constructor
  · intro hn m p hm hp
    rw [← hp, inv.pid m p hm, hm] at hn
    cases hn
  · intro h
    by_contra hne
    obtain ⟨p, hp⟩ := Option.ne_none_iff_exists'.mp hne
    exact h n p hp (inv.pid n p hp)

/-- With memory at hand an allocation fails only when all PIDs are in use. -/
theorem PidTable.all_used (h : PidAllocStep s proc none t)
    (hheap : s.otherHeap s.otherCalls = true) {n : ℕ} (hn : n ≤ procPidMax) :
    ∃ p, s.procGet n = some p := by
  cases h with
  | limit hfull hmax =>
    obtain ⟨p, hp⟩ := hfull n (by omega)
    exact ⟨p, procGet_eq_some.mpr hp⟩
  | memory hfalse =>
    rw [hheap] at hfalse
    cases hfalse

/-- In every state of every run the table is the map of the PIDs in use. The next allocation returns,
with the least free PID; where it fails it changes nothing, and with memory at hand it fails only
when every PID is in use. -/
theorem pidTable_correct (run : PidRun owner s) :
    (∀ n p m q, owner n = some p → owner m = some q → p ≠ q → s.pid p ≠ s.pid q) ∧
    (∀ n p, owner n = some p → s.pid p ≤ procPidMax ∧ s.procGet (s.pid p) = some p) ∧
    (∀ n, (∀ m p, owner m = some p → s.pid p ≠ n) → s.procGet n = none) ∧
    ∀ proc, (∀ n, owner n ≠ some proc) → ∃ r t, procPidAlloc proc s = some (r, t) ∧
      (∀ pid, r = some pid → IsLeast {n | ∀ m p, owner m = some p → s.pid p ≠ n} pid) ∧
      (r = none → t.pidtab = s.pidtab ∧ ∀ n p, owner n = some p → t.pid p = s.pid p) ∧
      (r = none → s.otherHeap s.otherCalls = true →
        ∀ n ≤ procPidMax, ∃ m p, owner m = some p ∧ s.pid p = n) := by
  have inv := run.table
  constructor
  · intro n p m q hn hm hpq heq
    rw [inv.pid n p hn, inv.pid m q hm] at heq
    subst heq
    rw [hn] at hm
    exact hpq (Option.some.inj hm)
  constructor
  · intro n p hn
    have hlt := inv.lt_of_owner hn
    have hmax := inv.max
    rw [inv.pid n p hn, inv.get n]
    exact ⟨by omega, hn⟩
  constructor
  · intro n hn
    rw [inv.get n]
    exact (inv.owner_eq_none n).mpr hn
  · intro proc _
    obtain ⟨r, t, h, hstep⟩ := procPidAlloc_total s proc
    refine ⟨r, t, h, ?_, ?_, ?_⟩
    · rintro pid rfl
      have hleast := inv.least hstep
      simp only [inv.owner_eq_none] at hleast
      exact hleast
    · rintro rfl
      obtain ⟨-, htab, hpid⟩ := inv.fail hstep
      exact ⟨htab, fun n p _ => congrFun hpid p⟩
    · rintro rfl hheap n hn
      obtain ⟨p, hp⟩ := PidTable.all_used hstep hheap hn
      rw [inv.get n] at hp
      exact ⟨n, p, hp, inv.pid n p hp⟩

/-- The machine before the first process. -/
def noProcesses : Files := { filesSample with pidtab := [] }

theorem pidTable_correct_sample :
    PidRun (Function.update (fun _ => none) 0 (some 7)) (after (procPidAlloc 7) noProcesses) ∧
    (after (procPidAlloc 7) noProcesses).procGet 0 = some 7 := by
  have run : PidRun (Function.update (fun _ => none) 0 (some 7))
      (after (procPidAlloc 7) noProcesses) :=
    .alloc (.init rfl) (fun n hn => by cases hn) (run_after (by decide +kernel))
  have hget := (pidTable_correct run).2.1 0 7 (Function.update_self ..)
  exact ⟨run, hget.2⟩

end
end SysX
