import SysX.Descriptors
import SysX.Pids

/-!
What making, forking and deleting processes does to the PID table and to the descriptors.
-/
namespace SysX

/-- Whether the PID table has to grow for a new process. -/
def Files.pidGrows (s : Files) : ℕ := if s.pidtab.findIdx? (· = none) = none then 1 else 0

/-- The PID table has an entry for the new process `proc`, which has no descriptors. -/
structure Added (s u : Files) (proc : ℕ) : Prop where
  live : u.live.Perm (proc :: s.live)
  fds : u.fds = Function.update s.fds proc []
  ent : u.ent = s.ent
  base : u.ftabBase = s.ftabBase
  closes : u.closes = s.closes
  nodes : u.nodes = s.nodes
  devConsole : u.devConsole = s.devConsole
  ftabHeap : u.ftabHeap = s.ftabHeap
  ftabCalls : u.ftabCalls = s.ftabCalls
  otherHeap : u.otherHeap = s.otherHeap
  otherCalls : u.otherCalls = s.otherCalls + 1 + s.pidGrows
  pid : u.pidtab[u.pid proc]? = some (some proc)
  pids : ∀ p ≠ proc, u.pid p = s.pid p
  kept : ∀ (j p : ℕ), s.pidtab[j]? = some (some p) → u.pidtab[j]? = some (some p)

/-- No process was made; only the block of the failed one may have been written. -/
structure Unmade (s u : Files) (proc : ℕ) : Prop where
  pidtab : u.pidtab = s.pidtab
  pid : u.pid = s.pid
  fds : ∀ p ≠ proc, u.fds p = s.fds p
  ent : u.ent = s.ent
  base : u.ftabBase = s.ftabBase
  closes : u.closes = s.closes
  nodes : u.nodes = s.nodes
  devConsole : u.devConsole = s.devConsole

section

variable {s t : Files} {proc : ℕ}

theorem procPidAlloc_run {r : Option ℕ} (h : procPidAlloc proc s = some (r, t)) :
    r = none ∧ t.pidtab = s.pidtab ∧ t.pid = s.pid ∧ (∃ n, t = { s with otherCalls := n }) ∨
    (∃ i, r = some i ∧ t.pid = Function.update s.pid proc i ∧ t.pidtab[i]? = some (some proc)) ∧
      (∀ (j p : ℕ), s.pidtab[j]? = some (some p) → t.pidtab[j]? = some (some p)) ∧
      t.live.Perm (proc :: s.live) ∧ t.otherCalls = s.otherCalls + s.pidGrows ∧
      t = { s with pidtab := t.pidtab, pid := t.pid, otherCalls := t.otherCalls } := by
  cases procPidAlloc_cases h with
  | @hole i hnone _ =>
    obtain ⟨hi, -⟩ := List.getElem?_eq_some_iff.mp hnone
    have hfind : s.pidtab.findIdx? (· = none) ≠ none := by
      intro hf
      simpa using List.findIdx?_eq_none_iff.mp hf none (List.mem_of_getElem? hnone)
    refine .inr ⟨⟨i, rfl, rfl, ?_⟩, ?_, filterMap_set_some proc hnone, ?_, rfl⟩
    · simp [hi]
    · intro j p hj
      rw [List.getElem?_set_ne, hj]
      rintro rfl
      rw [hnone] at hj
      cases hj
    · simp [Files.pidGrows, hfind]
  | grown hfull _ =>
    have hfind : s.pidtab.findIdx? (· = none) = none := by
      apply List.findIdx?_eq_none_iff.mpr
      intro x hx
      obtain ⟨j, hj, rfl⟩ := List.getElem_of_mem hx
      obtain ⟨p, hp⟩ := hfull j hj
      rw [List.getElem?_eq_getElem hj] at hp
      simp [Option.some.inj hp]
    refine .inr ⟨⟨_, rfl, rfl, ?_⟩, ?_, ?_, ?_, rfl⟩
    · simp
    · intro j p hj
      obtain ⟨hlt, -⟩ := List.getElem?_eq_some_iff.mp hj
      rw [List.getElem?_append_left hlt, hj]
    · simp only [Files.live, List.filterMap_append, List.filterMap_cons, id]
      exact List.perm_append_singleton proc _
    · simp [Files.pidGrows, hfind]
  | limit => exact .inl ⟨rfl, rfl, rfl, s.otherCalls, rfl⟩
  | memory => exact .inl ⟨rfl, rfl, rfl, s.otherCalls + 1, rfl⟩

/-- `proc_create` makes no process, or gives it a PID and opens the console three times. -/
theorem procCreate_run {parent r : Option ℕ} {vmmOk : Bool}
    (h : procCreate parent vmmOk s = some (r, t)) :
    r = none ∧ Unmade s t s.nextProc ∨
    r = some s.nextProc ∧ ∃ u₀ u₁ u₂ u₃ r₁ r₂ r₃ f, Added s u₀ s.nextProc ∧
      procFdOpen s.nextProc s.devConsole true true false false false u₀ = some (r₁, u₁) ∧
      procFdOpen s.nextProc s.devConsole true false true false false u₁ = some (r₂, u₂) ∧
      procFdOpen s.nextProc s.devConsole true false true false false u₂ = some (r₃, u₃) ∧
      t = { u₃ with parentPid := f } := by
  simp only [procCreate, otherAlloc, Comp.bind_assoc, Comp.read_bind, Comp.modify_bind,
    Comp.pure_bind] at h
  cases hh : s.otherHeap s.otherCalls with
  | false =>
    rw [hh] at h
    cases h
    exact .inl ⟨rfl, rfl, rfl, fun _ _ => rfl, rfl, rfl, rfl, rfl, rfl⟩
  | true =>
    simp only [hh, Bool.true_eq_false, if_false, Comp.read_bind, Comp.modify_bind] at h
    cases vmmOk with
    | false =>
      cases h
      exact .inl ⟨rfl, rfl, rfl, fun p hp => Function.update_of_ne hp _ _, rfl, rfl, rfl, rfl, rfl⟩
    | true =>
      obtain ⟨r', u₀, hpid, h⟩ := Comp.bind_eq_some.mp h
      rcases procPidAlloc_run hpid with ⟨rfl, hp, hp', n, rfl⟩ |
        ⟨⟨i, rfl, hpid', hi⟩, hkept, hlive, hcalls, hu⟩
      · cases h
        exact .inl ⟨rfl, rfl, rfl, fun p hp => Function.update_of_ne hp _ _, rfl, rfl, rfl, rfl, rfl⟩
      · have hadd : Added s u₀ s.nextProc := by
          constructor
          · exact hlive
          · rw [hu]
          · rw [hu]
            rfl
          · rw [hu]
          · rw [hu]
            rfl
          · rw [hu]
          · rw [hu]
          · rw [hu]
          · rw [hu]
          · rw [hu]
          · rw [hcalls]
            rfl
          · rw [hpid', Function.update_self]
            exact hi
          · intro p hp
            rw [hpid', Function.update_of_ne hp]
          · exact hkept
        simp only [Comp.read_bind] at h
        rw [hadd.devConsole] at h
        obtain ⟨r₁, u₁, h₁, h⟩ := Comp.bind_eq_some.mp h
        obtain ⟨r₂, u₂, h₂, h⟩ := Comp.bind_eq_some.mp h
        obtain ⟨r₃, u₃, h₃, h⟩ := Comp.bind_eq_some.mp h
        cases parent with
        | none =>
          cases h
          exact .inr ⟨rfl, u₀, u₁, u₂, _, r₁, r₂, r₃, _, hadd, h₁, h₂, h₃, rfl⟩
        | some par =>
          cases h
          exact .inr ⟨rfl, u₀, u₁, u₂, _, r₁, r₂, r₃, _, hadd, h₁, h₂, h₃, rfl⟩

theorem procDoDelete_run (h : procDoDelete proc s = some ((), t)) :
    t = { s with pidtab := s.pidtab.set (s.pid proc) none } := by
  cases h
  rfl

/-- What `proc_fork` does to one inherited descriptor. -/
inductive ReopenStep (s : Files) (dst i : ℕ) : Files → Prop
  | unused {f} (hf : (s.fds dst)[i]? = some f) (hn : f.ftab = none) : ReopenStep s dst i s
  | dropped {f p e} (hf : (s.fds dst)[i]? = some f) (hp : f.ftab = some p)
      (he : s.ent p.idx = some e) (hx : e.excl ≠ none) :
      ReopenStep s dst i (s.setFds dst ((s.fds dst).set i fdZero))
  | counted {f p e t} (hf : (s.fds dst)[i]? = some f) (hp : f.ftab = some p)
      (he : s.ent p.idx = some e) (hx : e.excl = none) (hs : s.SameBut t)
      (hb : t.ftabBase = s.ftabBase) (hc : t.closes = s.closes)
      (ht : t.ent = Function.update s.ent p.idx (some { e with refs := refsInc e.refs })) :
      ReopenStep s dst i t

theorem forkReopen_step {dst i : ℕ} (h : forkReopen dst i s = some ((), t)) :
    ReopenStep s dst i t := by
  obtain ⟨f, s', hf, h⟩ := Comp.bind_eq_some.mp h
  rw [Comp.readOr_apply, Option.map_eq_some_iff] at hf
  obtain ⟨a, ha, hau⟩ := hf
  cases hau
  cases hp : f.ftab with
  | none =>
    rw [hp] at h
    cases h
    exact .unused ha hp
  | some p =>
    rw [hp] at h
    obtain ⟨e, s', he, h⟩ := Comp.bind_eq_some.mp h
    rw [ftabDeref, Comp.readOr_apply, Option.map_eq_some_iff] at he
    obtain ⟨b, hb, hbu⟩ := he
    cases hbu
    have hbase : p.base = s.ftabBase := by
      by_contra hne
      rw [Files.ftabAt, if_neg hne] at hb
      cases hb
    rw [Files.ftabAt, if_pos hbase] at hb
    have hent := ent_of_getElem? s p.idx hb
    by_cases hx : e.excl ≠ none
    · rw [if_pos hx] at h
      cases h
      exact .dropped ha hp hent hx
    · rw [if_neg hx] at h
      obtain ⟨_, u, hacq, h⟩ := Comp.bind_eq_some.mp h
      obtain ⟨-, rfl⟩ := ftabEntAcquire_run hacq
      have hl := locking_modify s p.idx true
      rw [Comp.modify_bind, ftabEntRelease_run] at h
      have hmod := ent_modify_at (s.modifyFtab p.idx fun e => { e with mutex := true }) p.idx
        (g := fun e => { e with refs := refsInc e.refs })
        (G := fun e => { e with refs := refsInc e.refs }) (hl.ent ▸ hent) fun _ => rfl
      have hs := hl.same.trans (sameBut_modify (s.modifyFtab p.idx fun e => { e with mutex := true })
        p.idx fun e => { e with refs := refsInc e.refs })
      generalize hv : (s.modifyFtab p.idx fun e => { e with mutex := true }).modifyFtab p.idx
        (fun e => { e with refs := refsInc e.refs }) = v at h hmod hs
      have hbv : v.ftabBase = s.ftabBase := by rw [← hv]; rfl
      have hcv : v.closes = s.closes := by rw [← hv]; rfl
      have hm := locking_modify v p.idx false
      rw [hl.ent] at hmod
      cases h
      exact .counted ha hp hent (not_not.mp hx) (hs.trans hm.same) (hm.base.trans hbv)
        (hm.closes.trans hcv) (hm.ent.trans hmod)

/-- The parts of `proc_fork`. -/
theorem procFork_run {src : ℕ} {vmmOk taskOk : Bool} {r : Option ℕ}
    (h : procFork src vmmOk taskOk s = some (r, t)) :
    ∃ c u, procCreate (some src) vmmOk s = some (c, u) ∧ (c = none ∧ t = u ∨
      ∃ dst f, c = some dst ∧
        (u.otherHeap u.otherCalls = false ∧
            t = { u with parentPid := f, otherCalls := u.otherCalls + 1 } ∨
          u.otherHeap u.otherCalls = true ∧
            Comp.forRange (forkReopen dst) ((u.fds src).length - 3) 3
              ({ u with parentPid := f, otherCalls := u.otherCalls + 1 }.setFds dst (u.fds src)) =
                some ((), t))) := by
  obtain ⟨c, u, hc, h⟩ := Comp.bind_eq_some.mp h
  refine ⟨c, u, hc, ?_⟩
  cases c with
  | none =>
    cases h
    exact .inl ⟨rfl, rfl⟩
  | some dst =>
    simp only [otherAlloc, Comp.bind_assoc, Comp.read_bind, Comp.modify_bind, Comp.pure_bind] at h
    refine .inr ⟨dst, Function.update u.parentPid dst (u.pid src), rfl, ?_⟩
    cases hh : u.otherHeap u.otherCalls with
    | false =>
      rw [hh] at h
      cases h
      exact .inl ⟨rfl, rfl⟩
    | true =>
      simp only [hh, Bool.true_eq_false, if_false, Comp.read_bind, Comp.modify_bind] at h
      obtain ⟨_, v, hloop, h⟩ := Comp.bind_eq_some.mp h
      cases h
      exact .inr ⟨rfl, hloop⟩

end
end SysX
