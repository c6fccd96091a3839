import SysX.Descriptors
import SysX.Exclusive

/-!
The pointers that descriptors keep into the file table, over the histories of opens and closes.
-/
namespace SysX

/-- A start: the table is empty, and no live process has a descriptor in use. -/
structure FdsStart (s : Files) : Prop where
  ftab : s.ftab = []
  live : s.live.Nodup
  slots : s.NoSlots

/-- Histories of opens and closes by live processes from `s₀`. The heap answers as it likes, and `P`
holds of every state in which a node is opened. -/
inductive FdRun (P : Files → ℕ → Prop) (s₀ : Files) : Files → Prop
  | init : FdRun P s₀ s₀
  | heap {s} (h : FdRun P s₀ s) (f : ℕ → Option ℕ) (o : ℕ → Bool) :
      FdRun P s₀ { s with ftabHeap := f, otherHeap := o }
  | opened {s t proc node dup read write append excl r} (h : FdRun P s₀ s) (hp : proc ∈ s.live)
      (hP : P s node) (hr : procFdOpen proc node dup read write append excl s = some (r, t)) :
      FdRun P s₀ t
  | closed {s t proc fd} (h : FdRun P s₀ s) (hp : proc ∈ s.live)
      (hr : procFdClose proc fd s = some ((), t)) : FdRun P s₀ t

/-- Every descriptor in use of a live process points to an entry in use of the current table. -/
def ValidPointers (s : Files) : Prop :=
  ∀ p ∈ s.live, ∀ fd f q, procFdGet s p fd = some (f, q) →
    ∃ e, ftabDeref q s = some (e, s) ∧ e.node ≠ none

section

variable {s s₀ : Files}

theorem FdsStart.inv (h : FdsStart s) : FdInv s := by
  have hent : ∀ i, s.ent i = none := fun i => by simp [Files.ent, h.ftab]
  constructor
  · exact h.live
  · intro p hp f hf q hq
    rw [h.slots p hp f hf] at hq
    cases hq
  · intro i
    rw [h.slots.slotCount]
    exact Nat.zero_le _
  · intro i e he
    rw [hent] at he
    cases he

theorem FdInv.heap (h : FdInv s) (f : ℕ → Option ℕ) (o : ℕ → Bool) :
    FdInv { s with ftabHeap := f, otherHeap := o } := ⟨h.live, h.valid, h.count, h.pos⟩

theorem FdRun.inv (h₀ : FdsStart s₀) (run : FdRun FdOpenOk s₀ s) : FdInv s := by
  induction run with
  | init => exact h₀.inv
  | heap h f o ih => exact ih.heap f o
  | opened h hp hP hr ih => exact ih.fdOpenStep hp hP (procFdOpen_step hr)
  | closed h hp hr ih => exact ih.fdCloseStep hp (procFdClose_step hr)

theorem getElem?_of_ent {i : ℕ} {e : Ftab} (h : s.ent i = some e) :
    ∃ a, s.ftab[i]? = some a ∧ a.unlocked = e := Option.map_eq_some_iff.mp h

theorem FdInv.pointers (h : FdInv s) : ValidPointers s := by
  intro p hp fd f q hg
  obtain ⟨hfd, hq⟩ := procFdGet_some hg
  obtain ⟨hb, e, he, hn, -⟩ := h.valid p hp f (List.mem_of_getElem? hfd) q hq
  obtain ⟨a, ha, rfl⟩ := getElem?_of_ent he
  refine ⟨a, ?_, hn⟩
  rw [ftabDeref, Comp.readOr_apply, Files.ftabAt, if_pos hb, ha]
  rfl

end

/-- As long as the table is not moved under descriptors in use, and no count wraps, every descriptor in
use points to an entry in use of the current table. -/
theorem fd_entries_valid {s₀ s : Files} (h₀ : FdsStart s₀) (run : FdRun FdOpenOk s₀ s) :
    ValidPointers s := (run.inv h₀).pointers

theorem filesSample_start : FdsStart filesSample :=
  ⟨rfl, by decide, fun _ _ _ hf => by cases hf⟩

theorem fd_entries_valid_sample :
    FdRun FdOpenOk filesSample (after (procFdOpen 1 11 false true false false false) filesSample) ∧
      ValidPointers (after (procFdOpen 1 11 false true false false false) filesSample) := by
  have run : FdRun FdOpenOk filesSample
      (after (procFdOpen 1 11 false true false false false) filesSample) :=
    .opened .init (by decide) ⟨fun _ _ _ => .inr filesSample_start.slots, by
      intro i e _ he
      simp [Files.ent, filesSample] at he⟩
      (run_after (c := procFdOpen 1 11 false true false false false) (a := some 0) (by decide +kernel))
  exact ⟨run, fd_entries_valid filesSample_start run⟩

/-- Five nodes are opened, and the fifth moves the table away. -/
theorem fd_entry_moved : ¬ ∀ s₀ s, FdsStart s₀ → s₀.ftabMutex = false →
    FdRun (fun _ _ => True) s₀ s → ValidPointers s := by
  intro h
  let open' := fun node : ℕ => procFdOpen 1 node false true false false false
  let s₀ : Files := { filesSample with ftabHeap := fun n => some (n + 1) }
  let s₁ := after (open' 11) s₀
  let s₂ := after (open' 12) s₁
  let s₃ := after (open' 13) s₂
  let s₄ := after (open' 14) s₃
  let s₅ := after (open' 15) s₄
  have r₁ : FdRun (fun _ _ => True) s₀ s₁ :=
    .opened .init (by decide +kernel) trivial
      (run_after (c := open' 11) (a := some 0) (by decide +kernel))
  have r₂ : FdRun (fun _ _ => True) s₀ s₂ :=
    .opened r₁ (by decide +kernel) trivial
      (run_after (c := open' 12) (a := some 1) (by decide +kernel))
  have r₃ : FdRun (fun _ _ => True) s₀ s₃ :=
    .opened r₂ (by decide +kernel) trivial
      (run_after (c := open' 13) (a := some 2) (by decide +kernel))
  have r₄ : FdRun (fun _ _ => True) s₀ s₄ :=
    .opened r₃ (by decide +kernel) trivial
      (run_after (c := open' 14) (a := some 3) (by decide +kernel))
  have r₅ : FdRun (fun _ _ => True) s₀ s₅ :=
    .opened r₄ (by decide +kernel) trivial
      (run_after (c := open' 15) (a := some 4) (by decide +kernel))
  have hfd : procFdGet s₅ 1 0 = some (fdOpened ⟨1, 0⟩ true false false, ⟨1, 0⟩) := by decide +kernel
  obtain ⟨e, he, -⟩ := h s₀ s₅ ⟨rfl, by decide, fun _ _ _ hf => by cases hf⟩ rfl r₅ 1
    (by decide +kernel) 0 _ _ hfd
  have hdead : s₅.ftabAt ⟨1, 0⟩ = none := by decide +kernel
  rw [ftabDeref, Comp.readOr_apply, hdead] at he
  cases he

end SysX
