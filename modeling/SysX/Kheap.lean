import SysX.OwnRange

/-!
The program break of `mm/kheap.c`: `kmorecore`, through which `dlmalloc` gets and returns memory.
-/
namespace SysX

/-- `KHEAP_BASE_ADDRESS` of the linker script. -/
def kheapBaseAddress : ℕ := 0xF0000000

/-- `KHEAP_MAX_SIZE` of the linker script. -/
def kheapMaxSize : ℕ := 16777216

/-- The machine with `kheap_size`, which `kmorecore` alone changes. -/
structure Kheap where
  machine : Machine
  size : ℕ
  size_le : size ≤ kheapMaxSize

abbrev HeapOp := Comp Kheap

def heapCall {α : Type} (c : Kernel α) : HeapOp α := fun s =>
  (c s.machine).map fun r => (r.1, { s with machine := r.2 })

/-- A signed value as a `size_t`. -/
def toSize (n : ℤ) : ℕ := (n % 4294967296).toNat

def kheapFlags : Word := flagPresent ||| flagRw ||| flagGlobal ||| flagCache

/-- The first test of `kmorecore`: the break would leave the heap's region. -/
def KheapRefuses (size : ℕ) (incr : ℤ) : Prop := size + incr < 0 ∨ kheapMaxSize < toSize (size + incr)

instance (size : ℕ) (incr : ℤ) : Decidable (KheapRefuses size incr) := inferInstanceAs (Decidable (_ ∨ _))

/-- "expand": the result is `false` when there is no frame for the next page. -/
def kheapExpand (K : Callees) : (n vaddr : ℕ) → Kernel Bool
  | 0, _ => pure true
  | n + 1, vaddr => do
    let frame ← pmmAllocFree 1
    match frame with
    | none => pure false
    | some frame => do
      let cur ← Comp.read (·.vmmCurrent)
      vmmPgmap K cur (w32 (frame * 4096)) vaddr 0 kheapFlags
      kheapExpand K n (w32 (vaddr + 4096))

/-- "trim": from the last page of the heap downwards. -/
def kheapTrim (K : Callees) : (n vaddr : ℕ) → Kernel Unit
  | 0, _ => pure ()
  | n + 1, vaddr => do
    let cur ← Comp.read (·.vmmCurrent)
    let paddr ← vmmGetPaddr K cur vaddr
    Comp.when (paddr ≠ 0) do
      vmmPgunmap K cur vaddr 0
      pmmFree (paddr / 4096)
    kheapTrim K n (sub32 vaddr 4096)

def kmorecore (K : Callees) (incr : ℤ) : HeapOp ℕ := do
  let oldSize ← Comp.read (·.size)
  if h : KheapRefuses oldSize incr then pure uintptrMax
  else do
    let prevBrk := w32 (kheapBaseAddress + oldSize)
    if incr = 0 then pure prevBrk
    else do
      let newSize := toSize (oldSize + incr)
      Comp.modify fun s => { s with size := newSize, size_le := Nat.le_of_not_lt fun hlt => h (.inr hlt) }
      let oldFrames := w32 (oldSize + 4095) / 4096
      let newFrames := w32 (newSize + 4095) / 4096
      if oldFrames < newFrames then do
        let done ← heapCall (kheapExpand K (newFrames - oldFrames) (w32 (kheapBaseAddress + oldFrames * 4096)))
        pure (if done then prevBrk else uintptrMax)
      else do
        heapCall (kheapTrim K (oldFrames - newFrames) (w32 (kheapBaseAddress + sub32 oldFrames 1 * 4096)))
        pure prevBrk

/-! What a call does to the break. -/

section Break

variable {K : Callees} {s t : Kheap} {incr : ℤ} {r : ℕ}

theorem toSize_of_not_refuses {size : ℕ} (hlt : incr < 2147483648) (hsize : size ≤ kheapMaxSize)
    (h : ¬ KheapRefuses size incr) : (toSize (size + incr) : ℤ) = size + incr := by
  have hpos : 0 ≤ (size : ℤ) + incr := not_lt.mp fun hneg => h (.inl hneg)
  have hmod : ((size : ℤ) + incr) % 4294967296 = size + incr := by
    unfold kheapMaxSize at hsize
    omega
  unfold toSize
  rw [hmod]
  exact Int.toNat_of_nonneg hpos

theorem kmorecore_refused (h : KheapRefuses s.size incr) : kmorecore K incr s = some (uintptrMax, s) := by
  unfold kmorecore
  rw [Comp.read_bind, dif_pos h]
  rfl

/-- The pages of the heap region that a size takes. -/
def kheapPages (size : ℕ) : ℕ := w32 (size + 4095) / 4096

theorem kheapPages_eq (s : Kheap) : kheapPages s.size = pages s.size := by
  have hle := s.size_le
  unfold kheapMaxSize at hle
  unfold kheapPages pages
  rw [w32_of_lt (by omega)]

/-- The heap after a call that is not refused. -/
def Kheap.moved (s : Kheap) (incr : ℤ) (h : ¬ KheapRefuses s.size incr) (m : Machine) : Kheap :=
  ⟨m, toSize (s.size + incr), Nat.le_of_not_lt fun hlt => h (.inr hlt)⟩

theorem kmorecore_eq (K : Callees) (h : ¬ KheapRefuses s.size incr) : kmorecore K incr s =
    if incr = 0 then some (kheapBaseAddress + s.size, s)
    else if kheapPages s.size < kheapPages (toSize (s.size + incr)) then
      (kheapExpand K (kheapPages (toSize (s.size + incr)) - kheapPages s.size)
        (w32 (kheapBaseAddress + kheapPages s.size * 4096)) s.machine).map fun r =>
          (if r.1 then kheapBaseAddress + s.size else uintptrMax, s.moved incr h r.2)
    else
      (kheapTrim K (kheapPages s.size - kheapPages (toSize (s.size + incr)))
        (w32 (kheapBaseAddress + sub32 (kheapPages s.size) 1 * 4096)) s.machine).map fun r =>
          (kheapBaseAddress + s.size, s.moved incr h r.2) := by
  have hbrk : w32 (kheapBaseAddress + s.size) = kheapBaseAddress + s.size := by
    have hle := s.size_le
    unfold kheapMaxSize at hle
    exact w32_of_lt (by unfold kheapBaseAddress; omega)
  unfold kmorecore kheapPages
  rw [Comp.read_bind, dif_neg h, hbrk]
  dsimp only
  split_ifs with h0 hgrow
  · rfl
  · rw [Comp.modify_bind, Comp.bind_apply]
    unfold heapCall
    rw [Option.bind_map, Option.map_eq_bind]
    rfl
  · rw [Comp.modify_bind, Comp.bind_apply]
    unfold heapCall
    rw [Option.bind_map, Option.map_eq_bind]
    rfl

/-- A call that is not refused, in the way it goes. -/
theorem kmorecore_cases (hlt : incr < 2147483648) (h : ¬ KheapRefuses s.size incr)
    (hr : kmorecore K incr s = some (r, t)) : t.size = s.size + incr ∧
    ((incr = 0 ∧ r = kheapBaseAddress + s.size ∧ t = s) ∨
      (kheapPages s.size < kheapPages t.size ∧ ∃ done,
        kheapExpand K (kheapPages t.size - kheapPages s.size)
          (w32 (kheapBaseAddress + kheapPages s.size * 4096)) s.machine = some (done, t.machine) ∧
        r = if done then kheapBaseAddress + s.size else uintptrMax) ∨
      (kheapPages t.size ≤ kheapPages s.size ∧ r = kheapBaseAddress + s.size ∧
        kheapTrim K (kheapPages s.size - kheapPages t.size)
          (w32 (kheapBaseAddress + sub32 (kheapPages s.size) 1 * 4096)) s.machine = some ((), t.machine))) := by
  have hnew := toSize_of_not_refuses hlt s.size_le h
  rw [kmorecore_eq K h] at hr
  split_ifs at hr with h0 hgrow
  · cases hr
    exact ⟨by rw [h0, add_zero], .inl ⟨h0, rfl, rfl⟩⟩
  · obtain ⟨x, hx, hxt⟩ := Option.map_eq_some_iff.mp hr
    cases hxt
    exact ⟨hnew, .inr (.inl ⟨hgrow, x.1, hx, rfl⟩)⟩
  · obtain ⟨x, hx, hxt⟩ := Option.map_eq_some_iff.mp hr
    cases hxt
    exact ⟨hnew, .inr (.inr ⟨not_lt.mp hgrow, rfl, hx⟩)⟩

end Break

/-! A growth for which there are not enough frames. -/

/-- The first page of the heap region. -/
def kheapPage : ℕ := 983040

/-- `kmorecore` fails although the limits allow the growth: a frame could not be allocated. -/
def RunsOut (K : Callees) (incr : ℤ) (s t : Kheap) : Prop :=
  ¬ KheapRefuses s.size incr ∧ kmorecore K incr s = some (uintptrMax, t)

/-- The break, the mappings of the heap region and the bitmap of frames are the same. -/
structure HeapUnchanged (s t : Kheap) : Prop where
  size : t.size = s.size
  mapped : ∀ k < 4096, view t.machine.mem t.machine.cr3 (kheapPage + k) =
    view s.machine.mem s.machine.cr3 (kheapPage + k)
  bitmap : ∀ f, used t.machine f ↔ used s.machine f

/-- The break is advanced before the first frame is asked for, and stays there. -/
theorem kmorecore_runs_out {K : Callees} {s t : Kheap} {incr : ℤ} (hpos : 0 < incr) (hlt : incr < 2147483648)
    (h : RunsOut K incr s t) :
    ¬ HeapUnchanged s t ∧ ∀ u, kmorecore K 0 t ≠ some (kheapBaseAddress + s.size, u) := by
  have hsize := (kmorecore_cases hlt h.1 h.2).1
  refine ⟨fun hsame => ?_, fun u hu => ?_⟩
  · have := hsame.size
    omega
  · have hle := t.size_le
    have hlimits : ¬ KheapRefuses t.size 0 := by
      intro hno
      rcases hno with hneg | hbig
      · omega
      · rw [add_zero] at hbig
        unfold toSize kheapMaxSize at *
        omega
    have hcases := (kmorecore_cases (by decide) hlimits hu).2
    rcases hcases with ⟨-, hbrk, -⟩ | ⟨-, done, -, hbrk⟩ | ⟨-, hbrk, -⟩
    · omega
    · cases done with
      | true => simp only [if_true] at hbrk; omega
      | false =>
        have hs := s.size_le
        simp only [Bool.false_eq_true, if_false] at hbrk
        unfold kheapBaseAddress uintptrMax kheapMaxSize at *
        omega
    · omega

/-- A machine without frames. -/
def kheapSample : Kheap := ⟨default, 0, Nat.zero_le _⟩

theorem kmorecore_runs_out_sample :
    let t := Comp.after (kmorecore (callees 1) 1) kheapSample
    ¬ HeapUnchanged kheapSample t ∧ ∀ u, kmorecore (callees 1) 0 t ≠ some (kheapBaseAddress, u) :=
  kmorecore_runs_out (by decide) (by decide) ⟨by decide, Comp.run_after rfl⟩

/-- One byte is asked for and there is no frame: the break has moved by one. -/
theorem kmorecore_break_advanced : ¬ ∀ (K : Callees) (s t : Kheap) (incr : ℤ), 0 < incr → incr < 2147483648 →
    RunsOut K incr s t → HeapUnchanged s t ∧ kmorecore K 0 t = some (kheapBaseAddress + s.size, t) := by
  intro h
  have hsize := (h (callees 1) kheapSample (Comp.after (kmorecore (callees 1) 1) kheapSample) 1 (by decide) (by decide)
    ⟨by decide, Comp.run_after rfl⟩).1.size
  revert hsize
  decide

end SysX
