import SysX.TrapPairs
import Mathlib.Data.List.Nodup

/-!
VMM configurations staged for deletion (`mm/vmm.c`) and the function that deletes them (`vmm_free` in
`arch/x86cpu/vmm.c`).
-/
namespace SysX

/-- The part of `vmm_free` that gives the frames of a configuration back. -/
def vmmRelease (K : Callees) (vmm : ℕ) : Kernel Unit := do
  let removed ← vmmTrapRemove K vmm
  if removed = false then pure ()
  else do
    let cur ← Comp.read (·.vmmCurrent)
    let pd ← vmmAllocMap K cur vmm 4096 0 kernelStart 0 0 false flagPresent
    if pd = 0 then pure ()
    else do
      Comp.forRange (fun i => do
        let e ← load (pd + 4 * i)
        Comp.when (e ≠ 0#32 ∧ e.pgsz = false) (pmmFree e.pt)) (kernelStart / 4194304) 0
      pmmFree (vmm / 4096)
      vmmPgunmap K cur pd 0

/-- The machine with the mutex of the staging table. `frees` records the calls of `vmm_free`, each with the
current VMM at the time, the last one first. -/
structure Staging where
  machine : Machine
  frstageMutex : Bool
  frees : List (ℕ × ℕ)

namespace Staging

/-- `vmm_frstage`, where `none` is a null pointer. -/
abbrev table (s : Staging) : List (Option ℕ) := s.machine.vmmFrstage

abbrev current (s : Staging) : ℕ := s.machine.vmmCurrent

abbrev kernel (s : Staging) : ℕ := s.machine.vmmKernel

def setTable (s : Staging) (table : List (Option ℕ)) : Staging :=
  { s with machine := { s.machine with vmmFrstage := table } }

end Staging

abbrev StagingOp := Comp Staging

def onMachine {α : Type} (c : Kernel α) : StagingOp α := fun s =>
  (c s.machine).map fun p => (p.1, { s with machine := p.2 })

/-- Acquiring a mutex that is held never returns: no other task runs inside these calls. -/
def frstageAcquire : StagingOp Unit := do
  let locked ← Comp.read Staging.frstageMutex
  if locked then Comp.fault else Comp.modify fun s => { s with frstageMutex := true }

def frstageRelease : StagingOp Unit := Comp.modify fun s => { s with frstageMutex := false }

def vmmFrstageAllocsz : ℕ := 4

/-- What is stored in the table for a pointer. -/
def toEntry (vmm : ℕ) : Option ℕ := if vmm = 0 then none else some vmm

def vmmStageFree (vmm : ℕ) : StagingOp Unit := do
  frstageAcquire
  let hole ← Comp.read fun s => s.table.findIdx? fun v => v = none
  match hole with
  | some i => do
    Comp.modify fun s => s.setTable (s.table.set i (toEntry vmm))
    frstageRelease
  | none => do
    let block ← onMachine krealloc
    match block with
    | none => frstageRelease
    | some _ => do
      Comp.modify fun s =>
        s.setTable (s.table ++ toEntry vmm :: List.replicate (vmmFrstageAllocsz - 1) none)
      frstageRelease

def vmmFree (K : Callees) (vmm : ℕ) : StagingOp Unit := do
  Comp.modify fun s => { s with frees := (vmm, s.current) :: s.frees }
  let kernel ← Comp.read Staging.kernel
  let cur ← Comp.read Staging.current
  if vmm = kernel then pure ()
  else if vmm = cur then vmmStageFree vmm
  else onMachine (vmmRelease K vmm)

/-- The pass of `vmm_do_cleanup` for one slot of the table. -/
def cleanupSlot (K : Callees) (i : ℕ) : StagingOp Unit := do
  let v ← Comp.readOr fun s => s.table[i]?
  let cur ← Comp.read Staging.current
  match v with
  | none => pure ()
  | some v => Comp.when (v ≠ cur) do
    vmmFree K v
    Comp.modify fun s => s.setTable (s.table.set i none)

def vmmDoCleanup (K : Callees) : StagingOp Unit := do
  let locked ← Comp.read Staging.frstageMutex
  if locked then pure ()
  else do
    frstageAcquire
    let len ← Comp.read fun s => s.table.length
    Comp.forRange (cleanupSlot K) len 0
    frstageRelease

def vmmSwitch (vmm : ℕ) : StagingOp Unit := do
  let cur ← Comp.read Staging.current
  Comp.when (cur ≠ vmm) (Comp.modify fun s => { s with machine := { s.machine with vmmCurrent := vmm } })

/-! The functions of the memory manager below `vmm_free` do not stage anything. -/

/-- `I` looks at nothing that the memory manager changes. -/
def MmStable (I : Machine → Prop) : Prop :=
  ∀ s t, I s → t = { s with
    mem := t.mem
    pmmBitmap := t.pmmBitmap
    vmmTraps := t.vmmTraps
    vmmTrapsBase := t.vmmTrapsBase
    vmmTrapsMutex := t.vmmTrapsMutex
    heapCalls := t.heapCalls } → I t

section Untouched

variable {I : Machine → Prop} (hI : MmStable I)
include hI

theorem MmStable.memStable : MemStable I := fun s _ _ hs => hI s _ hs rfl

theorem MmStable.modifyTrap (p : TrapPtr) (g : Trap → Trap) :
    Comp.Keeps I (Comp.modify fun s => s.modifyTrap p g) := by
  refine .modify fun s hs => ?_
  unfold Machine.modifyTrap
  split_ifs
  · exact hI s _ hs rfl
  · exact hs

theorem MmStable.trapsAcquire : Comp.Keeps I trapsAcquire :=
  .bind (.read _ _) fun _ => .ite (fun _ => .fault _) fun _ => .modify fun s hs => hI s _ hs rfl

theorem MmStable.trapsRelease : Comp.Keeps I trapsRelease := .modify fun s hs => hI s _ hs rfl

theorem MmStable.krealloc : Comp.Keeps I krealloc :=
  .bind (.read _ _) fun _ => .bind (.modify fun s hs => hI s _ hs rfl) fun _ => .pure _ _

theorem MmStable.deleteTrap (p : Option TrapPtr) : Comp.Keeps I (vmmDeleteTrap p) := by
  cases p with
  | none => exact .pure _ _
  | some p => exact hI.modifyTrap p _

theorem MmStable.newTrap (vmm vaddr : ℕ) (type : TrapType) : Comp.Keeps I (vmmNewTrap vmm vaddr type) := by
  refine .bind hI.trapsAcquire fun _ => .bind (.read _ _) fun slot => ?_
  cases slot with
  | some i =>
    exact .bind (.read _ _) fun base => .bind (hI.modifyTrap _ _) fun _ => .bind hI.trapsRelease fun _ => .pure _ _
  | none =>
    refine .bind hI.krealloc fun block => ?_
    cases block with
    | none => exact .bind hI.trapsRelease fun _ => .pure _ _
    | some base =>
      exact .bind (.read _ _) fun _ => .bind (.modify fun s hs => hI s _ hs rfl) fun _ =>
        .bind hI.trapsRelease fun _ => .pure _ _

variable {K : Callees} (hK : K.Keep I)
include hK

theorem MmStable.isCow (vmm va : ℕ) (validated : Bool) : Comp.Keeps I (vmmIsCow K vmm va validated) := by
  refine .bind (.ite (fun _ => .pure _ _) fun _ => hK.vmmGetPgsz _ _) fun pg => ?_
  cases pg with
  | none => exact .pure _ _
  | some idx =>
    exact .bind hI.trapsAcquire fun _ => .bind (.read _ _) fun _ => .bind (.read _ _) fun _ =>
      .bind hI.trapsRelease fun _ => .pure _ _

theorem MmStable.cowDuplicate (vmm vaddr : ℕ) (idx : Option ℕ) :
    Comp.Keeps I (vmmCowDuplicate K vmm vaddr idx) := by
  have hM := hI.memStable
  refine .bind (.ite (fun _ => hK.vmmGetPgsz _ _) fun _ => .pure _ _) fun idx => ?_
  cases idx with
  | none => exact .pure _ _
  | some idx =>
    refine .bind hI.trapsAcquire fun _ => .bind (.read _ _) fun slot => ?_
    cases slot with
    | none => exact .bind hI.trapsRelease fun _ => .pure _ _
    | some i =>
      refine .bind (.read _ _) fun base => .bind (.readOr _ _) fun dst => .bind (.readOr _ _) fun src => ?_
      refine .bind (.read _ _) fun cur => .bind (.read _ _) fun kend => .bind (hK.allocMap hM _ _ _ _ _ _ _ _ _) fun w => ?_
      refine .ite (fun _ => .bind hI.trapsRelease fun _ => .pure _ _) fun _ => .bind (hM.pmmAllocFree _) fun frame => ?_
      cases frame with
      | none => exact .bind hI.trapsRelease fun _ => .pure _ _
      | some frame =>
        refine .bind (.readOr _ _) fun srcTrap => .bind (.forRange (fun _ => hK.cowCopyFrame hM _ _ _ _ _) _ _) fun _ => ?_
        refine .bind (hK.vmmSetPaddr hM _ _ _) fun _ => .bind (hK.vmmGetFlags _ _) fun flags => ?_
        refine .bind (hK.vmmSetFlags hM _ _ _) fun _ => .bind (.read _ _) fun ref => ?_
        refine .bind (.when fun _ => .bind (hK.vmmGetFlags _ _) fun _ => hK.vmmSetFlags hM _ _ _) fun _ => ?_
        exact .bind (hI.deleteTrap _) fun _ => .bind (hI.deleteTrap _) fun _ => .bind hI.trapsRelease fun _ => .pure _ _

theorem MmStable.unmapResolveCow (vmm va pgsz : ℕ) : Comp.Keeps I (vmmUnmapResolveCow K vmm va pgsz) := by
  have hloop : ∀ fuel cow, Comp.Keeps I (unmapResolveLoop K vmm va pgsz fuel cow) := by
    intro fuel
    induction fuel with
    | zero =>
      intro cow
      cases cow with
      | none => exact .pure _ _
      | some cow => exact .fault _
    | succ fuel ih =>
      intro cow
      cases cow with
      | none => exact .pure _ _
      | some cow =>
        exact .bind (.readOr _ _) fun _ => .bind (.readOr _ _) fun _ => .bind (.readOr _ _) fun _ =>
          .bind (hI.cowDuplicate hK _ _ _) fun _ => .bind (hI.isCow hK _ _ _) fun _ => ih _
  exact .bind (hI.isCow hK _ _ _) fun _ => .bind (.read _ _) fun _ => hloop _ _

omit hK in
theorem MmStable.callees (n : ℕ) : (callees n).Keep I := by
  have hM := hI.memStable
  induction n with
  | zero => exact ⟨fun _ _ _ _ _ _ _ _ _ => .fault _, fun _ _ _ => .fault _⟩
  | succ n ih =>
    exact ⟨fun _ _ _ _ _ _ _ _ _ => ih.allocMap hM _ _ _ _ _ _ _ _ _,
      fun _ _ _ => ih.pgunmap hM (fun _ _ _ => hI.unmapResolveCow ih _ _ _) _ _ _⟩

omit hK in
theorem MmStable.follows : FollowsTraps fun _ => I where
  stable := hI.memStable
  new _ vmm vaddr := hI.newTrap vmm vaddr .cow
  delete p _ s hs := hI.modifyTrap p _ s () _ hs rfl
  link p q s hs := hI.modifyTrap p _ _ () _ (hI.modifyTrap q _ s () _ hs rfl) rfl

theorem MmStable.trapRemoveLoop (vmm fuel i cap : ℕ) (resolved : List Resolved) :
    Comp.Keeps I (trapRemoveLoop K vmm fuel i cap resolved) := by
  have hM := hI.memStable
  induction fuel generalizing i cap resolved with
  | zero => exact .fault _
  | succ fuel ih =>
    refine .bind (.read _ _) fun len => .ite (fun _ => .bind hI.trapsRelease fun _ => .pure _ _) fun _ => ?_
    refine .bind (.read _ _) fun base => .bind (.readOr _ _) fun trap => .ite (fun _ => ih _ _ _) fun _ => ?_
    refine .bind (.ite (fun _ => .bind (.readOr _ _) fun _ => .bind (.readOr _ _) fun _ => .pure _ _) fun _ =>
      .pure _ _) fun sources => ?_
    refine .ite (fun _ => ?_) fun _ => .ite (fun _ => .bind (hI.deleteTrap _) fun _ => ih _ _ _) fun _ => ih _ _ _
    cases resolved.find? fun r => r.vaddr = trap.vaddr with
    | some r =>
      refine .bind (hK.vmmGetPgsz _ _) fun pgsz => .bind (hI.deleteTrap _) fun _ => .bind (hI.deleteTrap _) fun _ => ?_
      cases pgsz with
      | none => exact ih _ _ _
      | some idx =>
        refine .bind (vmmCowSetup_keeps hI.follows hK _ _ _ _ _) fun n => ?_
        exact .ite (fun _ => .bind hI.trapsRelease fun _ => .pure _ _) fun _ => ih _ _ _
    | none =>
      refine .bind (.ite (fun _ => hI.krealloc) fun _ => .pure _ _) fun grown => ?_
      cases grown with
      | none => exact .bind hI.trapsRelease fun _ => .pure _ _
      | some _ =>
        exact .bind (hK.vmmGetFlags _ _) fun _ => .bind (hK.vmmSetFlags hM _ _ _) fun _ =>
          .bind (hI.deleteTrap _) fun _ => .bind (hI.deleteTrap _) fun _ => ih _ _ _

theorem MmStable.release (vmm : ℕ) : Comp.Keeps I (vmmRelease K vmm) := by
  have hM := hI.memStable
  refine .bind (.bind hI.trapsAcquire fun _ => hI.trapRemoveLoop hK _ _ _ _ _) fun removed => ?_
  refine .ite (fun _ => .pure _ _) fun _ => .bind (.read _ _) fun cur => ?_
  refine .bind (hK.allocMap hM _ _ _ _ _ _ _ _ _) fun pd => .ite (fun _ => .pure _ _) fun _ => ?_
  refine .bind (.forRange (fun i => .bind (keeps_load _ _) fun e => .when fun _ => hM.pmmFree _) _ _) fun _ => ?_
  exact .bind (hM.pmmFree _) fun _ => hK.pgunmap hM (fun _ _ _ => hI.unmapResolveCow hK _ _ _) _ _ _

end Untouched

/-- `I` looks at the staging table, the current and the kernel VMM and the heap only. -/
def StagingOnly (I : Machine → Prop) : Prop :=
  ∀ s t, I s → t.vmmFrstage = s.vmmFrstage → t.vmmCurrent = s.vmmCurrent → t.vmmKernel = s.vmmKernel →
    t.heap = s.heap → I t

theorem StagingOnly.mmStable {I : Machine → Prop} (hI : StagingOnly I) : MmStable I := by
  intro s t hs ht
  rw [ht]
  exact hI s _ hs rfl rfl rfl rfl

/-- What the release of a configuration leaves alone. -/
structure SameStaging (s t : Staging) : Prop where
  table : t.table = s.table
  current : t.current = s.current
  kernel : t.kernel = s.kernel
  heap : t.machine.heap = s.machine.heap
  mutex : t.frstageMutex = s.frstageMutex
  frees : t.frees = s.frees

theorem onMachine_eq_some {α : Type} {c : Kernel α} {s t : Staging} {a : α} :
    onMachine c s = some (a, t) ↔ ∃ m, c s.machine = some (a, m) ∧ t = { s with machine := m } := by
  unfold onMachine
  rw [Option.map_eq_some_iff]
  constructor
  · rintro ⟨⟨b, m⟩, hc, hp⟩
    cases hp
    exact ⟨m, hc, rfl⟩
  · rintro ⟨m, hc, rfl⟩
    exact ⟨(a, m), hc, rfl⟩

theorem vmmRelease_same {n vmm : ℕ} {s t : Staging} (h : onMachine (vmmRelease (callees n) vmm) s = some ((), t)) :
    SameStaging s t := by
  obtain ⟨m, hm, rfl⟩ := onMachine_eq_some.mp h
  have hI : StagingOnly fun m => m.vmmFrstage = s.machine.vmmFrstage ∧ m.vmmCurrent = s.machine.vmmCurrent ∧
      m.vmmKernel = s.machine.vmmKernel ∧ m.heap = s.machine.heap := by
    rintro m m' ⟨htable, hcur, hkernel, hheap⟩ htable' hcur' hkernel' hheap'
    exact ⟨htable'.trans htable, hcur'.trans hcur, hkernel'.trans hkernel, hheap'.trans hheap⟩
  obtain ⟨htable, hcur, hkernel, hheap⟩ :=
    hI.mmStable.release (hI.mmStable.callees n) vmm s.machine () m ⟨rfl, rfl, rfl, rfl⟩ hm
  exact ⟨htable, hcur, hkernel, hheap, rfl, rfl⟩

/-! Staging puts one more entry into the table. -/

theorem vmmStageFree_run {s : Staging} {vmm : ℕ} (hv : vmm ≠ 0) (hmutex : s.frstageMutex = false)
    (hheap : ∀ c, (s.machine.heap c).isSome) :
    ∃ t, vmmStageFree vmm s = some ((), t) ∧ t.frstageMutex = false ∧ t.frees = s.frees ∧
      t.current = s.current ∧ t.kernel = s.kernel ∧ t.machine.heap = s.machine.heap ∧
      ∀ v, t.table.count (some v) = s.table.count (some v) + if v = vmm then 1 else 0 := by
  have hacq : frstageAcquire s = some ((), { s with frstageMutex := true }) := by
    rw [frstageAcquire, Comp.read_bind, if_neg (by simp [hmutex])]
    rfl
  have hentry : toEntry vmm = some vmm := if_neg hv
  rw [vmmStageFree, Comp.bind_of_eq hacq, Comp.read_bind]
  simp only [hentry]
  cases hhole : s.table.findIdx? (fun v => v = none) with
  | some i =>
    refine ⟨_, rfl, rfl, rfl, rfl, rfl, rfl, fun v => ?_⟩
    obtain ⟨hi, hnone, -⟩ := List.findIdx?_eq_some_iff_getElem.mp hhole
    have hne : ¬ s.table[i] = some v := by simpa using fun h => by simp [h] at hnone
    change (s.table.set i (some vmm)).count (some v) = _
    rw [List.count_set hi]
    by_cases hvv : v = vmm
    · rw [hvv] at hne ⊢
      simp [hne]
    · simp [hne, hvv, Ne.symm hvv]
  | none =>
    obtain ⟨block, hblock⟩ := Option.isSome_iff_exists.mp (hheap s.machine.heapCalls)
    have hgrow : onMachine krealloc { s with frstageMutex := true } = some (some block, { s with
        frstageMutex := true
        machine := { s.machine with heapCalls := s.machine.heapCalls + 1 } }) := by
      rw [onMachine_eq_some]
      refine ⟨_, ?_, rfl⟩
      rw [krealloc, Comp.read_bind, Comp.modify_bind, hblock]
      rfl
    dsimp only
    rw [Comp.bind_of_eq hgrow]
    refine ⟨_, rfl, rfl, rfl, rfl, rfl, rfl, fun v => ?_⟩
    change (s.table ++ some vmm :: List.replicate (vmmFrstageAllocsz - 1) none).count (some v) = _
    rw [List.count_append, List.count_cons, List.count_replicate]
    by_cases hvv : v = vmm
    · simp [hvv]
    · simp [hvv, Ne.symm hvv]

/-! The cleanup goes through the table once. -/

/-- What stays in a slot, and the configuration that is deleted from it. -/
def keptEntry (cur : ℕ) (e : Option ℕ) : Option ℕ := if e = some cur then e else none

def freedEntry (cur : ℕ) (e : Option ℕ) : Option ℕ := e.filter fun v => v ≠ cur

theorem count_keptEntry (cur v : ℕ) (l : List (Option ℕ)) :
    (l.map (keptEntry cur)).count (some v) = if v = cur then l.count (some v) else 0 := by
  induction l with
  | nil => simp
  | cons e l ih =>
    rw [List.map_cons, List.count_cons, List.count_cons, ih]
    unfold keptEntry
    by_cases he : e = some cur
    · by_cases hv : v = cur
      · simp [he, hv]
      · simp [he, hv, Ne.symm hv]
    · by_cases hv : v = cur
      · simp [he, hv]
      · simp [he, hv]

theorem count_freedEntry (cur v : ℕ) (l : List (Option ℕ)) :
    (l.filterMap (freedEntry cur)).count v = if v = cur then 0 else l.count (some v) := by
  induction l with
  | nil => simp
  | cons e l ih =>
    cases e with
    | none => simpa [freedEntry] using ih
    | some w =>
      by_cases hw : w = cur
      · have hnone : freedEntry cur (some w) = none := by simp [freedEntry, hw]
        rw [List.filterMap_cons_none hnone, ih, List.count_cons]
        by_cases hv : v = cur
        · simp [hv]
        · simp [hv, hw, Ne.symm hv]
      · have hsome : freedEntry cur (some w) = some w := by simp [freedEntry, hw]
        rw [List.filterMap_cons_some hsome, List.count_cons, List.count_cons, ih]
        by_cases hv : v = cur
        · simp [hv, hw]
        · simp [hv]

/-- The state of the cleanup before slot `k`, when it started in `s`. -/
structure Cleaning (s : Staging) (k : ℕ) (t : Staging) : Prop where
  table : t.table = (s.table.take k).map (keptEntry s.current) ++ s.table.drop k
  frees : t.frees = (((s.table.take k).filterMap (freedEntry s.current)).map fun v => (v, s.current)).reverse ++
    s.frees
  current : t.current = s.current
  kernel : t.kernel = s.kernel
  heap : t.machine.heap = s.machine.heap

section Slot

variable {s t u : Staging} {k v : ℕ}

theorem Cleaning.length (hlt : k < s.table.length) :
    ((s.table.take k).map (keptEntry s.current)).length = k := by
  simp only [List.length_map, List.length_take]
  omega

theorem Cleaning.entry (ht : Cleaning s k t) (hlt : k < s.table.length) : t.table[k]? = some s.table[k] := by
  have hlen := Cleaning.length hlt
  rw [ht.table, List.getElem?_append_right (Nat.le_of_eq hlen), hlen, Nat.sub_self, List.drop_eq_getElem_cons hlt]
  rfl

/-- A slot stays as it is. -/
theorem Cleaning.stay (ht : Cleaning s k t) (hlt : k < s.table.length)
    (hkept : keptEntry s.current s.table[k] = s.table[k]) (hfreed : freedEntry s.current s.table[k] = none) :
    Cleaning s (k + 1) t := by
  have htake : s.table.take (k + 1) = s.table.take k ++ [s.table[k]] := List.take_succ_eq_append_getElem hlt
  refine ⟨?_, ?_, ht.current, ht.kernel, ht.heap⟩
  · rw [ht.table, htake, List.drop_eq_getElem_cons hlt, List.map_append, List.map_singleton, hkept,
      List.append_assoc]
    rfl
  · rw [ht.frees, htake, List.filterMap_append, List.filterMap_cons_none hfreed, List.filterMap_nil,
      List.append_nil]

/-- The configuration in a slot is freed and its slot is cleared. -/
theorem Cleaning.free (ht : Cleaning s k t) (hlt : k < s.table.length) (hentry : s.table[k] = some v)
    (hv : v ≠ s.current) (htable : u.table = t.table.set k none) (hfrees : u.frees = (v, s.current) :: t.frees)
    (hcurrent : u.current = t.current) (hkernel : u.kernel = t.kernel)
    (hheap : u.machine.heap = t.machine.heap) : Cleaning s (k + 1) u := by
  have hlen := Cleaning.length hlt
  have htake : s.table.take (k + 1) = s.table.take k ++ [some v] := by
    rw [← hentry]
    exact List.take_succ_eq_append_getElem hlt
  have hfreed : freedEntry s.current (some v) = some v := by simp [freedEntry, hv]
  have hkept : keptEntry s.current (some v) = none := by simp [keptEntry, hv]
  refine ⟨?_, ?_, hcurrent.trans ht.current, hkernel.trans ht.kernel, hheap.trans ht.heap⟩
  · rw [htable, ht.table, List.drop_eq_getElem_cons hlt, List.set_append_right _ _ (Nat.le_of_eq hlen), hlen,
      Nat.sub_self, List.set_cons_zero, htake, List.map_append, List.map_singleton, hkept, List.append_assoc]
    rfl
  · rw [hfrees, ht.frees, htake, List.filterMap_append, List.filterMap_cons_some hfreed, List.filterMap_nil,
      List.map_append, List.reverse_append]
    rfl

end Slot

theorem Cleaning.slot {s : Staging} (hk : some s.kernel ∉ s.table) {n k : ℕ} (hlt : k < s.table.length) :
    Comp.Ensures (Cleaning s k) (cleanupSlot (callees n) k) fun _ => Cleaning s (k + 1) := by
  intro t _ u ht h
  have hread : Comp.readOr (fun s : Staging => s.table[k]?) t = some (s.table[k], t) := by
    rw [Comp.readOr_apply, ht.entry hlt]
    rfl
  have hstay := ht.stay hlt
  rw [cleanupSlot, Comp.bind_of_eq hread, Comp.read_bind, ht.current] at h
  cases hentry : s.table[k] with
  | none =>
    rw [hentry] at h hstay
    cases h
    exact hstay (by simp [keptEntry]) rfl
  | some v =>
    rw [hentry] at h hstay
    dsimp only at h
    by_cases hv : v = s.current
    · rw [Comp.when_false (not_not_intro hv)] at h
      cases h
      exact hstay (by simp [keptEntry, hv]) (by simp [freedEntry, hv])
    · have hkernel : v ≠ s.kernel := by
        rintro rfl
        exact hk (hentry ▸ List.getElem_mem hlt)
      rw [Comp.when_true hv] at h
      obtain ⟨_, w, hw, h⟩ := Comp.bind_eq_some.mp h
      rw [vmmFree, Comp.modify_bind, Comp.read_bind, Comp.read_bind] at hw
      rw [if_neg (fun hvk => hkernel (hvk.trans ht.kernel)), if_neg (fun hvc => hv (hvc.trans ht.current))] at hw
      have hsame := vmmRelease_same hw
      cases h
      refine ht.free hlt hentry hv ?_ ?_ hsame.current hsame.kernel hsame.heap
      · change w.table.set k none = _
        rw [hsame.table]
      · change w.frees = _
        rw [hsame.frees, ← ht.current]

/-- What a cleanup that returns has done: every staged configuration but the current one is deleted, once,
and the current one stays in its slot. -/
theorem vmmDoCleanup_run {s t : Staging} {n : ℕ} (hmutex : s.frstageMutex = false)
    (hk : some s.kernel ∉ s.table) (h : vmmDoCleanup (callees n) s = some ((), t)) :
    t.frstageMutex = false ∧ t.table = s.table.map (keptEntry s.current) ∧
      t.frees = ((s.table.filterMap (freedEntry s.current)).map fun v => (v, s.current)).reverse ++ s.frees ∧
      t.current = s.current ∧ t.kernel = s.kernel ∧ t.machine.heap = s.machine.heap := by
  have hacq : frstageAcquire s = some ((), { s with frstageMutex := true }) := by
    rw [frstageAcquire, Comp.read_bind, if_neg (by simp [hmutex])]
    rfl
  rw [vmmDoCleanup, Comp.read_bind, if_neg (by simp [hmutex]), Comp.bind_of_eq hacq, Comp.read_bind] at h
  obtain ⟨_, u, hu, h⟩ := Comp.bind_eq_some.mp h
  cases h
  have hstart : Cleaning s 0 { s with frstageMutex := true } := ⟨rfl, rfl, rfl, rfl, rfl⟩
  have hend := Comp.forRange_ensures (J := Cleaning s) (fun i _ hi => Cleaning.slot hk (by
    rw [Nat.zero_add] at hi
    exact hi)) _ _ _ hstart hu
  have hlen : 0 + s.table.length = s.table.length := Nat.zero_add _
  refine ⟨rfl, ?_, ?_, hend.current, hend.kernel, hend.heap⟩
  · have htable := hend.table
    simp only [hlen] at htable
    rwa [List.take_length, List.drop_length, List.append_nil] at htable
  · have hfrees := hend.frees
    simp only [hlen] at hfrees
    rwa [List.take_length] at hfrees

/-! Histories. -/

/-- Calls lead from `s₀` to `s`; `staged` lists what was staged on the way, the last one first. -/
inductive StagingRun (n : ℕ) (s₀ : Staging) : Staging → List ℕ → Prop
  | init : StagingRun n s₀ s₀ []
  | stage {s t staged vmm} (h : StagingRun n s₀ s staged) (hv : vmm ≠ 0) (hk : vmm ≠ s.kernel)
      (hn : some vmm ∉ s.table) (hr : vmmStageFree vmm s = some ((), t)) : StagingRun n s₀ t (vmm :: staged)
  | switch {s t staged vmm} (h : StagingRun n s₀ s staged) (hr : vmmSwitch vmm s = some ((), t)) :
      StagingRun n s₀ t staged
  | cleanup {s t staged} (h : StagingRun n s₀ s staged) (hr : vmmDoCleanup (callees n) s = some ((), t)) :
      StagingRun n s₀ t staged

/-- How often `vmm_free` was called for a configuration. -/
def Staging.freeCount (s : Staging) (vmm : ℕ) : ℕ := (s.frees.map Prod.fst).count vmm

/-- Every staging is in the table or has been followed by one deletion. -/
structure StagingInv (s : Staging) (staged : List ℕ) : Prop where
  mutex : s.frstageMutex = false
  heap : ∀ c, (s.machine.heap c).isSome
  notKernel : some s.kernel ∉ s.table
  once : ∀ v, s.table.count (some v) ≤ 1
  balance : ∀ v, s.table.count (some v) + s.freeCount v = staged.count v
  apart : ∀ p ∈ s.frees, p.1 ≠ p.2

theorem StagingInv.stage {s t : Staging} {staged : List ℕ} {vmm : ℕ} (h : StagingInv s staged) (hv : vmm ≠ 0)
    (hk : vmm ≠ s.kernel) (hn : some vmm ∉ s.table) (hr : vmmStageFree vmm s = some ((), t)) :
    StagingInv t (vmm :: staged) := by
  obtain ⟨u, hu, hmutex, hfrees, hcur, hkernel, hheap, hcount⟩ := vmmStageFree_run hv h.mutex h.heap
  rw [hu] at hr
  cases hr
  have hzero : s.table.count (some vmm) = 0 := List.count_eq_zero.mpr hn
  refine ⟨hmutex, ?_, ?_, ?_, ?_, ?_⟩
  · rw [hheap]
    exact h.heap
  · have hkz : s.table.count (some s.kernel) = 0 := List.count_eq_zero.mpr h.notKernel
    rw [← List.count_eq_zero, hkernel, hcount, hkz, if_neg (Ne.symm hk)]
  · intro v
    rw [hcount]
    split_ifs with hvv
    · rw [hvv, hzero]
    · exact h.once v
  · intro v
    have hb := h.balance v
    rw [hcount, List.count_cons, Staging.freeCount, hfrees, ← hb, Staging.freeCount]
    by_cases hvv : v = vmm
    · simp only [hvv, if_true, beq_self_eq_true]
      omega
    · simp [hvv, Ne.symm hvv]
  · rw [hfrees]
    exact h.apart

theorem StagingInv.switch {s t : Staging} {staged : List ℕ} {vmm : ℕ} (h : StagingInv s staged)
    (hr : vmmSwitch vmm s = some ((), t)) : StagingInv t staged := by
  rw [vmmSwitch, Comp.read_bind] at hr
  by_cases hc : s.current ≠ vmm
  · rw [Comp.when_true hc] at hr
    cases hr
    exact ⟨h.mutex, h.heap, h.notKernel, h.once, h.balance, h.apart⟩
  · rw [Comp.when_false hc] at hr
    cases hr
    exact h

theorem StagingInv.cleanup {s t : Staging} {staged : List ℕ} {n : ℕ} (h : StagingInv s staged)
    (hr : vmmDoCleanup (callees n) s = some ((), t)) : StagingInv t staged := by
  obtain ⟨hmutex, htable, hfrees, hcur, hkernel, hheap⟩ := vmmDoCleanup_run h.mutex h.notKernel hr
  have hfst : ((s.table.filterMap (freedEntry s.current)).map fun v => (v, s.current)).map Prod.fst =
      s.table.filterMap (freedEntry s.current) := by
    rw [List.map_map]
    exact List.map_id _
  refine ⟨hmutex, ?_, ?_, ?_, ?_, ?_⟩
  · rw [hheap]
    exact h.heap
  · have hkz : s.table.count (some s.kernel) = 0 := List.count_eq_zero.mpr h.notKernel
    rw [← List.count_eq_zero, hkernel, htable, count_keptEntry, hkz]
    exact ite_self 0
  · intro v
    rw [htable, count_keptEntry]
    have := h.once v
    split_ifs <;> omega
  · intro v
    have hb := h.balance v
    unfold Staging.freeCount at hb ⊢
    rw [htable, count_keptEntry, hfrees, List.map_append, List.count_append, List.map_reverse, hfst,
      List.count_reverse, count_freedEntry]
    split_ifs <;> omega
  · intro p hp
    rw [hfrees] at hp
    rcases List.mem_append.mp hp with hp | hp
    · obtain ⟨v, hv, rfl⟩ := List.mem_map.mp (List.mem_reverse.mp hp)
      have hcount : (s.table.filterMap (freedEntry s.current)).count v ≠ 0 :=
        fun h0 => List.count_eq_zero.mp h0 hv
      rw [count_freedEntry] at hcount
      intro hcur'
      exact hcount (if_pos hcur')
    · exact h.apart p hp

theorem StagingRun.inv {n : ℕ} {s₀ s : Staging} {staged : List ℕ} (h₀ : StagingInv s₀ [])
    (h : StagingRun n s₀ s staged) : StagingInv s staged := by
  induction h with
  | init => exact h₀
  | stage h hv hk hn hr ih => exact ih.stage hv hk hn hr
  | switch h hr ih => exact ih.switch hr
  | cleanup h hr ih => exact ih.cleanup hr

/-- The current VMM at `0x1000`, another one at `0x3000`, and heap blocks without end. -/
def stagingSample : Staging where
  machine := { (default : Machine) with
    mem := fun f i =>
      match f, i with
      | 1, 0 => 0x2007#32
      | 1, 767 => 0x1003#32
      | 3, 0 => 0x4007#32
      | 3, 767 => 0x3003#32
      | _, _ => 0#32
    pmmBitmap := fun i => if i = 0 then 0xFFF#32 else 0#32
    pmmFrames := 32
    vmmCurrent := 0x1000
    vmmKernel := 0x7000
    heap := fun c => some (0x10000 * c) }
  frstageMutex := false
  frees := []

/-- Both configurations staged. -/
def stagingSampleFull : Staging :=
  Comp.after (vmmStageFree 0x3000) (Comp.after (vmmStageFree 0x1000) stagingSample)

end SysX
