import SysX.Pmm

/-!
The paging primitives of `arch/x86cpu/vmm.c` and the range functions of `mm/vmm.c` over them.

A VMM other than the current one is reached through temporary windows: its page directory and page
table are mapped into the current VMM by `vmm_alloc_map` and unmapped by `vmm_pgunmap`, which are
built from the same primitives. `Callees` breaks that cycle; `callees` below ties it again.
-/
namespace SysX
open BitField

/-- The functions the primitives call on the current VMM for their windows. -/
structure Callees where
  vmmAllocMap : (vmm pa sz vaStart vaEnd vaAlign pgszMaxIdx : ℕ) → (reverse : Bool) →
    (flags : Word) → Kernel ℕ
  vmmPgunmap : (vmm va pgszIdx : ℕ) → Kernel Unit

def vmmPgszNum : ℕ := 2

def vmmPgsz : ℕ → ℕ
  | 0 => 4096
  | 1 => 4194304
  | _ => 0

/-- Address of the page table of a directory entry, given the base of the recursive mapping. -/
def vmmPt (base pde : ℕ) : ℕ := base + pde * 4096

def vmmPd (base : ℕ) : ℕ := vmmPt base pdPte

/-! Windows. Every primitive starts by making the page directory accessible: through the recursive
mapping when the VMM is the current one, through a window otherwise. -/

def openPd (K : Callees) (vmm : ℕ) (flags : Word) : Kernel ℕ := do
  let cur ← Comp.read (·.vmmCurrent)
  if vmm ≠ cur then K.vmmAllocMap cur vmm 4096 0 kernelStart 0 0 false flags
  else pure (vmmPd rmapStart)

/-- The same for the page table behind a directory entry. -/
def openPt (K : Callees) (vmm pd pde : ℕ) (flags : Word) : Kernel ℕ := do
  let cur ← Comp.read (·.vmmCurrent)
  if vmm ≠ cur then do
    let e ← load (pd + 4 * pde)
    K.vmmAllocMap cur (e.pt * 4096) 4096 (w32 (pd + 4096)) kernelStart 0 0 false flags
  else pure (vmmPt rmapStart pde)

/-- `if(pd_map) vmm_pgunmap(vmm_current, va, 0)` -/
def closeWin (K : Callees) (vmm va : ℕ) : Kernel Unit := do
  let cur ← Comp.read (·.vmmCurrent)
  Comp.when (vmm ≠ cur) (K.vmmPgunmap cur va 0)

/-! Fields of an entry. -/

namespace Word

/-- The flag bits shared by a page table entry and a 4 MiB directory entry. -/
def setFlags (e flags : Word) : Word :=
  let e := setBit e 0 (flags.getLsbD 0)
  let e := setBit e 2 (flags.getLsbD 2)
  let e := setBit e 1 (flags.getLsbD 1)
  let e := setBit e 8 (flags.getLsbD 3)
  let e := setBit e 4 (!flags.getLsbD 4)
  setBit e 3 (flags.getLsbD 5)

/-- `avail = (flags & VMM_FLAGS_TRAPPED) ? VMM_AVAIL_TRAPPED : 0` -/
def setAvail (e flags : Word) : Word := setField e 9 3 (if flags.getLsbD 6 then 1 else 0)

def setPt (e : Word) (frame : ℕ) : Word := setField e 12 20 frame

def setPsePa (e : Word) (v : ℕ) : Word := setField e 22 10 v

/-- "populate page table entry" -/
def fillPte (e flags : Word) (pa : ℕ) : Word :=
  let e := setPt (e.setFlags flags) (pa / 4096)
  setAvail (setBit (setBit e 5 false) 6 false) flags

/-- The 4 MiB directory entry `vmm_pgmap_huge` writes; it starts from `1 << 7`. -/
def fillPse (flags : Word) (pa : ℕ) : Word :=
  let e := setPsePa (setFlags 128#32 flags) (pa / 4194304)
  setAvail (setBit (setBit e 5 false) 6 false) flags

/-- A page table entry that takes over its fields from a 4 MiB directory entry. -/
def splitPte (e orig : Word) (frame : ℕ) : Word :=
  let e := setBit e 0 orig.present
  let e := setBit e 2 orig.user
  let e := setBit e 1 orig.rw
  let e := setBit e 8 orig.global
  let e := setBit e 4 orig.ncache
  let e := setBit e 3 orig.wthru
  let e := setBit e 5 orig.accessed
  let e := setBit e 6 orig.dirty
  setPt (setField e 9 3 orig.avail) frame

/-- `entry.present |= ..., entry.rw |= ..., entry.user |= ...` on a directory entry. -/
def orFlags (e flags : Word) : Word :=
  let e' := setBit e 0 (e.present || flags.getLsbD 0)
  let e' := setBit e' 1 (e.rw || flags.getLsbD 1)
  setBit e' 2 (e.user || flags.getLsbD 2)

/-- `(frame << 12) | (1 << 0) | (1 << 1)` -/
def tableEntry (frame : ℕ) : Word := BitVec.ofNat 32 (frame * 4096 ||| 3)

/-- A flag word collected by `flags |= ...`; write-through counts only for a cached page. -/
def packFlags (present rw user global cache wthru trapped : Bool) : Word :=
  (if present then flagPresent else 0#32) ||| (if rw then flagRw else 0#32) |||
  (if user then flagUser else 0#32) ||| (if global then flagGlobal else 0#32) |||
  (if cache then flagCache ||| (if wthru then flagCacheWthru else 0#32) else 0#32) |||
  (if trapped then flagTrapped else 0#32)

/-- The flags of an entry in terms of `VMM_FLAGS_*`, without the trap flag. -/
def mapFlags (e : Word) : Word :=
  packFlags e.present e.rw e.user e.global (!e.ncache) e.wthru false

def getFlags (e : Word) : Word :=
  packFlags e.present e.rw e.user e.global (!e.ncache) e.wthru e.trapped

end Word

/-! Observers. -/

def vmmGetPgsz (K : Callees) (vmm va : ℕ) : Kernel (Option ℕ) := do
  let pde := va / 4194304
  let pte := va / 4096 % 1024
  let pd ← openPd K vmm flagPresent
  if pd = 0 then pure none else do
  let e ← load (pd + 4 * pde)
  if e = 0#32 then do
    closeWin K vmm pd
    pure none
  else if e.pgsz then do
    closeWin K vmm pd
    pure (some 1)
  else do
    let pt ← openPt K vmm pd pde flagPresent
    if pt = 0 then do
      closeWin K vmm pd
      pure none
    else do
      let t ← load (pt + 4 * pte)
      -- the directory's window is not unmapped on this path
      closeWin K vmm pt
      pure (if t = 0#32 then none else some 0)

def vmmGetPaddr (K : Callees) (vmm va : ℕ) : Kernel ℕ := do
  let pde := va / 4194304
  let pte := va / 4096 % 1024
  let pd ← openPd K vmm flagPresent
  if pd = 0 then pure 0 else do
  let e ← load (pd + 4 * pde)
  if e = 0#32 then do
    closeWin K vmm pd
    pure 0
  else if e.pgsz then do
    closeWin K vmm pd
    pure (e.psePa * 4194304 + va % 4194304)
  else do
    let pt ← openPt K vmm pd pde flagPresent
    if pt = 0 then do
      closeWin K vmm pd
      pure 0
    else do
      let t ← load (pt + 4 * pte)
      closeWin K vmm pt
      closeWin K vmm pd
      pure (if t = 0#32 then 0 else t.pt * 4096 + va % 4096)

def vmmGetFlags (K : Callees) (vmm va : ℕ) : Kernel Word := do
  let pde := va / 4194304
  let pte := va / 4096 % 1024
  let pd ← openPd K vmm flagPresent
  if pd = 0 then pure 0#32 else do
  let e ← load (pd + 4 * pde)
  if e = 0#32 then do
    closeWin K vmm pd
    pure 0#32
  else if e.pgsz then do
    closeWin K vmm pd
    pure e.getFlags
  else do
    let pt ← openPt K vmm pd pde flagPresent
    if pt = 0 then do
      closeWin K vmm pd
      pure 0#32
    else do
      let t ← load (pt + 4 * pte)
      closeWin K vmm pt
      closeWin K vmm pd
      pure (if t = 0#32 then 0#32 else t.getFlags)

/-! Updates of a mapped page. -/

def vmmSetPaddr (K : Callees) (vmm va pa : ℕ) : Kernel Unit := do
  let pde := va / 4194304
  let pte := va / 4096 % 1024
  let pd ← openPd K vmm (flagPresent ||| flagRw)
  if pd = 0 then pure () else do
  let e ← load (pd + 4 * pde)
  if e = 0#32 then closeWin K vmm pd
  else if e.pgsz then do
    update (pd + 4 * pde) fun e => e.setPsePa (pa / 4194304)
    closeWin K vmm pd
  else do
    let pt ← openPt K vmm pd pde (flagPresent ||| flagRw)
    if pt = 0 then closeWin K vmm pd
    else do
      let t ← load (pt + 4 * pte)
      Comp.when (t ≠ 0#32) (update (pt + 4 * pte) fun t => t.setPt (pa / 4096))
      closeWin K vmm pt
      closeWin K vmm pd

def vmmSetFlags (K : Callees) (vmm va : ℕ) (flags : Word) : Kernel Unit := do
  let pde := va / 4194304
  let pte := va / 4096 % 1024
  let pd ← openPd K vmm flagPresent
  if pd = 0 then pure () else do
  let e ← load (pd + 4 * pde)
  if e = 0#32 then closeWin K vmm pd
  else if e.pgsz then do
    -- a window on a foreign directory is read-only here
    update (pd + 4 * pde) fun e => (e.setFlags flags).setAvail flags
    closeWin K vmm pd
  else do
    let pt ← openPt K vmm pd pde (flagPresent ||| flagRw)
    if pt = 0 then closeWin K vmm pd
    else do
      let t ← load (pt + 4 * pte)
      Comp.when (t ≠ 0#32) do
        update (pt + 4 * pte) fun t => t.setFlags flags
        -- `pt[pde].entry.avail`, not `pt[pte]`
        update (pt + 4 * pde) fun t => t.setAvail flags
      closeWin K vmm pt
      closeWin K vmm pd

/-! Mapping. -/

def procGet (pid : ℕ) : Kernel (Option ℕ) :=
  Comp.read fun s => if pid < s.procPidtab.length then (s.procPidtab[pid]?).join else none

/-- "propagate kernel pages to all tasks' VMM configs": `proc` is looked up once, before the walk
over the task ring, and `entry` is the address of the directory entry that is copied. -/
def propagatePde (K : Callees) (vmm lo entry pde : ℕ) : Kernel Unit := do
  let cur ← Comp.read (·.vmmCurrent)
  let win ← K.vmmAllocMap cur 0 4096 lo kernelStart 0 0 false (flagPresent ||| flagRw)
  Comp.when (win ≠ 0) do
    let ring ← Comp.read (·.taskRing)
    let pid ← Comp.readOr fun s => ring.head?.map fun t => (s.task t).pid
    let proc ← procGet pid
    let procVmm ← Comp.readOr fun s => proc.map fun p => (s.proc p).vmm
    Comp.forList (fun _ => Comp.when (procVmm ≠ vmm) do
      vmmSetPaddr K cur win procVmm
      let e ← load entry
      store (win + 4 * pde) e) ring
    K.vmmPgunmap cur win 0

/-- `task_kernel && va >= kernel_start` -/
def propagates (s : Machine) (va : ℕ) : Bool := !s.taskRing.isEmpty && decide (kernelStart ≤ va)

/-- "remap any PSE pages": the entries of the new table other than `pte` take over the 4 MiB page. -/
def remapPse (pt pte : ℕ) (orig : Word) : Kernel Unit :=
  Comp.forRange (fun i => Comp.when (i ≠ pte)
    (update (pt + 4 * i) fun e => e.splitPte orig (orig.psePa * 1024 + i))) 1024 0

/-- The end of `vmm_pgmap_small`, from "set settings in page directory entry" on. -/
def pgmapSmallEntry (K : Callees) (vmm pd pt pa va : ℕ) (flags : Word) : Kernel Unit := do
  update (pd + 4 * (va / 4194304)) fun e => e.orFlags flags
  update (pt + 4 * (va / 4096 % 1024)) fun e => e.fillPte flags pa
  closeWin K vmm pd
  closeWin K vmm pt

/-- "allocate page table", from a frame the allocator returned on. -/
def pgmapNewTable (K : Callees) (vmm pd frame pa va : ℕ) (orig flags : Word) : Kernel Unit := do
  let pde := va / 4194304
  let pse : Bool := orig.present && orig.pgsz
  store (pd + 4 * pde) (Word.tableEntry frame)
  Comp.when pse (update (pd + 4 * pde) fun e => setBit e 2 (Word.user e || orig.user))
  let pt ← openPt K vmm pd pde (flagPresent ||| flagRw)
  if pt = 0 then closeWin K vmm pd
  else do
    memsetPage pt
    let cur ← Comp.read (·.vmmCurrent)
    let spread ← Comp.read fun s => propagates s va
    let lo := if vmm ≠ cur then w32 (pt + 4096) else 0
    Comp.when spread (propagatePde K vmm lo (pd + 4 * pde) pde)
    Comp.when pse (remapPse pt (va / 4096 % 1024) orig)
    pgmapSmallEntry K vmm pd pt pa va flags

def vmmPgmapSmall (K : Callees) (vmm pa va : ℕ) (flags : Word) : Kernel Unit := do
  let pde := va / 4194304
  let pd ← openPd K vmm (flagPresent ||| flagRw)
  if pd = 0 then pure () else do
  let orig ← load (pd + 4 * pde)
  if orig ≠ 0#32 ∧ orig.pgsz = false then do
    let pt ← openPt K vmm pd pde (flagPresent ||| flagRw)
    if pt = 0 then closeWin K vmm pd
    else pgmapSmallEntry K vmm pd pt pa va flags
  else do
    let frame ← pmmAllocFree 1
    match frame with
    | some frame => pgmapNewTable K vmm pd frame pa va orig flags
    | none => do
      -- "no more free frames, brace for impact": `pt` is still NULL from here on
      Comp.when (orig.present && orig.pgsz) (remapPse 0 (va / 4096 % 1024) orig)
      pgmapSmallEntry K vmm pd 0 pa va flags

def vmmPgmapHuge (K : Callees) (vmm pa va : ℕ) (flags : Word) : Kernel Unit := do
  let pde := va / 4194304
  let pd ← openPd K vmm (flagPresent ||| flagRw)
  if pd = 0 then pure () else do
  let orig ← load (pd + 4 * pde)
  Comp.when (orig ≠ 0#32 ∧ orig.pgsz = false) do
    pmmFree orig.pt
    store (pd + 4 * pde) 0#32
  store (pd + 4 * pde) (Word.fillPse flags pa)
  let cur ← Comp.read (·.vmmCurrent)
  let spread ← Comp.read fun s => propagates s va
  let lo := if vmm ≠ cur then w32 (pd + 4096) else 0
  Comp.when spread (propagatePde K vmm lo (pd + 4 * pde) pde)
  closeWin K vmm pd

def vmmPgmap (K : Callees) (vmm pa va pgszIdx : ℕ) (flags : Word) : Kernel Unit :=
  if rmapStart ≤ va ∧ va < rmapEnd then pure ()
  else match pgszIdx with
    | 0 => vmmPgmapSmall K vmm pa va flags
    | 1 => vmmPgmapHuge K vmm pa va flags
    | _ => pure ()

/-! Ranges (`mm/vmm.c`). -/

/-- The page size `vmm_map` uses next: the largest one not above `idx` that fits. -/
def vmmMapPick (pa va vaEnd : ℕ) : ℕ → Option ℕ
  | 0 => if vaEnd < w32 (va + vmmPgsz 0) ∨ pa % vmmPgsz 0 ≠ 0 ∨ va % vmmPgsz 0 ≠ 0 then none
      else some 0
  | i + 1 =>
    if vaEnd < w32 (va + vmmPgsz (i + 1)) ∨ pa % vmmPgsz (i + 1) ≠ 0 ∨ va % vmmPgsz (i + 1) ≠ 0 then
      vmmMapPick pa va vaEnd i
    else some (i + 1)

/-- The loop of `vmm_map`; the result is the final `va`. It spins forever when no size fits. -/
def vmmMapLoop (K : Callees) (vmm idx : ℕ) (flags : Word) (vaEnd : ℕ) :
    (fuel pa va : ℕ) → Kernel ℕ
  | 0, _, _ => Comp.fault
  | fuel + 1, pa, va =>
    if va < vaEnd then
      match vmmMapPick pa va vaEnd idx with
      | none => Comp.fault
      | some i => do
        vmmPgmap K vmm pa va i flags
        vmmMapLoop K vmm idx flags vaEnd fuel (w32 (pa + vmmPgsz i)) (w32 (va + vmmPgsz i))
    else pure va

def vmmMap (K : Callees) (vmm pa va sz pgszMaxIdx : ℕ) (flags : Word) : Kernel ℕ := do
  let idx := if vmmPgszNum ≤ pgszMaxIdx then vmmPgszNum - 1 else pgszMaxIdx
  let delta := pa % 4096
  let pa := pa - delta
  let d := sub32 delta (va - va % 4096)
  let delta := if va % 4096 ≠ 0 ∧ delta < d then d else delta
  let va := va - va % 4096
  let sz := w32 (sz + delta)
  let sz := if sz % 4096 ≠ 0 then w32 (sz + (4096 - sz % 4096)) else sz
  let idx := if idx ≠ 0 ∧ sz < vmmPgsz idx then idx - 1 else idx
  let va' ← vmmMapLoop K vmm idx flags (w32 (va + sz)) loopFuel pa va
  pure (w32 (sub32 va' sz + delta))

/-- The search loop of `vmm_first_free`, in pages. A run with more passes would repeat the pair of
`result` and `blk`. -/
def vmmFirstFreeLoop (K : Callees) (vmm vaStart vaEnd sz align : ℕ) (reverse : Bool) :
    (fuel result blk : ℕ) → Kernel ℕ
  | 0, _, _ => Comp.fault
  | fuel + 1, result, blk =>
    if vaStart ≤ result ∧ w32 (result + sz) ≤ vaEnd then do
      let pg ← vmmGetPgsz K vmm (w32 (w32 (result + blk) * 4096))
      if pg ≠ none then
        let result := if reverse then sub32 result (blk + 1) else w32 (result + (blk + 1))
        let result :=
          if align ≠ 0 ∧ result % align ≠ 0 then
            if reverse then sub32 result (result % align)
            else w32 (result + (align - result % align))
          else result
        vmmFirstFreeLoop K vmm vaStart vaEnd sz align reverse fuel result 0
      else if w32 (blk + 1) = sz then pure (w32 (result * 4096))
      else vmmFirstFreeLoop K vmm vaStart vaEnd sz align reverse fuel result (w32 (blk + 1))
    else pure 0

def vmmFirstFree (K : Callees) (vmm vaStart vaEnd sz align : ℕ) (reverse : Bool) : Kernel ℕ :=
  let start := if vaStart = 0 then 1 else w32 (vaStart + 4095) / 4096
  let stop := vaEnd / 4096
  let n := w32 (sz + 4095) / 4096
  -- `align /= sz` divides by zero when no page is asked for
  if n = 0 then Comp.fault
  else
    vmmFirstFreeLoop K vmm start stop n (align / n) reverse (loopFuel * loopFuel)
      (if reverse then sub32 stop n else start) 0

def vmmAllocMap (K : Callees) (vmm pa sz vaStart vaEnd vaAlign pgszMaxIdx : ℕ) (reverse : Bool)
    (flags : Word) : Kernel ℕ := do
  let off := pa % 4096
  let vaddr ← vmmFirstFree K vmm vaStart vaEnd (w32 (sz + off)) vaAlign reverse
  if vaddr = 0 then pure 0
  else do
    let _ ← vmmMap K vmm (pa - off) vaddr (w32 (sz + off)) pgszMaxIdx flags
    pure (w32 (vaddr + off))

end SysX
