import SysX.Paging

/-!
The trap table and copy-on-write of `mm/vmm.c`, and the unmapping primitives of
`arch/x86cpu/vmm.c`, which resolve traps.
-/
namespace SysX

/-! The trap table. Entries point to each other; a pointer into a block that `krealloc` has
released no longer reaches an entry. -/

namespace Machine

def trapAt (s : Machine) (p : TrapPtr) : Option Trap :=
  if p.base = s.vmmTrapsBase then s.vmmTraps[p.idx]? else none

/-- Write through a trap pointer. A write into a released block reaches no entry of the table. -/
def modifyTrap (s : Machine) (p : TrapPtr) (g : Trap → Trap) : Machine :=
  if p.base = s.vmmTrapsBase then { s with vmmTraps := s.vmmTraps.modify p.idx g } else s

end Machine

def trapDeref (p : TrapPtr) : Kernel Trap := Comp.readOr fun s => s.trapAt p

/-- `trap->info`, to be followed. -/
def trapInfo (t : Trap) : Kernel TrapPtr := Comp.readOr fun _ => t.info

/-- Acquiring a mutex that is held never returns: no other task runs inside these calls. -/
def trapsAcquire : Kernel Unit := do
  let locked ← Comp.read (·.vmmTrapsMutex)
  if locked then Comp.fault else Comp.modify fun s => { s with vmmTrapsMutex := true }

def trapsRelease : Kernel Unit := Comp.modify fun s => { s with vmmTrapsMutex := false }

def trapAllocSz : ℕ := 4

def trapZero : Trap := ⟨.none, 0, 0, none⟩

def vmmNewTrap (vmm vaddr : ℕ) (type : TrapType) : Kernel (Option TrapPtr) := do
  trapsAcquire
  let slot ← Comp.read fun s => s.vmmTraps.findIdx? fun t => t.type = .none
  match slot with
  | some i => do
    let base ← Comp.read (·.vmmTrapsBase)
    Comp.modify fun s =>
      s.modifyTrap ⟨base, i⟩ fun t => { t with type := type, vmm := vmm, vaddr := vaddr }
    trapsRelease
    pure (some ⟨base, i⟩)
  | none => do
    let block ← krealloc
    match block with
    | none => do
      trapsRelease
      pure none
    | some base => do
      let len ← Comp.read fun s => s.vmmTraps.length
      Comp.modify fun s => { s with
        vmmTraps := s.vmmTraps ++ ⟨type, vmm, vaddr, none⟩ :: List.replicate (trapAllocSz - 1) trapZero
        vmmTrapsBase := base }
      trapsRelease
      pure (some ⟨base, len⟩)

def vmmDeleteTrap (trap : Option TrapPtr) : Kernel Unit :=
  match trap with
  | none => pure ()
  | some p => Comp.modify fun s => s.modifyTrap p fun t => { t with type := .none }

/-- `vmm_traps[i].type == VMM_TRAP_COW && vmm_traps[i].vmm == vmm && vmm_traps[i].vaddr == vaddr` -/
def Trap.isCowAt (t : Trap) (vmm vaddr : ℕ) : Bool :=
  decide (t.type = .cow) && decide (t.vmm = vmm) && decide (t.vaddr = vaddr)

def vmmIsCow (K : Callees) (vmm vaddr : ℕ) (validated : Bool) : Kernel (Option TrapPtr) := do
  let pg ← (if validated then pure (some 0) else vmmGetPgsz K vmm vaddr)
  match pg with
  | none => pure none
  | some idx => do
    let vaddr := if validated then vaddr else vaddr - vaddr % vmmPgsz idx
    trapsAcquire
    let base ← Comp.read (·.vmmTrapsBase)
    let slot ← Comp.read fun s => s.vmmTraps.findIdx? fun t => t.isCowAt vmm vaddr
    trapsRelease
    pure (slot.map fun i => ⟨base, i⟩)

/-- "map memory and perform copy", one frame. -/
def cowCopyFrame (K : Callees) (copySrc pgsz frame : ℕ) (src : Trap) (i : ℕ) : Kernel Unit := do
  let cur ← Comp.read (·.vmmCurrent)
  let pa ← vmmGetPaddr K src.vmm src.vaddr
  vmmSetPaddr K cur copySrc (w32 (pa + i * 4096))
  vmmSetPaddr K cur (w32 (copySrc + 4096)) (w32 (w32 (frame + i) * 4096))
  memcpyPage (w32 (copySrc + pgsz)) copySrc

/-- `UINTPTR_MAX` -/
def uintptrMax : ℕ := 4294967295

def vmmCowDuplicate (K : Callees) (vmm vaddr : ℕ) (pgszIdx : Option ℕ) : Kernel Bool := do
  let idx ← (if pgszIdx = none then vmmGetPgsz K vmm vaddr else pure pgszIdx)
  match idx with
  | none => pure false
  | some idx => do
    let pgsz := vmmPgsz idx
    let vaddr := vaddr - vaddr % pgsz
    trapsAcquire
    let slot ← Comp.read fun s => s.vmmTraps.findIdx? fun t => t.isCowAt vmm vaddr
    match slot with
    | none => do
      trapsRelease
      pure false
    | some idxDst => do
      let base ← Comp.read (·.vmmTrapsBase)
      let dst : TrapPtr := ⟨base, idxDst⟩
      let dstTrap ← trapDeref dst
      let src ← trapInfo dstTrap
      let cur ← Comp.read (·.vmmCurrent)
      let kernelEnd ← Comp.read (·.kernelEnd)
      let copySrc ← vmmAllocMap K cur 0 (2 * 4096) kernelEnd uintptrMax 0 0 false
        (flagPresent ||| flagRw)
      if copySrc = 0 then do
        trapsRelease
        pure false
      else do
        let rqFrames := pgsz / 4096
        let frame ← pmmAllocFree rqFrames
        match frame with
        | none => do
          trapsRelease
          pure false
        | some frame => do
          -- `src->vmm` and `src->vaddr` are read anew for every frame; nothing here changes them
          let srcTrap ← trapDeref src
          Comp.forRange (cowCopyFrame K copySrc pgsz frame srcTrap) rqFrames 0
          vmmSetPaddr K vmm vaddr (w32 (frame * 4096))
          let flags ← vmmGetFlags K vmm vaddr
          vmmSetFlags K vmm vaddr (flags ||| flagRw)
          -- "check if the source will not be referenced": the entry sought is `dst` itself
          let ref ← Comp.read fun s => (s.vmmTraps.zipIdx.find? fun p =>
            decide (src ≠ ⟨s.vmmTrapsBase, p.2⟩) && p.1.isCowAt vmm vaddr).isSome
          Comp.when ref do
            let sflags ← vmmGetFlags K srcTrap.vmm srcTrap.vaddr
            vmmSetFlags K srcTrap.vmm srcTrap.vaddr ((sflags &&& ~~~ flagTrapped) ||| flagRw)
          vmmDeleteTrap (some src)
          vmmDeleteTrap (some dst)
          trapsRelease
          pure true

/-! Unmapping. -/

/-- The loop of `vmm_unmap_resolve_cow`. A pass deletes an entry or leaves the table as it is and
fails the same way forever, so one pass more than there are entries means that it never ends. -/
def unmapResolveLoop (K : Callees) (vmm va pgsz : ℕ) : (fuel : ℕ) → Option TrapPtr → Kernel Unit
  | _, none => pure ()
  | 0, some _ => Comp.fault
  | fuel + 1, some cow => do
    let t ← trapDeref cow
    let p ← trapInfo t
    let src ← trapDeref p
    let _ ← vmmCowDuplicate K src.vmm src.vaddr (some pgsz)
    let cow ← vmmIsCow K vmm va true
    unmapResolveLoop K vmm va pgsz fuel cow

def vmmUnmapResolveCow (K : Callees) (vmm va pgsz : ℕ) : Kernel Unit := do
  let cow ← vmmIsCow K vmm va true
  let len ← Comp.read fun s => s.vmmTraps.length
  unmapResolveLoop K vmm va pgsz (len + 1) cow

def vmmPgunmapHuge (K : Callees) (vmm va : ℕ) : Kernel Unit := do
  let pde := va / 4194304
  let pd ← openPd K vmm (flagPresent ||| flagRw)
  if pd = 0 then pure () else do
  let e ← load (pd + 4 * pde)
  if e = 0#32 then closeWin K vmm pd
  else do
    if e.pgsz = false then do
      -- the window is not checked for failure
      let pt ← openPt K vmm pd pde flagPresent
      Comp.forRange (fun i => do
        let t ← load (pt + 4 * i)
        Comp.when t.trapped (vmmUnmapResolveCow K vmm (va ||| (i * 4096)) 0)) 1024 0
      let e ← load (pd + 4 * pde)
      pmmFree e.pt
      closeWin K vmm pt
    else Comp.when e.trapped (vmmUnmapResolveCow K vmm va 1)
    store (pd + 4 * pde) 0#32
    closeWin K vmm pd

/-- "unmapping one small page in a huge page": the other pages are mapped again one by one. -/
def pgunmapSplit (K : Callees) (vmm pd va : ℕ) (e : Word) : Kernel Unit := do
  let pde := va / 4194304
  let pa := e.psePa * 4194304
  let flags := e.mapFlags
  Comp.when e.trapped (vmmUnmapResolveCow K vmm (pde * 4194304) 1)
  store (pd + 4 * pde) 0#32
  let base := va - va % 4194304
  Comp.forRange (fun i => Comp.when (base + i * 4096 ≠ va)
    (vmmPgmapSmall K vmm (pa + i * 4096) (base + i * 4096) flags)) 1024 0

def vmmPgunmapSmall (K : Callees) (vmm va : ℕ) : Kernel Unit := do
  let pde := va / 4194304
  let pte := va / 4096 % 1024
  let pd ← openPd K vmm (flagPresent ||| flagRw)
  if pd = 0 then pure () else do
  let e ← load (pd + 4 * pde)
  if e = 0#32 then closeWin K vmm pd
  else if e.pgsz = false then do
    let pt ← openPt K vmm pd pde (flagPresent ||| flagRw)
    if pt = 0 then closeWin K vmm pd
    else do
      let t ← load (pt + 4 * pte)
      Comp.when t.trapped (vmmUnmapResolveCow K vmm va 0)
      store (pt + 4 * pte) 0#32
      closeWin K vmm pd
      closeWin K vmm pt
  else do
    pgunmapSplit K vmm pd va e
    closeWin K vmm pd

def vmmPgunmap (K : Callees) (vmm va pgszIdx : ℕ) : Kernel Unit :=
  if rmapStart ≤ va ∧ va < rmapEnd then pure ()
  else match pgszIdx with
    | 0 => vmmPgunmapSmall K vmm va
    | 1 => vmmPgunmapHuge K vmm va
    | _ => pure ()

/-! The cycle closed. `callees n` are the functions with at most `n` calls nested inside each other;
the kernel never nests more than three (a foreign unmap resolves a trap, whose copy window is mapped
in the kernel half, which is propagated through a window). -/

def callees : ℕ → Callees
  | 0 => ⟨fun _ _ _ _ _ _ _ _ _ => Comp.fault, fun _ _ _ => Comp.fault⟩
  | n + 1 => ⟨vmmAllocMap (callees n), vmmPgunmap (callees n)⟩

/-! Setting up and removing copy-on-write. -/

def vmmUnmapLoop (K : Callees) (vmm vaEnd : ℕ) : (fuel va : ℕ) → Kernel Unit
  | 0, _ => Comp.fault
  | fuel + 1, va =>
    if va < vaEnd then do
      -- the `for` has no `break`: both sizes are tried in one pass, each at the current `va`
      let huge := ¬ (vaEnd < w32 (va + 4194304) ∨ va % 4194304 ≠ 0)
      Comp.when huge (vmmPgunmap K vmm va 1)
      let va := if huge then w32 (va + 4194304) else va
      let small := ¬ (vaEnd < w32 (va + 4096) ∨ va % 4096 ≠ 0)
      Comp.when small (vmmPgunmap K vmm va 0)
      vmmUnmapLoop K vmm vaEnd fuel (if small then w32 (va + 4096) else va)
    else pure ()

def vmmUnmap (K : Callees) (vmm va sz : ℕ) : Kernel Unit :=
  let delta := va % 4096
  let va := va - delta
  let sz := w32 (sz + delta)
  let sz := if sz % 4096 ≠ 0 then w32 (sz + (4096 - sz % 4096)) else sz
  vmmUnmapLoop K vmm (w32 (va + sz)) loopFuel va

/-- "page is too big - subdivide the page here": map the source page again around `vs`. -/
def cowSubdivide (K : Callees) (src vs pgszSrc : ℕ) : Kernel Unit := do
  let flags ← vmmGetFlags K src vs
  let vaStart := vs - vs % vmmPgsz pgszSrc
  let paStart ← vmmGetPaddr K src vaStart
  let vaEnd := w32 (vaStart + vmmPgsz pgszSrc)
  let _ ← vmmMap K src paStart vaStart (sub32 vs vaStart) pgszSrc flags
  let pa := sub32 (w32 (paStart + vs)) vaStart
  let _ ← vmmMap K src pa vs (vmmPgsz 0) 0 flags
  let next := w32 (vs + vmmPgsz 0)
  let _ ← vmmMap K src (w32 (pa + vmmPgsz 0)) next (sub32 vaEnd next) pgszSrc flags
  pure ()

def vmmCowSetupLoop (K : Callees) (src dst size : ℕ) : (fuel done vs vd : ℕ) → Kernel ℕ
  | 0, _, _, _ => Comp.fault
  | fuel + 1, done, vs, vd =>
    if done < size then do
      let pgSrc ← vmmGetPgsz K src vs
      match pgSrc with
      | none => pure done
      | some pgSrc => do
        let pgDst ← vmmGetPgsz K dst vd
        if pgDst ≠ none then pure done
        else do
          -- with two page sizes, the only smaller size to fall back to is the first
          let big : Bool := decide (pgSrc ≠ 0 ∧ size - done < vmmPgsz pgSrc)
          Comp.when big (cowSubdivide K src vs pgSrc)
          let pgSrc := if big then 0 else pgSrc
          let pa ← vmmGetPaddr K src vs
          let flags ← vmmGetFlags K src (w32 (vs + done))
          vmmPgmap K dst pa (w32 (vd + done)) pgSrc ((flags &&& ~~~ flagRw) ||| flagTrapped)
          let psrc ← vmmNewTrap src vs .cow
          let pdst ← vmmNewTrap dst vd .cow
          match psrc, pdst with
          | some psrc, some pdst => do
            Comp.modify fun s => s.modifyTrap pdst fun t => { t with info := some psrc }
            Comp.modify fun s => s.modifyTrap psrc fun t => { t with info := some pdst }
            let sflags ← vmmGetFlags K src vs
            vmmSetFlags K src vs ((sflags &&& ~~~ flagRw) ||| flagTrapped)
            let pgsz := vmmPgsz pgSrc
            vmmCowSetupLoop K src dst size fuel (w32 (done + pgsz)) (w32 (vs + pgsz)) (w32 (vd + pgsz))
          | psrc, pdst => do
            vmmDeleteTrap psrc
            vmmDeleteTrap pdst
            pure done
    else pure done

def vmmCowSetup (K : Callees) (src vaddrSrc dst vaddrDst size : ℕ) : Kernel ℕ :=
  let ds := vaddrSrc % 4096
  let dd := vaddrDst % 4096
  let size := w32 (size + (if ds < dd then dd else ds))
  -- `size += size - size % pgsz_min`
  let size := if size % 4096 ≠ 0 then w32 (size + (size - size % 4096)) else size
  vmmCowSetupLoop K src dst size loopFuel 0 (vaddrSrc - ds) (vaddrDst - dd)

/-- An element of `resolved`: the address resolved, and the VMM and address that now own its frame. -/
structure Resolved where
  vaddr : ℕ
  srcVmm : ℕ
  srcVaddr : ℕ
  deriving DecidableEq, Repr

/-- The loop of `vmm_trap_remove`. `cap` is `resolved_maxcnt`. -/
def trapRemoveLoop (K : Callees) (vmm : ℕ) :
    (fuel i cap : ℕ) → List Resolved → Kernel Bool
  | 0, _, _, _ => Comp.fault
  | fuel + 1, i, cap, resolved => do
    let len ← Comp.read fun s => s.vmmTraps.length
    if len ≤ i then do
      trapsRelease
      pure true
    else do
      let base ← Comp.read (·.vmmTrapsBase)
      let ptr : TrapPtr := ⟨base, i⟩
      let trap ← trapDeref ptr
      if trap.type = .none then trapRemoveLoop K vmm fuel (i + 1) cap resolved
      else do
        let sources ← (if trap.type = .cow then do
            let p ← trapInfo trap
            let info ← trapDeref p
            pure (decide (info.vmm = vmm))
          else pure false)
        if sources then
          match resolved.find? fun r => r.vaddr = trap.vaddr with
          | some r => do
            let pgsz ← vmmGetPgsz K trap.vmm trap.vaddr
            vmmDeleteTrap trap.info
            vmmDeleteTrap (some ptr)
            match pgsz with
            | none => trapRemoveLoop K vmm fuel (i + 1) cap resolved
            | some idx => do
              let n ← vmmCowSetup K r.srcVmm r.srcVaddr trap.vmm trap.vaddr (vmmPgsz idx)
              if n = 0 then do
                trapsRelease
                pure false
              else trapRemoveLoop K vmm fuel (i + 1) cap resolved
          | none => do
            let grown ← (if cap = resolved.length then krealloc else pure (some 0))
            match grown with
            | none => do
              trapsRelease
              pure false
            | some _ => do
              let cap := if cap = resolved.length then cap + trapAllocSz else cap
              let flags ← vmmGetFlags K trap.vmm trap.vaddr
              vmmSetFlags K trap.vmm trap.vaddr (flags ||| flagRw)
              vmmDeleteTrap trap.info
              vmmDeleteTrap (some ptr)
              trapRemoveLoop K vmm fuel (i + 1) cap
                (resolved ++ [⟨trap.vaddr, trap.vmm, trap.vaddr⟩])
        else if trap.vmm = vmm then do
          vmmDeleteTrap (some ptr)
          trapRemoveLoop K vmm fuel (i + 1) cap resolved
        else trapRemoveLoop K vmm fuel (i + 1) cap resolved

def vmmTrapRemove (K : Callees) (vmm : ℕ) : Kernel Bool := do
  trapsAcquire
  trapRemoveLoop K vmm loopFuel 0 0 []

def vmmHandleFault (K : Callees) (vaddr : ℕ) (flags : Word) : Kernel Bool := do
  let cur ← Comp.read (·.vmmCurrent)
  if flags.getLsbD 1 then vmmCowDuplicate K cur vaddr none else pure false

end SysX
