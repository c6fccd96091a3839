import SysX.Cow

/-!
What the paging primitives leave alone: any property of the state that does not look at memory or
at the frame bitmap, whatever the page tables hold.
-/
namespace SysX

/-- `I` looks at neither memory nor the frame bitmap. -/
def MemStable (I : Machine → Prop) : Prop :=
  ∀ s m b, I s → I { s with mem := m, pmmBitmap := b }

/-- The window functions keep `I`. -/
structure Callees.Keep (I : Machine → Prop) (K : Callees) : Prop where
  vmmAllocMap : ∀ vmm pa sz lo hi align idx reverse flags,
    Comp.Keeps I (K.vmmAllocMap vmm pa sz lo hi align idx reverse flags)
  vmmPgunmap : ∀ vmm va idx, Comp.Keeps I (K.vmmPgunmap vmm va idx)

section Memory

theorem keeps_load (I : Machine → Prop) (va : ℕ) : Comp.Keeps I (load va) :=
  .bind (.readOr _ _) fun _ => .read _ _

variable {I : Machine → Prop} (hI : MemStable I)
include hI

theorem MemStable.store (va : ℕ) (d : Word) : Comp.Keeps I (store va d) :=
  .bind (.readOr _ _) fun _ => .modify fun s hs => hI s _ s.pmmBitmap hs

theorem MemStable.update (va : ℕ) (g : Word → Word) : Comp.Keeps I (update va g) :=
  .bind (keeps_load _ va) fun _ => hI.store va _

theorem MemStable.memsetPage (va : ℕ) : Comp.Keeps I (memsetPage va) :=
  .bind (.readOr _ _) fun _ => .modify fun s hs => hI s _ s.pmmBitmap hs

theorem MemStable.memcpyPage (dst src : ℕ) : Comp.Keeps I (memcpyPage dst src) :=
  .bind (.readOr _ _) fun _ => .bind (.readOr _ _) fun _ =>
    .modify fun s hs => hI s _ s.pmmBitmap hs

theorem MemStable.pmmFree (f : ℕ) : Comp.Keeps I (pmmFree f) :=
  .modify fun s hs => hI s s.mem _ hs

theorem MemStable.pmmAlloc (f : ℕ) : Comp.Keeps I (pmmAlloc f) :=
  .bind (.read _ _) fun _ => .ite (fun _ => .pure _ _) fun _ =>
    .bind (.modify fun s hs => hI s s.mem _ hs) fun _ => .pure _ _

theorem MemStable.pmmAllocFree (sz : ℕ) : Comp.Keeps I (pmmAllocFree sz) := by
  refine .bind (.readOr _ _) fun r => ?_
  cases r with
  | none => exact .pure _ _
  | some f =>
    exact .bind (.forRange (fun i => .bind (hI.pmmAlloc _) fun _ => .pure _ _) _ _) fun _ => .pure _ _

end Memory

section Primitives

variable {I : Machine → Prop} (hI : MemStable I) {K : Callees} (hK : K.Keep I)
include hK

theorem Callees.Keep.openPd (vmm : ℕ) (flags : Word) : Comp.Keeps I (openPd K vmm flags) :=
  .bind (.read _ _) fun _ => .ite (fun _ => hK.vmmAllocMap _ _ _ _ _ _ _ _ _) fun _ => .pure _ _

theorem Callees.Keep.closeWin (vmm va : ℕ) : Comp.Keeps I (closeWin K vmm va) :=
  .bind (.read _ _) fun _ => .when fun _ => hK.vmmPgunmap _ _ _

theorem Callees.Keep.openPt (vmm pd pde : ℕ) (flags : Word) :
    Comp.Keeps I (openPt K vmm pd pde flags) :=
  .bind (.read _ _) fun _ =>
    .ite (fun _ => .bind (keeps_load _ _) fun _ => hK.vmmAllocMap _ _ _ _ _ _ _ _ _) fun _ => .pure _ _

theorem Callees.Keep.vmmGetPgsz (vmm va : ℕ) : Comp.Keeps I (vmmGetPgsz K vmm va) := by
  refine .bind (hK.openPd _ _) fun pd => .ite (fun _ => .pure _ _) fun _ => ?_
  refine .bind (keeps_load _ _) fun e => .ite (fun _ => .bind (hK.closeWin _ _) fun _ => .pure _ _) fun _ => ?_
  refine .ite (fun _ => .bind (hK.closeWin _ _) fun _ => .pure _ _) fun _ => ?_
  refine .bind (hK.openPt _ _ _ _) fun pt => ?_
  refine .ite (fun _ => .bind (hK.closeWin _ _) fun _ => .pure _ _) fun _ => ?_
  exact .bind (keeps_load _ _) fun t => .bind (hK.closeWin _ _) fun _ => .pure _ _

theorem Callees.Keep.vmmGetPaddr (vmm va : ℕ) : Comp.Keeps I (vmmGetPaddr K vmm va) := by
  refine .bind (hK.openPd _ _) fun pd => .ite (fun _ => .pure _ _) fun _ => ?_
  refine .bind (keeps_load _ _) fun e => .ite (fun _ => .bind (hK.closeWin _ _) fun _ => .pure _ _) fun _ => ?_
  refine .ite (fun _ => .bind (hK.closeWin _ _) fun _ => .pure _ _) fun _ => ?_
  refine .bind (hK.openPt _ _ _ _) fun pt => ?_
  refine .ite (fun _ => .bind (hK.closeWin _ _) fun _ => .pure _ _) fun _ => ?_
  exact .bind (keeps_load _ _) fun t => .bind (hK.closeWin _ _) fun _ =>
    .bind (hK.closeWin _ _) fun _ => .pure _ _

theorem Callees.Keep.vmmGetFlags (vmm va : ℕ) : Comp.Keeps I (vmmGetFlags K vmm va) := by
  refine .bind (hK.openPd _ _) fun pd => .ite (fun _ => .pure _ _) fun _ => ?_
  refine .bind (keeps_load _ _) fun e => .ite (fun _ => .bind (hK.closeWin _ _) fun _ => .pure _ _) fun _ => ?_
  refine .ite (fun _ => .bind (hK.closeWin _ _) fun _ => .pure _ _) fun _ => ?_
  refine .bind (hK.openPt _ _ _ _) fun pt => ?_
  refine .ite (fun _ => .bind (hK.closeWin _ _) fun _ => .pure _ _) fun _ => ?_
  exact .bind (keeps_load _ _) fun t => .bind (hK.closeWin _ _) fun _ =>
    .bind (hK.closeWin _ _) fun _ => .pure _ _

include hI

theorem Callees.Keep.vmmSetPaddr (vmm va pa : ℕ) : Comp.Keeps I (vmmSetPaddr K vmm va pa) := by
  refine .bind (hK.openPd _ _) fun pd => .ite (fun _ => .pure _ _) fun _ => ?_
  refine .bind (keeps_load _ _) fun e => .ite (fun _ => hK.closeWin _ _) fun _ => ?_
  refine .ite (fun _ => .bind (hI.update _ _) fun _ => hK.closeWin _ _) fun _ => ?_
  refine .bind (hK.openPt _ _ _ _) fun pt => .ite (fun _ => hK.closeWin _ _) fun _ => ?_
  exact .bind (keeps_load _ _) fun t => .bind (.when fun _ => hI.update _ _) fun _ =>
    .bind (hK.closeWin _ _) fun _ => hK.closeWin _ _

theorem Callees.Keep.vmmSetFlags (vmm va : ℕ) (flags : Word) :
    Comp.Keeps I (vmmSetFlags K vmm va flags) := by
  refine .bind (hK.openPd _ _) fun pd => .ite (fun _ => .pure _ _) fun _ => ?_
  refine .bind (keeps_load _ _) fun e => .ite (fun _ => hK.closeWin _ _) fun _ => ?_
  refine .ite (fun _ => .bind (hI.update _ _) fun _ => hK.closeWin _ _) fun _ => ?_
  refine .bind (hK.openPt _ _ _ _) fun pt => .ite (fun _ => hK.closeWin _ _) fun _ => ?_
  refine .bind (keeps_load _ _) fun t => .bind (.when fun _ => ?_) fun _ =>
    .bind (hK.closeWin _ _) fun _ => hK.closeWin _ _
  exact .bind (hI.update _ _) fun _ => hI.update _ _

theorem Callees.Keep.propagatePde (vmm lo entry pde : ℕ) :
    Comp.Keeps I (propagatePde K vmm lo entry pde) := by
  refine .bind (.read _ _) fun cur => .bind (hK.vmmAllocMap _ _ _ _ _ _ _ _ _) fun win => .when fun _ => ?_
  refine .bind (.read _ _) fun ring => .bind (.readOr _ _) fun pid => .bind (.read _ _) fun proc =>
    .bind (.readOr _ _) fun procVmm => .bind (.forList (fun _ => .when fun _ => ?_) _) fun _ =>
      hK.vmmPgunmap _ _ _
  exact .bind (hK.vmmSetPaddr hI _ _ _) fun _ => .bind (keeps_load _ _) fun e => hI.store _ _

theorem Callees.Keep.pgmapSmallEntry (vmm pd pt pa va : ℕ) (flags : Word) :
    Comp.Keeps I (pgmapSmallEntry K vmm pd pt pa va flags) :=
  .bind (hI.update _ _) fun _ => .bind (hI.update _ _) fun _ => .bind (hK.closeWin _ _) fun _ =>
    hK.closeWin _ _

omit hK in
theorem MemStable.remapPse (pt pte : ℕ) (orig : Word) : Comp.Keeps I (remapPse pt pte orig) :=
  .forRange (fun _ => .when fun _ => hI.update _ _) _ _

theorem Callees.Keep.pgmapNewTable (vmm pd frame pa va : ℕ) (orig flags : Word) :
    Comp.Keeps I (pgmapNewTable K vmm pd frame pa va orig flags) := by
  refine .bind (hI.store _ _) fun _ => .bind (.when fun _ => hI.update _ _) fun _ => ?_
  refine .bind (hK.openPt _ _ _ _) fun pt => .ite (fun _ => hK.closeWin _ _) fun _ => ?_
  refine .bind (hI.memsetPage _) fun _ => .bind (.read _ _) fun cur => .bind (.read _ _) fun spread => ?_
  exact .bind (.when fun _ => hK.propagatePde hI _ _ _ _) fun _ =>
    .bind (.when fun _ => hI.remapPse _ _ _) fun _ => hK.pgmapSmallEntry hI _ _ _ _ _ _

theorem Callees.Keep.vmmPgmapSmall (vmm pa va : ℕ) (flags : Word) :
    Comp.Keeps I (vmmPgmapSmall K vmm pa va flags) := by
  refine .bind (hK.openPd _ _) fun pd => .ite (fun _ => .pure _ _) fun _ => ?_
  refine .bind (keeps_load _ _) fun orig => .ite (fun _ => ?_) fun _ => ?_
  · exact .bind (hK.openPt _ _ _ _) fun pt =>
      .ite (fun _ => hK.closeWin _ _) fun _ => hK.pgmapSmallEntry hI _ _ _ _ _ _
  · refine .bind (hI.pmmAllocFree 1) fun frame => ?_
    cases frame with
    | some f => exact hK.pgmapNewTable hI _ _ _ _ _ _ _
    | none => exact .bind (.when fun _ => hI.remapPse _ _ _) fun _ => hK.pgmapSmallEntry hI _ _ _ _ _ _

theorem Callees.Keep.vmmPgmapHuge (vmm pa va : ℕ) (flags : Word) :
    Comp.Keeps I (vmmPgmapHuge K vmm pa va flags) := by
  refine .bind (hK.openPd _ _) fun pd => .ite (fun _ => .pure _ _) fun _ => ?_
  refine .bind (keeps_load _ _) fun orig => .bind (.when fun _ => ?_) fun _ => ?_
  · exact .bind (hI.pmmFree _) fun _ => hI.store _ _
  · exact .bind (hI.store _ _) fun _ => .bind (.read _ _) fun cur => .bind (.read _ _) fun spread =>
      .bind (.when fun _ => hK.propagatePde hI _ _ _ _) fun _ => hK.closeWin _ _

theorem Callees.Keep.vmmPgmap (vmm pa va idx : ℕ) (flags : Word) :
    Comp.Keeps I (vmmPgmap K vmm pa va idx flags) := by
  refine .ite (fun _ => .pure _ _) fun _ => ?_
  rcases idx with _ | _ | idx
  · exact hK.vmmPgmapSmall hI _ _ _ _
  · exact hK.vmmPgmapHuge hI _ _ _ _
  · exact .pure _ _

theorem Callees.Keep.vmmMapLoop (vmm idx : ℕ) (flags : Word) (vaEnd fuel pa va : ℕ) :
    Comp.Keeps I (vmmMapLoop K vmm idx flags vaEnd fuel pa va) := by
  induction fuel generalizing pa va with
  | zero => exact .fault _
  | succ fuel ih =>
    refine .ite (fun _ => ?_) fun _ => .pure _ _
    cases vmmMapPick pa va vaEnd idx with
    | none => exact .fault _
    | some i => exact .bind (hK.vmmPgmap hI _ _ _ _ _) fun _ => ih _ _

theorem Callees.Keep.vmmMap (vmm pa va sz idx : ℕ) (flags : Word) :
    Comp.Keeps I (vmmMap K vmm pa va sz idx flags) :=
  .bind (hK.vmmMapLoop hI _ _ _ _ _ _ _) fun _ => .pure _ _

omit hI in
theorem Callees.Keep.vmmFirstFreeLoop (vmm lo hi sz align : ℕ) (reverse : Bool)
    (fuel result blk : ℕ) :
    Comp.Keeps I (vmmFirstFreeLoop K vmm lo hi sz align reverse fuel result blk) := by
  induction fuel generalizing result blk with
  | zero => exact .fault _
  | succ fuel ih =>
    refine .ite (fun _ => .bind (hK.vmmGetPgsz _ _) fun pg => ?_) fun _ => .pure _ _
    exact .ite (fun _ => ih _ _) fun _ => .ite (fun _ => .pure _ _) fun _ => ih _ _

omit hI in
theorem Callees.Keep.vmmFirstFree (vmm lo hi sz align : ℕ) (reverse : Bool) :
    Comp.Keeps I (vmmFirstFree K vmm lo hi sz align reverse) :=
  .ite (fun _ => .fault _) fun _ => hK.vmmFirstFreeLoop _ _ _ _ _ _ _ _ _

theorem Callees.Keep.allocMap (vmm pa sz lo hi align idx : ℕ) (reverse : Bool) (flags : Word) :
    Comp.Keeps I (SysX.vmmAllocMap K vmm pa sz lo hi align idx reverse flags) :=
  .bind (hK.vmmFirstFree _ _ _ _ _ _) fun _ => .ite (fun _ => .pure _ _) fun _ =>
    .bind (hK.vmmMap hI _ _ _ _ _ _) fun _ => .pure _ _

theorem Callees.Keep.cowSubdivide (src vs pgszSrc : ℕ) : Comp.Keeps I (cowSubdivide K src vs pgszSrc) :=
  .bind (hK.vmmGetFlags _ _) fun _ => .bind (hK.vmmGetPaddr _ _) fun _ =>
    .bind (hK.vmmMap hI _ _ _ _ _ _) fun _ => .bind (hK.vmmMap hI _ _ _ _ _ _) fun _ =>
      .bind (hK.vmmMap hI _ _ _ _ _ _) fun _ => .pure _ _

theorem Callees.Keep.cowCopyFrame (copySrc pgsz frame : ℕ) (src : Trap) (i : ℕ) :
    Comp.Keeps I (cowCopyFrame K copySrc pgsz frame src i) :=
  .bind (.read _ _) fun _ => .bind (hK.vmmGetPaddr _ _) fun _ => .bind (hK.vmmSetPaddr hI _ _ _) fun _ =>
    .bind (hK.vmmSetPaddr hI _ _ _) fun _ => hI.memcpyPage _ _

/-! Unmapping also resolves traps, which is left to the caller. -/

variable (hR : ∀ vmm va idx, Comp.Keeps I (vmmUnmapResolveCow K vmm va idx))
include hR

theorem Callees.Keep.vmmPgunmapHuge (vmm va : ℕ) : Comp.Keeps I (vmmPgunmapHuge K vmm va) := by
  refine .bind (hK.openPd _ _) fun pd => .ite (fun _ => .pure _ _) fun _ => ?_
  refine .bind (keeps_load _ _) fun e => .ite (fun _ => hK.closeWin _ _) fun _ => ?_
  refine .ite (fun _ => ?_) fun _ => ?_
  · refine .bind (hK.openPt _ _ _ _) fun pt => .bind (.forRange (fun i => ?_) _ _) fun _ => ?_
    · exact .bind (keeps_load _ _) fun t => .when fun _ => hR _ _ _
    · exact .bind (keeps_load _ _) fun e => .bind (hI.pmmFree _) fun _ =>
        .bind (hK.closeWin _ _) fun _ => .bind (hI.store _ _) fun _ => hK.closeWin _ _
  · exact .bind (.when fun _ => hR _ _ _) fun _ => .bind (hI.store _ _) fun _ => hK.closeWin _ _

theorem Callees.Keep.pgunmapSplit (vmm pd va : ℕ) (e : Word) :
    Comp.Keeps I (pgunmapSplit K vmm pd va e) :=
  .bind (.when fun _ => hR _ _ _) fun _ => .bind (hI.store _ _) fun _ =>
    .forRange (fun _ => .when fun _ => hK.vmmPgmapSmall hI _ _ _ _) _ _

theorem Callees.Keep.vmmPgunmapSmall (vmm va : ℕ) : Comp.Keeps I (vmmPgunmapSmall K vmm va) := by
  refine .bind (hK.openPd _ _) fun pd => .ite (fun _ => .pure _ _) fun _ => ?_
  refine .bind (keeps_load _ _) fun e => .ite (fun _ => hK.closeWin _ _) fun _ => .ite (fun _ => ?_) fun _ => ?_
  · refine .bind (hK.openPt _ _ _ _) fun pt => .ite (fun _ => hK.closeWin _ _) fun _ => ?_
    exact .bind (keeps_load _ _) fun t => .bind (.when fun _ => hR _ _ _) fun _ => .bind (hI.store _ _) fun _ =>
      .bind (hK.closeWin _ _) fun _ => hK.closeWin _ _
  · exact .bind (hK.pgunmapSplit hI hR _ _ _ _) fun _ => hK.closeWin _ _

theorem Callees.Keep.pgunmap (vmm va idx : ℕ) : Comp.Keeps I (SysX.vmmPgunmap K vmm va idx) := by
  refine .ite (fun _ => .pure _ _) fun _ => ?_
  rcases idx with _ | _ | idx
  · exact hK.vmmPgunmapSmall hI hR _ _
  · exact hK.vmmPgunmapHuge hI hR _ _
  · exact .pure _ _

end Primitives

end SysX
