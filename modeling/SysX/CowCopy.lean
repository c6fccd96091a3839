import SysX.Settled
import SysX.TrapRemoval

/-!
`vmm_cow_duplicate`, part by part: the window for the copy, the copy itself, and the private page that replaces the shared
one.
-/
namespace SysX

section Parts

variable (K : Callees) (vmm vaddr : ℕ)

/-- The window at `copySrc` moves to the frame `i` of the shared page and to the one that takes its copy. -/
def cowMove (cur copySrc frame : ℕ) (src : Trap) (i : ℕ) : Kernel Unit := do
  let pa ← vmmGetPaddr K src.vmm src.vaddr
  vmmSetPaddr K cur copySrc (w32 (pa + i * 4096))
  vmmSetPaddr K cur (w32 (copySrc + 4096)) (w32 (w32 (frame + i) * 4096))

theorem cowCopyFrame_eq (copySrc pgsz frame : ℕ) (src : Trap) (i : ℕ) : cowCopyFrame K copySrc pgsz frame src i = (do
    let cur ← Comp.read (·.vmmCurrent)
    cowMove K cur copySrc frame src i
    memcpyPage (w32 (copySrc + pgsz)) copySrc) := by
  simp only [cowCopyFrame, cowMove, Comp.bind_assoc]

/-- The end of `vmm_cow_duplicate`, from "change destination's physical address to the allocated frame" on. -/
def cowFinish (frame : ℕ) (src dst : TrapPtr) (srcTrap : Trap) : Kernel Bool := do
  vmmSetPaddr K vmm vaddr (w32 (frame * 4096))
  let flags ← vmmGetFlags K vmm vaddr
  vmmSetFlags K vmm vaddr (flags ||| flagRw)
  let ref ← Comp.read fun s => (s.vmmTraps.zipIdx.find? fun p =>
    decide (src ≠ ⟨s.vmmTrapsBase, p.2⟩) && p.1.isCowAt vmm vaddr).isSome
  Comp.when ref do
    let sflags ← vmmGetFlags K srcTrap.vmm srcTrap.vaddr
    vmmSetFlags K srcTrap.vmm srcTrap.vaddr ((sflags &&& ~~~ flagTrapped) ||| flagRw)
  vmmDeleteTrap (some src)
  vmmDeleteTrap (some dst)
  trapsRelease
  pure true

/-- From "allocate memory for the new page" on, with the window at `copySrc`. -/
def cowCopy (pgsz copySrc : ℕ) (src dst : TrapPtr) : Kernel Bool := do
  let frame ← pmmAllocFree (pgsz / 4096)
  match frame with
  | none => do
    trapsRelease
    pure false
  | some frame => do
    let srcTrap ← trapDeref src
    Comp.forRange (cowCopyFrame K copySrc pgsz frame srcTrap) (pgsz / 4096) 0
    cowFinish K vmm vaddr frame src dst srcTrap

/-- From "find virtual address space to map memory to for copying" on. -/
def cowWindow (pgsz : ℕ) (src dst : TrapPtr) : Kernel Bool := do
  let cur ← Comp.read (·.vmmCurrent)
  let kernelEnd ← Comp.read (·.kernelEnd)
  let copySrc ← vmmAllocMap K cur 0 (2 * 4096) kernelEnd uintptrMax 0 0 false (flagPresent ||| flagRw)
  if copySrc = 0 then do
    trapsRelease
    pure false
  else cowCopy K vmm vaddr pgsz copySrc src dst

/-- From "find the page's COW trap index" on. -/
def cowSearch (pgsz : ℕ) : Kernel Bool := do
  trapsAcquire
  let slot ← Comp.read fun s => s.vmmTraps.findIdx? fun t => t.isCowAt vmm vaddr
  match slot with
  | none => do
    trapsRelease
    pure false
  | some idxDst => do
    let base ← Comp.read (·.vmmTrapsBase)
    let dst : TrapPtr := ⟨base, idxDst⟩
    let dstTrap ← trapDeref dst
    let src ← trapInfo dstTrap
    cowWindow K vmm vaddr pgsz src dst

theorem vmmCowDuplicate_eq (pgszIdx : Option ℕ) : vmmCowDuplicate K vmm vaddr pgszIdx = (do
    let idx ← (if pgszIdx = none then vmmGetPgsz K vmm vaddr else pure pgszIdx)
    match idx with
    | none => pure false
    | some idx => cowSearch K vmm (vaddr - vaddr % vmmPgsz idx) (vmmPgsz idx)) := rfl

end Parts

/-- The image of the kernel ends in the kernel half. -/
def KernelEnds (s : Machine) : Prop := 3221225472 ≤ s.kernelEnd ∧ s.kernelEnd ≤ 4294963200

/-- Two free pages one after the other, `q` and `q + 1`, behind the kernel. -/
def CopySpace (s : Machine) (q : ℕ) : Prop := Vacant s s.kernelEnd uintptrMax 8192 (q * 4096)

section Window

variable {ok : Prop} {D L : Set ℕ} {s t : Machine} {n pa q v p f : ℕ} {r : Bool} {flags : Word} {K : Callees}

theorem copySpace_iff (hk : KernelEnds s) : CopySpace s q ↔
    s.kernelEnd ≤ q * 4096 ∧ q + 2 ≤ 1048575 ∧ view s.mem s.cr3 q = none ∧ view s.mem s.cr3 (q + 1) = none := by
  unfold CopySpace
  have hlow : 3221225472 ≤ s.kernelEnd := hk.1
  have hpages : pages 8192 = 2 := rfl
  have htop : uintptrMax / 4096 = 1048575 := rfl
  constructor
  · rintro ⟨-, hlower, hupper, hfree⟩
    rw [hpages, htop] at hupper
    rw [hpages] at hfree
    have h0 := hfree 0 (by omega)
    have h1 := hfree 1 (by omega)
    rw [page_div] at h0 h1
    exact ⟨by omega, by omega, h0, h1⟩
  · rintro ⟨hlower, hupper, h0, h1⟩
    refine ⟨Nat.mul_mod_left q 4096, by omega, ?_, fun k hk => ?_⟩
    · rw [hpages, htop]
      omega
    · rw [hpages] at hk
      rw [page_div]
      obtain rfl | rfl : k = 0 ∨ k = 1 := by omega
      · exact h0
      · exact h1

theorem copySpace_lock (hk : KernelEnds s) (b : Bool) : CopySpace { s with vmmTrapsMutex := b } q ↔ CopySpace s q :=
  (copySpace_iff (s := { s with vmmTrapsMutex := b }) hk).trans (copySpace_iff hk).symm

theorem CopySpace.kernel (h : CopySpace s q) (hk : KernelEnds s) : 786432 ≤ q ∧ q + 1 < 1048575 := by
  obtain ⟨hlower, hupper, -, -⟩ := (copySpace_iff hk).mp h
  have := hk.1
  omega

theorem access_fillPte {m : ℕ → ℕ → Word} {e : Word} (h : view m v p = viewPte (Word.fillPte e flags pa))
    (hp : flags.getLsbD 0 = true) : accessAt m v p = some (pa / 4096 % 1048576, flags.getLsbD 1) := by
  rw [accessAt_eq, transAt, h, filter_fillPte, pageOf, if_pos hp, Option.map_some, Word.canonFlags_bit1]

/-- The pages of the window at `q`. -/
def InWindow (s : Machine) (q w p : ℕ) : Prop := w = s.cr3 ∧ (p = q ∨ p = q + 1)

/-- The window at `q` is open, on the frames `f` and `g`. -/
def WindowAt (m : ℕ → ℕ → Word) (v q f g : ℕ) : Prop :=
  (m v (q / 1024)).pgsz = false ∧ (m v ((q + 1) / 1024)).pgsz = false ∧
    accessAt m v q = some (f, true) ∧ accessAt m v (q + 1) = some (g, true)

theorem WindowAt.next {C : ℕ → ℕ → Prop} {g : ℕ} (hwin : WindowAt s.mem s.cr3 q f g) (hin : Within D L C s t)
    (hc : s.cr3 ∈ L) (hq : 786432 ≤ q) (hq1 : q + 1 < 1048576) (hno : ¬ C s.cr3 q) (hno1 : ¬ C s.cr3 (q + 1)) :
    WindowAt t.mem s.cr3 q f g :=
  ⟨(hin.pgsz _ hc _ (.inl rfl)).trans hwin.1, (hin.pgsz _ hc _ (.inl rfl)).trans hwin.2.1,
    (hin.access _ hc q ⟨by omega, by omega⟩ (.inl rfl) hno).trans hwin.2.2.1,
    (hin.access _ hc (q + 1) ⟨by omega, by omega⟩ (.inl rfl) hno1).trans hwin.2.2.2⟩

/-- The window for the copy: the first two free pages behind the kernel. -/
theorem Settled.copyWindow (h : Settled ok D L (n + 4) s) (hK : K.Closed) (hk : KernelEnds s) :
    Comp.Wp ok (vmmAllocMap K s.vmmCurrent 0 (2 * 4096) s.kernelEnd uintptrMax 0 0 false (flagPresent ||| flagRw))
      (fun a t => a = 0 ∧ t = s ∧ (∀ q, ¬ CopySpace s q) ∨
        ∃ q, a = q * 4096 ∧ CopySpace s q ∧ (∀ p < q, ¬ CopySpace s p) ∧ Settled ok D L n t ∧ SameRest s t ∧
          Within D L (InWindow s q) s t ∧ KeepsReach L s t ∧ WindowAt t.mem s.cr3 q 0 1) s := by
  have hlow : 3221225472 ≤ s.kernelEnd := hk.1
  have hhigh : s.kernelEnd ≤ 4294963200 := hk.2
  rw [vmmAllocMap_aligned (by decide) (by decide)]
  obtain ⟨a, hrun, hfirst⟩ := vmmFirstFree_up (K := K) (h.tables.walkable h.cur) hhigh (show uintptrMax < 4294967296 by decide)
    (show 0 < 2 * 4096 by decide) (by decide)
  refine .step hrun ?_
  rcases hfirst with ⟨rfl, hnone⟩ | hleast
  · rw [if_pos rfl]
    exact .pure (.inl ⟨rfl, rfl, fun q => hnone (q * 4096)⟩)
  · have hvacant : Vacant s s.kernelEnd uintptrMax 8192 a := hleast.1
    obtain ⟨q, rfl⟩ : ∃ q, a = q * 4096 := ⟨a / 4096, hvacant.eq_mul⟩
    have hspace : CopySpace s q := hvacant
    obtain ⟨hq, hq1⟩ := hspace.kernel hk
    obtain ⟨-, -, hfree, hfree1⟩ := (copySpace_iff hk).mp hspace
    rw [if_neg (show q * 4096 ≠ 0 by omega), vmmMap_two (by decide) (by omega) (by omega)]
    refine .bind (R := fun a t => a = q * 4096 ∧ _) (.bind (h.mapKernel hK hq (by omega) hfree 0 (flagPresent ||| flagRw))
      fun _ t ⟨hset, hrest, hwithin, hother, hkeep, e, he⟩ => ?_) (fun a t ha => .pure (.inr ⟨q, ?_, ha.2⟩))
    · have hcr3 := hwithin.cr3
      have hreg1 : Regular (q + 1) := ⟨by omega, by omega⟩
      have hreg : Regular q := ⟨by omega, by omega⟩
      rw [← hrest.vmmCurrent_eq, show q * 4096 + 4096 = (q + 1) * 4096 by omega]
      refine .bind (hset.mapKernel hK (p := q + 1) (by omega) (by omega) ?_ (w32 (0 + 4096)) (flagPresent ||| flagRw))
        fun _ u ⟨hset', hrest', hwithin', hother', hkeep', e', he'⟩ => .pure ⟨rfl, hspace, fun p hp hsp => ?_, hset',
          hrest.trans hrest', ?_, hkeep.trans hkeep', ?_⟩
      · rw [hcr3, hother _ hreg1 (by omega)]
        exact hfree1
      · have hle : q * 4096 ≤ p * 4096 := hleast.2 hsp
        omega
      · refine (hwithin.next hwithin').mono ?_
        rintro w p (⟨hw, hp⟩ | ⟨hw, hp⟩)
        · exact ⟨hw, .inl hp⟩
        · exact ⟨hw.trans hcr3, .inr hp⟩
      · rw [hcr3] at hother' he'
        have hpgsz : ∀ p, Regular p → view s.mem s.cr3 p = none → (u.mem s.cr3 (p / 1024)).pgsz = false := by
          intro p hp hp0
          have h₁ := hwithin'.pgsz _ hset.cur (p / 1024) (.inl rfl)
          have h₂ := hwithin.pgsz _ h.cur (p / 1024) (.inl rfl)
          rw [hcr3] at h₁
          rw [h₁, h₂]
          exact (view_eq_none.mp hp0).1
        refine ⟨hpgsz q hreg hfree, hpgsz (q + 1) hreg1 hfree1, ?_, access_fillPte he' rfl⟩
        rw [accessAt_congr (hother' q hreg (by omega))]
        exact access_fillPte he rfl
    · exact w32_of_lt (by omega)

/-- A frame that is in use and no page table is set apart, so that the calls that follow leave it alone. -/
theorem Settled.setApart (h : Settled ok D L n s) (hu : used s f) (hf : f < 1048576)
    (ht : ∀ v ∈ L, ∀ i < 1024, i ≠ 767 → (s.mem v i).HasTable → (s.mem v i).pt ≠ f) :
    Settled ok (insert f D) L n s where
  tables := h.tables.insert hu hf ht
  cur := h.cur
  aligned := h.aligned
  guard := h.guard
  spread := ⟨fun k hk => ⟨.inr (h.spread.dir k hk).1, (h.spread.dir k hk).2⟩, h.spread.run⟩
  kernel := h.kernel

/-- Frames are allocated. -/
theorem Settled.sameButBitmap {m : ℕ} (h : Settled ok D L m s) (hst : SameButBitmap s t) (hu : ∀ f, used s f → used t f)
    (hframes : ok → FreeFrames t n) : Settled ok D L n t := by
  unfold SameButBitmap at hst
  obtain ⟨hmem, hcur, hkernel, hpmm, hend⟩ : t.mem = s.mem ∧ t.vmmCurrent = s.vmmCurrent ∧ kernelVmm t = kernelVmm s ∧
      t.pmmFrames = s.pmmFrames ∧ t.vmmKernel = s.vmmKernel := by
    rw [hst]
    exact ⟨rfl, rfl, rfl, rfl, rfl⟩
  have hc : t.cr3 = s.cr3 := congrArg (· / 4096) hcur
  refine ⟨h.tables.congr hpmm (fun v _ => congrFun hmem v) hu, hc ▸ h.cur, ?_, ⟨hframes, fun hno => ?_⟩,
    h.spread.congr hkernel ?_, fun k hk => h.kernel k (hkernel ▸ hk)⟩
  · rw [hc, hcur]
    exact h.aligned
  · have hn := h.guard.null hno
    exact ⟨by rw [hmem, hc]; exact hn.table, by rw [hmem, hc]; exact hn.pte⟩
  · rw [hst]

/-- The frame for the copy. It is set apart. -/
theorem Settled.newFrame (h : Settled ok D L (n + 1) s) :
    Comp.Wp ok (pmmAllocFree 1) (fun r t => r = none ∧ t = s ∧ ¬ ok ∨
      ∃ f, r = some f ∧ f < s.pmmFrames ∧ ¬ used s f ∧ f ∉ D ∧ used t f ∧ Settled ok (insert f D) L n t ∧ SameRest s t ∧
        KeepsReach L s t ∧ ∀ C, Within D L C s t) s := by
  rcases pmmAllocFree_one h.tables.frames with ⟨hnone, hall⟩ | ⟨f, hf, hfree, hsome⟩
  · refine .of_eq hnone (.inl ⟨rfl, rfl, fun hok => ?_⟩)
    obtain ⟨f, hf, hfree⟩ := (h.guard.frames hok).exists_free
    exact hfree (hall f hf)
  · have hfresh := h.tables.fresh hfree
    have hlt : f < 1048576 := lt_of_lt_of_le hf h.tables.frames
    have hused : used (s.setBitmap f true) f := (used_alloc s f f).mpr (.inl rfl)
    have hset : Settled ok D L n (s.setBitmap f true) :=
      h.sameButBitmap rfl (fun g hg => (used_alloc s f g).mpr (.inr hg)) fun hok => (h.guard.frames hok).alloc f
    refine .of_eq hsome (.inr ⟨f, rfl, hf, hfree, hfresh.1, hused, hset.setApart hused hlt hfresh.2, rfl,
      fun _ _ _ _ => Iff.rfl, fun C => ?_⟩)
    exact ⟨rfl, fun _ _ _ _ _ _ => rfl, fun _ _ _ _ => Iff.rfl, fun _ _ _ _ => rfl, fun _ _ _ => rfl,
      fun g hg => (used_alloc s f g).mpr (.inr hg), fun _ _ => rfl⟩

end Window

section Copy

variable {ok : Prop} {D L : Set ℕ} {s t : Machine} {n q w v f x y : ℕ} {K : Callees}

/-- The content of a frame that is no page table is replaced. -/
theorem Settled.setFrame (h : Settled ok D L n s) (hf : f ∈ D) (hL : f ∉ L) (c : ℕ → Word) :
    Settled ok D L n (s.setFrame f c) := by
  have hmem : ∀ v ∈ L, (s.setFrame f c).mem v = s.mem v := fun v hv =>
    s.setFrame_mem_of_ne f fun he => hL (he ▸ hv)
  have hc : (s.setFrame f c).mem s.cr3 = s.mem s.cr3 := hmem _ h.cur
  refine ⟨h.tables.congr rfl hmem fun _ => id, h.cur, h.aligned, ⟨h.guard.frames, fun hno => ?_⟩,
    ⟨h.spread.dir, h.spread.run⟩, h.kernel⟩
  have hn := h.guard.null hno
  have hpt : (s.mem s.cr3 0).pt ≠ f := h.tables.pt_ne h.cur hf (by decide) (by decide) hn.table
  have hpte := hn.pte
  rw [pteAt_of_hasTable hn.table] at hpte
  refine ⟨(congrArg Word.HasTable (congrFun hc 0)).mpr hn.table, ?_⟩
  show pteAt (s.setFrame f c).mem s.cr3 0 = 0#32
  rw [pteAt_of_hasTable (by rw [hc]; exact hn.table), hc, s.setFrame_mem_of_ne f hpt]
  exact hpte

theorem Tables.within_setFrame (h : Tables (Insert.insert f D) L s) (hc : s.cr3 ∈ L) (hD : f ∉ D) (hL : f ∉ L)
    (c : ℕ → Word) (C : ℕ → ℕ → Prop) : Within D L C s (s.setFrame f c) := by
  have hne : ∀ v ∈ L, v ≠ f := fun v hv he => hL (he ▸ hv)
  refine .of_view hc rfl (fun w hw p hp _ _ => view_setFrame (hne w hw).symm c fun ht => ?_)
    (fun w hw i _ => ?_) (fun g hg _ => s.setFrame_mem_of_ne f ?_) (fun _ => id) fun g hg => s.setFrame_mem_of_ne f ?_
  · have hlt : p / 1024 < 1024 := by have := hp.1; omega
    exact h.pt_ne hw (.inl rfl) hlt hp.2 ht
  · rw [s.setFrame_mem_of_ne f (hne w hw)]
  · rintro rfl
    exact hD hg
  · rintro rfl
    exact hg (h.dir g (.inl rfl)).1

/-- A page of the kernel half moves to another frame. -/
theorem Settled.moveSmall {p : ℕ} {r : Bool} (h : Settled ok D L (n + 2) s) (hK : K.Closed) (hp : 786432 ≤ p) (hp1 : p < 1048576)
    (hs : (s.mem s.cr3 (p / 1024)).pgsz = false) (ha : accessAt s.mem s.cr3 p = some (x, r)) (pa : ℕ) :
    Comp.Wp ok (vmmSetPaddr K s.vmmCurrent (p * 4096) pa) (fun _ t => Settled ok D L n t ∧ SameRest s t ∧
      Within D L (fun w p' => w = s.cr3 ∧ p' = p) s t ∧ KeepsReach L s t ∧
      accessAt t.mem s.cr3 p = some (pa / 4096 % 1048576, r)) s := by
  have hreg : Regular p := ⟨by omega, by omega⟩
  have hkernel : kernelStart ≤ p * 4096 := by
    unfold kernelStart rmapStart
    omega
  rw [← h.own rfl]
  refine (h.movePage hK h.cur hreg.offSlot (.inl rfl) pa).mono ?_
  rintro _ t ⟨hset, hrest, hin, -, hmove, hkeep⟩
  have hacc := (hmove (.inl rfl)).2 x r (by rw [page_div]; exact ha)
  rw [movedFrame, page_slot, hs, if_neg Bool.false_ne_true, page_div] at hacc
  rw [page_div] at hin
  refine ⟨hset, hrest, hin.mono ?_, hkeep rfl hkernel, hacc⟩
  rintro w p' ⟨hw, hp' | ⟨hhuge, -⟩⟩
  · exact ⟨hw, hp'⟩
  · rw [hs] at hhuge
    cases hhuge

/-- The window moves to the next frame of the shared page, or of the memory at address 0 where the tables of its VMM are out
of reach. -/
theorem Settled.moveWindow (h : Settled ok D L (n + 6) s) (hK : K.Closed) {src : Trap} (hsrc : src.vmm = w * 4096)
    (hw : w ∈ L) (hva : OffSlot src.vaddr) (hq : 786432 ≤ q) (hq1 : q + 1 < 1048576) (hwin : WindowAt s.mem s.cr3 q x y)
    (frame i : ℕ) :
    Comp.Wp ok (cowMove K s.vmmCurrent (q * 4096) frame src i) (fun _ t => Settled ok D L n t ∧ SameRest s t ∧
      Within D L (InWindow s q) s t ∧ KeepsReach L s t ∧ ∃ pa, (Reach s w src.vaddr → pa = paddrAt s.mem w src.vaddr) ∧
        (¬ Reach s w src.vaddr → pa = 0) ∧ WindowAt t.mem s.cr3 q (w32 (pa + i * 4096) / 4096 % 1048576) (w32 (w32 (frame + i) * 4096) / 4096 % 1048576)) s := by
  have hreg : Regular q := ⟨by omega, by omega⟩
  have hreg1 : Regular (q + 1) := ⟨by omega, by omega⟩
  have hcL : s.cr3 ∈ L := h.cur
  unfold cowMove
  rw [hsrc]
  refine .bind (h.getPaddr hK hw hva) fun pa t₁ ⟨hreach, hzero, hw₁, hset₁⟩ => ?_
  have hin₁ := hw₁.within_closed (InWindow s q)
  have hc₁ : t₁.cr3 = s.cr3 := hw₁.cr3_eq
  have hsmall : ∀ {t}, Within D L (InWindow s q) s t → (t.mem s.cr3 (q / 1024)).pgsz = false ∧
      (t.mem s.cr3 ((q + 1) / 1024)).pgsz = false := fun hin =>
    ⟨(hin.pgsz _ hcL _ (.inl rfl)).trans hwin.1, (hin.pgsz _ hcL _ (.inl rfl)).trans hwin.2.1⟩
  have hacc₁ : accessAt t₁.mem t₁.cr3 q = some (x, true) := by
    rw [hc₁, accessAt_congr (hw₁.views_closed hcL hreg)]
    exact hwin.2.2.1
  rw [show s.vmmCurrent = t₁.vmmCurrent from hin₁.vmmCurrent.symm]
  refine .bind (hset₁.moveSmall hK hq (by omega) (by rw [hc₁]; exact (hsmall hin₁).1) hacc₁ (w32 (pa + i * 4096)))
    fun _ t₂ ⟨hset₂, hrest₂, hin₂, hkeep₂, hacc₂⟩ => ?_
  have hc₂ : t₂.cr3 = s.cr3 := hin₂.cr3.trans hc₁
  have hwide₂ : Within D L (InWindow s q) s t₂ := hin₁.trans (hin₂.mono fun _ _ hp => ⟨hp.1.trans hc₁, .inl hp.2⟩)
  have hnext : w32 (q * 4096 + 4096) = (q + 1) * 4096 := by
    rw [w32_of_lt (by omega)]
    omega
  have hother₂ : accessAt t₂.mem t₂.cr3 (q + 1) = some (y, true) := by
    rw [hc₂, hin₂.access _ hcL _ hreg1 (.inl hc₁.symm) fun hp => absurd hp.2 (by omega),
      accessAt_congr (hw₁.views_closed hcL hreg1)]
    exact hwin.2.2.2
  rw [hnext, show t₁.vmmCurrent = t₂.vmmCurrent from hin₂.vmmCurrent.symm]
  refine (hset₂.moveSmall hK (p := q + 1) (by omega) hq1 (by rw [hc₂]; exact (hsmall hwide₂).2) hother₂
    (w32 (w32 (frame + i) * 4096))).mono ?_
  rintro _ t₃ ⟨hset₃, hrest₃, hin₃, hkeep₃, hacc₃⟩
  have hwide₃ : Within D L (InWindow s q) s t₃ := hwide₂.trans (hin₃.mono fun _ _ hp => ⟨hp.1.trans hc₂, .inr hp.2⟩)
  have hrest₁ : SameRest s t₁ := hw₁.rest
  refine ⟨hset₃, (hrest₁.trans hrest₂).trans hrest₃, hwide₃, ((KeepsReach.windowed hw₁).trans hkeep₂).trans hkeep₃,
    pa, hreach, hzero, (hsmall hwide₃).1, (hsmall hwide₃).2, ?_, ?_⟩
  · rw [hc₁] at hacc₂
    rw [hin₃.access _ hcL _ hreg (.inl hc₂.symm) fun hp => absurd hp.2 (by omega)]
    exact hacc₂
  · rw [hc₂] at hacc₃
    exact hacc₃

theorem KeepsReach.setFrame (h : Settled ok D L n s) (hD : f ∈ D) (hL : f ∉ L) (c : ℕ → Word) :
    KeepsReach L s (s.setFrame f c) := by
  have hne : ∀ v ∈ L, v ≠ f := fun v hv he => hL (he ▸ hv)
  refine .of_views rfl (fun p hp => ?_) fun v hv _ i _ => by rw [s.setFrame_mem_of_ne f (hne v hv)]
  have hreg := Windowed.regular_of_user hp
  refine view_setFrame (hne _ h.cur).symm c fun ht => ?_
  exact h.tables.pt_ne h.cur hD (by have := hreg.1; omega) hreg.2 ht

/-- One page is copied into the frame `f`: the shared one, or the page at address 0 where the tables of its VMM are out of
reach. -/
theorem Settled.copyFrame (h : Settled ok (insert f D) L (n + 6) s) (hK : K.Closed) (hfD : f ∉ D) (hfL : f ∉ L)
    (hflt : f < 1048576) {src : Trap} (hsrc : src.vmm = w * 4096) (hw : w ∈ L) (hva : OffSlot src.vaddr)
    (hq : 786432 ≤ q) (hq1 : q + 1 < 1048576) (hwin : WindowAt s.mem s.cr3 q x y) :
    Comp.Wp ok (cowCopyFrame K (q * 4096) 4096 f src 0) (fun _ t => Settled ok (insert f D) L n t ∧ SameRest s t ∧
      Within D L (InWindow s q) s t ∧ KeepsReach L s t ∧ accessAt t.mem s.cr3 (q + 1) = some (f, true) ∧
      (∃ g, accessAt t.mem s.cr3 q = some (g, true) ∧
        (Reach s w src.vaddr → g = paddrAt s.mem w src.vaddr / 4096 % 1048576) ∧ (¬ Reach s w src.vaddr → g = 0) ∧
        (g ∈ D → g ∉ L → t.mem f = s.mem g))) s := by
  have hreg : Regular q := ⟨by omega, by omega⟩
  have hreg1 : Regular (q + 1) := ⟨by omega, by omega⟩
  rw [cowCopyFrame_eq]
  refine .read_bind (.bind (h.moveWindow hK hsrc hw hva hq hq1 hwin f 0)
    fun _ t ⟨hset, hrest, hin, hkeep, pa, hpa, hzero, _, _, hacc, hacc1⟩ => ?_)
  have hc : t.cr3 = s.cr3 := hin.cr3
  have hnext : w32 (q * 4096 + 4096) = (q + 1) * 4096 := by
    rw [w32_of_lt (by omega)]
    omega
  have hframe : w32 (w32 (f + 0) * 4096) / 4096 % 1048576 = f := by
    rw [w32_of_lt (show f + 0 < 4294967296 by omega), w32_of_lt (by omega)]
    omega
  rw [hframe] at hacc1
  generalize hg : w32 (pa + 0 * 4096) / 4096 % 1048576 = g at hacc
  have hdst : PageAt t true ((q + 1) * 4096) f :=
    hset.tables.pageAt_access hset.cur hreg1 (by rw [hc]; exact hacc1) fun _ => rfl
  have hsrcp : PageAt t false (q * 4096) g :=
    hset.tables.pageAt_access hset.cur hreg (by rw [hc]; exact hacc) fun hno => absurd hno Bool.false_ne_true
  rw [hnext]
  have hlast := fun C => hset.tables.within_setFrame hset.cur hfD hfL (t.mem g) C
  refine .of_eq (hdst.memcpyPage hsrcp) ⟨hset.setFrame (.inl rfl) hfL _, hrest.trans rfl,
    (hin.antitone (Set.subset_insert f D)).trans (hlast _), hkeep.trans (.setFrame hset (.inl rfl) hfL _), ?_, g, ?_,
    fun hr => ?_, fun hr => ?_, fun hgD hgL => ?_⟩
  · exact ((hlast fun _ _ => False).access _ h.cur _ hreg1 (.inl hc.symm) id).trans hacc1
  · exact ((hlast fun _ _ => False).access _ h.cur _ hreg (.inl hc.symm) id).trans hacc
  · rw [← hg, hpa hr]
    unfold w32
    omega
  · rw [← hg, hzero hr]
    rfl
  · rw [Machine.setFrame_mem_self]
    exact hin.content g (.inr hgD) hgL

end Copy

/-- A page that a trap may stand for. Of another VMM a 4 MiB page is out of the question where no fault may happen; where
one may, the first 4 MiB of the current VMM are, so that page 0 stays unmapped. -/
structure TrapPage (ok : Prop) (L : Set ℕ) (s : Machine) (v va : ℕ) : Prop where
  vmm : v ∈ L
  user : va < kernelStart
  small : ok → v ≠ s.cr3 → (s.mem v (va / 4194304)).pgsz = false
  low : ¬ ok → v = s.cr3 → 4194304 ≤ va

section Finish

variable {ok : Prop} {D L : Set ℕ} {C : ℕ → ℕ → Prop} {s t : Machine} {n v va w f : ℕ} {K : Callees}

theorem TrapPage.next (h : TrapPage ok L s v va) (hin : Within D L C s t) : TrapPage ok L t v va where
  vmm := h.vmm
  user := h.user
  small hok hvc := by
    rw [hin.cr3] at hvc
    rw [hin.pgsz v h.vmm _ (.inr (slot_of_lt h.user))]
    exact h.small hok hvc
  low hok hvc := by
    rw [hin.cr3] at hvc
    exact h.low hok hvc

theorem InPage.next {q x p : ℕ} (hin : Within D L C s t) (hv : v ∈ L) (hq : q < userPages) (h : InPage t v q x p) :
    InPage s v q x p := by
  refine ⟨h.1, h.2.imp_right fun hs => ⟨?_, hs.2⟩⟩
  rw [← hin.pgsz v hv _ (.inr (userPages_slot hq))]
  exact hs.1

/-- The table and the heap do not matter to the page tables. -/
theorem Settled.setTraps (h : Settled ok D L n s) (l : List Trap) (c : ℕ) :
    Settled ok D L n { s with vmmTraps := l, heapCalls := c } :=
  ⟨⟨h.tables.frames, h.tables.sub, h.tables.dir, h.tables.self, h.tables.present, h.tables.rw, h.tables.used,
    h.tables.notDir, h.tables.sep⟩, h.cur, h.aligned, ⟨h.guard.frames, fun hno => ⟨(h.guard.null hno).table,
    (h.guard.null hno).pte⟩⟩, ⟨h.spread.dir, h.spread.run⟩, h.kernel⟩

theorem Settled.modifyTrap (h : Settled ok D L n s) (p : TrapPtr) (g : Trap → Trap) :
    Settled ok D L n (s.modifyTrap p g) := by
  unfold Machine.modifyTrap
  split_ifs
  · exact h.setTraps _ s.heapCalls
  · exact h

theorem Settled.setLock (h : Settled ok D L n s) (b : Bool) : Settled ok D L n { s with vmmTrapsMutex := b } :=
  ⟨⟨h.tables.frames, h.tables.sub, h.tables.dir, h.tables.self, h.tables.present, h.tables.rw, h.tables.used,
    h.tables.notDir, h.tables.sep⟩, h.cur, h.aligned, ⟨h.guard.frames, fun hno => ⟨(h.guard.null hno).table,
    (h.guard.null hno).pte⟩⟩, ⟨h.spread.dir, h.spread.run⟩, h.kernel⟩

/-- The tables hold neither the trap list nor the bitmap. -/
theorem Within.of_used (hcur : t.vmmCurrent = s.vmmCurrent) (hmem : t.mem = s.mem) (hused : ∀ f, SysX.used s f → SysX.used t f) :
    Within D L C s t :=
  ⟨hcur, fun w _ p _ _ _ => by rw [hmem], fun p _ _ _ => by rw [hmem], fun w _ i _ => by rw [hmem],
    fun f _ _ => by rw [hmem], hused, fun f _ => by rw [hmem]⟩

theorem Within.of_mem (hcur : t.vmmCurrent = s.vmmCurrent) (hmem : t.mem = s.mem) (hbit : t.pmmBitmap = s.pmmBitmap) :
    Within D L C s t := by
  refine .of_used hcur hmem fun f hf => ?_
  unfold SysX.used at hf ⊢
  rw [hbit]
  exact hf

theorem modifyTrap_mem (s : Machine) (p : TrapPtr) (g : Trap → Trap) : (s.modifyTrap p g).mem = s.mem ∧
    (s.modifyTrap p g).pmmBitmap = s.pmmBitmap ∧ (s.modifyTrap p g).vmmCurrent = s.vmmCurrent := by
  unfold Machine.modifyTrap
  split_ifs <;> exact ⟨rfl, rfl, rfl⟩

/-- The state in which `vmm_cow_duplicate` leaves the trap table when it has resolved a trap. -/
def trapsResolved (s : Machine) (src dst : TrapPtr) : Machine :=
  { (s.modifyTrap src Trap.unused).modifyTrap dst Trap.unused with vmmTrapsMutex := false }

theorem trapsResolved_mem (s : Machine) (src dst : TrapPtr) : (trapsResolved s src dst).mem = s.mem ∧
    (trapsResolved s src dst).pmmBitmap = s.pmmBitmap ∧ (trapsResolved s src dst).vmmCurrent = s.vmmCurrent := by
  have h₁ := modifyTrap_mem s src Trap.unused
  have h₂ := modifyTrap_mem (s.modifyTrap src Trap.unused) dst Trap.unused
  exact ⟨h₂.1.trans h₁.1, h₂.2.1.trans h₁.2.1, h₂.2.2.trans h₁.2.2⟩

theorem SameRest.trapsResolved (h : SameRest s t) (src dst : TrapPtr) :
    SameRest (trapsResolved s src dst) (trapsResolved t src dst) := by
  unfold SysX.trapsResolved Machine.modifyTrap
  rw [h]
  split_ifs <;> rfl

theorem or_flagRw_bit0 (flags : Word) : (flags ||| flagRw).getLsbD 0 = flags.getLsbD 0 := by
  rw [BitVec.getLsbD_or]
  exact Bool.or_false _

theorem or_flagRw_bit1 (flags : Word) : (flags ||| flagRw).getLsbD 1 = true := by
  rw [BitVec.getLsbD_or]
  exact Bool.or_true _

theorem andNot_flagTrapped_bit0 (flags : Word) : (flags &&& ~~~ flagTrapped).getLsbD 0 = flags.getLsbD 0 := by
  rw [BitVec.getLsbD_and]
  exact Bool.and_true _

theorem flagsAt_present {m : ℕ → ℕ → Word} {p : ℕ} {r : Bool} (h : accessAt m v p = some (f, r)) :
    (flagsAt m v p).getLsbD 0 = true := by
  obtain ⟨flags, hview, hp, -⟩ := view_of_access h
  rw [flagsAt, hview]
  exact hp

/-- The frame that `vmm_set_paddr` gives the page at `va` when it is asked for `f`: a 4 MiB page starts at a multiple of its
size. -/
def copiedFrame (s : Machine) (v va f : ℕ) : ℕ :=
  if (s.mem v (va / 4194304)).pgsz then f / 1024 * 1024 + va / 4096 % 1024 else f

/-- The end of `vmm_cow_duplicate`. -/
theorem Settled.finish (h : Settled ok D L (n + 10) s) (hK : K.Closed) (hpage : TrapPage ok L s v va) {srcTrap : Trap}
    (hsrc : srcTrap.vmm = w * 4096) (hpage' : TrapPage ok L s w srcTrap.vaddr) (hf : f < 1048576) (src dst : TrapPtr) :
    Comp.Wp ok (cowFinish K (v * 4096) va f src dst srcTrap) (fun r t => r = true ∧ Settled ok D L n t ∧
      SameRest (trapsResolved s src dst) t ∧
      Within D L (fun x p => InPage s v (va / 4096) x p ∨ InPage s w (srcTrap.vaddr / 4096) x p) s t ∧
      (Reach s v va → ¬ InPage s w (srcTrap.vaddr / 4096) v (va / 4096) → ∀ g r, accessAt s.mem v (va / 4096) = some (g, r) →
        accessAt t.mem v (va / 4096) = some (copiedFrame s v va f, true)) ∧
      (¬ Reach s v va → ¬ InPage s w (srcTrap.vaddr / 4096) v (va / 4096) →
        accessAt t.mem v (va / 4096) = accessAt s.mem v (va / 4096)) ∧
      (¬ InPage s v (va / 4096) w (srcTrap.vaddr / 4096) → ∀ g r, accessAt s.mem w (srcTrap.vaddr / 4096) = some (g, r) →
        ∃ r', accessAt t.mem w (srcTrap.vaddr / 4096) = some (g, r'))) s := by
  have hoff := offSlot_of_lt hpage.user
  have hoff' := offSlot_of_lt hpage'.user
  have hq := user_page hpage.user
  have hframe : movedFrame (s.mem v (va / 4194304)) va (w32 (f * 4096)) = copiedFrame s v va f := by
    rw [w32_of_lt (by omega), movedFrame, copiedFrame]
    split_ifs <;> omega
  unfold cowFinish
  refine .bind (h.movePage hK hpage.vmm hoff (.inr hpage.user) (w32 (f * 4096))) ?_
  rintro _ t₁ ⟨hset₁, hrest₁, hin₁, hstay₁, hmove₁, _⟩
  refine .bind (hset₁.getFlags hK hpage.vmm hoff) ?_
  rintro flags t₂ ⟨hflags, hw₂, hset₂⟩
  have hin₂ := hw₂.within_closed (InPage s v (va / 4096))
  have hpage₂ := (hpage.next hin₁).next hin₂
  refine .bind (hset₂.grantPage hK hpage.vmm hpage.user hpage₂.small hpage₂.low (flags ||| flagRw)) ?_
  rintro _ t₃ ⟨hset₃, hrest₃, hin₃, hstay₃, hgrant₃⟩
  have hrest : SameRest s t₃ := (hrest₁.trans hw₂.rest).trans hrest₃
  have hin : Within D L (InPage s v (va / 4096)) s t₃ := by
    refine (hin₁.trans hin₂).trans (hin₃.mono fun x p hxp => ?_)
    exact hxp.next (hin₁.trans hin₂) hpage.vmm hq
  have hwide : ∀ u, Within D L (InPage t₃ w (srcTrap.vaddr / 4096)) t₃ u → Within D L (fun x p =>
      InPage s v (va / 4096) x p ∨ InPage s w (srcTrap.vaddr / 4096) x p) s u := by
    intro u hu
    refine (hin.next hu).mono fun x p hxp => hxp.imp_right fun hxp => ?_
    exact hxp.next hin hpage'.vmm (user_page hpage'.user)
  have hkeep₂ := KeepsReach.windowed hw₂ v hpage.vmm va hpage.user
  have hnew : Reach s v va → ∀ g r, accessAt s.mem v (va / 4096) = some (g, r) →
      accessAt t₃.mem v (va / 4096) = some (copiedFrame s v va f, true) := by
    intro hr g r ha
    obtain ⟨hreach₁, hacc₁⟩ := hmove₁ hr
    have ha₁ := hacc₁ g r ha
    rw [hframe] at ha₁
    have ha₂ : accessAt t₂.mem v (va / 4096) = some (copiedFrame s v va f, r) := by
      rw [accessAt_congr (hw₂.views_closed hpage.vmm hoff.page)]
      exact ha₁
    have hbit : (flags ||| flagRw).getLsbD 0 = true := by
      rw [or_flagRw_bit0, hflags hreach₁]
      exact flagsAt_present ha₁
    have ha₃ := hgrant₃ (hkeep₂.mp hreach₁) hbit _ r ha₂
    rw [or_flagRw_bit1] at ha₃
    exact ha₃
  have hold : ¬ Reach s v va → accessAt t₃.mem v (va / 4096) = accessAt s.mem v (va / 4096) := by
    intro hr
    obtain ⟨hkeep₁, hsame₁⟩ := hstay₁ hr
    have hr₂ : ¬ Reach t₂ v va := fun hin => hr ((hkeep₁ v hpage.vmm va hpage.user).mpr (hkeep₂.mpr hin))
    have hsame₃ := ((hstay₃ hr₂ fun _ _ => False).access v hpage.vmm _ hoff.page (.inr hq) id)
    rw [hsame₃, accessAt_congr (hw₂.views_closed hpage.vmm hoff.page)]
    exact (hsame₁ fun _ _ => False).access v hpage.vmm _ hoff.page (.inr hq) id
  refine .read_bind ?_
  refine .bind (R := fun _ u => Settled ok D L n u ∧ SameRest s u ∧ Within D L (InPage t₃ w (srcTrap.vaddr / 4096)) t₃ u ∧
      ∀ g r, accessAt t₃.mem w (srcTrap.vaddr / 4096) = some (g, r) →
        ∃ r', accessAt u.mem w (srcTrap.vaddr / 4096) = some (g, r'))
    (.when (fun _ => ?_) fun _ => ⟨hset₃.le (by omega), hrest, .refl D L _ t₃, fun g r ha => ⟨r, ha⟩⟩) ?_
  · rw [hsrc]
    refine .bind (hset₃.getFlags hK hpage'.vmm hoff') ?_
    rintro sflags t₄ ⟨hsflags, hw₄, hset₄⟩
    have hin₄ := hw₄.within_closed (InPage t₃ w (srcTrap.vaddr / 4096))
    have hpage₄ := (hpage'.next hin).next hin₄
    refine (hset₄.grantPage hK hpage'.vmm hpage'.user hpage₄.small hpage₄.low _).mono ?_
    rintro _ t₅ ⟨hset₅, hrest₅, hin₅, hstay₅, hgrant₅⟩
    refine ⟨hset₅, (hrest.trans hw₄.rest).trans hrest₅, hin₄.trans (hin₅.mono fun x p hxp => ?_), fun g r ha => ?_⟩
    · exact hxp.next hin₄ hpage'.vmm (user_page hpage'.user)
    · have ha₄ : accessAt t₄.mem w (srcTrap.vaddr / 4096) = some (g, r) :=
        (accessAt_congr (hw₄.views_closed hpage'.vmm hoff'.page)).trans ha
      have hkeep₄ := KeepsReach.windowed hw₄ w hpage'.vmm srcTrap.vaddr hpage'.user
      by_cases hr : Reach t₃ w srcTrap.vaddr
      · refine ⟨_, hgrant₅ (hkeep₄.mp hr) ?_ g r ha₄⟩
        rw [or_flagRw_bit0, andNot_flagTrapped_bit0, hsflags hr]
        exact flagsAt_present ha
      · have hsame₅ := hstay₅ (fun hin => hr (hkeep₄.mpr hin)) fun _ _ => False
        exact ⟨r, (hsame₅.access w hpage'.vmm _ hoff'.page (.inr (user_page hpage'.user)) id).trans ha₄⟩
  · rintro _ u ⟨hsetu, hrestu, hinu, hsrcu⟩
    obtain ⟨hmem, hbit, hcur⟩ := trapsResolved_mem u src dst
    have hdst : ¬ InPage s w (srcTrap.vaddr / 4096) v (va / 4096) →
        accessAt (trapsResolved u src dst).mem v (va / 4096) = accessAt t₃.mem v (va / 4096) := by
      intro hne
      rw [hmem]
      exact hinu.access v hpage.vmm (va / 4096) hoff.page (.inr hq) fun hxp =>
        hne (hxp.next hin hpage'.vmm (user_page hpage'.user))
    refine .of_eq rfl ⟨rfl, ?_, hrestu.trapsResolved src dst, ?_, fun hr hne g r ha => ?_, fun hr hne => ?_,
      fun hne g r ha => ?_⟩
    · exact ((hsetu.modifyTrap src Trap.unused).modifyTrap dst Trap.unused).setLock false
    · exact (hwide u hinu).trans (.of_mem hcur hmem hbit)
    · exact (hdst hne).trans (hnew hr g r ha)
    · exact (hdst hne).trans (hold hr)
    · show ∃ r', accessAt (trapsResolved u src dst).mem w (srcTrap.vaddr / 4096) = some (g, r')
      rw [hmem]
      refine hsrcu g r ?_
      exact (hin.access w hpage'.vmm _ hoff'.page (.inr (user_page hpage'.user)) hne).trans ha

end Finish

/-- Every copy-on-write entry stands for a page of a live VMM. -/
def CowPages (ok : Prop) (L : Set ℕ) (s : Machine) : Prop :=
  ∀ t ∈ s.vmmTraps, t.type = .cow → ∃ v, t.vmm = v * 4096 ∧ TrapPage ok L s v t.vaddr

/-- The first two free pages behind the kernel. -/
def FirstSpace (s : Machine) (q : ℕ) : Prop := CopySpace s q ∧ ∀ p < q, ¬ CopySpace s p

/-- What `vmm_cow_duplicate` comes to for a 4 KiB page at `va` of the VMM `v`. -/
inductive CowOutcome (ok : Prop) (D L : Set ℕ) (n : ℕ) (s : Machine) (v va : ℕ) : Bool → Machine → Prop
  | absent (h : ¬ HasCow s (v * 4096) va) : CowOutcome ok D L n s v va false { s with vmmTrapsMutex := false }
  | noSpace (h : HasCow s (v * 4096) va) (full : ∀ q, ¬ CopySpace s q) :
      CowOutcome ok D L n s v va false { s with vmmTrapsMutex := false }
  | noFrame {q : ℕ} {t : Machine} (h : HasCow s (v * 4096) va) (space : FirstSpace s q) (settled : Settled ok D L n t)
      (within : Within D L (InWindow s q) s t) (window : accessAt t.mem s.cr3 q = some (0, true)) (hno : ¬ ok)
      (rest : SameRest { s with vmmTrapsMutex := false } t) (second : accessAt t.mem s.cr3 (q + 1) = some (1, true)) :
      CowOutcome ok D L n s v va false t
  | resolved {q f i w : ℕ} {t : Machine} {p : TrapPtr} {d u : Trap} (space : FirstSpace s q)
      (find : s.vmmTraps.findIdx? (fun t => t.isCowAt (v * 4096) va) = some i) (entry : s.vmmTraps[i]? = some d)
      (info : d.info = some p) (src : s.trapAt p = some u) (vmm : u.vmm = w * 4096)
      (settled : Settled ok (insert f D) L n t) (rest : SameRest (trapsResolved s p ⟨s.vmmTrapsBase, i⟩) t)
      (within : Within D L (fun x y => InWindow s q x y ∨ InPage s v (va / 4096) x y ∨ InPage s w (u.vaddr / 4096) x y) s t)
      (window : ∃ x, accessAt t.mem s.cr3 q = some x) (fresh : ¬ used s f ∧ f ∉ D ∧ used t f)
      (content : Reach s w u.vaddr → ∀ g r, accessAt s.mem w (u.vaddr / 4096) = some (g, r) → g ∈ D → g ∉ L →
        t.mem f = s.mem g)
      (stranger : ¬ Reach s w u.vaddr → 0 ∈ D → 0 ∉ L → t.mem f = s.mem 0)
      (page : Reach s v va → ¬ InPage s w (u.vaddr / 4096) v (va / 4096) → ∀ g r,
        accessAt s.mem v (va / 4096) = some (g, r) → accessAt t.mem v (va / 4096) = some (copiedFrame s v va f, true))
      (blocked : ¬ Reach s v va → ¬ InPage s w (u.vaddr / 4096) v (va / 4096) →
        accessAt t.mem v (va / 4096) = accessAt s.mem v (va / 4096))
      (origin : ¬ InPage s v (va / 4096) w (u.vaddr / 4096) → ∀ g r, accessAt s.mem w (u.vaddr / 4096) = some (g, r) →
        ∃ r', accessAt t.mem w (u.vaddr / 4096) = some (g, r'))
      (room : f < s.pmmFrames) (second : ∃ x, accessAt t.mem s.cr3 (q + 1) = some x) :
      CowOutcome ok D L n s v va true t

section Search

variable {ok : Prop} {D L : Set ℕ} {s t : Machine} {n v w va : ℕ} {K : Callees}

theorem InWindow.not_user {q x p : ℕ} (hq : 786432 ≤ q) (h : InWindow s q x p) : ¬ p < userPages := by
  unfold userPages
  rcases h.2 with hp | hp <;> omega

theorem InPage.user {q x p : ℕ} (hq : q < userPages) (h : InPage s v q x p) : p < userPages := by
  have hslot := userPages_slot hq
  unfold userPages
  rcases h.2 with hp | ⟨-, hp⟩
  · rw [hp]
    exact hq
  · omega

/-- Work on two user pages leaves the kernel half alone. -/
theorem Within.kernel_access {s' : Machine} {c x y q : ℕ}
    (hin : Within D L (fun z p => InPage s' v x z p ∨ InPage s' w y z p) s t) (hc : c ∈ L) (hcur : c = s.cr3)
    (hx : x < userPages) (hy : y < userPages) (hq : 786432 ≤ q) (hq1 : q < 1048576) :
    accessAt t.mem c q = accessAt s.mem c q := by
  have huser : ¬ q < userPages := by
    unfold userPages
    omega
  refine hin.access c hc q ⟨by omega, by omega⟩ (.inl hcur) ?_
  rintro (hpage | hpage)
  · exact huser (hpage.user hx)
  · exact huser (hpage.user hy)

theorem trapAt_mem {p : TrapPtr} {u : Trap} (h : s.trapAt p = some u) : u ∈ s.vmmTraps := by
  unfold Machine.trapAt at h
  split_ifs at h
  exact List.mem_of_getElem? h

theorem SameRest.trapAt (h : SameRest s t) (p : TrapPtr) : t.trapAt p = s.trapAt p := by
  rw [h]
  rfl

theorem trapsResolved_lock (s : Machine) (b : Bool) (src dst : TrapPtr) :
    trapsResolved { s with vmmTrapsMutex := b } src dst = trapsResolved s src dst := by
  unfold trapsResolved Machine.modifyTrap
  dsimp only
  split_ifs <;> rfl

theorem Trap.isCowAt_iff {d : Trap} {vmm : ℕ} : d.isCowAt vmm va = true ↔ d.type = .cow ∧ d.vmm = vmm ∧ d.vaddr = va := by
  unfold Trap.isCowAt
  rw [Bool.and_eq_true, Bool.and_eq_true, decide_eq_true_iff, decide_eq_true_iff, decide_eq_true_iff, and_assoc]

theorem CowPages.page (h : CowPages ok L s) {d : Trap} (hd : d ∈ s.vmmTraps) (hcow : d.isCowAt (v * 4096) va = true) :
    TrapPage ok L s v va := by
  obtain ⟨htype, hvmm, rfl⟩ := Trap.isCowAt_iff.mp hcow
  obtain ⟨v', hv', hpage⟩ := h d hd htype
  obtain rfl : v' = v := by omega
  exact hpage

theorem Within.unlock {C : ℕ → ℕ → Prop} {b : Bool} (h : Within D L C { s with vmmTrapsMutex := b } t) : Within D L C s t :=
  ⟨h.vmmCurrent, h.access, h.vacant, h.pgsz, h.content, h.used, h.spare⟩

/-- The part of `vmm_cow_duplicate` behind the search of the trap table. -/
theorem Settled.resolve (h : Settled ok D L (n + 21) s) (hK : K.Closed) (hk : KernelEnds s) (hcow : HasCow s (v * 4096) va)
    (hpage : TrapPage ok L s v va) {i : ℕ} {p : TrapPtr} {d u : Trap}
    (hfind : s.vmmTraps.findIdx? (fun t => t.isCowAt (v * 4096) va) = some i) (hentry : s.vmmTraps[i]? = some d)
    (hinfo : d.info = some p) (hsrc : s.trapAt p = some u) (hvmm : u.vmm = w * 4096) (hpage' : TrapPage ok L s w u.vaddr) :
    Comp.Wp ok (cowWindow K (v * 4096) va 4096 p ⟨s.vmmTrapsBase, i⟩) (CowOutcome ok D L n s v va)
      { s with vmmTrapsMutex := true } := by
  have hlocked := h.setLock true
  have hq := user_page hpage.user
  have hq' := user_page hpage'.user
  have hoff := offSlot_of_lt hpage.user
  have hoff' := offSlot_of_lt hpage'.user
  unfold cowWindow
  refine .read_bind (.read_bind (.bind (hlocked.copyWindow (n := n + 17) hK hk) fun a t₁ ha => ?_))
  rcases ha with ⟨rfl, rfl, hfull⟩ | ⟨q, rfl, hspace, hleast, hset₁, hrest₁, hin₁, hkeep₁, hwin₁⟩
  · rw [if_pos rfl]
    exact .of_eq rfl (.noSpace hcow fun q hq => hfull q ((copySpace_lock hk true).mpr hq))
  · have hspace : CopySpace s q := (copySpace_lock hk true).mp hspace
    have hleast : ∀ p < q, ¬ CopySpace s p := fun p hp hsp => hleast p hp ((copySpace_lock hk true).mpr hsp)
    have hin₁ : Within D L (InWindow s q) s t₁ := hin₁.unlock
    have hkeep₁ : KeepsReach L s t₁ := hkeep₁
    obtain ⟨hqk, hq1⟩ := hspace.kernel hk
    rw [if_neg (show q * 4096 ≠ 0 by omega)]
    unfold cowCopy
    refine .bind (hset₁.newFrame) fun r t₂ hr => ?_
    rcases hr with ⟨rfl, rfl, hno⟩ | ⟨f, rfl, hroom, hfree, hfD, hused, hset₂, hrest₂, hkeep₂, hin₂⟩
    · refine .of_eq rfl (.noFrame hcow ⟨hspace, hleast⟩ (hset₁.le (by omega) |>.setLock false) ?_ hwin₁.2.2.1 hno ?_
        hwin₁.2.2.2)
      · exact hin₁.trans (.of_mem rfl rfl rfl)
      · unfold SameRest at hrest₁ ⊢
        rw [hrest₁]
    · have hfL : f ∉ L := fun hfL => hfD (h.tables.sub hfL)
      have hroom : f < s.pmmFrames := by
        rw [hrest₁] at hroom
        exact hroom
      have hflt : f < 1048576 := hroom.trans_le h.tables.frames
      have hderef : trapDeref p t₂ = some (u, t₂) := by
        unfold trapDeref
        rw [Comp.readOr_apply, hrest₂.trapAt, hrest₁.trapAt]
        exact congrArg (Option.map fun a => (a, t₂)) hsrc
      have hc₁ : t₁.cr3 = s.cr3 := hrest₁.cr3_eq
      have hc₂ : t₂.cr3 = t₁.cr3 := hrest₂.cr3_eq
      have hwin₂ : WindowAt t₂.mem t₂.cr3 q 0 1 := by
        rw [hc₂]
        exact (hc₁ ▸ hwin₁ : WindowAt t₁.mem t₁.cr3 q 0 1).next (hin₂ fun _ _ => False) hset₁.cur hqk (by omega) id id
      have hwide₂ : Within D L (InWindow s q) s t₂ := hin₁.trans (hin₂ _)
      have hkeeps : KeepsReach L s t₂ := hkeep₁.trans hkeep₂
      dsimp only
      refine .step hderef ?_
      rw [show 4096 / 4096 = 1 from rfl, Comp.forRange_succ, Comp.bind_assoc]
      refine .bind (hset₂.copyFrame (n := n + 10) hK hfD hfL hflt hvmm hpage'.vmm hoff' hqk (by omega) hwin₂)
        fun _ t₃ ⟨hset₃, hrest₃, hin₃, hkeep₃, hsecond, g, hg, hgreach, hgzero, hcopy⟩ => ?_
      have hc₂ : t₂.cr3 = s.cr3 := hc₂.trans hc₁
      have hwide₃ : Within D L (InWindow s q) s t₃ := hwide₂.trans (hin₃.mono fun x y hxy => ⟨hxy.1.trans hc₂, hxy.2⟩)
      refine .step (Comp.pure_apply () t₃) ?_
      refine (hset₃.finish hK (hpage.next hwide₃) hvmm (hpage'.next hwide₃) hflt p ⟨s.vmmTrapsBase, i⟩).mono ?_
      rintro r t₄ ⟨rfl, hset₄, hrest₄, hin₄, hpage₄, hold₄, hsrc₄⟩
      have hwide₄ : Within (insert f D) L (fun x y => InPage s v (va / 4096) x y ∨ InPage s w (u.vaddr / 4096) x y) t₃ t₄ :=
        hin₄.mono fun x y hxy => hxy.imp (fun hxy => hxy.next hwide₃ hpage.vmm hq) fun hxy => hxy.next hwide₃ hpage'.vmm hq'
      have hopen (y : ℕ) : 786432 ≤ y → y < 1048576 → accessAt t₄.mem s.cr3 y = accessAt t₃.mem s.cr3 y :=
        hwide₄.kernel_access h.cur hwide₃.cr3.symm hq hq'
      have hv₃ : accessAt t₃.mem v (va / 4096) = accessAt s.mem v (va / 4096) :=
        hwide₃.access v hpage.vmm _ hoff.page (.inr hq) fun hno => hno.not_user hqk hq
      have hw₃ : accessAt t₃.mem w (u.vaddr / 4096) = accessAt s.mem w (u.vaddr / 4096) :=
        hwide₃.access w hpage'.vmm _ hoff'.page (.inr hq') fun hno => hno.not_user hqk hq'
      have hcopied : copiedFrame t₃ v va f = copiedFrame s v va f := by
        rw [copiedFrame, copiedFrame, hwide₃.pgsz v hpage.vmm _ (.inr (slot_of_lt hpage.user))]
      have hvreach := hkeeps.trans hkeep₃ v hpage.vmm va hpage.user
      have hwreach := hkeeps w hpage'.vmm u.vaddr hpage'.user
      have hcontent : ∀ x ∈ D, x ∉ L → g = x → t₄.mem f = s.mem x := by
        rintro x hxD hxL rfl
        rw [hwide₄.content f (.inl rfl) hfL, hcopy hxD hxL]
        exact hwide₂.content g hxD hxL
      refine .resolved ⟨hspace, hleast⟩ hfind hentry hinfo hsrc hvmm hset₄ ?_ ?_ ⟨(g, true), ?_⟩ ⟨?_, hfD, ?_⟩ ?_ ?_ ?_ ?_ ?_
        hroom ⟨(f, true), ?_⟩
      · rw [← trapsResolved_lock s true]
        exact (((hrest₁.trans hrest₂).trans hrest₃).trapsResolved p _).trans hrest₄
      · exact hwide₃.next (hwide₄.antitone (Set.subset_insert f D))
      · rw [hc₂] at hg
        exact (hopen q hqk (by omega)).trans hg
      · exact fun hf => hfree (hin₁.used f hf)
      · exact hwide₄.used f (hin₃.used f hused)
      · intro hr x b hx hxD hxL
        refine hcontent x hxD hxL ?_
        have hx₂ : accessAt t₂.mem w (u.vaddr / 4096) = some (x, b) :=
          (hwide₂.access w hpage'.vmm _ hoff'.page (.inr hq') fun hno => hno.not_user hqk hq').trans hx
        rw [hgreach (hwreach.mp hr), paddrAt_of_access hx₂]
        have hlt : x < 1048576 := (h.tables.dir x hxD).2
        omega
      · exact fun hr hD hL => hcontent 0 hD hL (hgzero fun hin => hr (hwreach.mpr hin))
      · intro hr hne x b hx
        rw [← hcopied]
        exact hpage₄ (hvreach.mp hr) (fun hno => hne (hno.next hwide₃ hpage'.vmm hq')) x b (hv₃.trans hx)
      · intro hr hne
        exact (hold₄ (fun hin => hr (hvreach.mpr hin)) fun hno => hne (hno.next hwide₃ hpage'.vmm hq')).trans hv₃
      · intro hne x b hx
        exact hsrc₄ (fun hno => hne (hno.next hwide₃ hpage.vmm hq)) x b (hw₃.trans hx)
      · rw [hc₂] at hsecond
        exact (hopen (q + 1) (by omega) (by omega)).trans hsecond

/-- The search of the trap table, for a page of either size. -/
theorem cowSearch_wp {ok' : Prop} {pgsz : ℕ} {Q : Bool → Machine → Prop} (hpairs : TrapsPaired s) (hpages : CowPages ok L s)
    (hlock : ok' → s.vmmTrapsMutex = false) (habsent : ¬ HasCow s (v * 4096) va → Q false { s with vmmTrapsMutex := false })
    (hfound : ∀ i p d u w, s.vmmTraps.findIdx? (fun t => t.isCowAt (v * 4096) va) = some i → s.vmmTraps[i]? = some d →
      d.info = some p → s.trapAt p = some u → u.vmm = w * 4096 → HasCow s (v * 4096) va → TrapPage ok L s v va →
      TrapPage ok L s w u.vaddr →
      Comp.Wp ok' (cowWindow K (v * 4096) va pgsz p ⟨s.vmmTrapsBase, i⟩) Q { s with vmmTrapsMutex := true }) :
    Comp.Wp ok' (cowSearch K (v * 4096) va pgsz) Q s := by
  unfold cowSearch
  cases hmutex : s.vmmTrapsMutex with
  | true =>
    refine .of_fault ?_ fun hok => ?_
    · unfold trapsAcquire
      simp only [Comp.bind_assoc, Comp.read_bind, hmutex, if_true, Comp.fault_bind]
    · have hfree := hlock hok
      rw [hmutex] at hfree
      cases hfree
  | false =>
    have hacquire : trapsAcquire s = some ((), { s with vmmTrapsMutex := true }) := by
      unfold trapsAcquire
      rw [Comp.read_bind, hmutex]
      rfl
    refine .step hacquire (.read_bind ?_)
    dsimp only
    cases hfind : s.vmmTraps.findIdx? fun t => t.isCowAt (v * 4096) va with
    | none =>
      refine .of_eq rfl (habsent ?_)
      rintro ⟨d, hd, hcow⟩
      exact absurd hcow (by rw [List.findIdx?_eq_none_iff.mp hfind d hd]; exact Bool.false_ne_true)
    | some i =>
      obtain ⟨hi, hcow, -⟩ := List.findIdx?_eq_some_iff_getElem.mp hfind
      have hentry : s.vmmTraps[i]? = some s.vmmTraps[i] := List.getElem?_eq_getElem hi
      generalize s.vmmTraps[i] = d at hcow hentry
      have hmem : d ∈ s.vmmTraps := List.mem_of_getElem? hentry
      have hpage := hpages.page hmem hcow
      obtain ⟨p, u, hinfo, hsrc, htype, -⟩ := hpairs i d hentry (Trap.isCowAt_iff.mp hcow).1
      obtain ⟨w, hvmm, hpage'⟩ := hpages u (trapAt_mem hsrc) htype
      dsimp only
      refine .read_bind ?_
      have hderef : trapDeref ⟨s.vmmTrapsBase, i⟩ { s with vmmTrapsMutex := true } =
          some (d, { s with vmmTrapsMutex := true }) := by
        unfold trapDeref Machine.trapAt
        rw [Comp.readOr_apply, if_pos rfl]
        exact congrArg (Option.map _) hentry
      refine .step hderef ?_
      have hnext : trapInfo d { s with vmmTrapsMutex := true } = some (p, { s with vmmTrapsMutex := true }) := by
        unfold trapInfo
        rw [Comp.readOr_apply, hinfo]
        rfl
      refine .step hnext ?_
      exact hfound i p d u w hfind hentry hinfo hsrc hvmm ⟨d, hmem, hcow⟩ hpage hpage'

/-- `vmm_cow_duplicate` on a 4 KiB page. -/
theorem Settled.search (h : Settled ok D L (n + 21) s) (hK : K.Closed) (hk : KernelEnds s) (hpairs : TrapsPaired s)
    (hpages : CowPages ok L s) : Comp.Wp (ok ∧ s.vmmTrapsMutex = false) (cowSearch K (v * 4096) va 4096)
      (CowOutcome ok D L n s v va) s :=
  cowSearch_wp hpairs hpages And.right .absent fun _ _ _ _ _ hfind hentry hinfo hsrc hvmm hcow hpage hpage' =>
    (h.resolve hK hk hcow hpage hfind hentry hinfo hsrc hvmm hpage').weaken And.left fun _ _ => id

end Search

end SysX
