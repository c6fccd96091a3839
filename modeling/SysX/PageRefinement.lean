import SysX.HugePages

/-!
The current VMM as a map from pages to frames and flags: what `vmm_pgmap`, `vmm_pgunmap` and `vmm_set_paddr` do to it, page by
page, and that the functions which look pages up agree with it after any number of calls.
-/
namespace SysX

/-- Frame and flags of the pages that are mapped. -/
abbrev PageMap := ℕ → Option (ℕ × Word)

/-- The first of the small pages that the page of `va` consists of. -/
def pageStart (idx va : ℕ) : ℕ := va / vmmPgsz idx * (vmmPgsz idx / 4096)

/-- The small page `p` is part of the page of `va`. -/
def Covers (idx va p : ℕ) : Prop := pageStart idx va ≤ p ∧ p < pageStart idx va + vmmPgsz idx / 4096

instance (idx va p : ℕ) : Decidable (Covers idx va p) := inferInstanceAs (Decidable (_ ∧ _))

theorem covers_small {va p : ℕ} : Covers 0 va p ↔ p = va / 4096 := by
  change va / 4096 * 1 ≤ p ∧ p < va / 4096 * 1 + 1 ↔ _
  omega

theorem covers_huge {va p : ℕ} : Covers 1 va p ↔ p / 1024 = va / 4194304 := by
  change va / 4194304 * 1024 ≤ p ∧ p < va / 4194304 * 1024 + 1024 ↔ _
  omega

namespace PageMap

def map (m : PageMap) (pa va idx : ℕ) (flags : Word) : PageMap := fun p =>
  if Covers idx va p then some (pa / 4096 + (p - pageStart idx va), flags.canonFlags) else m p

def unmap (m : PageMap) (va idx : ℕ) : PageMap := fun p => if Covers idx va p then none else m p

def move (m : PageMap) (pa va idx : ℕ) : PageMap := fun p =>
  if Covers idx va p then (m p).map fun x => (pa / 4096 + (p - pageStart idx va), x.2) else m p

theorem map_small {pa : ℕ} (m : PageMap) (va : ℕ) (flags : Word) (hpa : pa < 4294967296) : m.map pa va 0 flags =
    fun p => if p = va / 4096 then some (pa / 4096 % 1048576, flags.canonFlags) else m p := by
  funext p
  unfold map
  by_cases hpv : p = va / 4096
  · have hstart : p - pageStart 0 va = 0 := by
      change p - va / 4096 * 1 = 0
      omega
    rw [if_pos hpv, if_pos (covers_small.mpr hpv), hstart, Nat.mod_eq_of_lt (by omega), Nat.add_zero]
  · rw [if_neg hpv, if_neg fun hcov => hpv (covers_small.mp hcov)]

theorem map_huge {pa : ℕ} (m : PageMap) (va : ℕ) (flags : Word) (hpa : pa < 4294967296) (hal : pa % 4194304 = 0) :
    m.map pa va 1 flags = fun p => if p / 1024 = va / 4194304 then
      some (pa / 4194304 % 1024 * 1024 + p % 1024, flags.canonFlags) else m p := by
  funext p
  unfold map
  by_cases hpi : p / 1024 = va / 4194304
  · have hframe : pa / 4096 + (p - pageStart 1 va) = pa / 4194304 % 1024 * 1024 + p % 1024 := by
      change pa / 4096 + (p - va / 4194304 * 1024) = _
      omega
    rw [if_pos hpi, if_pos (covers_huge.mpr hpi), hframe]
  · rw [if_neg hpi, if_neg fun hcov => hpi (covers_huge.mp hcov)]

theorem unmap_small (m : PageMap) (va : ℕ) : m.unmap va 0 = fun p => if p = va / 4096 then none else m p := by
  funext p
  simp only [unmap, covers_small]

theorem unmap_huge (m : PageMap) (va : ℕ) : m.unmap va 1 = fun p => if p / 1024 = va / 4194304 then none else m p := by
  funext p
  simp only [unmap, covers_huge]

def paddr (m : PageMap) (va : ℕ) : ℕ := (m (va / 4096)).elim 0 fun x => x.1 * 4096 + va % 4096

def flags (m : PageMap) (va : ℕ) : Word := (m (va / 4096)).elim 0#32 Prod.snd

end PageMap

inductive PageCall where
  | pgmap (pa va pgszIdx : ℕ) (flags : Word)
  | pgunmap (va pgszIdx : ℕ)
  | setPaddr (va pa : ℕ)

namespace PageCall

def run (K : Callees) (vmm : ℕ) : PageCall → Kernel Unit
  | pgmap pa va pgszIdx flags => vmmPgmap K vmm pa va pgszIdx flags
  | pgunmap va pgszIdx => vmmPgunmap K vmm va pgszIdx
  | setPaddr va pa => vmmSetPaddr K vmm va pa

/-- What the call is meant to do. `vmm_set_paddr` moves the page as large as it is mapped. -/
def apply (s : Machine) (m : PageMap) : PageCall → PageMap
  | pgmap pa va pgszIdx flags => m.map pa va pgszIdx flags
  | pgunmap va pgszIdx => m.unmap va pgszIdx
  | setPaddr va pa => match pgszAt s.mem s.cr3 (va / 4096) with
    | some idx => m.move pa va idx
    | none => m

/-- The addresses are aligned, and page tables can be allocated. -/
def Ready (s : Machine) : PageCall → Prop
  | pgmap pa va pgszIdx flags => OffSlot va ∧ pgszIdx ≤ 1 ∧ va % vmmPgsz pgszIdx = 0 ∧ pa < 4294967296 ∧
      pa % vmmPgsz pgszIdx = 0 ∧ flags.getLsbD 0 = true ∧ FreeFrames s 2
  | pgunmap va pgszIdx => OffSlot va ∧ pgszIdx ≤ 1 ∧ va % vmmPgsz pgszIdx = 0 ∧ FreeFrames s 2
  | setPaddr va pa => OffSlot va ∧ pa < 4294967296 ∧
      ∃ idx, pgszAt s.mem s.cr3 (va / 4096) = some idx ∧ pa % vmmPgsz idx = 0

/-- The flags do not announce a trap. -/
def NoTrap : PageCall → Prop
  | pgmap _ _ _ flags => flags.getLsbD 6 = false
  | _ => True

/-- Only pages that are present are moved. -/
def MovesPresent (s : Machine) : PageCall → Prop
  | setPaddr va _ => (flagsAt s.mem s.cr3 (va / 4096)).getLsbD 0 = true
  | _ => True

def Plain (s : Machine) (c : PageCall) : Prop := c.NoTrap ∧ c.MovesPresent s

end PageCall

/-- 4 MiB pages are present. -/
def PsePresent (s : Machine) : Prop :=
  ∀ i < 1024, i ≠ 767 → (s.mem s.cr3 i).pgsz = true → (s.mem s.cr3 i).present = true

/-- No page is trapped. -/
def NoTrapped (s : Machine) : Prop := ∀ p ∈ regular, ∀ x ∈ view s.mem s.cr3 p, x.2.getLsbD 6 = false

/-- Runs of calls on the current VMM with what the pages should be after them. -/
inductive PageRun (K : Callees) (D : Set ℕ) (P : Machine → PageCall → Prop) : Machine → PageMap → Prop
  | start {s : Machine} (h : OwnVmm D s) (huge : PsePresent s) (plain : NoTrapped s) :
      PageRun K D P s (view s.mem s.cr3)
  | call {s t : Machine} {m : PageMap} (c : PageCall) (h : PageRun K D P s m) (ready : c.Ready s) (allowed : P s c)
      (run : c.run K s.vmmCurrent s = some ((), t)) : PageRun K D P t (c.apply s m)

/-- The functions that look a page up say what the map says. -/
def PagesObserved (K : Callees) (s : Machine) (m : PageMap) : Prop :=
  ∀ va, OffSlot va → vmmGetPaddr K s.vmmCurrent va s = some (m.paddr va, s) ∧
    vmmGetFlags K s.vmmCurrent va s = some (m.flags va, s) ∧
    ∃ r, vmmGetPgsz K s.vmmCurrent va s = some (r, s) ∧ (r = none ↔ m (va / 4096) = none)

/-! One call, page by page. -/

/-- The pages of the current VMM are `g` now. -/
structure Seen (D : Set ℕ) (s t : Machine) (g : PageMap) : Prop where
  vmm : OwnVmm D t
  huge : PsePresent t
  rest : SameRest s t
  pages : ∀ p ∈ regular, view t.mem s.cr3 p = g p

section Calls

variable {D : Set ℕ} {s t σ : Machine} {K : Callees} {n q pa va idx : ℕ} {flags : Word} {g : PageMap}

theorem viewPte_fillPte {e : Word} (h : flags.getLsbD 0 = true) :
    viewPte (Word.fillPte e flags pa) = some (pa / 4096 % 1048576, flags.canonFlags) := by
  have hp : (Word.fillPte e flags pa).present = true := by rw [Word.fillPte_present, h]
  rw [viewPte, if_neg (Word.ne_zero_of_present hp), Word.fillPte_pt, Word.getFlags_fillPte]

/-- The windows of a call leave everything as it is. -/
theorem Seen.windowed (h : OwnVmm D s) (hrest : SameRest s σ) (huge : PsePresent σ)
    (hpages : ∀ p ∈ regular, view σ.mem s.cr3 p = g p) (hw : Windowed D {s.cr3} σ t fun _ => 0#32) : Seen D s t g := by
  obtain ⟨hvmm, hrest'⟩ := h.windowed hrest hw
  refine ⟨hvmm, fun i hi hne hsz => ?_, hrest', fun p hp => (hw.views hrest p hp).trans (hpages p hp)⟩
  rw [hrest'.cr3_eq, ← hrest.cr3_eq] at hsz ⊢
  rcases hw.slot i with hsame | ⟨-, -, ht, -⟩
  · rw [hsame] at hsz ⊢
    exact huge i hi hne hsz
  · exact absurd hsz ht.not_pgsz

/-- The entry of a small page. -/
theorem PgmapOwn.view_eq (hm : PgmapOwn s pa va flags σ) (h : OwnVmm D s) (huge : PsePresent s) (hva : OffSlot va)
    (hf : flags.getLsbD 0 = true) {p : ℕ} (hp : Regular p) : view σ.mem s.cr3 p =
      if p = va / 4096 then some (pa / 4096 % 1048576, flags.canonFlags) else view s.mem s.cr3 p := by
  have hc : s.cr3 ∈ ({s.cr3} : Set ℕ) := rfl
  have hpages := hm.pageMapped h.tables hc hva fun _ => h.spread
  by_cases hpv : p = va / 4096
  · obtain ⟨e, he⟩ := hpages.own
    rw [if_pos hpv, hpv, he, viewPte_fillPte hf]
  rw [if_neg hpv]
  rcases hm.cases with ⟨he, rfl⟩ | ⟨he, f, -, hfree, s₂, hs, hsame, rfl⟩
  · exact h.tables.view_pgmapEntry_ne hc hva he hp hpv
  · by_cases hpi : p / 1024 = va / 4194304
    · rcases hpages.other p hp hpv with hsame | ⟨hgone, hbefore⟩
      · exact hsame
      -- a slot without a page table and without a page that is present is empty
      · have hslot : p / 1024 < 1024 := by have := hp.1; omega
        have hz : s.mem s.cr3 (p / 1024) = 0#32 := by
          by_contra hne
          cases hsz : (s.mem s.cr3 (p / 1024)).pgsz with
          | false => exact he (hpi ▸ ⟨hne, hsz⟩)
          | true =>
            rw [transAt_pgsz hsz, if_pos (huge _ hslot hp.2 hsz)] at hbefore
            cases hbefore
        rw [hgone, view_of_slot_zero hz]
    · obtain ⟨hdir, hrest⟩ := h.tables.spread_newTable hfree hs hsame fun _ => h.spread
      exact h.tables.view_newTable_ne hc hfree hdir hrest _ hp hpi

theorem PgmapOwn.seen (hm : PgmapOwn s pa va flags σ) (h : OwnVmm D s) (huge : PsePresent s) (hva : OffSlot va)
    (hf : flags.getLsbD 0 = true) (hw : Windowed D {s.cr3} σ t fun _ => 0#32) : Seen D s t fun p =>
      if p = va / 4096 then some (pa / 4096 % 1048576, flags.canonFlags) else view s.mem s.cr3 p := by
  refine .windowed h hm.rest (fun i hi hne hsz => ?_) (fun p hp => hm.view_eq h huge hva hf hp) hw
  rw [hm.rest.cr3_eq] at hsz ⊢
  by_cases hi' : i = va / 4194304
  · have ht := hm.slot h.tables rfl hva fun _ => h.spread
    exact absurd hsz (hi' ▸ ht.not_pgsz)
  · rw [hm.slot_of_ne h.tables rfl hva (fun _ => h.spread) hi'] at hsz ⊢
    exact huge i hi hne hsz

theorem Seen.pgmapSmall (h : OwnVmm D s) (huge : PsePresent s) (hK : K.Closed) (hq : Regular q) (hf : FreeFrames s 2)
    (hfl : flags.getLsbD 0 = true) (pa : ℕ) : ∃ t, vmmPgmap K s.vmmCurrent pa (q * 4096) 0 flags s = some ((), t) ∧
      Seen D s t fun p => if p = q then some (pa / 4096 % 1048576, flags.canonFlags) else view s.mem s.cr3 p := by
  have hoff := hq.offSlot
  have hwp : Comp.Wp True (vmmPgmapSmall K s.vmmCurrent pa (q * 4096) flags) _ s :=
    vmmPgmapSmall_own (n := 0) h.tables rfl h.aligned hK hoff (fun _ => h.spread)
      (fun _ => hf.mono (by have := slotCost_le s (q * 4096); omega)) fun _ hno => absurd trivial hno
  obtain ⟨_, t, hrun, σ, hm, hw, -⟩ := hwp.total trivial
  have hseen := hm.seen h huge hoff hfl hw
  rw [page_div] at hseen
  refine ⟨t, ?_, hseen⟩
  unfold vmmPgmap
  rw [if_neg hoff.not_rmap]
  exact hrun

/-- The directory after an entry of it was replaced. -/
theorem PsePresent.set (huge : PsePresent s) {i : ℕ} (hdir : ∀ j ≠ i, t.mem s.cr3 j = s.mem s.cr3 j) (hc : t.cr3 = s.cr3)
    (hi : (t.mem s.cr3 i).pgsz = true → (t.mem s.cr3 i).present = true) : PsePresent t := by
  intro j hj hne hsz
  rw [hc] at hsz ⊢
  by_cases hji : j = i
  · rw [hji] at hsz ⊢
    exact hi hsz
  · rw [hdir j hji] at hsz ⊢
    exact huge j hj hne hsz

theorem PgmapHugeOwn.dir (hm : PgmapHugeOwn s pa va flags σ) (h : OwnVmm D s) :
    SameRest s σ ∧ σ.mem s.cr3 = (s.set s.cr3 (va / 4194304) (Word.fillPse flags pa)).mem s.cr3 := by
  have hrel : SameRest s (SysX.releaseAt s s.cr3 (va / 4194304) (Word.fillPse flags pa)) := releaseAt_rest ..
  have hmem := releaseAt_mem s s.cr3 (va / 4194304) (Word.fillPse flags pa)
  unfold PgmapHugeOwn at hm
  dsimp only at hm
  split_ifs at hm
  · refine ⟨hrel.trans hm.rest, ?_⟩
    have hpr : Propagates True D (SysX.releaseAt s s.cr3 (va / 4194304) (Word.fillPse flags pa)) :=
      h.spread.congr (by rw [hrel]; rfl) (by rw [hrel])
    rcases hm with rfl | rfl
    · rw [hmem]
    · rw [propagateAt_mem_self hpr, hmem]
  · rw [hm, hmem]
    exact ⟨hrel, rfl⟩

theorem Seen.pgmapHuge (h : OwnVmm D s) (huge : PsePresent s) (hK : K.Closed) (hq : Regular q) (hf : FreeFrames s 2)
    (hfl : flags.getLsbD 0 = true) (pa : ℕ) : ∃ t, vmmPgmap K s.vmmCurrent pa (q * 4096) 1 flags s = some ((), t) ∧
      Seen D s t fun p => if p / 1024 = q / 1024 then some (pa / 4194304 % 1024 * 1024 + p % 1024, flags.canonFlags)
        else view s.mem s.cr3 p := by
  have hoff := hq.offSlot
  have hown : Owned {s.cr3} s s.cr3 (q * 4096 / 4194304) := fun _ w hw hne => absurd hw hne
  have hwp : Comp.Wp True (vmmPgmapHuge K s.vmmCurrent pa (q * 4096) flags) _ s :=
    vmmPgmapHuge_own (n := 1) h.tables rfl h.aligned hK hoff hown (fun _ => h.spread)
      ⟨fun _ => hf, fun hno => absurd trivial hno⟩
  obtain ⟨_, t, hrun, σ, hm, hw, -⟩ := hwp.total trivial
  obtain ⟨hrest, hdir⟩ := hm.dir h
  have hview := fun p hp => hm.view h.tables rfl (fun _ => h.spread) (p := p) hp
  rw [page_slot] at hview hdir
  have huge' : PsePresent σ := by
    refine huge.set (i := q / 1024) (fun j hj => by rw [hdir, s.set_mem_of_ne_index _ _ _ _ hj]) hrest.cr3_eq fun _ => ?_
    rw [hdir, s.set_mem_self, Word.fillPse_present, hfl]
  refine ⟨t, ?_, .windowed h hrest huge' hview hw⟩
  unfold vmmPgmap
  rw [if_neg hoff.not_rmap]
  exact hrun

theorem PsePresent.releaseAt (huge : PsePresent s) (i : ℕ) : PsePresent (releaseAt s s.cr3 i 0#32) := by
  have hrest : SameRest s (SysX.releaseAt s s.cr3 i 0#32) := releaseAt_rest ..
  refine huge.set (i := i) (fun j hj => ?_) hrest.cr3_eq fun hsz => ?_
  · rw [releaseAt_mem, s.set_mem_of_ne_index _ _ _ _ hj]
  · rw [releaseAt_slot] at hsz
    cases hsz

theorem Seen.releaseAt (h : OwnVmm D s) (huge : PsePresent s) (hq : Regular q) :
    Seen D s (releaseAt s s.cr3 (q / 1024) 0#32) fun p => if p / 1024 = q / 1024 then none else view s.mem s.cr3 p := by
  have hun := h.releaseAt hq
  refine ⟨hun.vmm, huge.releaseAt _, hun.rest, fun p hp => ?_⟩
  split_ifs with hpq
  · exact hun.here p hp hpq
  · exact h.tables.view_release rfl _ _ hp hpq

theorem PsePresent.setPte (huge : PsePresent s) (h : OwnVmm D s) (hq : Regular q)
    (he : (s.mem s.cr3 (q / 1024)).HasTable) (d : Word) :
    PsePresent (s.set (s.mem s.cr3 (q / 1024)).pt (q % 1024) d) := by
  have hslot : q / 1024 < 1024 := by have := hq.1; omega
  have hne := (h.tables.pt_ne rfl (h.tables.sub rfl) hslot hq.2 he).symm
  have hdir := s.set_mem_of_ne (s.mem s.cr3 (q / 1024)).pt (q % 1024) d hne
  intro i hi hi' hsz
  rw [Machine.set_cr3, hdir] at hsz ⊢
  exact huge i hi hi' hsz

theorem Seen.clear (h : OwnVmm D s) (huge : PsePresent s) (hq : Regular q)
    (he : (s.mem s.cr3 (q / 1024)).HasTable) : Seen D s (s.set (s.mem s.cr3 (q / 1024)).pt (q % 1024) 0#32) fun p =>
      if p = q then none else view s.mem s.cr3 p := by
  refine ⟨(h.clear hq he).vmm, huge.setPte h hq he 0#32, rfl, fun p hp => h.tables.view_setPte rfl hq he 0#32 hp⟩

/-- The pages while those of a 4 MiB page apart from `q` are mapped again, up to the `k`th of them. -/
def splitPages (s : Machine) (q k : ℕ) : PageMap := fun p =>
  if p / 1024 = q / 1024 then
    if p % 1024 < k ∧ p ≠ q then
      some ((s.mem s.cr3 (q / 1024)).psePa * 1024 + p % 1024, (s.mem s.cr3 (q / 1024)).mapFlags)
    else none
  else view s.mem s.cr3 p

/-- Only the `k`th page is still missing. -/
theorem splitPages_succ {k : ℕ} (hk : k < 1024) (p : ℕ) : splitPages s q (k + 1) p =
    if p = q / 1024 * 1024 + k ∧ p ≠ q then
      some ((s.mem s.cr3 (q / 1024)).psePa * 1024 + k, (s.mem s.cr3 (q / 1024)).mapFlags)
    else splitPages s q k p := by
  unfold splitPages
  by_cases hp : p = q / 1024 * 1024 + k
  · have hpq : p / 1024 = q / 1024 := by omega
    have hpk : p % 1024 = k := by omega
    simp only [eq_true hp, hpq, hpk, if_true, Nat.lt_succ_self, Nat.lt_irrefl, true_and, false_and, if_false]
  · simp only [hp, false_and, if_false]
    by_cases hpq : p / 1024 = q / 1024
    · have hlt : p % 1024 < k + 1 ↔ p % 1024 < k := by omega
      simp only [hpq, hlt]
    · simp only [hpq, if_false]

theorem Seen.splitStart (h : OwnVmm D s) (huge : PsePresent s) (hq : Regular q)
    (hsz : (s.mem s.cr3 (q / 1024)).pgsz = true) : Seen D s (s.set s.cr3 (q / 1024) 0#32) (splitPages s q 0) := by
  have hrel := releaseAt h huge hq
  rw [SysX.releaseAt, if_neg fun ht => ht.not_pgsz hsz] at hrel
  refine { hrel with pages := fun p hp => (hrel.pages p hp).trans ?_ }
  simp only [splitPages, Nat.not_lt_zero, false_and, if_false]

theorem Seen.splitSkip {k : ℕ} {w : Machine} (h : Seen D s w (splitPages s q k)) (hk : k < 1024)
    (hkq : q / 1024 * 1024 + k = q) : Seen D s w (splitPages s q (k + 1)) := by
  refine { h with pages := fun p hp => (h.pages p hp).trans ?_ }
  rw [splitPages_succ hk, if_neg fun hpk => hpk.2 (hpk.1.trans hkq)]

theorem Seen.splitNext {k : ℕ} {w : Machine} (h : Seen D s w (splitPages s q k)) (huge : PsePresent s) (hq : Regular q)
    (hsz : (s.mem s.cr3 (q / 1024)).pgsz = true) (hk : k < 1024) (hkq : q / 1024 * 1024 + k ≠ q)
    (hm : PgmapOwn w ((s.mem s.cr3 (q / 1024)).psePa * 4194304 + k * 4096) ((q / 1024 * 1024 + k) * 4096)
      (s.mem s.cr3 (q / 1024)).mapFlags σ) (hw : Windowed D {s.cr3} σ t fun _ => 0#32) :
    Seen D s t (splitPages s q (k + 1)) := by
  have hc := h.rest.cr3_eq
  obtain ⟨hr, -, -⟩ := hq.sameSlot hk
  have hslot : q / 1024 < 1024 := by have := hq.1; omega
  have hflags : (s.mem s.cr3 (q / 1024)).mapFlags.getLsbD 0 = true := by
    rw [Word.mapFlags_bit0]
    exact huge _ hslot hq.2 hsz
  have hlt := (s.mem s.cr3 (q / 1024)).psePa_lt
  have hframe : ((s.mem s.cr3 (q / 1024)).psePa * 4194304 + k * 4096) / 4096 % 1048576 =
      (s.mem s.cr3 (q / 1024)).psePa * 1024 + k := by omega
  have hseen := hm.seen h.vmm h.huge hr.offSlot hflags (by rw [hc]; exact hw)
  refine ⟨hseen.vmm, hseen.huge, h.rest.trans hseen.rest, fun p hp => ?_⟩
  have hpage := hseen.pages p hp
  rw [hc, page_div, hframe, Word.canonFlags_mapFlags, h.pages p hp] at hpage
  rw [hpage, splitPages_succ hk]
  by_cases hpr : p = q / 1024 * 1024 + k
  · rw [if_pos hpr, if_pos ⟨hpr, hpr ▸ hkq⟩]
  · rw [if_neg hpr, if_neg fun hpk => hpr hpk.1]

/-- One page is taken out of a 4 MiB page. The others are mapped again, without the mark of a trap. -/
theorem Seen.pgunmapSplit (h : OwnVmm D s) (huge : PsePresent s) (hK : K.Closed) (hq : Regular q)
    (hsz : (s.mem s.cr3 (q / 1024)).pgsz = true)
    (hres : NoResolve True s (s.mem s.cr3 (q / 1024)) s.vmmCurrent (q / 1024 * 4194304)) (hf : FreeFrames s 2) :
    ∃ t, vmmPgunmap K s.vmmCurrent (q * 4096) 0 s = some ((), t) ∧ Seen D s t (splitPages s q 1024) := by
  have hoff := hq.offSlot
  have hslot := page_slot q
  have hsplit := pgunmapSplit_own (I := fun k w => k ≤ 1024 → Seen D s w (splitPages s q k)) (n := 0) h.tables rfl
    h.aligned hK hoff (by rw [hslot]; exact hsz) (fun _ => h.spread) (fun ho : True => ho) (by rw [hslot]; exact hres)
    ⟨fun _ => hf, fun hno => absurd trivial hno⟩ (fun _ => by rw [hslot]; exact .splitStart h huge hq hsz)
    (fun k w hk hw hlt => (hw (by omega)).splitSkip (by omega) (by omega)) fun k hk w σ t hne hw _ _ hm hwt hlt => ?_
  · obtain ⟨_, t, hrun, hI, -⟩ := (vmmPgunmapSmall_split (Q := fun _ t => Seen D s t (splitPages s q 1024) ∧ True)
      h.tables rfl hoff (by rw [hslot]; exact hsz) (hsplit.mono fun _ t ⟨hI, _, hrest, _⟩ =>
        ⟨hrest, hI (Nat.le_refl _), trivial⟩)).total trivial
    rw [vmmPgunmap_small hq]
    exact ⟨t, hrun, hI⟩
  · have hpage : q * 4096 - q * 4096 % 4194304 + k * 4096 = (q / 1024 * 1024 + k) * 4096 := by omega
    rw [hslot, hpage] at hm
    exact (hw (by omega)).splitNext huge hq hsz hk (by omega) hm hwt

theorem NoTrapped.untrapped (h : NoTrapped s) (j : ℕ) : Untrapped s j := fun p hp _ => h p hp

/-- One small page, whatever its slot holds. -/
theorem Seen.pgunmapSmall (h : OwnVmm D s) (huge : PsePresent s) (plain : NoTrapped s) (hK : K.Closed) (hq : Regular q)
    (hf : FreeFrames s 2) : ∃ t, vmmPgunmap K s.vmmCurrent (q * 4096) 0 s = some ((), t) ∧
      Seen D s t fun p => if p = q then none else view s.mem s.cr3 p := by
  cases hsz : (s.mem s.cr3 (q / 1024)).pgsz with
  | false =>
    refine ⟨_, h.pgunmapSmall_run (plain.untrapped _) hq hsz, ?_⟩
    split_ifs with he
    · exact clear h huge hq he
    · refine ⟨h, huge, rfl, fun p hp => ?_⟩
      split_ifs with hpq
      · have hz : s.mem s.cr3 (p / 1024) = 0#32 := by
          by_contra hne
          rw [hpq] at hne
          exact he ⟨hne, hsz⟩
        exact view_of_slot_zero hz
      · rfl
  | true =>
    have htrap := (plain.untrapped (q / 1024)).pse hq hsz
    obtain ⟨t, hrun, hseen⟩ := pgunmapSplit (K := K) h huge hK hq hsz (.of_untrapped htrap) hf
    refine ⟨t, hrun, { hseen with pages := fun p hp => (hseen.pages p hp).trans ?_ }⟩
    unfold splitPages
    rw [Word.mapFlags_eq htrap]
    by_cases hpq : p = q
    · simp [hpq]
    by_cases hpi : p / 1024 = q / 1024
    · simp [hpq, hpi, Nat.mod_lt, view_of_pgsz (hpi ▸ hsz : (s.mem s.cr3 (p / 1024)).pgsz = true)]
    · simp [hpq, hpi]

/-- A page is moved as large as it is mapped. -/
theorem Seen.setPaddr (h : OwnVmm D s) (huge : PsePresent s) (hva : OffSlot va) (hpa : pa < 4294967296)
    (hidx : pgszAt s.mem s.cr3 (va / 4096) = some idx) (hal : pa % vmmPgsz idx = 0)
    (hp' : (flagsAt s.mem s.cr3 (va / 4096)).getLsbD 0 = true) :
    Seen D s (setPaddrAt s s.cr3 va pa) (PageMap.move (view s.mem s.cr3) pa va idx) := by
  have hslot := va_slot va
  have hvmm : OwnVmm D (setPaddrAt s s.cr3 va pa) := by
    have hrest : SameRest s (setPaddrAt s s.cr3 va pa) := setPaddrAt_rest
    refine ⟨?_, ?_, h.spread.congr (by rw [hrest]; rfl) (by rw [hrest])⟩
    · rw [hrest.cr3_eq]
      exact h.tables.setPaddrAt rfl hva
    · rw [hrest.vmmCurrent_eq, hrest.cr3_eq, h.aligned]
  unfold pgszAt at hidx
  cases hsz : (s.mem s.cr3 (va / 4194304)).pgsz with
  | true =>
    rw [hslot, hsz, if_pos rfl] at hidx
    cases hidx
    change pa % 4194304 = 0 at hal
    have hset : setPaddrAt s s.cr3 va pa =
        s.set s.cr3 (va / 4194304) ((s.mem s.cr3 (va / 4194304)).setPsePa (pa / 4194304)) := by
      unfold setPaddrAt
      simp only [hsz, if_true]
    rw [hset] at hvmm ⊢
    refine ⟨hvmm, huge.set (i := va / 4194304) (fun j hj => s.set_mem_of_ne_index _ _ _ _ hj) rfl fun _ => ?_, rfl,
      fun p hp => ?_⟩
    · rw [s.set_mem_self, Word.setPsePa_present]
      exact huge _ hva.lt hva.2 hsz
    · unfold PageMap.move
      by_cases hpi : p / 1024 = va / 4194304
      · have hold : view s.mem s.cr3 p = _ := view_of_pgsz (by rw [hpi]; exact hsz)
        have hstart : p - pageStart 1 va = p % 1024 := by
          change p - va / 4194304 * 1024 = _
          omega
        rw [if_pos (covers_huge.mpr hpi), hold, Option.map_some, hstart,
          view_of_pgsz (by rw [hpi, s.set_mem_self, Word.setPsePa_pgsz, hsz]), hpi, s.set_mem_self,
          Word.setPsePa_psePa, Word.getFlags_setPsePa]
        congr 2
        omega
      · rw [if_neg fun hcov => hpi (covers_huge.mp hcov)]
        exact h.tables.view_slot rfl (fun j hj => s.set_mem_of_ne_index _ _ _ _ hj)
          (fun g hg => s.set_mem_of_ne _ _ _ fun e => hg (e ▸ h.tables.sub rfl)) hp hpi
  | false =>
    rw [hslot, hsz, if_neg Bool.false_ne_true] at hidx
    split_ifs at hidx with hz
    cases hidx
    change pa % 4096 = 0 at hal
    have he : (s.mem s.cr3 (va / 4096 / 1024)).HasTable := by
      by_contra hno
      exact hz (pteAt_of_not_hasTable hno)
    have hset : setPaddrAt s s.cr3 va pa = s.set (s.mem s.cr3 (va / 4096 / 1024)).pt (va / 4096 % 1024)
        ((pteAt s.mem s.cr3 (va / 4096)).setPt (pa / 4096)) := by
      unfold setPaddrAt
      simp only [hsz, hz, hslot, if_false, Bool.false_eq_true]
    rw [hset] at hvmm ⊢
    refine ⟨hvmm, huge.setPte h hva.page he _, rfl, fun p hp => ?_⟩
    have hold : view s.mem s.cr3 (va / 4096) = some ((pteAt s.mem s.cr3 (va / 4096)).pt,
        (pteAt s.mem s.cr3 (va / 4096)).getFlags) := by
      rw [view_of_not_pgsz (by rw [hslot]; exact hsz), viewPte, if_neg hz]
    rw [h.tables.view_setPte rfl hva.page he _ hp, PageMap.move]
    by_cases hpv : p = va / 4096
    · have hpres : ((pteAt s.mem s.cr3 (va / 4096)).setPt (pa / 4096)).present = true := by
        rw [Word.setPt_present, ← Word.getFlags_bit0]
        rw [flagsAt, hold] at hp'
        exact hp'
      have hstart : va / 4096 - pageStart 0 va = 0 := by
        change va / 4096 - va / 4096 * 1 = 0
        omega
      rw [if_pos hpv, if_pos (covers_small.mpr hpv), hpv, hold, Option.map_some, hstart, viewPte,
        if_neg (Word.ne_zero_of_present hpres), Word.setPt_pt, Word.getFlags_setPt]
      congr 2
      omega
    · rw [if_neg hpv, if_neg fun hcov => hpv (covers_small.mp hcov)]

/-! Any number of calls. -/

/-- The step lemma: a call returns, and the pages are what it is meant to make of them. -/
theorem Seen.call (h : OwnVmm D s) (huge : PsePresent s) (plain : NoTrapped s) (hK : K.Closed) {c : PageCall}
    (ready : c.Ready s) (allowed : c.Plain s) :
    ∃ t, c.run K s.vmmCurrent s = some ((), t) ∧ Seen D s t (c.apply s (view s.mem s.cr3)) := by
  cases c with
  | pgmap pa va idx flags =>
    obtain ⟨hva, hidx, hal, hpa, hpal, hfl, hf⟩ := ready
    obtain rfl | rfl : idx = 0 ∨ idx = 1 := by omega
    · change va % 4096 = 0 at hal
      obtain ⟨t, hrun, hseen⟩ := pgmapSmall (K := K) h huge hK hva.page hf hfl pa
      rw [Nat.div_mul_cancel (Nat.dvd_of_mod_eq_zero hal)] at hrun
      rw [PageCall.apply, PageMap.map_small _ va flags hpa]
      exact ⟨t, hrun, hseen⟩
    · change va % 4194304 = 0 at hal
      obtain ⟨t, hrun, hseen⟩ := pgmapHuge (K := K) h huge hK hva.page hf hfl pa
      rw [Nat.div_mul_cancel (Nat.dvd_of_mod_eq_zero (by omega))] at hrun
      rw [va_slot] at hseen
      rw [PageCall.apply, PageMap.map_huge _ va flags hpa hpal]
      exact ⟨t, hrun, hseen⟩
  | pgunmap va idx =>
    obtain ⟨hva, hidx, hal, hf⟩ := ready
    obtain rfl | rfl : idx = 0 ∨ idx = 1 := by omega
    · change va % 4096 = 0 at hal
      obtain ⟨t, hrun, hseen⟩ := pgunmapSmall (K := K) h huge plain hK hva.page hf
      rw [Nat.div_mul_cancel (Nat.dvd_of_mod_eq_zero hal)] at hrun
      rw [PageCall.apply, PageMap.unmap_small]
      exact ⟨t, hrun, hseen⟩
    · change va % 4194304 = 0 at hal
      have hrun := h.pgunmapHuge_run (K := K) (plain.untrapped _) hva.page
      have hseen := releaseAt h huge hva.page
      rw [Nat.div_mul_cancel (Nat.dvd_of_mod_eq_zero (by omega)), va_slot] at hrun
      rw [va_slot] at hseen
      rw [PageCall.apply, PageMap.unmap_huge]
      exact ⟨_, hrun, hseen⟩
  | setPaddr va pa =>
    obtain ⟨hva, hpa, idx, hidx, hal⟩ := ready
    have hseen := setPaddr h huge hva hpa hidx hal allowed.2
    refine ⟨_, vmmSetPaddr_cur h.tables rfl hva pa, ?_⟩
    rw [PageCall.apply, hidx]
    exact hseen

/-- What a call does to a page depends on what the map says of that page only. -/
theorem PageCall.apply_congr (c : PageCall) {m m' : PageMap} {p : ℕ} (h : m p = m' p) :
    c.apply s m p = c.apply s m' p := by
  cases c with
  | pgmap pa va idx flags => simp only [PageCall.apply, PageMap.map, h]
  | pgunmap va idx => simp only [PageCall.apply, PageMap.unmap, h]
  | setPaddr va pa =>
    simp only [PageCall.apply]
    cases pgszAt s.mem s.cr3 (va / 4096) with
    | none => exact h
    | some idx => simp only [PageMap.move, h]

/-- Calls that announce no trap leave pages without one. -/
theorem PageCall.apply_plain {c : PageCall} (allowed : c.NoTrap) (m : PageMap) {p : ℕ}
    (h : ∀ x ∈ m p, x.2.getLsbD 6 = false) : ∀ x ∈ c.apply s m p, x.2.getLsbD 6 = false := by
  cases c with
  | pgmap pa va idx flags =>
    intro x hx
    simp only [PageCall.apply, PageMap.map] at hx
    split_ifs at hx
    · cases hx
      rw [Word.canonFlags_bit6]
      exact allowed
    · exact h x hx
  | pgunmap va idx =>
    intro x hx
    simp only [PageCall.apply, PageMap.unmap] at hx
    split_ifs at hx
    · cases hx
    · exact h x hx
  | setPaddr va pa =>
    simp only [PageCall.apply]
    cases pgszAt s.mem s.cr3 (va / 4096) with
    | none => exact h
    | some idx =>
      intro x hx
      simp only [PageMap.move] at hx
      split_ifs at hx
      · obtain ⟨y, hy, rfl⟩ := Option.map_eq_some_iff.mp (Option.mem_def.mp hx)
        exact h y hy
      · exact h x hx

/-- The run lemma: the tables are those of a VMM without traps, and they hold what the map says. -/
theorem PageRun.seen {m : PageMap} (hK : K.Closed) (h : PageRun K D PageCall.Plain s m) :
    OwnVmm D s ∧ PsePresent s ∧ NoTrapped s ∧ ∀ p ∈ regular, view s.mem s.cr3 p = m p := by
  induction h with
  | start h huge plain => exact ⟨h, huge, plain, fun _ _ => rfl⟩
  | @call s t m c _ ready allowed run ih =>
    obtain ⟨hvmm, huge, plain, hpages⟩ := ih
    obtain ⟨u, hu, hseen⟩ := Seen.call hvmm huge plain hK ready allowed
    obtain rfl : t = u := congrArg Prod.snd (Option.some.inj (run.symm.trans hu))
    have hnow : ∀ p ∈ regular, view t.mem t.cr3 p = c.apply s (view s.mem s.cr3) p := by
      intro p hp
      rw [hseen.rest.cr3_eq]
      exact hseen.pages p hp
    refine ⟨hseen.vmm, hseen.huge, fun p hp x hx => ?_, fun p hp => ?_⟩
    · rw [hnow p hp] at hx
      exact PageCall.apply_plain allowed.1 _ (fun y hy => plain p hp y hy) x hx
    · rw [hnow p hp]
      exact c.apply_congr (hpages p hp)

/-- The observers read the entry of a page. -/
theorem OwnVmm.observed {m : PageMap} (h : OwnVmm D s) (hpages : ∀ p ∈ regular, view s.mem s.cr3 p = m p) :
    PagesObserved K s m := by
  intro va hva
  have hview := hpages _ hva.page
  refine ⟨?_, ?_, _, vmmGetPgsz_cur h.tables rfl hva, ?_⟩
  · rw [vmmGetPaddr_cur h.tables rfl hva, paddrAt, PageMap.paddr, hview]
    cases m (va / 4096) <;> rfl
  · rw [vmmGetFlags_cur h.tables rfl hva, flagsAt, PageMap.flags, hview]
    cases m (va / 4096) <;> rfl
  · rw [pgszAt_eq_none, hview]

end Calls

theorem permissionSample_regular : NoTrapped permissionSample := by
  intro p hp x hx
  have hview : view permissionSample.mem permissionSample.cr3 p = none := permissionSample_view hp
  rw [hview] at hx
  cases hx

theorem permissionSample_huge : PsePresent permissionSample := by
  intro i _ hne hsz
  have hzero : permissionSample.mem permissionSample.cr3 i = 0#32 := permissionSample_slot hne
  rw [hzero] at hsz
  cases hsz

/-- A 4 MiB page is mapped with the mark of a trap and one of its small pages unmapped: the others lose the mark. -/
theorem trap_mark_lost : ∃ s m, PageRun (callees 1) {1} PageCall.MovesPresent s m ∧ ¬ PagesObserved (callees 1) s m := by
  have hK : (callees 1).Closed := ⟨callees 0, rfl, rfl⟩
  have hq : Regular 1024 := ⟨by decide, by decide⟩
  obtain ⟨t, hrun, hseen⟩ := Seen.pgmapHuge permissionSample_own permissionSample_huge hK hq
    (permissionSample_frames.mono (by decide)) (show (65#32).getLsbD 0 = true by decide) 0
  obtain ⟨t', hrun', -, hframes⟩ := permissionSample_own.pgmapHuge (n := 2) hK hq
    (permissionSample_frames.mono (by decide)) 0 65#32
  obtain rfl : t = t' := congrArg Prod.snd (Option.some.inj (hrun.symm.trans hrun'))
  have hsz : (t.mem t.cr3 (1024 / 1024)).pgsz = true := by
    have ht : t = Comp.after (vmmPgmap (callees 1) permissionSample.vmmCurrent 0 (1024 * 4096) 1 65#32) permissionSample := by
      rw [Comp.after, hrun]
      rfl
    rw [ht]
    decide +kernel
  have hres : NoResolve True t (t.mem t.cr3 (1024 / 1024)) t.vmmCurrent (1024 / 1024 * 4194304) := by
    have hrest := hseen.rest
    intro _
    refine ⟨?_, fun _ => by rw [hrest]; rfl⟩
    rintro ⟨x, hx, -⟩
    rw [hrest] at hx
    cases hx
  obtain ⟨u, hurun, huseen⟩ := Seen.pgunmapSplit hseen.vmm hseen.huge hK hq hsz hres hframes
  have hreach : PageRun (callees 1) {1} PageCall.MovesPresent u _ :=
    .call (.pgunmap 0x400000 0) (.call (.pgmap 0 0x400000 1 65#32)
      (.start permissionSample_own permissionSample_huge permissionSample_regular)
      ⟨⟨by decide, by decide⟩, by decide, by decide, by decide, by decide, by decide,
        permissionSample_frames.mono (by decide)⟩ trivial hrun)
      ⟨⟨by decide, by decide⟩, by decide, by decide, hframes⟩ trivial hurun
  refine ⟨u, _, hreach, fun h => ?_⟩
  obtain ⟨-, hflags, -⟩ := h 0x401000 ⟨by decide, by decide⟩
  rw [vmmGetFlags_cur huseen.vmm.tables rfl ⟨by decide, by decide⟩] at hflags
  have hread : flagsAt u.mem u.cr3 1025 = (t.mem t.cr3 (1024 / 1024)).mapFlags := by
    rw [flagsAt, huseen.rest.cr3_eq, huseen.pages 1025 ⟨by decide, by decide⟩]
    rfl
  have hsame : flagsAt u.mem u.cr3 1025 = Word.canonFlags 65#32 := congrArg Prod.fst (Option.some.inj hflags)
  have hbit := congrArg (fun w => w.getLsbD 6) (hread.symm.trans hsame)
  rw [Word.mapFlags_bit6, Word.canonFlags_bit6] at hbit
  cases hbit

/-- A VMM with one page table, which is empty. -/
def tableSample : Machine := permissionSample.set 1 1 0x2003#32

theorem tableSample_slot {i : ℕ} (hi : i ≠ 767) (hi' : i ≠ 1) : tableSample.mem 1 i = 0#32 :=
  (permissionSample.set_mem_of_ne_index _ _ _ _ hi').trans (permissionSample_slot hi)

theorem tableSample_table (j : ℕ) : tableSample.mem 2 j = 0#32 := rfl

theorem tableSample_own : OwnVmm {1} tableSample := by
  have hfits : Fits {1} {1} permissionSample 1 1 0x2003#32 := by
    refine fun _ => ⟨by decide, by decide, by decide, by decide, ?_⟩
    intro w hw j _ hne _ ht
    obtain rfl : w = 1 := hw
    rw [permissionSample_slot hne] at ht
    exact absurd ht Word.not_hasTable_zero
  exact ⟨permissionSample_start.tables.setPde (by decide) hfits, permissionSample_own.aligned,
    permissionSample_own.spread.congr rfl rfl⟩

theorem tableSample_huge : PsePresent tableSample := by
  intro i _ hne hsz
  by_cases hi : i = 1
  · rw [hi] at hsz
    exact absurd hsz (by decide)
  · have hzero : tableSample.mem tableSample.cr3 i = 0#32 := tableSample_slot hne hi
    rw [hzero] at hsz
    cases hsz

theorem tableSample_view {p : ℕ} (hp : Regular p) : view tableSample.mem tableSample.cr3 p = none := by
  have hc : tableSample.cr3 = 1 := rfl
  by_cases hpi : p / 1024 = 1
  · have hentry : tableSample.mem 1 1 = 0x2003#32 := rfl
    have hpt : Word.pt 0x2003#32 = 2 := by decide
    rw [hc, view_eq_pte (by rw [hpi, hentry]; decide), viewPte_eq_none, hpi, hentry, hpt, tableSample_table]
  · exact view_of_slot_zero (tableSample_slot hp.2 hpi)

/-- One entry of the table is not present and has no flag at all. -/
def straySample : Machine := tableSample.set 2 0 0x5000#32

theorem straySample_view {p : ℕ} (hp : Regular p) : view straySample.mem straySample.cr3 p =
    if p = 1024 then some (5, flagCache) else none := by
  have hq : Regular 1024 := ⟨by decide, by decide⟩
  have hset := tableSample_own.tables.view_setPte (v := 1) rfl hq (by decide) 0x5000#32 hp
  have hnone : view tableSample.mem 1 p = none := tableSample_view hp
  rw [hnone] at hset
  exact hset

/-- The entry is moved to address 0, and the page is not mapped any more. -/
theorem stray_entry_lost : ∃ s m, PageRun (callees 1) {1} (fun _ c => c.NoTrap) s m ∧ ¬ PagesObserved (callees 1) s m := by
  have hvmm : OwnVmm {1} straySample :=
    ⟨tableSample_own.tables.set (by decide) _ _, tableSample_own.aligned, tableSample_own.spread.congr rfl rfl⟩
  have huge : PsePresent straySample := tableSample_huge
  have plain : NoTrapped straySample := by
    intro p hp x hx
    rw [straySample_view hp] at hx
    split_ifs at hx
    · cases hx
      decide
    · cases hx
  have hva : OffSlot 0x400000 := ⟨by decide, by decide⟩
  have hreach : PageRun (callees 1) {1} (fun _ c => c.NoTrap) (setPaddrAt straySample 1 0x400000 0) _ :=
    .call (.setPaddr 0x400000 0) (.start hvmm huge plain) ⟨hva, by decide, 0, by decide +kernel, by decide⟩ trivial
      (vmmSetPaddr_cur hvmm.tables rfl hva 0)
  refine ⟨_, _, hreach, fun h => ?_⟩
  obtain ⟨-, -, r, hr, hmapped⟩ := h 0x400000 hva
  have hgone : vmmGetPgsz (callees 1) 0x1000 0x400000 (setPaddrAt straySample 1 0x400000 0) =
      some (none, setPaddrAt straySample 1 0x400000 0) := by
    have hnone : pgszAt (setPaddrAt straySample 1 0x400000 0).mem 1 1024 = none := by decide +kernel
    rw [← hnone]
    exact vmmGetPgsz_cur (hvmm.tables.setPaddrAt rfl hva) rfl hva
  obtain rfl : r = none := congrArg Prod.fst (Option.some.inj (hr.symm.trans hgone))
  have hthere : ((PageCall.setPaddr 0x400000 0).apply straySample (view straySample.mem straySample.cr3) 1024).isSome =
      true := by decide +kernel
  rw [show PageCall.apply straySample _ (PageCall.setPaddr 0x400000 0) 1024 = none from hmapped.mp rfl] at hthere
  cases hthere

end SysX
