import SysX.Unmapping
import SysX.Translation

/-!
What a call takes out of the physical allocator, and what is left of it. A window needs a frame of its own when no page table
covers its page yet.
-/
namespace SysX

/-- The frames that the allocator has left, the next one first. -/
def freeFrames (s : Machine) : List ℕ := (List.range s.pmmFrames).filter fun f => ¬ used s f

/-- The pages for windows, the next one first. -/
def freePages (s : Machine) : List ℕ :=
  (List.range userPages).filter fun p => 1 ≤ p ∧ view s.mem s.cr3 p = none

/-- What a frame is asked for: a page table of the VMM, or the one behind a window. -/
inductive Request
  | table
  | window (p : ℕ)
  deriving DecidableEq, Repr

/-- The page table behind the window at page `p` is a new one, unless its slot has one or is among `seen`. -/
def windowCost (s : Machine) (seen : List ℕ) (p : ℕ) : ℕ :=
  if (s.mem s.cr3 (p / 1024)).HasTable ∨ p / 1024 ∈ seen then 0 else 1

/-- The number of frames for a list of requests. -/
def framesFor (s : Machine) : (seen : List ℕ) → List Request → ℕ
  | _, [] => 0
  | seen, .table :: rs => 1 + framesFor s seen rs
  | seen, .window p :: rs => windowCost s seen p + framesFor s (p / 1024 :: seen) rs

section Frames

variable {s : Machine} {f : ℕ} {fs : List ℕ}

theorem mem_freeFrames : f ∈ freeFrames s ↔ f < s.pmmFrames ∧ ¬ used s f := by
  unfold freeFrames
  rw [List.mem_filter, List.mem_range, decide_eq_true_eq]

theorem freeFrames_sorted (s : Machine) : (freeFrames s).Pairwise (· < ·) := List.pairwise_lt_range.filter _

theorem pmmAllocFree_nil (hb : s.pmmFrames ≤ 1048576) (h : freeFrames s = []) :
    pmmAllocFree 1 s = some (none, s) := by
  rcases pmmAllocFree_first hb with ⟨hrun, -⟩ | ⟨f, hf, hfree, -⟩
  · exact hrun
  · have hmem := mem_freeFrames.mpr ⟨hf, hfree⟩
    rw [h] at hmem
    cases hmem

theorem freeFrames_alloc (h : freeFrames s = f :: fs) : freeFrames (s.setBitmap f true) = fs := by
  have hnd : (freeFrames s).Nodup := (freeFrames_sorted s).imp Nat.ne_of_lt
  have herase : (freeFrames s).erase f = fs := by
    rw [h, List.erase_cons_head]
  rw [← herase, hnd.erase_eq_filter]
  unfold freeFrames
  rw [List.filter_filter]
  refine List.filter_congr fun g _ => ?_
  rw [Bool.eq_iff_iff, decide_eq_true_eq, used_alloc, Bool.and_eq_true, decide_eq_true_eq, bne_iff_ne]
  exact not_or

theorem pmmAllocFree_cons (hb : s.pmmFrames ≤ 1048576) (h : freeFrames s = f :: fs) :
    pmmAllocFree 1 s = some (some f, s.setBitmap f true) ∧ f < s.pmmFrames ∧ ¬ used s f := by
  have hf : f ∈ freeFrames s := by
    rw [h]
    exact List.mem_cons_self
  have hsorted := freeFrames_sorted s
  rw [h, List.pairwise_cons] at hsorted
  rcases pmmAllocFree_first hb with ⟨-, hfull⟩ | ⟨g, hg, hfree, hlow, hrun⟩
  · exact absurd (hfull f (mem_freeFrames.mp hf).1) (mem_freeFrames.mp hf).2
  · have hgf : g = f := by
      have hmem := mem_freeFrames.mpr ⟨hg, hfree⟩
      rw [h, List.mem_cons] at hmem
      rcases hmem with rfl | hmem
      · rfl
      · exact absurd (hlow f (hsorted.1 g hmem)) (mem_freeFrames.mp hf).2
    rw [← hgf]
    exact ⟨hrun, hg, hfree⟩

end Frames

/-- The pages for windows in the state `s` with the windows `W`, as a list. -/
structure FreeList (s : Machine) (W : ℕ → Word) (ps : List ℕ) : Prop where
  sorted : ps.Pairwise (· < ·)
  mem : ∀ p, p ∈ ps ↔ FreePage s W p

section Pages

variable {s t : Machine} {W : ℕ → Word} {p : ℕ} {ps : List ℕ}

theorem freeList_freePages (s : Machine) : FreeList s (fun _ => 0#32) (freePages s) where
  sorted := List.pairwise_lt_range.filter _
  mem p := by
    unfold freePages FreePage
    rw [List.mem_filter, List.mem_range, decide_eq_true_eq]
    exact ⟨fun h => ⟨h.2.1, h.1, rfl, h.2.2⟩, fun h => ⟨h.2.1, h.1, h.2.2.2⟩⟩

theorem FreeList.congr (h : FreeList s W ps) (hview : ∀ p < userPages, view t.mem t.cr3 p = view s.mem s.cr3 p) :
    FreeList t W ps where
  sorted := h.sorted
  mem p := by
    rw [h.mem p]
    unfold FreePage
    constructor
    · rintro ⟨h1, hu, hw, hv⟩
      exact ⟨h1, hu, hw, (hview p hu).trans hv⟩
    · rintro ⟨h1, hu, hw, hv⟩
      exact ⟨h1, hu, hw, (hview p hu).symm.trans hv⟩

theorem FreeList.head (h : FreeList s W (p :: ps)) : FreePage s W p := (h.mem p).mp List.mem_cons_self

/-- The pages that are left when the first one is a window. -/
theorem FreeList.open (h : FreeList s W (p :: ps)) {w : Word} (hw : w ≠ 0#32) :
    FreeList s (Function.update W p w) ps where
  sorted := (List.pairwise_cons.mp h.sorted).2
  mem r := by
    have hlt := (List.pairwise_cons.mp h.sorted).1
    constructor
    · intro hr
      exact ((h.mem r).mp (List.mem_cons_of_mem p hr)).update (Nat.ne_of_gt (hlt r hr)) w
    · intro hr
      have hne : r ≠ p := by
        rintro rfl
        have h0 := hr.2.2.1
        rw [Function.update_self] at h0
        exact hw h0
      have h0 := hr.2.2.1
      rw [Function.update_of_ne hne] at h0
      have hmem := (h.mem r).mpr ⟨hr.1, hr.2.1, h0, hr.2.2.2⟩
      exact (List.mem_cons.mp hmem).resolve_left hne

end Pages

/-- The allocator has handed out its first `k` frames since `s`, and the slots that have page tables for windows are those of
before and the ones in `seen`. -/
structure Stock (s t : Machine) (seen : List ℕ) (k : ℕ) : Prop where
  le : k ≤ (freeFrames s).length
  frames : freeFrames t = (freeFrames s).drop k
  tables : ∀ i < 767, (t.mem s.cr3 i).HasTable ↔ (s.mem s.cr3 i).HasTable ∨ i ∈ seen

section Stock

variable {s t u : Machine} {seen seen' : List ℕ} {k p : ℕ}

theorem Stock.refl (s : Machine) : Stock s s [] 0 where
  le := Nat.zero_le _
  frames := rfl
  tables i _ := by simp

/-- A step without an allocation. -/
theorem Stock.step (h : Stock s t seen k) (hb : freeFrames u = freeFrames t)
    (htables : ∀ i < 767, (u.mem s.cr3 i).HasTable ↔ (t.mem s.cr3 i).HasTable) : Stock s u seen k :=
  ⟨h.le, hb.trans h.frames, fun i hi => (htables i hi).trans (h.tables i hi)⟩

theorem Stock.congr (h : Stock s t seen k) (hseen : ∀ i, i ∈ seen' ↔ i ∈ seen) : Stock s t seen' k :=
  ⟨h.le, h.frames, fun i hi => by rw [h.tables i hi, hseen i]⟩

theorem Stock.empty (h : Stock s t seen k) (hf : freeFrames t = []) : ¬ k + 1 ≤ (freeFrames s).length := by
  have hdrop := h.frames
  rw [hf] at hdrop
  have := List.drop_eq_nil_iff.mp hdrop.symm
  omega

theorem Stock.take {f : ℕ} {fs : List ℕ} (h : Stock s t seen k) (hf : freeFrames t = f :: fs) :
    k + 1 ≤ (freeFrames s).length ∧ (freeFrames s)[k]? = some f ∧ fs = (freeFrames s).drop (k + 1) := by
  have hdrop := h.frames
  rw [hf] at hdrop
  have hlt : k < (freeFrames s).length := by
    by_contra hle
    rw [List.drop_eq_nil_of_le (Nat.not_lt.mp hle)] at hdrop
    cases hdrop
  rw [List.drop_eq_getElem_cons hlt] at hdrop
  obtain ⟨hhead, htail⟩ := List.cons.inj hdrop
  exact ⟨hlt, by rw [List.getElem?_eq_getElem hlt, hhead], htail⟩

/-- The frame of a page table of the VMM. -/
theorem Stock.alloc {f : ℕ} {fs : List ℕ} (h : Stock s t seen k) (hf : freeFrames t = f :: fs)
    (hu : freeFrames u = fs) (htables : ∀ i < 767, (u.mem s.cr3 i).HasTable ↔ (t.mem s.cr3 i).HasTable) :
    Stock s u seen (k + 1) :=
  ⟨(h.take hf).1, hu.trans (h.take hf).2.2, fun i hi => (htables i hi).trans (h.tables i hi)⟩

theorem Stock.widen {i : ℕ} (h : Stock s t seen k) (hi : ∀ j, j = i → (t.mem s.cr3 j).HasTable) :
    Stock s t (i :: seen) k := by
  refine ⟨h.le, h.frames, fun j hj => ?_⟩
  rw [List.mem_cons, h.tables j hj]
  constructor
  · exact fun hor => hor.imp_right .inr
  · rintro (hor | hji | hor)
    · exact .inl hor
    · exact (h.tables j hj).mp (hi j hji)
    · exact .inr hor

/-- A page table that was there before. -/
theorem Stock.seeTable {i : ℕ} (h : Stock s t seen k) (hi : i < 767) (ht : (t.mem s.cr3 i).HasTable)
    (hb : freeFrames u = freeFrames t) (htables : ∀ j < 767, (u.mem s.cr3 j).HasTable ↔ (t.mem s.cr3 j).HasTable) :
    Stock s u (i :: seen) k := by
  refine (h.step hb htables).widen fun j hj => ?_
  rw [hj, htables i hi]
  exact ht

/-- A new page table of the current VMM. -/
theorem Stock.addTable {i f : ℕ} {fs : List ℕ} (h : Stock s t seen k) (hf : freeFrames t = f :: fs)
    (hu : freeFrames u = fs) (htables : ∀ j < 767, (u.mem s.cr3 j).HasTable ↔ j = i ∨ (t.mem s.cr3 j).HasTable) :
    Stock s u (i :: seen) (k + 1) := by
  refine ⟨(h.take hf).1, hu.trans (h.take hf).2.2, fun j hj => ?_⟩
  rw [htables j hj, h.tables j hj, List.mem_cons]
  exact or_left_comm

theorem Stock.windowCost_eq (h : Stock s t seen k) (hp : p / 1024 < 767) :
    windowCost s seen p = if (t.mem s.cr3 (p / 1024)).HasTable then 0 else 1 := by
  unfold windowCost
  exact if_congr (h.tables _ hp).symm rfl rfl

end Stock

section Opening

variable {D L : Set ℕ} {s s₀ t : Machine} {W : ℕ → Word} {K : Callees} {seen : List ℕ} {k p pa v f : ℕ} {flags : Word}

/-- Writing an entry of a page table changes neither what the directory has tables for nor the bitmap. -/
theorem pgmapEntryAt_hasTable {va i : ℕ} (hvf : v ≠ f) (hp : (t.mem v (va / 4194304)).present = true)
    (ht : (t.mem v (va / 4194304)).HasTable) :
    ((pgmapEntryAt t v f pa va flags).mem v i).HasTable ↔ (t.mem v i).HasTable := by
  unfold pgmapEntryAt
  dsimp only
  rw [Machine.set_mem_of_ne _ _ _ _ hvf]
  by_cases hi : i = va / 4194304
  · subst hi
    rw [Machine.set_mem_self]
    refine iff_of_true (.of_present ?_ ?_) ht
    · rw [Word.orFlags_present, hp]
      rfl
    · rw [Word.orFlags_pgsz, ht.2]
  · rw [t.set_mem_of_ne_index _ _ _ _ hi]

theorem newTableAt_hasTable {i j : ℕ} (hvf : v ≠ f) :
    ((newTableAt t v i f).mem v j).HasTable ↔ j = i ∨ (t.mem v j).HasTable := by
  by_cases hji : j = i
  · rw [hji, newTableAt_mem_pde hvf]
    exact iff_of_true (newTableEntry_hasTable _ f) (.inl rfl)
  · rw [newTableAt, Machine.setFrame_mem_of_ne _ _ hvf, Machine.set_mem_of_ne_index _ _ _ _ _ hji, or_iff_right hji]
    rfl

/-- Mapping a window with a count of the frames: it faults only when the frame for its page table is missing. -/
theorem Windowed.mapWindow_stock (h : Windowed D L s t W) (hfl : WindowFlags flags) (K : Callees)
    (hst : Stock s₀ t seen k) (hcr : s.cr3 = s₀.cr3) (hn : NullGuard s) (hp : FreePage s W p) (pa : ℕ) :
    Comp.Wp (k + windowCost s₀ seen p ≤ (freeFrames s₀).length) (vmmPgmap K s.vmmCurrent pa (p * 4096) 0 flags)
      (fun _ u => Windowed D L s u (Function.update W p (windowPte flags pa)) ∧
        Stock s₀ u (p / 1024 :: seen) (k + windowCost s₀ seen p)) t := by
  have hi := page_slot p
  have hlt := userPages_slot hp.2.1
  have hcost := hst.windowCost_eq hlt
  rw [← hcr] at hcost
  have hpt : ∀ f, f < t.pmmFrames → ¬ SysX.used t f → s.cr3 ≠ f := fun f _ hfree e =>
    hfree (e ▸ (h.actual.dir _ (h.actual.sub h.cur)).1)
  by_cases ht : (t.mem s.cr3 (p / 1024)).HasTable
  · rw [if_pos ht] at hcost
    have hpres := h.actual.present _ h.cur _ (by omega) (by omega) ht
    rw [hcost]
    refine .of_eq (h.mapWindow_table K pa flags hp ht) ⟨h.pgmapEntryAt hfl pa hp ht,
      hst.seeTable hlt (hcr ▸ ht) rfl fun i _ => ?_⟩
    have hne := (h.actual.pt_ne h.cur (h.actual.sub h.cur) (by omega) (by omega) ht).symm
    rw [← hcr]
    exact pgmapEntryAt_hasTable hne (by rw [hi]; exact hpres) (by rw [hi]; exact ht)
  · rw [if_neg ht] at hcost
    rw [hcost]
    cases hfr : freeFrames t with
    | nil => exact .of_fault (h.mapWindow_full K pa flags hp ht hn (pmmAllocFree_nil h.actual.frames hfr)) (hst.empty hfr)
    | cons f fs =>
      obtain ⟨ha, hf, hfree⟩ := pmmAllocFree_cons h.actual.frames hfr
      obtain ⟨hrun, hw⟩ := h.mapWindow_new hfl K pa hp ht hf hfree ha
      have hcf := hpt f hf hfree
      refine .of_eq hrun ⟨hw, hst.addTable hfr (freeFrames_alloc hfr) fun i _ => ?_⟩
      rw [← hcr, pgmapEntryAt_hasTable hcf (by rw [hi, newTableAt_mem_pde hcf]; exact newTableEntry_present _ f)
        (by rw [hi, newTableAt_mem_pde hcf]; exact newTableEntry_hasTable _ f), newTableAt_hasTable hcf]

/-- A window onto the frame `g` was opened at the first of the free pages, if there is one. -/
def OpensFirst (D L : Set ℕ) (s₀ s t : Machine) (W : ℕ → Word) (seen : List ℕ) (k g : ℕ) (flags : Word) :
    List ℕ → ℕ → Machine → Prop
  | [], a, u => a = 0 ∧ u = t
  | p :: _, a, u => a = p * 4096 ∧ Windowed D L s u (Function.update W p (windowPte flags (g * 4096))) ∧
      Stock s₀ u (p / 1024 :: seen) (k + windowCost s₀ seen p)

/-- The frames for one window, at the first of the free pages. -/
def firstCost (s : Machine) (seen : List ℕ) (ps : List ℕ) : ℕ := framesFor s seen ((ps.take 1).map .window)

theorem FreeList.eq_cons {q : ℕ} {ps : List ℕ} (h : FreeList s W ps) (hqp : ∀ r ∈ ps, q ≤ r) (hp : FreePage s W p)
    (hfirst : ∀ r, q ≤ r → r < p → ¬ FreePage s W r) : ∃ rs, ps = p :: rs := by
  have hmem := (h.mem p).mpr hp
  cases ps with
  | nil => cases hmem
  | cons r rs =>
    rcases List.mem_cons.mp hmem with rfl | hrs
    · exact ⟨rs, rfl⟩
    · have hlt := (List.pairwise_cons.mp h.sorted).1 p hrs
      exact absurd h.head (hfirst r (hqp r List.mem_cons_self) hlt)

theorem Windowed.open_stock {q : ℕ} {ps : List ℕ} (h : Windowed D L s t W) (hfl : WindowFlags flags) (hK : K.Closed)
    (hst : Stock s₀ t seen k) (hcr : s.cr3 = s₀.cr3) (hn : NullGuard s) (hps : FreeList s W ps) (hq : q < 1048576)
    (hqp : ∀ r ∈ ps, q ≤ r) (g : ℕ) :
    Comp.Wp (k + firstCost s₀ seen ps ≤ (freeFrames s₀).length)
      (K.vmmAllocMap s.vmmCurrent (g * 4096) 4096 (q * 4096) kernelStart 0 0 false flags)
      (OpensFirst D L s₀ s t W seen k g flags ps) t := by
  obtain ⟨K', hK', -⟩ := hK
  rw [hK']
  refine (h.openWindow_rule (R := fun p u => Windowed D L s u (Function.update W p (windowPte flags (g * 4096))) ∧
    Stock s₀ u (p / 1024 :: seen) (k + windowCost s₀ seen p)) K' hq (Nat.mul_mod_left g 4096) ?_).mono ?_
  · intro p _ hp hfirst
    obtain ⟨rs, rfl⟩ := hps.eq_cons hqp hp hfirst
    exact h.mapWindow_stock hfl K' hst hcr hn hp (g * 4096)
  · rintro a u (⟨rfl, rfl, hno⟩ | ⟨p, rfl, -, hp, hfirst, hw, hst'⟩)
    · cases ps with
      | nil => exact ⟨rfl, rfl⟩
      | cons r rs => exact absurd hps.head (hno r (hqp r List.mem_cons_self))
    · obtain ⟨rs, rfl⟩ := hps.eq_cons hqp hp hfirst
      exact ⟨rfl, hw, hst'⟩

variable {ps : List ℕ}

theorem Windowed.openPd_stock (h : Windowed D L s t W) (hfl : WindowFlags flags) (hK : K.Closed)
    (hst : Stock s₀ t seen k) (hcr : s.cr3 = s₀.cr3) (hn : NullGuard s) (hps : FreeList s W ps)
    (hv : v * 4096 ≠ s.vmmCurrent) :
    Comp.Wp (k + firstCost s₀ seen ps ≤ (freeFrames s₀).length) (openPd K (v * 4096) flags)
      (OpensFirst D L s₀ s t W seen k v flags ps) t := by
  have hopen := h.open_stock (q := 0) hfl hK hst hcr hn hps (by decide) (fun r _ => Nat.zero_le r) v
  rw [Nat.zero_mul] at hopen
  refine .read_bind ?_
  rw [h.vmmCurrent_eq, if_pos hv]
  exact hopen

theorem Windowed.openPt_stock {i : ℕ} (h : Windowed D L s t W) (hfl : WindowFlags flags) (hK : K.Closed)
    (hst : Stock s₀ t seen k) (hcr : s.cr3 = s₀.cr3) (hn : NullGuard s) (hps : FreeList s W ps)
    (hv : v * 4096 ≠ s.vmmCurrent) (hp : p < userPages) (hpd : PageAt t false (p * 4096) v) (hi : i < 1024)
    (hlow : ∀ r ∈ ps, p < r) :
    Comp.Wp (k + firstCost s₀ seen ps ≤ (freeFrames s₀).length) (openPt K (v * 4096) (p * 4096) i flags)
      (OpensFirst D L s₀ s t W seen k (t.mem v i).pt flags ps) t := by
  have hlo : w32 (p * 4096 + 4096) = (p + 1) * 4096 := by
    unfold userPages at hp
    rw [w32_of_lt (by omega)]
    omega
  refine .read_bind ?_
  rw [h.vmmCurrent_eq, if_pos hv]
  refine .step (hpd.load hi) ?_
  rw [hlo]
  unfold userPages at hp
  exact h.open_stock hfl hK hst hcr hn hps (by omega) hlow _

/-- Closing a window gives no frame back. -/
theorem Windowed.close_stock (h : Windowed D L s t W) (hK : K.Closed) (hst : Stock s₀ t seen k) (hcr : s.cr3 = s₀.cr3)
    (hw : W p ≠ 0#32) (hu : (W p).trapped = false) (hv : v * 4096 ≠ s.vmmCurrent) :
    ∃ u, closeWin K (v * 4096) (p * 4096) t = some ((), u) ∧ Windowed D L s u (Function.update W p 0#32) ∧
      Stock s₀ u seen k := by
  obtain ⟨K', -, hK'⟩ := hK
  obtain ⟨u, hrun, hu', hwin⟩ := h.close K' hw hu
  have hlt := userPages_slot (h.clear p hw).2.1
  have hne := h.actual.pt_ne h.cur (h.actual.sub h.cur) (by omega) (by omega) (h.hasTable_window hw)
  refine ⟨u, ?_, hwin, hst.step ?_ fun i _ => ?_⟩
  · rw [closeWin, Comp.read_bind, h.vmmCurrent_eq, Comp.when_true hv, hK']
    exact hrun
  · rw [hu']
    rfl
  · rw [hu', ← hcr, Machine.set_mem_of_ne _ _ _ _ hne.symm]

end Opening

end SysX
