import SysX.CowCopy

/-!
Pages of the user half that are mapped for the first time, in the current VMM and in another one, and what such a call
leaves alone.
-/
namespace SysX

/-- Nothing happens to the pages outside of `C` and to the frames of `D` that are no directories. -/
structure Elsewhere (D L : Set ℕ) (C : ℕ → ℕ → Prop) (s t : Machine) : Prop where
  vmmCurrent : t.vmmCurrent = s.vmmCurrent
  kernelEnd : t.kernelEnd = s.kernelEnd
  heap : t.heap = s.heap
  page : ∀ w ∈ L, ∀ p, Regular p → (w = s.cr3 ∨ p < userPages) → ¬ C w p → view t.mem w p = view s.mem w p
  pgsz : ∀ w ∈ L, ∀ i, (w = s.cr3 ∨ i < 767) → (t.mem w i).pgsz = (s.mem w i).pgsz
  content : ∀ f ∈ D, f ∉ L → t.mem f = s.mem f
  used : ∀ f, used s f → used t f
  spare : ∀ f, ¬ SysX.used t f → t.mem f = s.mem f

theorem SameRest.kernelEnd_eq {s t : Machine} (h : SameRest s t) : t.kernelEnd = s.kernelEnd := by
  rw [h]

theorem SameRest.heap_eq {s t : Machine} (h : SameRest s t) : t.heap = s.heap := by
  rw [h]

section Elsewhere

variable {D L : Set ℕ} {C C' : ℕ → ℕ → Prop} {s t u : Machine}

theorem Elsewhere.refl (D L : Set ℕ) (C : ℕ → ℕ → Prop) (s : Machine) : Elsewhere D L C s s :=
  ⟨rfl, rfl, rfl, fun _ _ _ _ _ _ => rfl, fun _ _ _ _ => rfl, fun _ _ _ => rfl, fun _ => id, fun _ _ => rfl⟩

theorem Elsewhere.cr3 (h : Elsewhere D L C s t) : t.cr3 = s.cr3 := congrArg (· / 4096) h.vmmCurrent

theorem Elsewhere.mono (h : Elsewhere D L C s t) (hC : ∀ w p, C w p → C' w p) : Elsewhere D L C' s t :=
  ⟨h.vmmCurrent, h.kernelEnd, h.heap, fun w hw p hp hside hno => h.page w hw p hp hside fun hc => hno (hC w p hc), h.pgsz,
    h.content, h.used, h.spare⟩

theorem Elsewhere.antitone {D' : Set ℕ} (h : Elsewhere D L C s t) (hD : D' ⊆ D) : Elsewhere D' L C s t :=
  ⟨h.vmmCurrent, h.kernelEnd, h.heap, h.page, h.pgsz, fun f hf => h.content f (hD hf), h.used, h.spare⟩

theorem Elsewhere.trans (h : Elsewhere D L C s t) (h' : Elsewhere D L C t u) : Elsewhere D L C s u where
  vmmCurrent := h'.vmmCurrent.trans h.vmmCurrent
  kernelEnd := h'.kernelEnd.trans h.kernelEnd
  heap := h'.heap.trans h.heap
  page w hw p hp hside hno :=
    (h'.page w hw p hp (h.cr3.symm ▸ hside) hno).trans (h.page w hw p hp hside hno)
  pgsz w hw i hside := (h'.pgsz w hw i (h.cr3.symm ▸ hside)).trans (h.pgsz w hw i hside)
  content f hf hL := (h'.content f hf hL).trans (h.content f hf hL)
  used f hf := h'.used f (h.used f hf)
  spare f hf := (h'.spare f hf).trans (h.spare f fun hu => hf (h'.used f hu))

theorem Elsewhere.of_mem (hcur : t.vmmCurrent = s.vmmCurrent) (hend : t.kernelEnd = s.kernelEnd) (hheap : t.heap = s.heap)
    (hmem : t.mem = s.mem) (hused : ∀ f, SysX.used s f → SysX.used t f) : Elsewhere D L C s t :=
  ⟨hcur, hend, hheap, fun _ _ _ _ _ _ => by rw [hmem], fun _ _ _ _ => by rw [hmem], fun _ _ _ => by rw [hmem], hused,
    fun _ _ => by rw [hmem]⟩

theorem Windowed.elsewhere (h : Windowed D L s t fun _ => 0#32) (C : ℕ → ℕ → Prop) : Elsewhere D L C s t := by
  have hin := h.within_closed C
  exact ⟨hin.vmmCurrent, SameRest.kernelEnd_eq h.rest, SameRest.heap_eq h.rest, fun w hw p hp _ _ => h.views_closed hw hp,
    hin.pgsz, hin.content, hin.used, hin.spare⟩

/-- The free pages for windows stay. -/
theorem Elsewhere.room {W : ℕ → Word} {q n : ℕ} (h : Elsewhere D L C s t) (hc : s.cr3 ∈ L)
    (hC : ∀ p < userPages, ¬ C s.cr3 p) (hroom : Room s W q n) : Room t W q n := by
  obtain ⟨ps, hlen, hsorted, hfree⟩ := hroom
  refine ⟨ps, hlen, hsorted, fun p hp => ⟨(hfree p hp).1, ?_⟩⟩
  obtain ⟨hpos, huser, hzero, hnone⟩ := (hfree p hp).2
  refine ⟨hpos, huser, hzero, ?_⟩
  rw [h.cr3, h.page _ hc p (Windowed.regular_of_user huser) (.inl rfl) (hC p huser)]
  exact hnone

end Elsewhere

section Map

variable {ok : Prop} {D L : Set ℕ} {s t σ : Machine} {v p f n pa va : ℕ} {flags : Word} {K : Callees}

/-- The two ways to map a small page of the user half: through a page table that is there, or through a new one. -/
theorem PgmapSmall.cases (hm : PgmapSmall s v pa va flags σ) (hp : propagates s va = false) :
    ((s.mem v (va / 4194304)).HasTable ∧ σ = pgmapEntryAt s v (s.mem v (va / 4194304)).pt pa va flags) ∨
    (¬ (s.mem v (va / 4194304)).HasTable ∧ ∃ f < s.pmmFrames, ¬ used s f ∧
      σ = pgmapEntryAt ((newTableAt s v (va / 4194304) f).setFrame f (splitFrame (s.mem v (va / 4194304)) (va / 4096 % 1024)))
        v f pa va flags) := by
  unfold PgmapSmall at hm
  split_ifs at hm with he
  · exact .inl ⟨he, hm⟩
  · obtain ⟨f, hf, hfree, rfl⟩ := hm
    refine .inr ⟨he, f, hf, hfree, ?_⟩
    unfold pgmapNewAt
    dsimp only
    rw [hp, if_neg Bool.false_ne_true]

theorem newTableAt_mem {g i : ℕ} (hv : g ≠ v) (hf : g ≠ f) : (newTableAt s v i f).mem g = s.mem g := by
  rw [newTableAt, Machine.setFrame_mem_of_ne _ _ hf, Machine.set_mem_of_ne _ _ _ _ hv]
  rfl

/-- Only the directory and one page table are written, which is not among the frames of `D`. -/
theorem PgmapSmall.mem_other (hm : PgmapSmall s v pa va flags σ) (h : Tables D L s) (hv : v ∈ L) (hva : va < kernelStart)
    {g : ℕ} (hg : g ∈ D) (hgv : g ≠ v) : σ.mem g = s.mem g := by
  have hoff := offSlot_of_lt hva
  rcases hm.cases (propagates_of_lt hva) with ⟨he, rfl⟩ | ⟨-, f, -, hfree, rfl⟩
  · exact pgmapEntryAt_mem hgv (h.pt_ne hv hg hoff.lt hoff.2 he).symm
  · have hgf : g ≠ f := fun he => hfree (he ▸ (h.dir g hg).1)
    rw [pgmapEntryAt_mem hgv hgf, Machine.setFrame_mem_of_ne _ _ hgf, newTableAt_mem hgv hgf]

theorem PgmapSmall.used (hm : PgmapSmall s v pa va flags σ) (hva : va < kernelStart) {g : ℕ} (hg : SysX.used s g) :
    SysX.used σ g := by
  rcases hm.cases (propagates_of_lt hva) with ⟨-, rfl⟩ | ⟨-, f, -, -, rfl⟩
  · exact hg
  · exact (used_alloc s f g).mpr (.inr hg)

/-- The other pages stay as they are where the page was free. -/
theorem PgmapSmall.view_other (hm : PgmapSmall s v pa va flags σ) (h : Tables D L s) (hv : v ∈ L) (hva : va < kernelStart)
    (hfree : view s.mem v (va / 4096) = none) {q : ℕ} (hq : Regular q) (hne : q ≠ va / 4096) :
    view σ.mem v q = view s.mem v q := by
  have hoff := offSlot_of_lt hva
  have hslot := va_slot va
  have hpages := hm.pageMapped h hv hoff (propagates_of_lt hva)
  rcases hm.cases (propagates_of_lt hva) with ⟨he, rfl⟩ | ⟨he, f, -, hunused, rfl⟩
  · exact h.view_pgmapEntry_ne hv hoff he hq hne
  · by_cases hqi : q / 1024 = va / 4194304
    · have hpse : (s.mem v (va / 4194304)).pgsz = false := by
        rw [← hslot]
        exact (view_eq_none.mp hfree).1
      have hzero : s.mem v (va / 4194304) = 0#32 := by
        by_contra hne0
        exact he ⟨hne0, hpse⟩
      have hnone : view s.mem v q = none := view_of_slot_zero (by rw [hqi]; exact hzero)
      rcases hpages.other q hq hne with hsame | ⟨hgone, -⟩
      · exact hsame
      · rw [hgone, hnone]
    · exact h.view_newTable_ne hv hunused rfl (fun _ _ => rfl) _ hq hqi

/-- The directory keeps its other entries, and the one of the page gets a page table. -/
theorem PgmapSmall.slot (hm : PgmapSmall s v pa va flags σ) (h : Tables D L s) (hv : v ∈ L) (hva : va < kernelStart)
    (i : ℕ) : (i = va / 4194304 → (σ.mem v i).HasTable) ∧ (i ≠ va / 4194304 → σ.mem v i = s.mem v i) := by
  have hoff := offSlot_of_lt hva
  have hentry : ∀ (m : Machine) (g : ℕ), v ≠ g → i ≠ va / 4194304 → (pgmapEntryAt m v g pa va flags).mem v i = m.mem v i := by
    intro m g hg hi
    unfold pgmapEntryAt
    dsimp only
    rw [Machine.set_mem_of_ne _ _ _ _ hg, Machine.set_mem_of_ne_index _ _ _ _ _ hi]
  rcases hm.cases (propagates_of_lt hva) with ⟨he, rfl⟩ | ⟨he, f, -, hfree, rfl⟩
  · have hne := (h.pt_ne hv (h.sub hv) hoff.lt hoff.2 he).symm
    refine ⟨?_, hentry s _ hne⟩
    rintro rfl
    exact pgmapEntryAt_slot hne (h.present _ hv _ hoff.lt hoff.2 he) he.2
  · have hne : v ≠ f := fun he => hfree (he ▸ (h.dir v (h.sub hv)).1)
    have hpde : ((newTableAt s v (va / 4194304) f).setFrame f (splitFrame (s.mem v (va / 4194304)) (va / 4096 % 1024))).mem v
        (va / 4194304) = newTableEntry (s.mem v (va / 4194304)) f := by
      rw [Machine.setFrame_mem_of_ne _ _ hne]
      exact newTableAt_mem_pde hne
    refine ⟨?_, fun hi => ?_⟩
    · rintro rfl
      exact pgmapEntryAt_slot hne (by rw [hpde]; exact newTableEntry_present _ f) (by rw [hpde]; exact newTableEntry_pgsz _ f)
    · rw [hentry _ f hne hi, Machine.setFrame_mem_of_ne _ _ hne, newTableAt, Machine.setFrame_mem_of_ne _ _ hne,
        Machine.set_mem_of_ne_index _ _ _ _ _ hi]
      rfl

theorem PgmapSmall.elsewhere (hm : PgmapSmall s v pa va flags σ) (h : Tables D L s) (hv : v ∈ L) (hva : va < kernelStart)
    (hfree : view s.mem v (va / 4096) = none) : Elsewhere D L (fun w q => w = v ∧ q = va / 4096) s σ where
  vmmCurrent := (hm.rest (propagates_of_lt hva)).vmmCurrent_eq
  kernelEnd := (hm.rest (propagates_of_lt hva)).kernelEnd_eq
  heap := (hm.rest (propagates_of_lt hva)).heap_eq
  page w hw q hq _ hno := by
    by_cases hwv : w = v
    · rw [hwv]
      exact hm.view_other h hv hva hfree hq fun he => hno ⟨hwv, he⟩
    · exact (hm.apart h hv (slot_of_lt hva) (propagates_of_lt hva)).view w hw hwv q hq
  pgsz w hw i _ := by
    by_cases hwv : w = v
    · rw [hwv]
      by_cases hi : i = va / 4194304
      · have hnone := (view_eq_none.mp hfree).1
        rw [va_slot, ← hi] at hnone
        rw [((hm.slot h hv hva i).1 hi).2, hnone]
      · rw [(hm.slot h hv hva i).2 hi]
    · rw [hm.mem_other h hv hva (h.sub hw) hwv]
  content f hf hL := hm.mem_other h hv hva hf fun he => hL (he ▸ hv)
  used _ hf := hm.used hva hf
  spare f hf := by
    have hoff := offSlot_of_lt hva
    have hsf : ¬ SysX.used s f := fun hu => hf (hm.used hva hu)
    have hfv : f ≠ v := fun he => hsf (he ▸ (h.dir v (h.sub hv)).1)
    rcases hm.cases (propagates_of_lt hva) with ⟨he, rfl⟩ | ⟨-, g, -, -, rfl⟩
    · exact pgmapEntryAt_mem hfv fun hpt => hsf (hpt ▸ h.used v hv _ hoff.lt hoff.2 he)
    · have hfg : f ≠ g := by
        rintro rfl
        exact hf ((used_alloc s f f).mpr (.inl rfl))
      rw [pgmapEntryAt_mem hfv hfg, Machine.setFrame_mem_of_ne _ _ hfg, newTableAt_mem hfv hfg]

theorem NullGuard.pgmapSmall (hn : NullGuard s) (hm : PgmapSmall s s.cr3 pa va flags σ) (h : Tables D L s) (hc : s.cr3 ∈ L)
    (hva : va < kernelStart) (hfree : view s.mem s.cr3 (va / 4096) = none) (hne : va / 4096 ≠ 0) : NullGuard σ := by
  have hcur : σ.cr3 = s.cr3 := (hm.rest (propagates_of_lt hva)).cr3_eq
  have htable : (σ.mem s.cr3 0).HasTable := by
    by_cases h0 : 0 = va / 4194304
    · exact (hm.slot h hc hva 0).1 h0
    · rw [(hm.slot h hc hva 0).2 h0]
      exact hn.table
  have hview : view s.mem s.cr3 0 = none := view_eq_none.mpr ⟨hn.table.2, hn.pte⟩
  rw [← hm.view_other h hc hva hfree ⟨by decide, by decide⟩ hne.symm] at hview
  exact ⟨by rw [hcur]; exact htable, by rw [hcur]; exact (view_eq_none.mp hview).2⟩

/-- A free page of the user half is mapped. -/
theorem Settled.mapUser (h : Settled ok D L (n + 4) s) (hK : K.Closed) (hv : v ∈ L) (hp : p < userPages)
    (hfree : view s.mem v p = none) (hroom : v = s.cr3 ∨ Room s (fun _ => 0#32) 0 2) (hnull : ¬ ok → v = s.cr3 → p ≠ 0)
    (pa : ℕ) (flags : Word) :
    Comp.Wp ok (vmmPgmap K (v * 4096) pa (p * 4096) 0 flags) (fun _ t => Settled ok D L n t ∧ SameRest s t ∧
      Elsewhere D L (fun w q => w = v ∧ q = p) s t ∧ ∃ e, view t.mem v p = viewPte (Word.fillPte e flags pa)) s := by
  have hreg := Windowed.regular_of_user hp
  have hva : p * 4096 < kernelStart := by
    unfold userPages at hp
    unfold kernelStart rmapStart
    omega
  have hprop : propagates s (p * 4096) = false := propagates_of_lt hva
  have hoff := hreg.offSlot
  have hfree' : view s.mem v (p * 4096 / 4096) = none := by
    rw [page_div]
    exact hfree
  have hcall : vmmPgmap K (v * 4096) pa (p * 4096) 0 flags = vmmPgmapSmall K (v * 4096) pa (p * 4096) flags :=
    if_neg hoff.not_rmap
  have hdone : ∀ σ t, PgmapSmall s v pa (p * 4096) flags σ → Windowed D L σ t (fun _ => 0#32) → Guard ok σ t n →
      Settled ok D L n t ∧ SameRest s t ∧ Elsewhere D L (fun w q => w = v ∧ q = p) s t ∧
        ∃ e, view t.mem v p = viewPte (Word.fillPte e flags pa) := by
    intro σ t hm hw hg
    have hrest := hm.rest hprop
    obtain ⟨e, he⟩ := (hm.pageMapped h.tables hv hoff hprop).own
    rw [page_div] at he
    have hin := hm.elsewhere h.tables hv hva hfree'
    rw [page_div] at hin
    exact ⟨h.windowed hrest hw hg, hrest.trans hw.rest, hin.trans (hw.elsewhere _), e, (hw.views_closed hv hreg).trans he⟩
  rw [hcall]
  by_cases hvc : v = s.cr3
  · subst hvc
    rw [← h.aligned]
    refine (vmmPgmapSmall_own (n := n) h.tables h.cur h.aligned hK hoff (fun hyes => ?_) (fun hok => ?_)
      fun _ hno => h.guard.null hno).mono ?_
    · rw [hprop] at hyes
      cases hyes
    · exact (h.guard.frames hok).mono (by have := slotCost_le s (p * 4096); omega)
    · rintro _ t ⟨σ, hm, hw, hframes⟩
      have hm' := (pgmapOwn_iff hprop).mp hm
      refine hdone σ t hm' hw ⟨hframes, fun hno => ?_⟩
      refine (h.guard.null hno).pgmapSmall hm' h.tables h.cur hva hfree' ?_
      rw [page_div]
      exact hnull hno rfl
  · refine (h.refl.vmmPgmapSmall_foreign hK hv hvc hoff (fun hyes => ?_) h.guard (m := 0) (hroom.resolve_left hvc) fun hyes => ?_).mono ?_
    · rw [hprop] at hyes
      cases hyes
    · rw [hprop] at hyes
      cases hyes
    · rintro _ t ⟨σ, hm, hw, hg⟩
      exact hdone σ t hm hw hg

end Map

/-! New flags for a page that is there. -/

/-- A page that is not mapped, or mapped for the MMU and no trap. -/
def Plain (o : Option (ℕ × Word)) : Prop := ∀ x ∈ o, x.2.getLsbD 0 = true ∧ x.2.getLsbD 6 = false

section Grant

variable {ok : Prop} {D L : Set ℕ} {C : ℕ → ℕ → Prop} {s t : Machine} {v p q f n va pa : ℕ} {flags fl d : Word} {K : Callees}

theorem viewPte_setAvail {e : Word} (h6 : flags.getLsbD 6 = false) (h : Plain (viewPte e)) :
    viewPte (e.setAvail flags) = viewPte e := by
  by_cases hz : e = 0#32
  · rw [hz]
    refine congrArg viewPte (BitVec.eq_of_getLsbD_eq fun i _ => ?_)
    rw [Word.getLsbD_setAvail, h6]
    simp
  · have hview : viewPte e = some (e.pt, e.getFlags) := if_neg hz
    obtain ⟨hpres, htrap⟩ := h _ hview
    rw [Word.getFlags_bit0] at hpres
    rw [Word.getFlags_bit6] at htrap
    have hne : e.setAvail flags ≠ 0#32 := Word.ne_zero_of_present (by rw [Word.setAvail_present, hpres])
    rw [viewPte, if_neg hne, hview, Word.setAvail_pt, (Word.getFlags_setAvail e flags).mpr (by rw [htrap, h6])]

/-- The pages of `v` that `vmm_set_flags` at the page `p` may touch: besides `p` one in its slot that has a trap. -/
def Regranted (s : Machine) (v p w q : ℕ) : Prop := w = v ∧ (q = p ∨ q / 1024 = p / 1024 ∧ ¬ Plain (view s.mem v q))

theorem Regranted.slot {w : ℕ} (h : Regranted s v p w q) : w = v ∧ q / 1024 = p / 1024 :=
  ⟨h.1, h.2.elim (fun he => by rw [he]) fun hp => hp.1⟩

theorem Tables.elsewhere_setFlagsAt (h : Tables D L s) (hv : v ∈ L) (hva : va < kernelStart)
    (he : (s.mem v (va / 4194304)).HasTable) (hz : s.mem (s.mem v (va / 4194304)).pt (va / 4096 % 1024) ≠ 0#32)
    (h6 : flags.getLsbD 6 = false) : Elsewhere D L (Regranted s v (va / 4096)) s (SysX.setFlagsAt s v va flags) := by
  have hoff := offSlot_of_lt hva
  obtain ⟨hdir, htable, hrest⟩ := @Tables.setFlagsAt_small D L s v va flags h hv hoff he hz
  have hrest' : SameRest s (SysX.setFlagsAt s v va flags) := setFlagsAt_rest
  have hpt := fun g (hg : g ∈ D) => hrest g (h.pt_ne hv hg hoff.lt hoff.2 he).symm
  have hbits : (SysX.setFlagsAt s v va flags).pmmBitmap = s.pmmBitmap := setFlagsAt_bitmap
  refine ⟨hrest'.vmmCurrent_eq, hrest'.kernelEnd_eq, hrest'.heap_eq, fun w hw q hq _ hno => ?_, fun w hw i _ => ?_,
    fun f hf _ => hpt f hf, fun f hf => ?_, fun f hf => hrest f fun hfpt => hf ?_⟩
  · by_cases hwv : w = v
    · rw [hwv]
      have hlt : q / 1024 < 1024 := by have := hq.1; omega
      by_cases hqi : q / 1024 = va / 4194304
      · have heq : (s.mem v (q / 1024)).HasTable := by rw [hqi]; exact he
        have hk : q % 1024 ≠ va / 4096 % 1024 := fun hk => hno ⟨hwv, .inl (by omega)⟩
        have hold : Plain (view s.mem v q) := by
          by_contra hnp
          exact hno ⟨hwv, .inr ⟨hqi.trans (va_slot va).symm, hnp⟩⟩
        rw [view_eq_pte heq, hqi] at hold
        rw [view_eq_pte (by rw [hdir]; exact heq), view_eq_pte heq, hdir, hqi, htable]
        dsimp only
        rw [if_neg hk]
        split_ifs with hdiag
        · rw [← hdiag] at hold ⊢
          exact viewPte_setAvail h6 hold
        · rfl
      · refine view_congr (by rw [hdir]) fun ht => ?_
        rw [hdir] at ht ⊢
        rw [hrest _ fun hsame => hqi (h.sep v hv v hv _ hlt _ hoff.lt hq.2 hoff.2 ht he hsame).1]
    · refine (h.apart (h.sub hv) (h.onlyOf_table hv (slot_of_lt hva) he) hrest'.vmmCurrent_eq fun g _ hg => hrest g hg).view w hw hwv q hq
  · rw [hpt w (h.sub hw)]
  · unfold SysX.used at hf ⊢
    rwa [hbits]
  · have hused := h.used v hv _ hoff.lt hoff.2 he
    unfold SysX.used at hused ⊢
    rw [hbits, hfpt]
    exact hused

theorem Tables.granted_setFlagsAt (h : Tables D L s) (hv : v ∈ L) (hva : va < kernelStart) (hs : (s.mem v (va / 4194304)).pgsz = false)
    (hview : view s.mem v (va / 4096) = some (f, fl)) (htrap : fl.getLsbD 6 = false) (h6 : flags.getLsbD 6 = false)
    (hpres : flags.getLsbD 0 = true) :
    (s.mem v (va / 4194304)).HasTable ∧ s.mem (s.mem v (va / 4194304)).pt (va / 4096 % 1024) ≠ 0#32 ∧
      view (SysX.setFlagsAt s v va flags).mem v (va / 4096) = some (f, flags.canonFlags) := by
  have hoff := offSlot_of_lt hva
  have hslot := va_slot va
  have he : (s.mem v (va / 4096 / 1024)).HasTable := by
    by_contra hno
    rw [view_of_not_pgsz (by rw [hslot]; exact hs), pteAt_of_not_hasTable hno] at hview
    cases hview
  rw [view_eq_pte he, hslot, viewPte] at hview
  rw [hslot] at he
  split_ifs at hview with hz
  obtain ⟨hpt, hfl⟩ : (s.mem (s.mem v (va / 4194304)).pt (va / 4096 % 1024)).pt = f ∧
      (s.mem (s.mem v (va / 4194304)).pt (va / 4096 % 1024)).getFlags = fl := by
    cases hview
    exact ⟨rfl, rfl⟩
  refine ⟨he, hz, ?_⟩
  obtain ⟨hdir, htable, -⟩ := @Tables.setFlagsAt_small D L s v va flags h hv hoff he hz
  rw [view_eq_pte (by rw [hdir, hslot]; exact he), hdir, hslot, htable]
  dsimp only
  rw [if_pos rfl]
  have htrap' : (s.mem (s.mem v (va / 4194304)).pt (va / 4096 % 1024)).trapped = flags.getLsbD 6 := by
    rw [← Word.getFlags_bit6, hfl, htrap, h6]
  split_ifs with hdiag
  · rw [viewPte, if_neg (Word.ne_zero_of_present (by rw [Word.setAvail_present, Word.setFlags_present, hpres])),
      Word.getFlags_setAvail_setFlags, Word.setAvail_pt, Word.setFlags_pt, hpt]
  · rw [viewPte, if_neg (Word.ne_zero_of_present (by rw [Word.setFlags_present, hpres])),
      (Word.getFlags_setFlags _ flags).mpr htrap', Word.setFlags_pt, hpt]

theorem NullGuard.elsewhere (hn : NullGuard s) (h : Elsewhere D L C s t) (hc : s.cr3 ∈ L) (hC : ¬ C s.cr3 0)
    (hdir : t.mem s.cr3 0 = s.mem s.cr3 0) : NullGuard t := by
  have hview : view s.mem s.cr3 0 = none := view_eq_none.mpr ⟨hn.table.2, hn.pte⟩
  rw [← h.page _ hc 0 ⟨by decide, by decide⟩ (.inl rfl) hC] at hview
  exact ⟨by rw [h.cr3, hdir]; exact hn.table, by rw [h.cr3]; exact (view_eq_none.mp hview).2⟩

/-- A page of the user half gets new flags. -/
theorem Settled.grantUser (h : Settled ok D L (n + 2) s) (hK : K.Closed) (hv : v ∈ L) (hp : p < userPages)
    (hroom : v = s.cr3 ∨ Room s (fun _ => 0#32) 0 2) (hs : (s.mem v (p / 1024)).pgsz = false)
    (hview : view s.mem v p = some (f, fl)) (htrap : fl.getLsbD 6 = false) (h6 : flags.getLsbD 6 = false)
    (hpres : flags.getLsbD 0 = true) :
    Comp.Wp ok (vmmSetFlags K (v * 4096) (p * 4096) flags) (fun _ t => Settled ok D L n t ∧ SameRest s t ∧
      Elsewhere D L (Regranted s v p) s t ∧ view t.mem v p = some (f, flags.canonFlags)) s := by
  have hreg := Windowed.regular_of_user hp
  have hva : p * 4096 < kernelStart := by
    unfold userPages at hp
    unfold kernelStart rmapStart
    omega
  have hoff := hreg.offSlot
  have hpage : p * 4096 / 4096 = p := page_div p
  have hslot : p * 4096 / 4194304 = p / 1024 := page_slot p
  obtain ⟨he, hz, hown⟩ := h.tables.granted_setFlagsAt hv hva (by rw [hslot]; exact hs) (by rw [hpage]; exact hview) htrap h6 hpres
  have hin := h.tables.elsewhere_setFlagsAt hv hva he hz h6
  rw [hpage] at hown hin
  by_cases hvc : v = s.cr3
  · rw [h.own hvc]
    subst hvc
    have hrest : SameRest s (setFlagsAt s s.cr3 (p * 4096) flags) := setFlagsAt_rest
    have htables : Tables D L (setFlagsAt s s.cr3 (p * 4096) flags) := h.tables.setFlagsAt h.cur hoff
    have hw : Windowed D L (setFlagsAt s s.cr3 (p * 4096) flags) (setFlagsAt s s.cr3 (p * 4096) flags) fun _ => 0#32 :=
      .refl htables (by rw [hrest.cr3_eq]; exact h.cur)
    refine .of_eq (vmmSetFlags_cur h.tables h.cur hoff flags) ⟨h.windowed hrest hw ⟨fun hok => ?_, fun hno => ?_⟩, hrest, hin, hown⟩
    · refine ((h.le (show n ≤ n + 2 by omega)).guard.frames hok).congr setFlagsAt_bitmap ?_
      rw [hrest]
    · have hn := h.guard.null hno
      have hzero : view s.mem s.cr3 0 = none := view_eq_none.mpr ⟨hn.table.2, hn.pte⟩
      refine hn.elsewhere hin h.cur ?_ (congrFun (@Tables.setFlagsAt_small D L s s.cr3 _ flags h.tables hv hoff he hz).1 0)
      rintro ⟨-, h0 | ⟨-, hnp⟩⟩
      · rw [← h0, hzero] at hview
        cases hview
      · rw [hzero] at hnp
        exact hnp fun x hx => absurd hx (Option.not_mem_none x)
  · have hroom' : Room s (fun _ => 0#32) 0 (walkWindows (s.mem v (p * 4096 / 4194304))) := by
      refine (hroom.resolve_left hvc).mono ?_
      unfold walkWindows
      split_ifs <;> omega
    refine (h.refl.vmmSetFlags_foreign hK hv hvc hoff flags id (fun _ => by rw [hslot]; exact hs) h.guard hroom').mono ?_
    rintro r t ⟨-, hw, hg⟩
    exact ⟨h.windowed setFlagsAt_rest hw hg, setFlagsAt_rest.trans hw.rest, hin.trans (hw.elsewhere _),
      (hw.views_closed hv hreg).trans hown⟩

end Grant

/-! The page of the kernel half through which a segment is copied. -/

section Window

variable {ok : Prop} {D L : Set ℕ} {s t : Machine} {v p q f n x pa : ℕ} {r : Bool} {flags d : Word} {K : Callees}

theorem Tables.elsewhere_pte (h : Tables D L s) (hv : v ∈ L) (hq : Regular q) (hside : v = s.cr3 ∨ q < userPages)
    (ht : (s.mem v (q / 1024)).HasTable) (d : Word) :
    Elsewhere D L (fun w p => w = v ∧ p = q) s (s.set (s.mem v (q / 1024)).pt (q % 1024) d) := by
  have hi : q / 1024 < 1024 := by have := hq.1; omega
  have hnot := h.notDir v hv _ hi hq.2 ht
  have hmem : ∀ g ∈ D, (s.set (s.mem v (q / 1024)).pt (q % 1024) d).mem g = s.mem g := fun g hg =>
    s.set_mem_of_ne _ _ _ fun he => hnot (he ▸ hg)
  exact ⟨rfl, rfl, rfl, fun w hw p hp hpw hne => h.view_pte hv hq hside ht d hw hp hpw hne, fun w hw i _ => by rw [hmem w (h.sub hw)],
    fun f hf _ => hmem f hf, fun _ => id, fun f hf => s.set_mem_of_ne _ _ _ fun he => hf (he ▸ h.used v hv _ hi hq.2 ht)⟩

/-- What `vmm_pgmap_small` on the current VMM does to a free page of the kernel half: a new page table is entered into the
directories of other VMMs, above their user half. -/
theorem PgmapOwn.elsewhere {σ : Machine} (hm : PgmapOwn s pa (p * 4096) flags σ) (h : Settled ok D L n s) (hk : 786432 ≤ p)
    (hp : p < 1048576) (hfree : view s.mem s.cr3 p = none) : Elsewhere D L (fun w q => w = s.cr3 ∧ q = p) s σ := by
  have hreg : Regular p := ⟨hp, by omega⟩
  have hoff := hreg.offSlot
  have hslot := page_slot p
  have hmem : ∀ w ∈ L, w ≠ s.cr3 → ∀ j < 767, σ.mem w j = s.mem w j := by
    intro w hwL hwc j hj
    refine hm.mem_other hwc (ne_of_used (h.tables.dir w (h.tables.sub hwL)).1) (fun ht => ?_) fun _ _ _ => by omega
    exact (h.tables.pt_ne h.cur (h.tables.sub hwL) hoff.lt hoff.2 ht).symm
  refine ⟨hm.rest.vmmCurrent_eq, hm.rest.kernelEnd_eq, hm.rest.heap_eq, fun w hwL q hq hside hno => ?_, fun w hwL i hi => ?_,
    fun f hf hL => ?_, fun f hf => hm.used hf, fun f hf => ?_⟩
  · by_cases hwc : w = s.cr3
    · rw [hwc]
      exact hm.view_other h.tables h.cur hoff h.spread (by rw [page_div]; exact hfree) hq
        (by rw [page_div]; exact fun he => hno ⟨hwc, he⟩)
    · have hlt := userPages_slot (hside.resolve_left hwc)
      have hdir := hmem w hwL hwc _ hlt
      refine view_congr hdir fun ht => ?_
      rw [hdir] at ht ⊢
      have hnot := h.tables.notDir w hwL _ (by omega) hq.2 ht
      refine hm.mem_other (fun he => hnot (he ▸ h.tables.sub h.cur))
        (ne_of_used (h.tables.used w hwL _ (by omega) hq.2 ht)) (fun ht' he => ?_) fun k hk hkg => ?_
      · have hsep := h.tables.sep w hwL _ h.cur _ (by omega) _ hoff.lt hq.2 hoff.2 ht ht' he
        omega
      · exact absurd hkg.symm (h.tables.pt_ne hwL (h.spread.dir k hk).1 (by omega) hq.2 ht)
  · by_cases hwc : w = s.cr3
    · rw [hwc]
      by_cases hip : i = p * 4096 / 4194304
      · have hslotσ := hm.slot h.tables h.cur hoff fun _ => h.spread
        rw [hip, hslotσ.2, hslot]
        exact (view_eq_none.mp hfree).1.symm
      · rw [hm.slot_of_ne h.tables h.cur hoff (fun _ => h.spread) hip]
    · rw [hmem w hwL hwc i (hi.resolve_left hwc)]
  · have hfc : f ≠ s.cr3 := fun he => hL (he ▸ h.cur)
    funext j
    refine hm.mem_other hfc (ne_of_used (h.tables.dir f hf).1) (fun ht => ?_) fun k hk hkf => ?_
    · exact (h.tables.pt_ne h.cur hf hoff.lt hoff.2 ht).symm
    · exact absurd (hkf ▸ h.kernel k hk) hL
  · have hsf : ¬ SysX.used s f := fun hu => hf (hm.used hu)
    funext j
    refine hm.mem_other (fun he => hsf (he ▸ (h.tables.dir _ (h.tables.sub h.cur)).1)) (fun g _ hu he => hf (he ▸ hu))
      (fun ht he => hsf (he ▸ h.tables.used _ h.cur _ hoff.lt hoff.2 ht)) fun k hk hkf => ?_
    exact absurd (hkf ▸ (h.tables.dir _ (h.spread.dir k hk).1).1) hsf

theorem Settled.mapKernel_elsewhere (h : Settled ok D L (n + 2) s) (hK : K.Closed) (hk : 786432 ≤ p) (hp : p < 1048576)
    (hfree : view s.mem s.cr3 p = none) (pa : ℕ) (flags : Word) :
    Comp.Wp ok (vmmPgmap K s.vmmCurrent pa (p * 4096) 0 flags) (fun _ t => Elsewhere D L (fun w q => w = s.cr3 ∧ q = p) s t) s := by
  have hreg : Regular p := ⟨hp, by omega⟩
  have hoff := hreg.offSlot
  have hslot := page_slot p
  have hcall : vmmPgmap K s.vmmCurrent pa (p * 4096) 0 flags = vmmPgmapSmall K s.vmmCurrent pa (p * 4096) flags :=
    if_neg hoff.not_rmap
  rw [hcall]
  refine (h.refl.vmmPgmapSmall_kernel hK h.aligned hoff (by omega) ⟨h.spread.dir, fun _ => h.spread.run trivial⟩ h.guard).mono ?_
  rintro _ t ⟨σ, hm, hw, -⟩
  exact (hm.elsewhere h hk hp hfree).trans (hw.elsewhere _)

/-- The page `q` of the current VMM, behind the kernel, gives access to the frame `f`. -/
structure CopyPage (s : Machine) (q f : ℕ) : Prop where
  low : 786432 ≤ q
  high : q < 1048576
  small : (s.mem s.cr3 (q / 1024)).pgsz = false
  view : view s.mem s.cr3 q = some (f, flagPresent ||| flagRw)

theorem CopyPage.regular (h : CopyPage s q f) : Regular q := ⟨h.high, by have := h.low; omega⟩

theorem CopyPage.access (h : CopyPage s q f) : accessAt s.mem s.cr3 q = some (f, true) := by
  have hp : (flagPresent ||| flagRw).getLsbD 0 = true := by decide
  have hw : (flagPresent ||| flagRw).getLsbD 1 = true := by decide
  rw [accessAt_eq, transAt, h.view, Option.filter_some, if_pos hp, Option.map_some, hw]

/-- The page table entry of the page. -/
theorem CopyPage.entry (h : CopyPage s q f) : (s.mem s.cr3 (q / 1024)).HasTable ∧ (pteAt s.mem s.cr3 q).present = true ∧
    (pteAt s.mem s.cr3 q).getFlags = flagPresent ||| flagRw := by
  obtain ⟨ht, hpres, -, -⟩ := accessAt_table h.access h.small
  have hview := h.view
  rw [view_of_not_pgsz h.small, viewPte, if_neg (Word.ne_zero_of_present hpres)] at hview
  exact ⟨ht, hpres, congrArg Prod.snd (Option.some.inj hview)⟩

theorem CopyPage.elsewhere {C : ℕ → ℕ → Prop} (h : CopyPage s q f) (hin : Elsewhere D L C s t) (hc : s.cr3 ∈ L)
    (hC : ¬ C s.cr3 q) : CopyPage t q f where
  low := h.low
  high := h.high
  small := by
    rw [hin.cr3, hin.pgsz _ hc _ (.inl rfl)]
    exact h.small
  view := by
    rw [hin.cr3, hin.page _ hc q h.regular (.inl rfl) hC]
    exact h.view

/-- There is a free page behind the kernel. -/
def WindowFree (s : Machine) : Prop := ∃ a, Vacant s s.kernelEnd uintptrMax 4096 a

theorem Elsewhere.windowFree {C : ℕ → ℕ → Prop} (h : Elsewhere D L C s t) (hc : s.cr3 ∈ L) (hk : KernelEnds s)
    (hC : ∀ q, 786432 ≤ q → ¬ C s.cr3 q) (hfree : WindowFree s) : WindowFree t := by
  obtain ⟨a, ha⟩ := hfree
  have hlow : 3221225472 ≤ s.kernelEnd := hk.1
  have hpages : pages 4096 = 1 := rfl
  have htop : uintptrMax / 4096 = 1048575 := rfl
  refine ⟨a, ha.aligned, h.kernelEnd ▸ ha.lower, ha.upper, fun k hk => ?_⟩
  have hlower := ha.lower
  have hupper := ha.upper
  rw [hpages] at hk hupper
  rw [htop] at hupper
  have hpage : 786432 ≤ a / 4096 + k := by omega
  rw [h.cr3, h.page _ hc _ ⟨by omega, by omega⟩ (.inl rfl) (hC _ hpage)]
  exact ha.unmapped k (by rwa [hpages])

/-- "find a place in our address space to map segments to for copying": the first free page behind the kernel. -/
theorem Settled.openCopy (h : Settled ok D L (n + 2) s) (hK : K.Closed) (hk : KernelEnds s) :
    Comp.Wp ok (vmmAllocMap K s.vmmCurrent 0 4096 s.kernelEnd uintptrMax 0 0 false (flagPresent ||| flagRw))
      (fun a t => a = 0 ∧ t = s ∧ ¬ WindowFree s ∨ ∃ q, a = q * 4096 ∧ Settled ok D L n t ∧ SameRest s t ∧ view s.mem s.cr3 q = none ∧
        Elsewhere D L (fun w p => w = s.cr3 ∧ p = q) s t ∧ CopyPage t q 0) s := by
  have hlow : 3221225472 ≤ s.kernelEnd := hk.1
  have hhigh : s.kernelEnd ≤ 4294963200 := hk.2
  have hpages : pages 4096 = 1 := rfl
  have htop : uintptrMax / 4096 = 1048575 := rfl
  rw [vmmAllocMap_aligned (by decide) (by decide)]
  obtain ⟨a, hrun, hfirst⟩ := vmmFirstFree_up (K := K) (h.tables.walkable h.cur) hhigh (show uintptrMax < 4294967296 by decide)
    (show 0 < 4096 by decide) (by decide)
  refine .step hrun ?_
  rcases hfirst with ⟨rfl, hnone⟩ | hleast
  · rw [if_pos rfl]
    exact .pure (.inl ⟨rfl, rfl, fun ⟨a, ha⟩ => hnone a ha⟩)
  · have hvacant : Vacant s s.kernelEnd uintptrMax 4096 a := hleast.1
    obtain ⟨q, rfl⟩ : ∃ q, a = q * 4096 := ⟨a / 4096, hvacant.eq_mul⟩
    obtain ⟨-, hlower, hupper, hfree⟩ := hvacant
    rw [hpages, htop] at hupper
    have hfree0 := hfree 0 (by rw [hpages]; decide)
    rw [page_div, Nat.add_zero] at hfree0
    have hq : 786432 ≤ q := by omega
    have hq1 : q < 1048576 := by omega
    rw [if_neg (show q * 4096 ≠ 0 by omega), vmmMap_one (by decide) (Nat.mul_mod_left q 4096) (by omega)]
    refine .bind (R := fun a t => a = q * 4096 ∧ _) (.bind ((h.mapKernel hK hq hq1 hfree0 0 (flagPresent ||| flagRw)).and
      (h.mapKernel_elsewhere hK hq hq1 hfree0 0 (flagPresent ||| flagRw)))
      fun _ t ⟨⟨hset, hrest, _, _, _, e, he⟩, hin⟩ => .pure ⟨rfl, hset, hrest, hfree0, hin, hq, hq1, ?_, ?_⟩)
      fun a t ha => .pure (.inr ⟨q, ?_, ha.2⟩)
    · exact w32_of_lt (by omega)
    · rw [hin.cr3, hin.pgsz _ h.cur _ (.inl rfl)]
      exact (view_eq_none.mp hfree0).1
    · rw [hin.cr3, he, viewPte, if_neg (Word.ne_zero_of_present (by rw [Word.fillPte_present]; rfl)), Word.fillPte_pt,
        Word.getFlags_fillPte]
      rfl

/-- The page moves to another frame. -/
theorem Settled.moveCopy (h : Settled ok D L (n + 2) s) (hK : K.Closed) (hpage : CopyPage s q f) (pa : ℕ) :
    Comp.Wp ok (vmmSetPaddr K s.vmmCurrent (q * 4096) pa) (fun _ t => Settled ok D L n t ∧ SameRest s t ∧
      Elsewhere D L (fun w p => w = s.cr3 ∧ p = q) s t ∧ CopyPage t q (pa / 4096 % 1048576)) s := by
  have hreg := hpage.regular
  have hslot : q * 4096 / 4194304 = q / 1024 := page_slot q
  obtain ⟨ht, hpres, hflags⟩ := hpage.entry
  have hmove : setPaddrAt s s.cr3 (q * 4096) pa =
      s.set (s.mem s.cr3 (q / 1024)).pt (q % 1024) ((pteAt s.mem s.cr3 q).setPt (pa / 4096)) := by
    unfold setPaddrAt
    simp only [page_div, hslot, hpage.small, Bool.false_eq_true, if_false, if_neg (Word.ne_zero_of_present hpres)]
  have hin := h.tables.elsewhere_pte h.cur hreg (.inl rfl) ht ((pteAt s.mem s.cr3 q).setPt (pa / 4096))
  refine ((h.moveSmall hK hpage.low hpage.high hpage.small hpage.access pa).and (.of_eq
    (vmmSetPaddr_cur h.tables h.cur hreg.offSlot pa) (Q := fun _ t => t = setPaddrAt s s.cr3 (q * 4096) pa) rfl)).mono ?_
  rintro _ t ⟨⟨hset, hrest, -, -, -⟩, rfl⟩
  rw [hmove] at hset hrest ⊢
  refine ⟨hset, hrest, hin, hpage.low, hpage.high, ?_, ?_⟩
  · rw [hin.cr3, hin.pgsz _ h.cur _ (.inl rfl)]
    exact hpage.small
  · have hview := h.tables.view_setPte h.cur hreg ht ((pteAt s.mem s.cr3 q).setPt (pa / 4096)) hreg
    rw [if_pos rfl, viewPte, if_neg (Word.ne_zero_of_present (by rw [Word.setPt_present, hpres])), Word.setPt_pt,
      Word.getFlags_setPt, hflags] at hview
    exact hview

/-- The page is unmapped again. -/
theorem Settled.closeCopy (h : Settled ok D L n s) (hpage : CopyPage s q f) :
    Comp.Wp ok (vmmPgunmap K s.vmmCurrent (q * 4096) 0) (fun _ t => Elsewhere D L (fun w p => w = s.cr3 ∧ p = q) s t ∧
      view t.mem s.cr3 q = none) s := by
  have hreg := hpage.regular
  have hslot : q * 4096 / 4194304 = q / 1024 := page_slot q
  obtain ⟨ht, hpres, hflags⟩ := hpage.entry
  have htrap : (pteAt s.mem s.cr3 q).trapped = false := by
    rw [← Word.getFlags_bit6, hflags]
    decide
  rw [vmmPgunmap_small hreg]
  refine (vmmPgunmapSmall_own h.tables h.cur hreg.offSlot (by rw [hslot]; exact hpage.small) (.of_untrapped ?_)).mono ?_
  · rw [page_div]
    exact htrap
  · rintro _ t rfl
    rw [hslot, if_pos ht, page_div]
    refine ⟨h.tables.elsewhere_pte h.cur hreg (.inl rfl) ht 0#32, ?_⟩
    rw [h.tables.view_setPte h.cur hreg ht 0#32 hreg, if_pos rfl]
    rfl

end Window

/-! Frames for the segments. -/

section Frames

variable {ok : Prop} {D L : Set ℕ} {s t : Machine} {n f : ℕ}

/-- A frame is allocated and set apart. -/
theorem Settled.allocFrame (h : Settled ok D L (n + 1) s) :
    Comp.Wp ok (pmmAllocFree 1) (fun r t => r = none ∧ t = s ∧ ¬ ok ∨
      ∃ f, r = some f ∧ t = s.setBitmap f true ∧ f < 1048576 ∧ ¬ used s f ∧ f ∉ D ∧
        Settled ok (insert f D) L n t) s := by
  rcases pmmAllocFree_one h.tables.frames with ⟨hnone, hall⟩ | ⟨f, hf, hfree, hsome⟩
  · refine .of_eq hnone (.inl ⟨rfl, rfl, fun hok => ?_⟩)
    obtain ⟨f, hf, hfree⟩ := (h.guard.frames hok).exists_free
    exact hfree (hall f hf)
  · have hfresh := h.tables.fresh hfree
    have hlt : f < 1048576 := lt_of_lt_of_le hf h.tables.frames
    have hset : Settled ok D L n (s.setBitmap f true) :=
      h.sameButBitmap rfl (fun g hg => (used_alloc s f g).mpr (.inr hg)) fun hok => (h.guard.frames hok).alloc f
    exact .of_eq hsome (.inr ⟨f, rfl, rfl, hlt, hfree, hfresh.1, hset.setApart ((used_alloc s f f).mpr (.inl rfl)) hlt hfresh.2⟩)

theorem Elsewhere.setBitmap (D L : Set ℕ) (C : ℕ → ℕ → Prop) (s : Machine) (f : ℕ) : Elsewhere D L C s (s.setBitmap f true) :=
  .of_mem rfl rfl rfl rfl fun g hg => (used_alloc s f g).mpr (.inr hg)

/-- The content of a frame apart from the page tables is replaced. -/
theorem Settled.elsewhere_setFrame (h : Settled ok D L n s) (hf : f ∈ D) (hL : f ∉ L) (c : ℕ → Word) (C : ℕ → ℕ → Prop) :
    Elsewhere (D \ {f}) L C s (s.setFrame f c) := by
  have hne : ∀ w ∈ L, w ≠ f := fun w hw he => hL (he ▸ hw)
  refine ⟨rfl, rfl, rfl, fun w hw p hp _ _ => view_setFrame (hne w hw).symm c fun ht => ?_, fun w hw i _ => ?_,
    fun g hg _ => s.setFrame_mem_of_ne f hg.2, fun _ => id, fun g hg => s.setFrame_mem_of_ne f ?_⟩
  · exact h.tables.pt_ne hw hf (by have := hp.1; omega) hp.2 ht
  · rw [s.setFrame_mem_of_ne f (hne w hw)]
  · rintro rfl
    exact hg (h.tables.dir g hf).1

end Frames

end SysX
