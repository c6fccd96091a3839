import SysX.PageSteps
import SysX.Lib.Override

/-!
What the updates on the current VMM do to its translation, page by page. Memory for page tables is available here.
-/
namespace SysX

/-- Frame and flags of a page the MMU translates. -/
def transAt (m : ℕ → ℕ → Word) (pd p : ℕ) : Option (ℕ × Word) :=
  (view m pd p).filter fun x => x.2.getLsbD 0

/-- The pages outside of the recursive slot. -/
def regular : Set ℕ := {p | Regular p}

/-- What the tables say about a page mapped with `flags`. -/
def pageOf (flags : Word) (f : ℕ) : Option (ℕ × Word) :=
  if flags.getLsbD 0 then some (f, flags.canonFlags) else none

/-- The physical address of an address of the current VMM. -/
def Machine.translate (s : Machine) (va : ℕ) : Option ℕ :=
  (transAt s.mem s.cr3 (va / 4096)).map fun x => x.1 * 4096 + va % 4096

section Entries

variable {m : ℕ → ℕ → Word} {pd p : ℕ}

theorem filter_viewPte (t : Word) : (viewPte t).filter (fun x => x.2.getLsbD 0) =
    if t.present then some (t.pt, t.getFlags) else none := by
  unfold viewPte
  by_cases hz : t = 0#32
  · rw [if_pos hz, hz, if_neg (by decide)]
    rfl
  · rw [if_neg hz, Option.filter_some, Word.getFlags_bit0]

theorem transAt_pgsz (h : (m pd (p / 1024)).pgsz = true) : transAt m pd p =
    if (m pd (p / 1024)).present then
      some ((m pd (p / 1024)).psePa * 1024 + p % 1024, (m pd (p / 1024)).getFlags) else none := by
  rw [transAt, view_of_pgsz h, Option.filter_some, Word.getFlags_bit0]

theorem transAt_table (h : (m pd (p / 1024)).HasTable) : transAt m pd p =
    if (m (m pd (p / 1024)).pt (p % 1024)).present then
      some ((m (m pd (p / 1024)).pt (p % 1024)).pt, (m (m pd (p / 1024)).pt (p % 1024)).getFlags) else none := by
  rw [transAt, view_of_not_pgsz h.2, pteAt_of_hasTable h, filter_viewPte]

theorem transAt_zero (h : m pd (p / 1024) = 0#32) : transAt m pd p = none := by
  rw [transAt, view_of_slot_zero h]
  rfl

theorem filter_fillPte (e flags : Word) (pa : ℕ) :
    (viewPte (Word.fillPte e flags pa)).filter (fun x => x.2.getLsbD 0) = pageOf flags (pa / 4096 % 1048576) := by
  rw [filter_viewPte, Word.fillPte_present, Word.fillPte_pt, Word.getFlags_fillPte, pageOf]

theorem transAt_of_not_hasTable (h : ¬ (m pd (p / 1024)).HasTable) : transAt m pd p =
    if (m pd (p / 1024)).present && (m pd (p / 1024)).pgsz then
      some ((m pd (p / 1024)).psePa * 1024 + p % 1024, (m pd (p / 1024)).getFlags) else none := by
  cases hs : (m pd (p / 1024)).pgsz with
  | true => rw [transAt_pgsz hs, Bool.and_true]
  | false =>
    have hz : m pd (p / 1024) = 0#32 := by
      by_contra hne
      exact h ⟨hne, hs⟩
    rw [transAt_zero hz, Bool.and_false, if_neg Bool.false_ne_true]

/-- The table that replaces a 4 MiB page holds the other pages as that page did. -/
theorem viewPte_splitFrame {orig : Word} (hp : (orig.present && orig.pgsz) = true) {j k : ℕ} (hk : k < 1024)
    (hkj : k ≠ j) : viewPte (splitFrame orig j k) = some (orig.psePa * 1024 + k, orig.getFlags) := by
  have hlt := orig.psePa_lt
  have hpres : orig.present = true := (Bool.and_eq_true _ _ ▸ hp).1
  have hne : Word.splitPte 0#32 orig (orig.psePa * 1024 + k) ≠ 0#32 :=
    Word.ne_zero_of_present (by rw [Word.splitPte_present, hpres])
  rw [splitFrame_of_pse hp]
  dsimp only
  rw [if_pos ⟨hk, hkj⟩, viewPte, if_neg hne, Word.splitPte_pt, Word.getFlags_splitPte, Nat.mod_eq_of_lt (by omega)]

/-- The translation is the one of the page walk. -/
theorem translate_eq_mmu {D L : Set ℕ} {s : Machine} {va : ℕ} (h : Tables D L s) (hc : s.cr3 ∈ L)
    (hva : OffSlot va) :
    s.translate va = (mmu s.mem s.cr3 false va).map fun f => f * 4096 + va % 4096 := by
  have hi := va_slot va
  unfold Machine.translate mmu
  dsimp only
  cases hs : (s.mem s.cr3 (va / 4194304)).pgsz with
  | true =>
    rw [transAt_pgsz (by rw [hi]; exact hs), hi]
    cases (s.mem s.cr3 (va / 4194304)).present <;> simp
  | false =>
    by_cases he : (s.mem s.cr3 (va / 4194304)).HasTable
    · rw [transAt_table (by rw [hi]; exact he), hi, h.present _ hc _ hva.lt hva.2 he]
      cases (s.mem (s.mem s.cr3 (va / 4194304)).pt (va / 4096 % 1024)).present <;> simp
    · have hz : s.mem s.cr3 (va / 4194304) = 0#32 := by
        by_contra hne
        exact he ⟨hne, hs⟩
      rw [transAt_zero (by rw [hi]; exact hz), hz]
      simp [Word.present]

end Entries

section Slots

variable {D L : Set ℕ} {s t : Machine} {v f i pa va : ℕ} {flags : Word}

/-- An entry of the directory and one frame apart from directories do not matter for the other slots. -/
theorem Tables.view_elsewhere (h : Tables D L s) (hv : v ∈ L) (hdir : ∀ j ≠ i, t.mem v j = s.mem v j)
    (hmem : ∀ g ∉ D, g ≠ f → t.mem g = s.mem g)
    (hpt : ∀ j < 1024, j ≠ 767 → j ≠ i → (s.mem v j).HasTable → (s.mem v j).pt ≠ f) {p : ℕ} (hp : Regular p)
    (hpi : p / 1024 ≠ i) : view t.mem v p = view s.mem v p := by
  have hj : p / 1024 < 1024 := by have := hp.1; omega
  refine view_congr (hdir _ hpi) fun ht => ?_
  rw [hdir _ hpi] at ht ⊢
  rw [hmem _ (h.notDir v hv _ hj hp.2 ht) (hpt _ hj hp.2 hpi ht)]

/-- A page of a table was mapped. -/
theorem view_pgmapEntry (pa : ℕ) (flags : Word) (hvf : v ≠ f) (hp : (s.mem v (va / 4194304)).present = true)
    (hs : (s.mem v (va / 4194304)).pgsz = false) (hf : (s.mem v (va / 4194304)).pt = f) {p : ℕ}
    (hpi : p / 1024 = va / 4194304) : view (pgmapEntryAt s v f pa va flags).mem v p =
      viewPte (if p = va / 4096 then (s.mem f (p % 1024)).fillPte flags pa else s.mem f (p % 1024)) := by
  have htab : ((pgmapEntryAt s v f pa va flags).mem v (va / 4194304)).HasTable := pgmapEntryAt_slot hvf hp hs
  have hpde : (pgmapEntryAt s v f pa va flags).mem v (va / 4194304) = (s.mem v (va / 4194304)).orFlags flags := by
    unfold pgmapEntryAt
    dsimp only
    rw [Machine.set_mem_of_ne _ _ _ _ hvf, Machine.set_mem_self]
  have hentry : (pgmapEntryAt s v f pa va flags).mem f (p % 1024) =
      if p = va / 4096 then (s.mem f (p % 1024)).fillPte flags pa else s.mem f (p % 1024) := by
    unfold pgmapEntryAt
    dsimp only
    by_cases hpv : p = va / 4096
    · rw [if_pos hpv, hpv, Machine.set_mem_self, Machine.set_mem_of_ne _ _ _ _ hvf.symm]
    · rw [if_neg hpv, Machine.set_mem_of_ne_index _ _ _ _ _ (by omega), Machine.set_mem_of_ne _ _ _ _ hvf.symm]
  rw [view_eq_pte (by rw [hpi]; exact htab), hpi, hpde, Word.orFlags_pt, hf, hentry]

/-- What `vmm_pgmap_small` leaves in the entries: its own page, and the other pages as they were, apart from those of a
4 MiB page that was not present. -/
structure PageMapped (s t : Machine) (pd pa va : ℕ) (flags : Word) : Prop where
  own : ∃ e, view t.mem pd (va / 4096) = viewPte (Word.fillPte e flags pa)
  other : ∀ p, Regular p → p ≠ va / 4096 →
    view t.mem pd p = view s.mem pd p ∨ view t.mem pd p = none ∧ transAt s.mem pd p = none

/-- The other pages, through a page table that was there. -/
theorem Tables.view_pgmapEntry_ne (h : Tables D L s) (hv : v ∈ L) (hva : OffSlot va)
    (he : (s.mem v (va / 4194304)).HasTable) {p : ℕ} (hp : Regular p) (hne : p ≠ va / 4096) :
    view (SysX.pgmapEntryAt s v (s.mem v (va / 4194304)).pt pa va flags).mem v p = view s.mem v p := by
  have hvf := (h.pt_ne hv (h.sub hv) hva.lt hva.2 he).symm
  by_cases hpi : p / 1024 = va / 4194304
  · rw [view_pgmapEntry pa flags hvf (h.present _ hv _ hva.lt hva.2 he) he.2 rfl hpi, if_neg hne,
      view_eq_pte (by rw [hpi]; exact he), hpi]
  · refine h.view_elsewhere hv (f := (s.mem v (va / 4194304)).pt) (fun j hj => ?_) (fun g hg hgf => ?_)
      (fun j hj hne hji ht heq => ?_) hp hpi
    · unfold SysX.pgmapEntryAt
      dsimp only
      rw [Machine.set_mem_of_ne _ _ _ _ hvf, Machine.set_mem_of_ne_index _ _ _ _ _ hj]
    · exact pgmapEntryAt_mem (fun e => hg (e ▸ h.sub hv)) hgf
    · exact hji (h.sep _ hv _ hv j hj _ hva.lt hne hva.2 ht he heq).1

/-- Through a page table that was there. -/
theorem Tables.pageMapped (h : Tables D L s) (hv : v ∈ L) (hva : OffSlot va) (he : (s.mem v (va / 4194304)).HasTable) :
    PageMapped s (SysX.pgmapEntryAt s v (s.mem v (va / 4194304)).pt pa va flags) v pa va flags := by
  have hvf := (h.pt_ne hv (h.sub hv) hva.lt hva.2 he).symm
  refine ⟨⟨s.mem (s.mem v (va / 4194304)).pt (va / 4096 % 1024), ?_⟩, fun p hp hne => .inl (h.view_pgmapEntry_ne hv hva he hp hne)⟩
  rw [view_pgmapEntry pa flags hvf (h.present _ hv _ hva.lt hva.2 he) he.2 rfl (va_slot va), if_pos rfl]

/-- The pages of other slots, where the page table is new, in a state in which only other directories have changed
since. -/
theorem Tables.view_newTable_ne {s₂ : Machine} (h : Tables D L s) (hv : v ∈ L) (hfree : ¬ SysX.used s f)
    (hdir : s₂.mem v = (SysX.newTableAt s v (va / 4194304) f).mem v)
    (hrest : ∀ g ∉ D, s₂.mem g = (SysX.newTableAt s v (va / 4194304) f).mem g) (c : ℕ → Word) {p : ℕ} (hp : Regular p)
    (hpi : p / 1024 ≠ va / 4194304) :
    view (SysX.pgmapEntryAt (s₂.setFrame f c) v f pa va flags).mem v p = view s.mem v p := by
  obtain ⟨hfD, hfL⟩ := h.fresh hfree
  have hvf : v ≠ f := fun e => hfD (e ▸ h.sub hv)
  refine h.view_elsewhere hv (f := f) (fun j hj => ?_) (fun g hg hgf => ?_)
    (fun j hj hne _ ht => hfL _ hv j hj hne ht) hp hpi
  · unfold SysX.pgmapEntryAt
    dsimp only
    rw [Machine.set_mem_of_ne _ _ _ _ hvf, Machine.set_mem_of_ne_index _ _ _ _ _ hj,
      Machine.setFrame_mem_of_ne _ _ hvf, hdir, SysX.newTableAt, Machine.setFrame_mem_of_ne _ _ hvf,
      Machine.set_mem_of_ne_index _ _ _ _ _ hj]
    rfl
  · have hgc : g ≠ v := fun e => hg (e ▸ h.sub hv)
    rw [pgmapEntryAt_mem hgc hgf, Machine.setFrame_mem_of_ne _ _ hgf, hrest g hg, SysX.newTableAt,
      Machine.setFrame_mem_of_ne _ _ hgf, Machine.set_mem_of_ne _ _ _ _ hgc]
    rfl

/-- Through a new page table. -/
theorem Tables.pageMapped_new {s₂ : Machine} (h : Tables D L s) (hv : v ∈ L)
    (he : ¬ (s.mem v (va / 4194304)).HasTable) (hf : f < s.pmmFrames) (hfree : ¬ SysX.used s f)
    (hdir : s₂.mem v = (SysX.newTableAt s v (va / 4194304) f).mem v)
    (hrest : ∀ g ∉ D, s₂.mem g = (SysX.newTableAt s v (va / 4194304) f).mem g) :
    PageMapped s (SysX.pgmapEntryAt (s₂.setFrame f (splitFrame (s.mem v (va / 4194304)) (va / 4096 % 1024)))
      v f pa va flags) v pa va flags := by
  have hi := va_slot va
  have hvf : v ≠ f := fun e => (h.fresh hfree).1 (e ▸ h.sub hv)
  have hpde : (s₂.setFrame f (splitFrame (s.mem v (va / 4194304)) (va / 4096 % 1024))).mem v
      (va / 4194304) = newTableEntry (s.mem v (va / 4194304)) f := by
    rw [Machine.setFrame_mem_of_ne _ _ hvf, hdir]
    exact newTableAt_mem_pde hvf
  have hin := fun p (hpi : p / 1024 = va / 4194304) => view_pgmapEntry pa flags hvf
    (by rw [hpde]; exact newTableEntry_present _ f) (by rw [hpde]; exact newTableEntry_pgsz _ f)
    (by rw [hpde]; exact newTableEntry_pt _ (Nat.lt_of_lt_of_le hf h.frames)) hpi
  refine ⟨⟨_, by rw [hin _ hi, if_pos rfl]⟩, fun p hp hne => ?_⟩
  by_cases hpi : p / 1024 = va / 4194304
  · rw [hin p hpi, if_neg hne, Machine.setFrame_mem_self]
    have hk : p % 1024 ≠ va / 4096 % 1024 := fun hk => hne (show p = va / 4096 by omega)
    cases hpse : (s.mem v (va / 4194304)).present && (s.mem v (va / 4194304)).pgsz with
    | true =>
      rw [Bool.and_eq_true] at hpse
      rw [viewPte_splitFrame (by rw [hpse.1, hpse.2]; rfl) (Nat.mod_lt _ (by decide)) hk,
        view_of_pgsz (by rw [hpi]; exact hpse.2), hpi]
      exact .inl rfl
    | false =>
      rw [splitFrame_of_not_pse hpse, transAt_of_not_hasTable (by rw [hpi]; exact he), hpi, hpse]
      exact .inr ⟨rfl, rfl⟩
  · exact .inl (h.view_newTable_ne hv hfree hdir hrest _ hp hpi)

/-- Propagation leaves the directory with the new page table alone, and all frames that are no directories. -/
theorem Tables.spread_newTable {s₂ : Machine} (h : Tables D L s) (hfree : ¬ SysX.used s f)
    (hs : Spread (SysX.newTableAt s s.cr3 (va / 4194304) f) s.cr3 (va / 4194304) s₂)
    (hsame : propagates s va = false → s₂ = SysX.newTableAt s s.cr3 (va / 4194304) f)
    (hpr : propagates s va = true → Propagates True D s) :
    s₂.mem s.cr3 = (SysX.newTableAt s s.cr3 (va / 4194304) f).mem s.cr3 ∧
    ∀ g ∉ D, s₂.mem g = (SysX.newTableAt s s.cr3 (va / 4194304) f).mem g := by
  cases hp : propagates s va with
  | true =>
    have hpr' : Propagates True D (SysX.newTableAt s s.cr3 (va / 4194304) f) := (hpr hp).congr rfl rfl
    exact ⟨(hs.frame hpr' (h.fresh hfree).1).2.1, fun g hg => (hs.frame hpr' hg).2.2⟩
  | false =>
    rw [hsame hp]
    exact ⟨rfl, fun _ _ => rfl⟩

/-- The other slots of the directory stay. -/
theorem PgmapOwn.slot_of_ne {j : ℕ} (hm : PgmapOwn s pa va flags t) (h : Tables D L s)
    (hc : s.cr3 ∈ L) (hva : OffSlot va) (hpr : propagates s va = true → Propagates True D s) (hj : j ≠ va / 4194304) :
    t.mem s.cr3 j = s.mem s.cr3 j := by
  have hentry : ∀ (m : Machine) (g : ℕ), s.cr3 ≠ g → (pgmapEntryAt m s.cr3 g pa va flags).mem s.cr3 j = m.mem s.cr3 j := by
    intro m g hg
    unfold pgmapEntryAt
    dsimp only
    rw [Machine.set_mem_of_ne _ _ _ _ hg, Machine.set_mem_of_ne_index _ _ _ _ _ hj]
  rcases hm.cases with ⟨he, rfl⟩ | ⟨-, f, hf, hfree, s₂, hs, hsame, rfl⟩
  · exact hentry s _ (h.pt_ne hc (h.sub hc) hva.lt hva.2 he).symm
  · have hcf : s.cr3 ≠ f := fun e => hfree (e ▸ (h.dir _ (h.sub hc)).1)
    rw [hentry _ f hcf, Machine.setFrame_mem_of_ne _ _ hcf, (h.spread_newTable hfree hs hsame hpr).1]
    unfold newTableAt
    rw [Machine.setFrame_mem_of_ne _ _ hcf, Machine.set_mem_of_ne_index _ _ _ _ _ hj]
    rfl

theorem PgmapOwn.pageMapped (hm : PgmapOwn s pa va flags t) (h : Tables D L s) (hc : s.cr3 ∈ L) (hva : OffSlot va)
    (hpr : propagates s va = true → Propagates True D s) : PageMapped s t s.cr3 pa va flags := by
  rcases hm.cases with ⟨he, rfl⟩ | ⟨he, f, hf, hfree, s₂, hs, hsame, rfl⟩
  · exact h.pageMapped hc hva he
  · obtain ⟨hdir, hrest⟩ := h.spread_newTable hfree hs hsame hpr
    exact h.pageMapped_new hc he hf hfree hdir hrest

theorem PgmapSmall.pageMapped (hm : PgmapSmall s v pa va flags t) (h : Tables D L s) (hv : v ∈ L) (hva : OffSlot va)
    (hp : propagates s va = false) : PageMapped s t v pa va flags := by
  unfold PgmapSmall at hm
  split_ifs at hm with he
  · rw [hm]
    exact h.pageMapped hv hva he
  · obtain ⟨f, hf, hfree, rfl⟩ := hm
    unfold pgmapNewAt
    dsimp only
    rw [hp, if_neg Bool.false_ne_true]
    exact h.pageMapped_new hv he hf hfree rfl fun _ _ => rfl

/-- A small page replaces what was there, whether its slot had a page table, a 4 MiB page or nothing. -/
theorem PageMapped.override {pd : ℕ} (h : PageMapped s t pd pa va flags) :
    Override regular (transAt s.mem pd) (transAt t.mem pd) {va / 4096}
      fun _ => pageOf flags (pa / 4096 % 1048576) := by
  refine ⟨fun p _ hp => ?_, fun p hp hne => ?_⟩
  · obtain ⟨e, he⟩ := h.own
    rw [Set.mem_singleton_iff] at hp
    rw [hp, transAt, he, filter_fillPte]
  · rcases h.other p hp hne with hsame | ⟨hgone, hbefore⟩
    · rw [transAt, hsame, transAt]
    · rw [hbefore, transAt, hgone]
      rfl

/-- An entry of the directory is written. -/
theorem Tables.view_slot (h : Tables D L s) (hc : v ∈ L) (hdir : ∀ j ≠ i, t.mem v j = s.mem v j)
    (hmem : ∀ g ∉ D, t.mem g = s.mem g) {p : ℕ} (hp : Regular p) (hpi : p / 1024 ≠ i) :
    view t.mem v p = view s.mem v p := by
  refine view_congr (hdir _ hpi) fun ht => ?_
  rw [hdir _ hpi] at ht ⊢
  rw [hmem _ (h.notDir v hc _ (by have := hp.1; omega) hp.2 ht)]

theorem releaseAt_mem (s : Machine) (v i : ℕ) (d : Word) : (releaseAt s v i d).mem = (s.set v i d).mem := by
  unfold releaseAt
  split_ifs <;> rfl

/-- What `vmm_pgmap_huge` leaves in the entries. -/
theorem PgmapHugeOwn.view (hm : PgmapHugeOwn s pa va flags t) (h : Tables D L s) (hc : s.cr3 ∈ L)
    (hpr : propagates s va = true → Propagates True D s) {p : ℕ} (hp : Regular p) :
    SysX.view t.mem s.cr3 p = if p / 1024 = va / 4194304 then
      some (pa / 4194304 % 1024 * 1024 + p % 1024, flags.canonFlags) else SysX.view s.mem s.cr3 p := by
  have hspread : t.mem s.cr3 = (s.set s.cr3 (va / 4194304) (Word.fillPse flags pa)).mem s.cr3 ∧
      ∀ g ∉ D, t.mem g = s.mem g := by
    have hcD : ∀ g ∉ D, g ≠ s.cr3 := fun g hg e => hg (e ▸ h.sub hc)
    have hrel := releaseAt_mem s s.cr3 (va / 4194304) (Word.fillPse flags pa)
    unfold PgmapHugeOwn at hm
    dsimp only at hm
    cases hp : propagates s va with
    | true =>
      rw [hp, if_pos rfl] at hm
      have hrest := releaseAt_rest s s.cr3 (va / 4194304) (Word.fillPse flags pa)
      have hpr' : Propagates True D (releaseAt s s.cr3 (va / 4194304) (Word.fillPse flags pa)) :=
        (hpr hp).congr (by rw [hrest]; rfl) (by rw [hrest])
      refine ⟨?_, fun g hg => ?_⟩
      · rcases hm with rfl | rfl
        · rw [hrel]
        · rw [propagateAt_mem_self hpr', hrel]
      · rw [(hm.frame hpr' hg).2.2, hrel, s.set_mem_of_ne _ _ _ (hcD g hg)]
    | false =>
      rw [hp, if_neg Bool.false_ne_true] at hm
      rw [hm, hrel]
      exact ⟨rfl, fun g hg => s.set_mem_of_ne _ _ _ (hcD g hg)⟩
  obtain ⟨hdir, hmem⟩ := hspread
  have hpde : t.mem s.cr3 (va / 4194304) = Word.fillPse flags pa := by rw [hdir, s.set_mem_self]
  split_ifs with hpi
  · rw [view_of_pgsz (by rw [hpi, hpde]; exact Word.fillPse_pgsz _ _), hpi, hpde, Word.fillPse_psePa,
      Word.getFlags_fillPse]
  · exact h.view_slot hc (fun j hj => by rw [hdir, s.set_mem_of_ne_index _ _ _ _ hj]) hmem hp hpi

theorem PgmapHugeOwn.override (hm : PgmapHugeOwn s pa va flags t) (h : Tables D L s) (hc : s.cr3 ∈ L)
    (hpr : propagates s va = true → Propagates True D s) :
    Override regular (transAt s.mem s.cr3) (transAt t.mem s.cr3) {p | p / 1024 = va / 4194304}
      fun p => pageOf flags (pa / 4194304 % 1024 * 1024 + p % 1024) := by
  refine ⟨fun p hp hpi => ?_, fun p hp hpi => ?_⟩
  · rw [Set.mem_ofPred_eq] at hpi
    rw [transAt, hm.view h hc hpr hp, if_pos hpi, Option.filter_some, Word.canonFlags_bit0, pageOf]
  · rw [Set.mem_ofPred_eq] at hpi
    rw [transAt, hm.view h hc hpr hp, if_neg hpi, transAt]

theorem releaseAt_slot (s : Machine) (v i : ℕ) (d : Word) : (releaseAt s v i d).mem v i = d := by
  rw [releaseAt_mem, s.set_mem_self]

theorem Tables.view_release (h : Tables D L s) (hv : v ∈ L) (i : ℕ) (d : Word) {p : ℕ} (hp : Regular p)
    (hpi : p / 1024 ≠ i) : view (SysX.releaseAt s v i d).mem v p = view s.mem v p := by
  rw [releaseAt_mem]
  exact h.view_slot hv (fun j hj => s.set_mem_of_ne_index _ _ _ _ hj)
    (fun g hg => s.set_mem_of_ne _ _ _ fun e => hg (e ▸ h.sub hv)) hp hpi

/-- One entry of a page table is written. -/
theorem Tables.view_setPte (h : Tables D L s) (hv : v ∈ L) {q : ℕ} (hq : Regular q)
    (he : (s.mem v (q / 1024)).HasTable) (d : Word) {p : ℕ} (hp : Regular p) :
    view (s.set (s.mem v (q / 1024)).pt (q % 1024) d).mem v p = if p = q then viewPte d else view s.mem v p := by
  have hi : q / 1024 < 1024 := by have := hq.1; omega
  have hdir : (s.set (s.mem v (q / 1024)).pt (q % 1024) d).mem v = s.mem v :=
    s.set_mem_of_ne _ _ _ (h.pt_ne hv (h.sub hv) hi hq.2 he).symm
  have hpte := h.pteAt_set hv hq he d hp
  by_cases hpq : p = q
  · rw [if_pos hpq, view_of_not_pgsz (by rw [hdir, hpq]; exact he.2), hpte, if_pos hpq]
  · unfold view
    rw [hdir, hpte, if_neg hpq, if_neg hpq]

end Slots

end SysX
