import SysX.Kheap
import SysX.HugePages

/-!
The heap region over any history of `kmorecore` calls in which no frame allocation fails.
-/
namespace SysX

/-- The first `n` pages of the heap region are mapped, the `k`-th to frame `F k`, and the others are not. Frames of
`D` are directories and others that the heap must not touch. -/
structure HeapPages (D : Set ℕ) (n : ℕ) (F : ℕ → ℕ) (m : Machine) : Prop where
  vmm : OwnVmm (D ∪ F '' Set.Iio n) m
  cur : m.cr3 ∈ D
  spread : Propagates True D m
  fresh : ∀ k < n, F k ∉ D
  zero : used m 0
  nonzero : ∀ k < n, F k ≠ 0
  inj : Set.InjOn F (Set.Iio n)
  mapped : ∀ k < n, transAt m.mem m.cr3 (kheapPage + k) = some (F k, kheapFlags.canonFlags)
  unmapped : ∀ k, n ≤ k → k < 4096 → view m.mem m.cr3 (kheapPage + k) = none
  quiet : ∀ k < 4096, Untrapped m ((kheapPage + k) / 1024)
  small : ∀ k < 4096, (m.mem m.cr3 ((kheapPage + k) / 1024)).pgsz = false

section Frames

variable {D L : Set ℕ} {s t : Machine} {v f : ℕ}

/-- A frame that is in use and no page table may be set apart. -/
theorem Tables.insert (h : Tables D L s) (hu : SysX.used s f) (hf : f < 1048576)
    (ht : ∀ v ∈ L, ∀ i < 1024, i ≠ 767 → (s.mem v i).HasTable → (s.mem v i).pt ≠ f) :
    Tables (insert f D) L s where
  frames := h.frames
  sub := h.sub.trans (Set.subset_insert f D)
  dir v hv := by
    rcases hv with rfl | hv
    · exact ⟨hu, hf⟩
    · exact h.dir v hv
  self := h.self
  present := h.present
  rw := h.rw
  used := h.used
  notDir v hv i hi hne htab hmem := by
    rcases hmem with heq | hmem
    · exact ht v hv i hi hne htab heq
    · exact h.notDir v hv i hi hne htab hmem
  sep := h.sep

theorem Tables.antitone {D' : Set ℕ} (h : Tables D L s) (hD : D' ⊆ D) (hL : L ⊆ D') : Tables D' L s where
  frames := h.frames
  sub := hL
  dir v hv := h.dir v (hD hv)
  self := h.self
  present := h.present
  rw := h.rw
  used := h.used
  notDir v hv i hi hne htab hmem := h.notDir v hv i hi hne htab (hD hmem)
  sep := h.sep

theorem Spread.pmmBitmap_eq {v i : ℕ} (hs : Spread s v i t) : t.pmmBitmap = s.pmmBitmap := by
  rcases hs with rfl | rfl
  · rfl
  · unfold propagateAt
    split
    · rfl
    · split_ifs <;> rfl

theorem PgmapOwn.used {pa va : ℕ} {flags : Word} (h : PgmapOwn s pa va flags t) (hf : SysX.used s f) :
    SysX.used t f := by
  rcases h.cases with ⟨-, rfl⟩ | ⟨-, g, -, -, s₂, hs, -, rfl⟩
  · exact hf
  · have hnew : SysX.used (newTableAt s s.cr3 (va / 4194304) g) f := (used_alloc s g f).mpr (.inr hf)
    show pmmBit s₂.pmmBitmap f = true
    rw [hs.pmmBitmap_eq]
    exact hnew

end Frames

section Pages

variable {D : Set ℕ} {F : ℕ → ℕ} {s t : Machine} {K : Callees} {ok : Prop} {n f k : ℕ}

theorem image_update_Iio (F : ℕ → ℕ) (n f : ℕ) :
    Function.update F n f '' Set.Iio (n + 1) = insert f (F '' Set.Iio n) := by
  ext g
  constructor
  · rintro ⟨k, hk, rfl⟩
    by_cases hkn : k = n
    · rw [hkn, Function.update_self]
      exact .inl rfl
    · rw [Function.update_of_ne hkn]
      have hk' : k < n + 1 := hk
      exact .inr ⟨k, show k < n by omega, rfl⟩
  · rintro (rfl | ⟨k, hk, rfl⟩)
    · exact ⟨n, Nat.lt_succ_self n, Function.update_self n g F⟩
    · have hk' : k < n := hk
      exact ⟨k, show k < n + 1 by omega, Function.update_of_ne (by omega) f F⟩

theorem kheapPage_regular {k : ℕ} (hk : k < 4096) : Regular (kheapPage + k) := by
  unfold Regular kheapPage
  omega

theorem kheapFlags_pageOf (f : ℕ) : pageOf kheapFlags f = some (f, kheapFlags.canonFlags) := if_pos rfl

/-- A fresh frame is neither one of the heap's nor one that was set apart. -/
theorem HeapPages.fresh_frame (h : HeapPages D n F s) (hfree : ¬ used s f) : f ∉ D ∧ ∀ k < n, F k ≠ f :=
  ⟨fun hD => hfree (h.vmm.tables.dir f (.inl hD)).1,
    fun k hk he => hfree (h.vmm.tables.dir f (.inr ⟨k, hk, he⟩)).1⟩

/-- The frame for the next page is taken. -/
theorem HeapPages.alloc (h : HeapPages D n F s) (hf : f < s.pmmFrames) (hfree : ¬ used s f) :
    OwnVmm (D ∪ Function.update F n f '' Set.Iio (n + 1)) (s.setBitmap f true) := by
  rw [image_update_Iio, Set.union_insert]
  have hfresh := h.vmm.tables.fresh hfree
  have hlt : f < 1048576 := lt_of_lt_of_le hf h.vmm.tables.frames
  refine ⟨(h.vmm.tables.alloc f).insert ((used_alloc s f f).mpr (.inl rfl)) hlt hfresh.2, h.vmm.aligned, ?_, h.vmm.spread.run⟩
  intro k hk
  obtain ⟨hD, hal⟩ := h.vmm.spread.dir k hk
  exact ⟨.inr hD, hal⟩

/-- One page more. -/
theorem HeapPages.grown {σ : Machine} (h : HeapPages D n F s) (hn : n < 4096) (hf : f < s.pmmFrames) (hfree : ¬ used s f)
    (hm : PgmapOwn (s.setBitmap f true) (w32 (f * 4096)) ((kheapPage + n) * 4096) kheapFlags σ)
    (hw : Windowed (D ∪ Function.update F n f '' Set.Iio (n + 1)) {s.cr3} σ t fun _ => 0#32) :
    HeapPages D (n + 1) (Function.update F n f) t ∧ SameRest s t ∧ (t.mem t.cr3 ((kheapPage + n) / 1024)).HasTable ∧
      ∀ g, used s g → used t g := by
  have hvmm := h.alloc hf hfree
  obtain ⟨hmapped, hslot⟩ := hm.mapped hvmm (kheapPage_regular hn) hw
  obtain ⟨hD, hF⟩ := h.fresh_frame hfree
  have hlt : f < 1048576 := lt_of_lt_of_le hf h.vmm.tables.frames
  have hframe : w32 (f * 4096) / 4096 % 1048576 = f := by
    rw [w32_of_lt (by omega)]
    omega
  have hrest : SameRest s t := by
    have hstep : SameRest s (s.setBitmap f true) := rfl
    exact hstep.trans hmapped.rest
  have hcr3 : t.cr3 = s.cr3 := hrest.cr3_eq
  have hused : ∀ g, used s g → used t g := fun g hg => hw.used g (hm.used ((used_alloc s f g).mpr (.inr hg)))
  refine ⟨⟨hmapped.vmm, by rw [hcr3]; exact h.cur, ?_, ?_, hused 0 h.zero, ?_, ?_, ?_, ?_, ?_, ?_⟩, hrest, hslot, hused⟩
  · refine h.spread.congr ?_ ?_
    · rw [hrest]
      rfl
    · rw [hrest]
  · intro k hk
    by_cases hkn : k = n
    · rw [hkn, Function.update_self]
      exact hD
    · rw [Function.update_of_ne hkn]
      exact h.fresh k (by omega)
  · intro k hk
    by_cases hkn : k = n
    · rw [hkn, Function.update_self]
      rintro rfl
      exact hfree h.zero
    · rw [Function.update_of_ne hkn]
      exact h.nonzero k (by omega)
  · intro j hj k hk hjk
    have hj' : j < n + 1 := hj
    have hk' : k < n + 1 := hk
    by_cases hjn : j = n <;> by_cases hkn : k = n
    · rw [hjn, hkn]
    · rw [hjn, Function.update_self, Function.update_of_ne hkn] at hjk
      exact absurd hjk.symm (hF k (by omega))
    · rw [hkn, Function.update_self, Function.update_of_ne hjn] at hjk
      exact absurd hjk (hF j (by omega))
    · rw [Function.update_of_ne hjn, Function.update_of_ne hkn] at hjk
      exact h.inj (show j < n by omega) (show k < n by omega) hjk
  · intro k hk
    rw [hcr3]
    by_cases hkn : k = n
    · rw [hkn, Function.update_self]
      refine (hmapped.placed.inside _ (kheapPage_regular hn) rfl).trans ?_
      rw [hframe]
      exact kheapFlags_pageOf f
    · rw [Function.update_of_ne hkn]
      have hkn' : k < n := by omega
      refine (hmapped.placed.outside _ (kheapPage_regular (by omega)) ?_).trans (h.mapped k hkn')
      intro he
      have he' : kheapPage + k = kheapPage + n := he
      omega
  · intro k hk hk'
    rw [hcr3]
    refine hmapped.gone _ (kheapPage_regular hk') ?_ (h.unmapped k (by omega) hk')
    intro he
    have he' : kheapPage + k = kheapPage + n := he
    omega
  · exact fun k hk => hmapped.quiet rfl _ (h.quiet k hk)
  · intro k hk
    by_cases hslots : (kheapPage + k) / 1024 = (kheapPage + n) / 1024
    · rw [hslots]
      exact hslot.2
    · have hσ := hm.slot_of_ne (j := (kheapPage + k) / 1024) hvmm.tables rfl (kheapPage_regular hn).offSlot
        (fun _ => hvmm.spread) (by rw [page_slot]; exact hslots)
      have hσc : σ.cr3 = s.cr3 := hm.rest.cr3_eq
      have hpgsz := hw.pgsz_eq ((kheapPage + k) / 1024)
      rw [hσc] at hpgsz
      rw [hcr3, hpgsz]
      refine (congrArg Word.pgsz hσ).trans ?_
      exact h.small k hk

theorem HeapPages.map (h : HeapPages D n F s) (hK : K.Closed) (hn : n < 4096) (hf : f < s.pmmFrames)
    (hfree : ¬ used s f)
    (hg : Guard ok (s.setBitmap f true) (s.setBitmap f true) (k + slotCost s ((kheapPage + n) * 4096))) :
    Comp.Wp ok (vmmPgmap K s.vmmCurrent (w32 (f * 4096)) ((kheapPage + n) * 4096) 0 kheapFlags)
      (fun _ t => (HeapPages D (n + 1) (Function.update F n f) t ∧ SameRest s t ∧
        (t.mem t.cr3 ((kheapPage + n) / 1024)).HasTable ∧ ∀ g, used s g → used t g) ∧ Guard ok t t k)
      (s.setBitmap f true) := by
  have hvmm := h.alloc hf hfree
  have hoff := (kheapPage_regular hn).offSlot
  have hcall : vmmPgmap K s.vmmCurrent (w32 (f * 4096)) ((kheapPage + n) * 4096) 0 kheapFlags =
      vmmPgmapSmall K s.vmmCurrent (w32 (f * 4096)) ((kheapPage + n) * 4096) kheapFlags := if_neg hoff.not_rmap
  have hwp : Comp.Wp ok (vmmPgmapSmall K s.vmmCurrent (w32 (f * 4096)) ((kheapPage + n) * 4096) kheapFlags)
      (fun _ t => ∃ σ, PgmapOwn (s.setBitmap f true) (w32 (f * 4096)) ((kheapPage + n) * 4096) kheapFlags σ ∧
        Windowed (D ∪ Function.update F n f '' Set.Iio (n + 1)) {s.cr3} σ t (fun _ => 0#32) ∧ Guard ok t t k)
      (s.setBitmap f true) := by
    by_cases hok : ok
    · refine (vmmPgmapSmall_own hvmm.tables rfl hvmm.aligned hK hoff (fun _ => ⟨hvmm.spread.dir, fun _ => hvmm.spread.run trivial⟩)
        hg.frames fun _ hno => absurd hok hno).mono ?_
      rintro _ t ⟨σ, hm, hw, hfr⟩
      exact ⟨σ, hm, hw, hfr, fun hno => absurd hok hno⟩
    · have hslot : 768 ≤ (kheapPage + n) * 4096 / 4194304 := by
        unfold kheapPage
        omega
      have hguard : Guard ok (s.setBitmap f true) (s.setBitmap f true) (0 + 2) :=
        ⟨fun ho => absurd ho hok, hg.null⟩
      refine ((Windowed.refl hvmm.tables rfl).vmmPgmapSmall_kernel hK hvmm.aligned hoff hslot
        ⟨hvmm.spread.dir, fun _ => hvmm.spread.run trivial⟩ hguard).mono ?_
      rintro _ t ⟨σ, hm, hw, hg'⟩
      exact ⟨σ, hm, hw, fun ho => absurd ho hok, fun _ => hw.nullGuard (hg'.null hok)⟩
  rw [hcall]
  refine hwp.mono ?_
  rintro _ t ⟨σ, hm, hw, hfr⟩
  exact ⟨h.grown hn hf hfree hm hw, hfr⟩

/-- Frames that mapping `j` pages after the first `n` may take. -/
def expandFrames (s : Machine) (n j : ℕ) : ℕ :=
  j + slotBudget (slotCost s ((kheapPage + n) * 4096)) (kheapPage + n) (kheapPage + n + j)

/-- Pages were added to the first `n` ones. -/
structure Expanded (D : Set ℕ) (s : Machine) (n j : ℕ) (F : ℕ → ℕ) (t : Machine) (F' : ℕ → ℕ) : Prop where
  pages : HeapPages D (n + j) F' t
  rest : SameRest s t
  same : ∀ k < n, F' k = F k
  used : ∀ g, used s g → used t g

theorem Expanded.next {u : Machine} {F' F'' : ℕ → ℕ} {j : ℕ} (h : Expanded D s n 1 F t F') (h' : Expanded D t (n + 1) j F' u F'') :
    Expanded D s n (j + 1) F u F'' where
  pages := by
    rw [Nat.add_comm j 1, ← Nat.add_assoc]
    exact h'.pages
  rest := h.rest.trans h'.rest
  same k hk := (h'.same k (by omega)).trans (h.same k hk)
  used g hg := h'.used g (h.used g hg)

theorem expandFrames_next {c : ℕ} (hc : c ≤ 2) {j : ℕ} {u : Machine} (hslot : (u.mem u.cr3 ((kheapPage + n) / 1024)).HasTable)
    (hs : slotCost s ((kheapPage + n) * 4096) = c) : expandFrames u (n + 1) j + c + 1 ≤ expandFrames s n (j + 1) := by
  have hnext : slotBudget (slotCost u ((kheapPage + n + 1) * 4096)) (kheapPage + n + 1) (kheapPage + n + 1 + j) + c ≤
      slotBudget c (kheapPage + n) (kheapPage + n + 1 + j) := by
    refine slotBudget_next (by omega) hc fun hne => ?_
    have hsame : (kheapPage + n + 1) * 4096 / 4194304 = (kheapPage + n) / 1024 := by omega
    rw [slotCost, hsame, if_pos hslot]
  unfold expandFrames
  rw [hs, show kheapPage + n + (j + 1) = kheapPage + n + 1 + j by omega, ← Nat.add_assoc kheapPage n 1]
  omega

/-- The loop of a growth. -/
theorem HeapPages.expand (hK : K.Closed) (j : ℕ) : ∀ {n : ℕ} {F : ℕ → ℕ} {s : Machine}, HeapPages D n F s → n + j ≤ 4096 →
    Guard ok s s (expandFrames s n j) →
    Comp.Wp ok (kheapExpand K j ((kheapPage + n) * 4096))
      (fun done t => (ok → done = true) ∧ (done = true → ∃ F', Expanded D s n j F t F')) s := by
  induction j with
  | zero =>
    intro n F s h _ _
    exact .pure ⟨fun _ => rfl, fun _ => ⟨F, h, rfl, fun _ _ => rfl, fun _ => id⟩⟩
  | succ j ih =>
    intro n F s h hn hg
    have hc : slotCost s ((kheapPage + n) * 4096) ≤ 2 := slotCost_le s _
    have hone : slotCost s ((kheapPage + n) * 4096) + 1 ≤ expandFrames s n (j + 1) := by
      have : slotBudget 0 (kheapPage + n + 1) (kheapPage + n + (j + 1)) + slotCost s ((kheapPage + n) * 4096) ≤ _ :=
        slotBudget_next (by omega) hc fun _ => rfl
      unfold expandFrames
      omega
    unfold kheapExpand
    rcases pmmAllocFree_one h.vmm.tables.frames with ⟨hnone, hall⟩ | ⟨f, hf, hfree, hsome⟩
    · refine .step hnone (.pure ⟨fun ho => ?_, fun hdone => absurd hdone Bool.false_ne_true⟩)
      obtain ⟨f, hf, hfree⟩ := FreeFrames.exists_free ((hg.frames ho).mono (show 0 + 1 ≤ _ by omega))
      exact absurd (hall f hf) hfree
    · refine .step hsome ?_
      dsimp only
      refine .step (Comp.read_apply _ _) ?_
      have hguard : Guard ok (s.setBitmap f true) (s.setBitmap f true)
          (expandFrames s n (j + 1) - 1 - slotCost s ((kheapPage + n) * 4096) + slotCost s ((kheapPage + n) * 4096)) := by
        refine ⟨fun ho => ?_, fun hno => ⟨(hg.null hno).table, (hg.null hno).pte⟩⟩
        have hfr := (hg.frames ho).mono
          (show expandFrames s n (j + 1) - 1 - slotCost s ((kheapPage + n) * 4096) +
            slotCost s ((kheapPage + n) * 4096) + 1 ≤ _ by omega)
        exact hfr.alloc f
      refine (h.map hK (by omega) hf hfree hguard).bind fun _ t ⟨⟨hpages, hrest, hslot, hused⟩, hg'⟩ => ?_
      have hva : w32 ((kheapPage + n) * 4096 + 4096) = (kheapPage + (n + 1)) * 4096 := by
        unfold kheapPage
        rw [w32_of_lt (by omega)]
        omega
      rw [hva]
      have hstep : Expanded D s n 1 F t (Function.update F n f) :=
        ⟨hpages, hrest, fun k hk => Function.update_of_ne (by omega) f F, hused⟩
      have hbudget := expandFrames_next (s := s) (n := n) (j := j) hc hslot rfl
      refine (ih hpages (by omega) (hg'.mono (by omega))).mono fun done u ⟨hdone, hexp⟩ => ⟨hdone, fun hd => ?_⟩
      obtain ⟨F', hF'⟩ := hexp hd
      exact ⟨F', hstep.next hF'⟩

/-- Of the first `n + j` pages the last `j` ones were unmapped, and their frames released. -/
structure Trimmed (D : Set ℕ) (s : Machine) (n j : ℕ) (F : ℕ → ℕ) (t : Machine) : Prop where
  pages : HeapPages D n F t
  rest : SameRest s t
  freed : ∀ g, used t g ↔ used s g ∧ ∀ k, n ≤ k → k < n + j → F k ≠ g

theorem Trimmed.next {u : Machine} {j : ℕ} (h : Trimmed D s (n + j) 1 F t) (h' : Trimmed D t n j F u) :
    Trimmed D s n (j + 1) F u where
  pages := h'.pages
  rest := h.rest.trans h'.rest
  freed g := by
    rw [h'.freed g, h.freed g]
    constructor
    · rintro ⟨⟨hu, hlast⟩, hlow⟩
      refine ⟨hu, fun k hk hk' => ?_⟩
      by_cases hkj : k < n + j
      · exact hlow k hk hkj
      · exact hlast k (by omega) (by omega)
    · rintro ⟨hu, hall⟩
      exact ⟨⟨hu, fun k hk hk' => hall k (by omega) (by omega)⟩, fun k hk hk' => hall k hk (by omega)⟩

theorem transAt_some {m : ℕ → ℕ → Word} {pd p : ℕ} {x : ℕ × Word} (h : transAt m pd p = some x) :
    view m pd p = some x := (Option.filter_eq_some_iff.mp h).1

/-- What the last page's frame is given back to. -/
theorem HeapPages.released (h : HeapPages D (n + 1) F s) (hn : n < 4096)
    (hu : Unmapped (D ∪ F '' Set.Iio (n + 1)) s t {kheapPage + n}) (hbits : ∀ g, used t g ↔ used s g)
    (hdir : t.mem s.cr3 = s.mem s.cr3) : Trimmed D s n 1 F (t.setBitmap (F n) false) := by
  have hc : t.cr3 = s.cr3 := hu.rest.cr3_eq
  have hsub : D ∪ F '' Set.Iio n ⊆ D ∪ F '' Set.Iio (n + 1) := by
    refine Set.union_subset_union_right D (Set.image_mono fun k hk => ?_)
    have hk' : k < n := hk
    exact show k < n + 1 by omega
  have hout : F n ∉ D ∪ F '' Set.Iio n := by
    rintro (hD | ⟨k, hk, he⟩)
    · exact h.fresh n (Nat.lt_succ_self n) hD
    · have hk' : k < n := hk
      have := h.inj (show k < n + 1 by omega) (show n < n + 1 by omega) he
      omega
  have hspread : Propagates True D t := by
    refine h.spread.congr ?_ ?_
    · rw [hu.rest]
      rfl
    · rw [hu.rest]
  have htables : Tables (D ∪ F '' Set.Iio n) {t.cr3} t := by
    refine hu.vmm.tables.antitone hsub ?_
    rintro v rfl
    rw [hc]
    exact .inl h.cur
  have hfree : Tables (D ∪ F '' Set.Iio n) {t.cr3} (t.setBitmap (F n) false) := by
    refine htables.free hout fun v hv i hi hne htab he => ?_
    exact hu.vmm.tables.notDir v hv i hi hne htab (.inr ⟨n, Nat.lt_succ_self n, he.symm⟩)
  have hother : ∀ k < 4096, k ≠ n → kheapPage + k ∉ ({kheapPage + n} : Set ℕ) := by
    intro k _ hkn he
    have he' : kheapPage + k = kheapPage + n := he
    omega
  refine ⟨⟨⟨hfree, hu.vmm.aligned, ⟨fun k hk => ?_, hspread.run⟩⟩, ?_, ⟨hspread.dir, hspread.run⟩,
    fun k hk => h.fresh k (by omega), ?_, fun k hk => h.nonzero k (by omega), ?_, ?_, ?_, ?_, ?_⟩, ?_, ?_⟩
  · exact ⟨.inl (hspread.dir k hk).1, (hspread.dir k hk).2⟩
  · rw [Machine.setBitmap_cr3, hc]
    exact h.cur
  · exact (used_free t (F n) 0).mpr ⟨(h.nonzero n (Nat.lt_succ_self n)).symm, (hbits 0).mpr h.zero⟩
  · refine h.inj.mono fun k hk => ?_
    have hk' : k < n := hk
    exact show k < n + 1 by omega
  · intro k hk
    rw [Machine.setBitmap_mem, Machine.setBitmap_cr3, hc, hu.others _ (kheapPage_regular (by omega)) (hother k (by omega) (by omega))]
    exact h.mapped k (by omega)
  · intro k hk hk'
    rw [Machine.setBitmap_mem, Machine.setBitmap_cr3, hc]
    by_cases hkn : k = n
    · rw [hkn]
      exact hu.here _ (kheapPage_regular hn) rfl
    · exact hu.gone _ (kheapPage_regular hk') (h.unmapped k (by omega) hk')
  · exact fun k hk => hu.quiet _ (h.quiet k hk)
  · intro k hk
    rw [Machine.setBitmap_mem, Machine.setBitmap_cr3, hc, hdir]
    exact h.small k hk
  · have hstep : SameRest t (t.setBitmap (F n) false) := rfl
    exact hu.rest.trans hstep
  · intro g
    rw [used_free, hbits g]
    constructor
    · rintro ⟨hne, hg⟩
      refine ⟨hg, fun k hk hk' => ?_⟩
      obtain rfl : k = n := by omega
      exact hne.symm
    · exact fun ⟨hg, hall⟩ => ⟨(hall n le_rfl (Nat.lt_succ_self n)).symm, hg⟩

/-- One pass of the trim. -/
theorem HeapPages.trim_page (h : HeapPages D (n + 1) F s) (K : Callees) (hn : n < 4096) : ∃ t,
    (do
      let cur ← Comp.read (·.vmmCurrent)
      let paddr ← vmmGetPaddr K cur ((kheapPage + n) * 4096)
      Comp.when (paddr ≠ 0) do
        vmmPgunmap K cur ((kheapPage + n) * 4096) 0
        pmmFree (paddr / 4096) : Kernel Unit) s = some ((), t) ∧ Trimmed D s n 1 F t := by
  have hreg := kheapPage_regular hn
  have hview := transAt_some (h.mapped n (Nat.lt_succ_self n))
  have hsmall := h.small n hn
  have htab : (s.mem s.cr3 ((kheapPage + n) / 1024)).HasTable := by
    refine ⟨fun hz => ?_, hsmall⟩
    rw [view_of_slot_zero hz] at hview
    cases hview
  have hpaddr : paddrAt s.mem s.cr3 ((kheapPage + n) * 4096) = F n * 4096 := by
    unfold paddrAt
    rw [page_div, hview]
    simp
  have hne : F n * 4096 ≠ 0 := Nat.mul_ne_zero (h.nonzero n (Nat.lt_succ_self n)) (by decide)
  have hsame : (kheapPage + n) * 4096 / 4096 % 1024 = (kheapPage + n) % 1024 := by rw [page_div]
  have hunmap : vmmPgunmap K s.vmmCurrent ((kheapPage + n) * 4096) 0 s =
      some ((), s.set (s.mem s.cr3 ((kheapPage + n) / 1024)).pt ((kheapPage + n) % 1024) 0#32) := by
    have hpte := (h.quiet n hn).pte hreg htab
    have hrun := vmmPgunmapSmall_cur_table K h.vmm.tables rfl hreg.offSlot (by rw [page_slot]; exact htab) (by
      rw [page_div, pteAt_of_hasTable htab]
      exact hpte)
    rw [page_slot, hsame] at hrun
    exact (congrFun (if_neg hreg.offSlot.not_rmap) s).trans hrun
  have hclear := h.vmm.clear hreg htab
  refine ⟨(s.set (s.mem s.cr3 ((kheapPage + n) / 1024)).pt ((kheapPage + n) % 1024) 0#32).setBitmap (F n) false, ?_,
    h.released hn hclear (fun g => used_set s _ _ _ g) ?_⟩
  · rw [Comp.read_bind, Comp.bind_of_eq (vmmGetPaddr_cur h.vmm.tables rfl hreg.offSlot), hpaddr,
      Comp.when_true hne, Comp.bind_of_eq hunmap, Nat.mul_div_cancel _ (by decide)]
    rfl
  · have hslot : (kheapPage + n) / 1024 < 1024 ∧ (kheapPage + n) / 1024 ≠ 767 := by
      unfold kheapPage
      omega
    exact Machine.set_mem_of_ne _ _ _ _
      (h.vmm.tables.pt_ne rfl (h.vmm.tables.sub rfl) hslot.1 hslot.2 htab).symm

/-- The loop of a trim. -/
theorem HeapPages.trim (K : Callees) (j : ℕ) : ∀ {n vaddr : ℕ} {s : Machine}, HeapPages D (n + j) F s → n + j ≤ 4096 →
    (0 < j → vaddr = (kheapPage + (n + j - 1)) * 4096) →
    ∃ t, kheapTrim K j vaddr s = some ((), t) ∧ Trimmed D s n j F t := by
  induction j with
  | zero =>
    intro n vaddr s h _ _
    refine ⟨s, rfl, h, rfl, fun g => ⟨fun hg => ⟨hg, fun k hk hk' => by omega⟩, fun hg => hg.1⟩⟩
  | succ j ih =>
    intro n vaddr s h hn hva
    have haddr := hva (Nat.succ_pos j)
    rw [show n + (j + 1) - 1 = n + j by omega] at haddr
    obtain ⟨t, hrun, hone⟩ := h.trim_page K (show n + j < 4096 by omega)
    have hnext : 0 < j → sub32 vaddr 4096 = (kheapPage + (n + j - 1)) * 4096 := by
      intro hj
      rw [haddr]
      unfold sub32 w32 kheapPage
      omega
    obtain ⟨u, hrun', hrest⟩ := ih hone.pages (by omega) hnext
    refine ⟨u, ?_, hone.next hrest⟩
    have hsplit : kheapTrim K (j + 1) vaddr s = kheapTrim K j (sub32 vaddr 4096) t := by
      rw [haddr]
      have hpass := Comp.bind_of_eq (f := fun _ => kheapTrim K j (sub32 ((kheapPage + (n + j)) * 4096) 4096)) hrun
      simp only [Comp.bind_assoc] at hpass
      exact hpass
    rw [hsplit]
    exact hrun'

end Pages

/-- Of the heap region the first `n` pages are mapped, to frames of their own that are marked as used. -/
structure HeapRegion (n : ℕ) (F : ℕ → ℕ) (m : Machine) : Prop where
  mapped : ∀ k < n, transAt m.mem m.cr3 (kheapPage + k) = some (F k, kheapFlags.canonFlags)
  unmapped : ∀ k, n ≤ k → k < 4096 → view m.mem m.cr3 (kheapPage + k) = none
  inj : Set.InjOn F (Set.Iio n)
  used : ∀ k < n, used m (F k)

/-- The heap before the first call: its region is unmapped, and frame 0 is reserved. -/
structure HeapEmpty (D : Set ℕ) (s : Kheap) : Prop where
  size : s.size = 0
  vmm : OwnVmm D s.machine
  zero : used s.machine 0
  region : ∀ k < 4096, view s.machine.mem s.machine.cr3 (kheapPage + k) = none

/-- Frames that a call may ask for, those for page tables included. -/
def heapFrames (s : Kheap) (incr : ℤ) : ℕ :=
  let n := kheapPages s.size
  let n' := kheapPages (toSize (s.size + incr))
  if n < n' then expandFrames s.machine n (n' - n) else 0

/-- No frame allocation of the call fails: there are enough free frames, or the call did not fail itself, and page 0
is unmapped, so that it would have faulted without a frame for a page table. -/
def Served (s : Kheap) (incr : ℤ) (r : ℕ) : Prop :=
  FreeFrames s.machine (heapFrames s incr) ∨
    NullGuard s.machine ∧ (r = uintptrMax → KheapRefuses s.size incr)

/-- A history of calls in which no frame allocation fails. -/
inductive HeapRun (K : Callees) (s₀ : Kheap) : Kheap → Prop
  | boot : HeapRun K s₀ s₀
  | call {s t incr r} (h : HeapRun K s₀ s) (hlow : -2147483648 ≤ incr) (hlt : incr < 2147483648)
      (hserved : Served s incr r) (hr : kmorecore K incr s = some (r, t)) : HeapRun K s₀ t

/-- A successful call: it returns the old break, and a trim releases the frames of the pages it unmaps. -/
structure HeapCall (D : Set ℕ) (s : Kheap) (F : ℕ → ℕ) (incr : ℤ) (r : ℕ) (t : Kheap) : Prop where
  brk : r = kheapBaseAddress + s.size
  size : (t.size : ℤ) = s.size + incr
  pages : ∃ F', HeapPages D (kheapPages t.size) F' t.machine ∧ ∀ k, k < kheapPages s.size → k < kheapPages t.size → F' k = F k
  trimmed : kheapPages t.size ≤ kheapPages s.size → ∀ g, used t.machine g ↔
    used s.machine g ∧ ∀ k, kheapPages t.size ≤ k → k < kheapPages s.size → F k ≠ g

section Runs

variable {D : Set ℕ} {F : ℕ → ℕ} {s s₀ t : Kheap} {K : Callees} {incr : ℤ} {r : ℕ}

theorem HeapPages.region {n : ℕ} {m : Machine} (h : HeapPages D n F m) : HeapRegion n F m where
  mapped := h.mapped
  unmapped := h.unmapped
  inj := h.inj
  used k hk := (h.vmm.tables.dir (F k) (.inr ⟨k, hk, rfl⟩)).1

theorem HeapEmpty.start (h : HeapEmpty D s) (F : ℕ → ℕ) : HeapPages D (kheapPages s.size) F s.machine := by
  have hzero : kheapPages s.size = 0 := by
    rw [kheapPages_eq, h.size]
    rfl
  have hnone : ∀ k, ¬ k < 0 := fun k => Nat.not_lt_zero k
  have hset : D ∪ F '' Set.Iio 0 = D := by
    apply Set.union_eq_left.mpr
    rintro _ ⟨k, hk, rfl⟩
    exact absurd hk (hnone k)
  rw [hzero]
  refine ⟨by rw [hset]; exact h.vmm, h.vmm.tables.sub rfl, h.vmm.spread, fun k hk => absurd hk (hnone k), h.zero,
    fun k hk => absurd hk (hnone k), fun k hk => absurd hk (hnone k), fun k hk => absurd hk (hnone k),
    fun k _ hk => h.region k hk, ?_, fun k hk => (view_eq_none.mp (h.region k hk)).1⟩
  intro k hk p hp hslot x hx
  obtain ⟨j, hj, rfl⟩ : ∃ j < 4096, p = kheapPage + j := by
    refine ⟨p - kheapPage, ?_, ?_⟩ <;> unfold kheapPage at * <;> omega
  rw [h.region j hj] at hx
  cases hx

theorem kheapPages_le (s : Kheap) : kheapPages s.size ≤ 4096 := by
  have hle := s.size_le
  rw [kheapPages_eq]
  unfold kheapMaxSize at hle
  unfold SysX.pages
  omega

theorem kheapPage_addr {n : ℕ} (hn : n ≤ 4096) : w32 (kheapBaseAddress + n * 4096) = (kheapPage + n) * 4096 := by
  unfold kheapBaseAddress kheapPage
  rw [w32_of_lt (by omega)]
  omega

theorem kheapPage_last {n : ℕ} (hn : n ≤ 4096) (hpos : 0 < n) :
    w32 (kheapBaseAddress + sub32 n 1 * 4096) = (kheapPage + (n - 1)) * 4096 := by
  have hsub : sub32 n 1 = n - 1 := by
    unfold sub32 w32
    omega
  rw [hsub]
  exact kheapPage_addr (by omega)

/-- The expansion of a call, whichever way its allocations are known not to fail. -/
theorem HeapPages.call_expand (h : HeapPages D (kheapPages s.size) F s.machine) (hK : K.Closed)
    (hgrow : kheapPages s.size < kheapPages (toSize (s.size + incr))) (hle : kheapPages (toSize (s.size + incr)) ≤ 4096)
    {ok : Prop} (hframes : ok → FreeFrames s.machine (heapFrames s incr)) (hnull : ¬ ok → NullGuard s.machine) :
    Comp.Wp ok (kheapExpand K (kheapPages (toSize (s.size + incr)) - kheapPages s.size)
        (w32 (kheapBaseAddress + kheapPages s.size * 4096)))
      (fun done t => (ok → done = true) ∧ (done = true → ∃ F', Expanded D s.machine (kheapPages s.size)
        (kheapPages (toSize (s.size + incr)) - kheapPages s.size) F t F')) s.machine := by
  rw [kheapPage_addr (by omega)]
  refine h.expand hK _ (by omega) ⟨fun ho => ?_, hnull⟩
  have hfr := hframes ho
  unfold heapFrames at hfr
  dsimp only at hfr
  rwa [if_pos hgrow] at hfr

/-- What a successful call does, and that one that is not refused succeeds. -/
theorem HeapPages.call (h : HeapPages D (kheapPages s.size) F s.machine) (hK : K.Closed) (hlt : incr < 2147483648)
    (hno : ¬ KheapRefuses s.size incr) (hserved : Served s incr r) (hr : kmorecore K incr s = some (r, t)) :
    HeapCall D s F incr r t := by
  obtain ⟨hsize, hcases⟩ := kmorecore_cases hlt hno hr
  have hle := kheapPages_le s
  have hle' := kheapPages_le t
  have hnew : toSize (s.size + incr) = t.size := by
    have := toSize_of_not_refuses hlt s.size_le hno
    omega
  rcases hcases with ⟨-, hbrk, rfl⟩ | ⟨hgrow, done, hexp, hbrk⟩ | ⟨htrim, hbrk, hrun⟩
  · exact ⟨hbrk, hsize, ⟨F, h, fun _ _ _ => rfl⟩, fun _ g => ⟨fun hg => ⟨hg, fun k hk hk' => by omega⟩, fun hg => hg.1⟩⟩
  · have hsucceeds : done = true ∧ ∃ F', Expanded D s.machine (kheapPages s.size) (kheapPages t.size - kheapPages s.size) F
        t.machine F' := by
      rw [← hnew] at hgrow hle' hexp
      rcases hserved with hframes | ⟨hnull, hmax⟩
      · obtain ⟨hdone, hF⟩ := (h.call_expand hK hgrow hle' (fun _ : True => hframes) (fun ho => absurd trivial ho)).2 _ _ hexp
        rw [← hnew]
        exact ⟨hdone trivial, hF (hdone trivial)⟩
      · have hF := ((h.call_expand hK hgrow hle' (fun ho : False => ho.elim) (fun _ => hnull)).2 _ _ hexp).2
        have hdone : done = true := by
          by_contra hfalse
          rw [if_neg hfalse] at hbrk
          exact hno (hmax hbrk)
        rw [← hnew]
        exact ⟨hdone, hF hdone⟩
    obtain ⟨hdone, F', hF'⟩ := hsucceeds
    have hpages := hF'.pages
    rw [show kheapPages s.size + (kheapPages t.size - kheapPages s.size) = kheapPages t.size by omega] at hpages
    rw [if_pos hdone] at hbrk
    exact ⟨hbrk, hsize, ⟨F', hpages, fun k hk _ => hF'.same k hk⟩, fun hle => absurd hgrow (not_lt.mpr hle)⟩
  · have hsum : kheapPages t.size + (kheapPages s.size - kheapPages t.size) = kheapPages s.size := by omega
    rw [← hsum] at h
    have htrimmed : ∃ m, kheapTrim K (kheapPages s.size - kheapPages t.size)
        (w32 (kheapBaseAddress + sub32 (kheapPages s.size) 1 * 4096)) s.machine = some ((), m) ∧
        Trimmed D s.machine (kheapPages t.size) (kheapPages s.size - kheapPages t.size) F m := by
      refine h.trim K _ (by omega) fun hpos => ?_
      rw [hsum]
      exact kheapPage_last hle (by omega)
    obtain ⟨m, hm, hF⟩ := htrimmed
    rw [hrun] at hm
    cases hm
    refine ⟨hbrk, hsize, ⟨F, hF.pages, fun _ _ _ => rfl⟩, fun _ g => ?_⟩
    have hfreed := hF.freed g
    rw [hsum] at hfreed
    exact hfreed

theorem HeapRun.pages (h₀ : HeapEmpty D s₀) (hK : K.Closed) (run : HeapRun K s₀ s) :
    ∃ F, HeapPages D (kheapPages s.size) F s.machine := by
  induction run with
  | boot => exact ⟨id, h₀.start id⟩
  | @call s t incr r h hlow hlt hserved hr ih =>
    obtain ⟨F, hF⟩ := ih
    by_cases hno : KheapRefuses s.size incr
    · rw [kmorecore_refused hno] at hr
      cases hr
      exact ⟨F, hF⟩
    · obtain ⟨F', hF', -⟩ := (hF.call hK hlt hno hserved hr).pages
      exact ⟨F', hF'⟩

/-- A call that is not refused returns when there are enough frames. -/
theorem HeapPages.returns (h : HeapPages D (kheapPages s.size) F s.machine) (hK : K.Closed)
    (hno : ¬ KheapRefuses s.size incr) (hframes : FreeFrames s.machine (heapFrames s incr)) :
    ∃ r t, kmorecore K incr s = some (r, t) := by
  have hle := kheapPages_le s
  have hle' := kheapPages_le (s.moved incr hno s.machine)
  change kheapPages (toSize (s.size + incr)) ≤ 4096 at hle'
  rw [kmorecore_eq K hno]
  split_ifs with h0 hgrow
  · exact ⟨_, _, rfl⟩
  · obtain ⟨done, m, hm, -⟩ :=
      (h.call_expand hK hgrow hle' (fun _ : True => hframes) (fun ho => absurd trivial ho)).total trivial
    rw [hm]
    exact ⟨_, _, rfl⟩
  · have hsum : kheapPages (toSize (s.size + incr)) + (kheapPages s.size - kheapPages (toSize (s.size + incr))) =
        kheapPages s.size := by omega
    rw [← hsum] at h
    have htrimmed : ∃ m, kheapTrim K (kheapPages s.size - kheapPages (toSize (s.size + incr)))
        (w32 (kheapBaseAddress + sub32 (kheapPages s.size) 1 * 4096)) s.machine = some ((), m) ∧ Trimmed D s.machine
          (kheapPages (toSize (s.size + incr))) (kheapPages s.size - kheapPages (toSize (s.size + incr))) F m := by
      refine h.trim K _ (by omega) fun hpos => ?_
      rw [hsum]
      exact kheapPage_last hle (by omega)
    obtain ⟨m, hm, -⟩ := htrimmed
    rw [hm]
    exact ⟨_, _, rfl⟩

/-- At all times the mapped pages of the heap region are those below the break, each with a frame of its own. -/
theorem heap_growth_run (n : ℕ) (h₀ : HeapEmpty D s₀) (run : HeapRun (callees (n + 1)) s₀ s) :
    ∃ F, HeapRegion (pages s.size) F s.machine ∧ ∀ incr : ℤ, incr < 2147483648 →
      (KheapRefuses s.size incr → kmorecore (callees (n + 1)) incr s = some (uintptrMax, s)) ∧
      (¬ KheapRefuses s.size incr → FreeFrames s.machine (heapFrames s incr) →
        ∃ r t, kmorecore (callees (n + 1)) incr s = some (r, t)) ∧
      ∀ r t, ¬ KheapRefuses s.size incr → Served s incr r → kmorecore (callees (n + 1)) incr s = some (r, t) →
        HeapCall D s F incr r t := by
  obtain ⟨F, hF⟩ := run.pages h₀ (callees_closed n)
  have hregion := hF.region
  rw [kheapPages_eq] at hregion
  exact ⟨F, hregion, fun incr hlt => ⟨kmorecore_refused, hF.returns (callees_closed n),
    fun r t hno hserved hr => hF.call (callees_closed n) hlt hno hserved hr⟩⟩

end Runs

/-- A machine with free frames and an empty heap. -/
def heapSample : Kheap := ⟨permissionSample, 0, Nat.zero_le _⟩

theorem heapSample_empty : HeapEmpty {1} heapSample where
  size := rfl
  vmm := permissionSample_own
  zero := by decide
  region k hk := permissionSample_view (kheapPage_regular hk)

/-- 5000 bytes take two pages. -/
theorem heap_growth_sample : ∃ r t, kmorecore (callees 1) 5000 heapSample = some (r, t) ∧
    r = kheapBaseAddress ∧ ∃ F, HeapRegion 2 F t.machine := by
  have hno : ¬ KheapRefuses heapSample.size 5000 := by decide
  have hframes : FreeFrames heapSample.machine (heapFrames heapSample 5000) :=
    permissionSample_frames.mono (by decide)
  obtain ⟨F, -, hcalls⟩ := heap_growth_run 0 heapSample_empty .boot
  obtain ⟨-, hreturns, hcall⟩ := hcalls 5000 (by decide)
  obtain ⟨r, t, hr⟩ := hreturns hno hframes
  have hstep := hcall r t hno (.inl hframes) hr
  obtain ⟨F', hF', -⟩ := heap_growth_run 0 heapSample_empty (.call .boot (by decide) (by decide) (.inl hframes) hr)
  have hsize : pages t.size = 2 := by
    have hsum : (t.size : ℤ) = 0 + 5000 := hstep.size
    have hval : t.size = 5000 := by omega
    rw [hval]
    rfl
  rw [hsize] at hF'
  exact ⟨r, t, hr, hstep.brk, F', hF'⟩

end SysX
