import SysX.OwnRange

/-!
`vmm_map` on another VMM, below the recursive slot. Its directory and page tables are reached through windows, whose own page
tables stay behind in the current VMM: page tables of the two user halves are all the frames that a whole range takes.
-/
namespace SysX

section Supply

variable {s t : Machine} {n : ℕ}

/-- Frames that are left when all those in use since then are in a list. -/
theorem FreeFrames.of_used {N : ℕ} (h : FreeFrames s (N + n)) (gs : List ℕ) (hlen : gs.length ≤ N)
    (hframes : t.pmmFrames = s.pmmFrames) (hu : ∀ f, used t f → used s f ∨ f ∈ gs) : FreeFrames t n := by
  obtain ⟨fs, hfs, hnd, hfree⟩ := h
  have hsub : (fs.toFinset ∩ gs.toFinset).card ≤ N :=
    (Finset.card_le_card Finset.inter_subset_right).trans ((List.toFinset_card_le gs).trans hlen)
  have hsplit := Finset.card_sdiff_add_card_inter fs.toFinset gs.toFinset
  rw [List.toFinset_card_of_nodup hnd, hfs] at hsplit
  have hle : n ≤ (fs.toFinset \ gs.toFinset).card := by omega
  refine FreeFrames.mono ⟨(fs.toFinset \ gs.toFinset).toList, rfl, Finset.nodup_toList _, fun f hf => ?_⟩
    (by rw [Finset.length_toList]; exact hle)
  rw [Finset.mem_toList, Finset.mem_sdiff, List.mem_toFinset, List.mem_toFinset] at hf
  obtain ⟨hlt, hfree'⟩ := hfree f hf.1
  rw [hframes]
  exact ⟨hlt, fun hused => (hu f hused).elim hfree' hf.2⟩

end Supply

/-- Every frame that is in use by now is a page table of the user half of `v`. -/
def TablesOnly (s : Machine) (v : ℕ) (σ : Machine) : Prop :=
  ∀ f, used σ f → used s f ∨ ∃ i < 767, (σ.mem v i).HasTable ∧ (σ.mem v i).pt = f

section Tables

variable {D L : Set ℕ} {s σ τ : Machine} {v i pa va : ℕ} {flags d : Word}

/-- The other entries of the directory and the frames in use are the same. -/
theorem TablesOnly.slot (h : TablesOnly s v σ) (hdir : ∀ j ≠ i, τ.mem v j = σ.mem v j) (hused : ∀ f, used τ f → used σ f)
    (hpt : ∀ f, used τ f → (σ.mem v i).HasTable → (σ.mem v i).pt = f →
      (τ.mem v i).HasTable ∧ (τ.mem v i).pt = f) : TablesOnly s v τ := by
  intro f hf
  refine (h f (hused f hf)).imp_right fun ⟨j, hj, ht, he⟩ => ⟨j, hj, ?_⟩
  by_cases hji : j = i
  · subst hji
    exact hpt f hf ht he
  · rw [hdir j hji]
    exact ⟨ht, he⟩

theorem TablesOnly.release (h : TablesOnly s v σ) (i : ℕ) (d : Word) :
    TablesOnly s v (releaseAt σ v i d) := by
  have hmem := releaseAt_mem σ v i d
  have hbits : ∀ f, used (releaseAt σ v i d) f → used σ f ∧ ((σ.mem v i).HasTable → f ≠ (σ.mem v i).pt) := by
    intro f hf
    unfold releaseAt at hf
    split_ifs at hf with ht
    · have := (used_free σ _ f).mp hf
      exact ⟨this.2, fun _ => this.1⟩
    · exact ⟨hf, fun ht' => absurd ht' ht⟩
  refine h.slot (i := i) (fun j hj => ?_) (fun f hf => (hbits f hf).1) fun f hf ht he => ?_
  · rw [hmem, σ.set_mem_of_ne_index _ _ _ _ hj]
  · exact absurd he.symm ((hbits f hf).2 ht)

theorem TablesOnly.pgmapEntry (h : TablesOnly s v σ) {f : ℕ} (hvf : v ≠ f) (hp : (σ.mem v (va / 4194304)).present = true)
    (pa : ℕ) (flags : Word) : TablesOnly s v (pgmapEntryAt σ v f pa va flags) := by
  have hmem : (pgmapEntryAt σ v f pa va flags).mem v = (σ.set v (va / 4194304)
      ((σ.mem v (va / 4194304)).orFlags flags)).mem v := by
    unfold pgmapEntryAt
    dsimp only
    rw [Machine.set_mem_of_ne _ _ _ _ hvf]
  refine h.slot (i := va / 4194304) (fun j hj => ?_) (fun g hg => hg) fun g _ ht he => ?_
  · rw [hmem, σ.set_mem_of_ne_index _ _ _ _ hj]
  · rw [hmem, σ.set_mem_self, Word.orFlags_pt]
    refine ⟨.of_present ?_ ?_, he⟩
    · rw [Word.orFlags_present, hp]
      rfl
    · rw [Word.orFlags_pgsz, ht.2]

/-- A page table of a slot without one. -/
theorem TablesOnly.newTable (h : TablesOnly s v σ) {f : ℕ} (hi : i < 767) (he : ¬ (σ.mem v i).HasTable) (hvf : v ≠ f)
    (hf : f < 1048576) (c : ℕ → Word) : TablesOnly s v ((newTableAt σ v i f).setFrame f c) := by
  have hself : ((newTableAt σ v i f).setFrame f c).mem v i = newTableEntry (σ.mem v i) f := by
    rw [Machine.setFrame_mem_of_ne _ _ hvf]
    exact newTableAt_mem_pde hvf
  intro g hg
  rcases (used_alloc σ f g).mp hg with hgf | hg
  · refine .inr ⟨i, hi, ?_⟩
    rw [hself, newTableEntry_pt _ hf]
    exact ⟨newTableEntry_hasTable _ f, hgf.symm⟩
  · refine (h g hg).imp_right fun ⟨j, hj, ht, hpt⟩ => ⟨j, hj, ?_⟩
    have hji : j ≠ i := fun e => he (e ▸ ht)
    rw [Machine.setFrame_mem_of_ne _ _ hvf, newTableAt, Machine.setFrame_mem_of_ne _ _ hvf,
      Machine.set_mem_of_ne_index _ _ _ _ _ hji]
    exact ⟨ht, hpt⟩

theorem TablesOnly.small (h : TablesOnly s v σ) (ht : Tables D L σ) (hv : v ∈ L) (hva : va < kernelStart)
    (hm : PgmapSmall σ v pa va flags τ) : TablesOnly s v τ := by
  have hoff := offSlot_of_lt hva
  unfold PgmapSmall at hm
  split_ifs at hm with he
  · rw [hm]
    exact h.pgmapEntry (ht.pt_ne hv (ht.sub hv) hoff.lt hoff.2 he).symm (ht.present _ hv _ hoff.lt hoff.2 he) pa flags
  · obtain ⟨f, hf, hfree, rfl⟩ := hm
    have hvf : v ≠ f := fun e => (ht.fresh hfree).1 (e ▸ ht.sub hv)
    unfold pgmapNewAt
    dsimp only
    rw [propagates_of_lt hva, if_neg Bool.false_ne_true]
    refine (h.newTable (slot_of_lt hva) he hvf (Nat.lt_of_lt_of_le hf ht.frames) _).pgmapEntry hvf ?_ pa flags
    rw [Machine.setFrame_mem_of_ne _ _ hvf, newTableAt_mem_pde hvf]
    exact newTableEntry_present _ f

end Tables

/-- The pages of `P` of the VMM `v` were mapped with `flags`, to the frames `frame`. The kernel is in the state `t`, which is
`σ` apart from the page tables of windows. -/
structure MappedIn (D L : Set ℕ) (s : Machine) (v : ℕ) (flags : Word) (P : Set ℕ) (frame : ℕ → ℕ) (σ t : Machine) :
    Prop where
  windowed : Windowed D L σ t fun _ => 0#32
  rest : SameRest s σ
  apart : Apart L v s σ
  placed : Override regular (transAt s.mem v) (transAt σ.mem v) P fun p => pageOf flags (frame p)
  tables : TablesOnly s v σ

section Foreign

variable {D L : Set ℕ} {s σ t : Machine} {K : Callees} {v n p pa : ℕ} {flags : Word} {P Q : Set ℕ} {frame : ℕ → ℕ}

/-- At most one page table for each slot of two user halves. -/
theorem MappedIn.frames (h : MappedIn D L s v flags P frame σ t) (hf : FreeFrames s (1534 + n)) : FreeFrames t n := by
  refine hf.of_used ((List.range 767).map (fun i => (σ.mem v i).pt) ++ (List.range 767).map fun i => (t.mem σ.cr3 i).pt)
    ?_ ?_ fun f hu => ?_
  · rw [List.length_append, List.length_map, List.length_map, List.length_range]
  · rw [h.windowed.rest, h.rest]
  · rw [List.mem_append, List.mem_map, List.mem_map]
    rcases h.windowed.leak f hu with hu | ⟨i, hi, -, he⟩
    · rcases h.tables f hu with hu | ⟨i, hi, -, he⟩
      · exact .inl hu
      · exact .inr (.inl ⟨i, List.mem_range.mpr hi, he⟩)
    · exact .inr (.inr ⟨i, List.mem_range.mpr hi, he⟩)

theorem MappedIn.refl (h : Tables D L s) (hc : s.cr3 ∈ L) (v : ℕ) (flags : Word) (frame : ℕ → ℕ)
    (hP : ∀ p ∈ regular, p ∉ P) : MappedIn D L s v flags P frame s s where
  windowed := .refl h hc
  rest := rfl
  apart := .refl L v s
  placed := ⟨fun p hp hpP => absurd hpP (hP p hp), fun _ _ _ => rfl⟩
  tables _ hu := .inl hu

/-- One small page. -/
theorem MappedIn.small (h : MappedIn D L s v flags P frame σ t) (hK : K.Closed) (hv : v ∈ L) (hvc : v ≠ s.cr3)
    (hc : s.cr3 ∈ L) (hp : p < userPages) (hf : FreeFrames s 1538) (hroom : Room s (fun _ => 0#32) 0 2)
    (hframe : pa / 4096 % 1048576 = frame p) (hQ : ∀ x ∈ regular, x ∈ Q ↔ x ∈ P ∪ {p}) :
    ∃ τ u, vmmPgmap K (v * 4096) pa (p * 4096) 0 flags t = some ((), u) ∧ MappedIn D L s v flags Q frame τ u := by
  have hva : p * 4096 < kernelStart := by
    unfold userPages at hp
    unfold kernelStart rmapStart
    omega
  have hoff := offSlot_of_lt hva
  have hcσ := h.rest.cr3_eq
  have hprop := propagates_of_lt (s := σ) hva
  have hwp : Comp.Wp True (vmmPgmapSmall K (v * 4096) pa (p * 4096) flags) _ t :=
    h.windowed.vmmPgmapSmall_foreign (n := 0) (m := 0) hK hv (hcσ.symm ▸ hvc) hoff
      (fun hp => absurd (hprop.symm.trans hp) Bool.false_ne_true) ⟨fun _ => h.frames hf, fun hno => absurd trivial hno⟩
      (h.apart.room hc hvc hroom) fun hp => absurd (hprop.symm.trans hp) Bool.false_ne_true
  obtain ⟨_, u, hrun, τ, hm, hw, -⟩ := hwp.total trivial
  have hover := (hm.pageMapped h.windowed.logical hv hoff hprop).override
  rw [page_div] at hover
  refine ⟨τ, u, ?_, hw, h.rest.trans (hm.rest hprop), ?_, ?_, h.tables.small h.windowed.logical hv hva hm⟩
  · unfold vmmPgmap
    rw [if_neg hoff.not_rmap]
    exact hrun
  · exact h.apart.trans (hm.apart h.windowed.logical hv (slot_of_lt hva) hprop)
  · refine (h.placed.trans (hover.congr (fun _ _ => Iff.rfl) fun x _ hx => ?_)).congr hQ fun _ _ _ => rfl
    rw [Set.mem_singleton_iff] at hx
    rw [hx, hframe]

/-- A 4 MiB page. -/
theorem MappedIn.huge (h : MappedIn D L s v flags P frame σ t) (hK : K.Closed) (hv : v ∈ L) (hvc : v ≠ s.cr3)
    (hc : s.cr3 ∈ L) (hp : p < userPages) (hf : FreeFrames s 1538) (hroom : Room s (fun _ => 0#32) 0 2)
    (hframe : ∀ x, x / 1024 = p / 1024 → pa / 4194304 % 1024 * 1024 + x % 1024 = frame x)
    (hQ : ∀ x ∈ regular, x ∈ Q ↔ x ∈ P ∪ {x | x / 1024 = p / 1024}) :
    ∃ τ u, vmmPgmap K (v * 4096) pa (p * 4096) 1 flags t = some ((), u) ∧ MappedIn D L s v flags Q frame τ u := by
  have hva : p * 4096 < kernelStart := by
    unfold userPages at hp
    unfold kernelStart rmapStart
    omega
  have hoff := offSlot_of_lt hva
  have hslot := page_slot p
  have hcσ := h.rest.cr3_eq
  have hlog := h.windowed.logical
  have hlow : ¬ 768 ≤ p * 4096 / 4194304 := by
    have := slot_of_lt hva
    omega
  have hwp : Comp.Wp True (vmmPgmapHuge K (v * 4096) pa (p * 4096) flags) _ t :=
    h.windowed.vmmPgmapHuge_foreign (n := 0) hK hv (hcσ.symm ▸ hvc) hoff
      (fun h768 => absurd h768 hlow) (propagates_of_lt hva)
      ⟨fun _ => (h.frames (n := 4) hf).mono (by omega), fun hno => absurd trivial hno⟩ ((h.apart.room hc hvc hroom).mono (by omega))
  obtain ⟨_, u, hrun, hw, -⟩ := hwp.total trivial
  rw [hslot] at hw
  have hover : Override regular (transAt σ.mem v) (transAt (releaseAt σ v (p / 1024) (Word.fillPse flags pa)).mem v)
      {x | x / 1024 = p / 1024} fun x => pageOf flags (frame x) := by
    refine ⟨fun x hx hxp => ?_, fun x hx hxp => ?_⟩
    · rw [Set.mem_ofPred_eq] at hxp
      have hpde := releaseAt_slot σ v (p / 1024) (Word.fillPse flags pa)
      rw [transAt_pgsz (by rw [hxp, hpde]; exact Word.fillPse_pgsz _ _), hxp, hpde, Word.fillPse_present,
        Word.fillPse_psePa, Word.getFlags_fillPse, pageOf, hframe x hxp]
    · rw [Set.mem_ofPred_eq] at hxp
      rw [transAt, hlog.view_release hv _ _ hx hxp, transAt]
  refine ⟨_, u, ?_, hw, h.rest.trans (releaseAt_rest ..), h.apart.trans (hlog.apart_release (hlog.sub hv) _ _),
    (h.placed.trans hover).congr hQ fun _ _ _ => rfl, h.tables.release _ _⟩
  unfold vmmPgmap
  rw [if_neg hoff.not_rmap]
  exact hrun

/-- The loop of `vmm_map` has come from page `q` to page `p`. -/
def MapProgressIn (D L : Set ℕ) (s : Machine) (v : ℕ) (flags : Word) (q f p : ℕ) (t : Machine) : Prop :=
  ∃ σ, MappedIn D L s v flags {x | q ≤ x ∧ x < p} (fun x => (f + (x - q)) % 1048576) σ t

theorem MapProgressIn.small {q f : ℕ} (h : MapProgressIn D L s v flags q f p t) (hK : K.Closed) (hv : v ∈ L)
    (hvc : v ≠ s.cr3) (hc : s.cr3 ∈ L) (hqp : q ≤ p) (hp : p < userPages) (hf : FreeFrames s 1538)
    (hroom : Room s (fun _ => 0#32) 0 2) : ∃ u,
      vmmPgmap K (v * 4096) (w32 ((f + (p - q)) * 4096)) (p * 4096) 0 flags t = some ((), u) ∧
      MapProgressIn D L s v flags q f (p + 1) u := by
  obtain ⟨σ, hσ⟩ := h
  have hframe : w32 ((f + (p - q)) * 4096) / 4096 % 1048576 = (f + (p - q)) % 1048576 := by
    unfold w32
    omega
  obtain ⟨τ, u, hrun, hu⟩ := hσ.small (Q := {x | q ≤ x ∧ x < p + 1}) hK hv hvc hc hp hf hroom hframe fun x _ => by
      rw [Set.mem_union, Set.mem_ofPred_eq, Set.mem_ofPred_eq, Set.mem_singleton_iff]
      omega
  exact ⟨u, hrun, τ, hu⟩

theorem MapProgressIn.huge {q f : ℕ} (h : MapProgressIn D L s v flags q f p t) (hK : K.Closed) (hv : v ∈ L)
    (hvc : v ≠ s.cr3) (hc : s.cr3 ∈ L) (hqp : q ≤ p) (hp : p < userPages) (hp0 : p % 1024 = 0)
    (hf0 : (f + (p - q)) % 1024 = 0) (hf : FreeFrames s 1538) (hroom : Room s (fun _ => 0#32) 0 2) : ∃ u,
      vmmPgmap K (v * 4096) (w32 ((f + (p - q)) * 4096)) (p * 4096) 1 flags t = some ((), u) ∧
      MapProgressIn D L s v flags q f (p + 1024) u := by
  obtain ⟨σ, hσ⟩ := h
  have hframe : ∀ x, x / 1024 = p / 1024 →
      w32 ((f + (p - q)) * 4096) / 4194304 % 1024 * 1024 + x % 1024 = (f + (x - q)) % 1048576 := by
    intro x hx
    unfold w32
    omega
  obtain ⟨τ, u, hrun, hu⟩ := hσ.huge (Q := {x | q ≤ x ∧ x < p + 1024}) hK hv hvc hc hp hf hroom hframe fun x _ => by
    rw [Set.mem_union, Set.mem_ofPred_eq, Set.mem_ofPred_eq, Set.mem_ofPred_eq]
    omega
  exact ⟨u, hrun, τ, hu⟩

theorem mapLoop_foreign {q e f idx : ℕ} (h : Tables D L s) (hc : s.cr3 ∈ L) (hK : K.Closed) (hv : v ∈ L) (hvc : v ≠ s.cr3)
    (hidx : idx ≤ 1) (he : e ≤ userPages) (hqe : q ≤ e) (flags : Word) (hf : FreeFrames s 1538)
    (hroom : Room s (fun _ => 0#32) 0 2) (fuel : ℕ) (hfuel : e - q < fuel) :
    ∃ σ t, vmmMapLoop K (v * 4096) idx flags (e * 4096) fuel (w32 (f * 4096)) (q * 4096) s = some (e * 4096, t) ∧
      MappedIn D L s v flags {p | q ≤ p ∧ p < e} (fun p => (f + (p - q)) % 1048576) σ t := by
  have hlt : e < 1048576 ∧ e ≤ 1047552 := by
    unfold userPages at he
    omega
  have hstart : MapProgressIn D L s v flags q f q s := by
    refine ⟨s, .refl h hc v flags _ fun x _ hx => ?_⟩
    rw [Set.mem_ofPred_eq] at hx
    omega
  obtain ⟨t, hrun, σ, ht⟩ := vmmMapLoop_rule hidx hlt.1 (fun _ _ => .inl hlt.2)
    (fun p t hqp hp ht => ht.small hK hv hvc hc hqp (Nat.lt_of_lt_of_le hp he) hf hroom)
    (fun p t hqp hfit hp0 hf0 ht => ht.huge hK hv hvc hc hqp (by omega) hp0 hf0 hf hroom) (e - q) (Nat.le_refl q)
    (by omega) hfuel hstart
  rw [Nat.sub_self, Nat.add_zero] at hrun
  exact ⟨σ, t, hrun, ht⟩

end Foreign

end SysX
