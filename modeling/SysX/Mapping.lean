import SysX.Propagate

/-!
`vmm_pgmap` on any directory but the user half of the current one, as a change of the state without
windows.
-/
namespace SysX

/-- `vmm_pgmap_small` with a new page table in the frame `f`. -/
def pgmapNewAt (s : Machine) (v f pa va : ℕ) (flags : Word) : Machine :=
  let i := va / 4194304
  let s₁ := newTableAt s v i f
  let s₂ := if propagates s va then propagateAt s₁ v i else s₁
  pgmapEntryAt (s₂.setFrame f (splitFrame (s.mem v i) (va / 4096 % 1024))) v f pa va flags

/-- What `vmm_pgmap_small` does to the directory `v`. -/
def PgmapSmall (s : Machine) (v pa va : ℕ) (flags : Word) (t : Machine) : Prop :=
  if (s.mem v (va / 4194304)).HasTable then
    t = pgmapEntryAt s v (s.mem v (va / 4194304)).pt pa va flags
  else ∃ f < s.pmmFrames, ¬ used s f ∧ t = pgmapNewAt s v f pa va flags

section Side

variable {D L : Set ℕ} {s s₁ : Machine} {W : ℕ → Word} {K : Callees} {ok : Prop} {v n i f : ℕ}

/-- The entry lies in another directory or in the kernel half. -/
def Aside (s : Machine) (v i : ℕ) : Prop := v ≠ s.cr3 ∨ 768 ≤ i

theorem Windowed.mem_aside (h : Windowed D L s s₁ W) (hv : v ∈ D) (ha : Aside s v i) :
    s₁.mem v i = s.mem v i := by
  rcases ha with ha | ha
  · rw [h.mem_dir hv ha]
  · exact h.mem_pde hv (by omega)

theorem Windowed.setAside (h : Windowed D L s s₁ W) (hv : v ∈ D) (ha : Aside s v i) (hi : i ≠ 767)
    {d : Word} (hd : Fits D L s v i d) (hd₁ : Fits D L s₁ v i d) :
    Windowed D L (s.set v i d) (s₁.set v i d) W := by
  rcases ha with ha | ha
  · exact h.set (h.outside_dir hv ha) (h.logical.setPde hi hd) (h.actual.setPde hi hd₁)
  · exact h.setDir hv ha hd hd₁

theorem Windowed.guard_aside (h : Windowed D L s s₁ W) (hv : v ∈ D) (ha : Aside s v i)
    (hg : Guard ok s s₁ n) (d : Word) : Guard ok (s.set v i d) (s₁.set v i d) n := by
  refine ⟨hg.frames, fun hok => (hg.null hok).set d (fun e => ?_) fun e => ?_⟩
  · rcases ha with ha | ha
    · exact absurd e ha
    · omega
  · exact h.logical.pt_ne h.cur hv (by decide) (by decide) (hg.null hok).table e.symm

/-- A frame fresh from the allocator is outside. -/
theorem Windowed.outside_fresh (h : Windowed D L s s₁ W) (hf : ¬ SysX.used s₁ f) : Outside s₁ f := by
  obtain ⟨hD, hT⟩ := h.actual.fresh hf
  exact ⟨fun e => hD (e ▸ h.actual.sub h.cur₁), fun j hj ht =>
    hT _ h.cur₁ j (by omega) (by omega) ht⟩

theorem Windowed.guard_alloc (hg : Guard ok s s₁ (n + 1)) (f : ℕ) :
    Guard ok (s.setBitmap f true) (s₁.setBitmap f true) n :=
  ⟨fun ho => (hg.frames ho).alloc f, fun hok => ⟨(hg.null hok).table, (hg.null hok).pte⟩⟩

theorem outside_setPde (ho : Outside s f) (ha : Aside s v i) (d : Word) : Outside (s.set v i d) f := by
  refine ⟨ho.1, fun j hj hx => ?_⟩
  have hm : (s.set v i d).mem s.cr3 j = s.mem s.cr3 j := by
    rw [Machine.set_mem, if_neg]
    rintro ⟨e, ej⟩
    rcases ha with ha | ha
    · exact ha e.symm
    · omega
  rw [Machine.set_cr3, hm] at hx ⊢
  exact ho.2 j hj hx

/-- The entry for a new page table, before the table is cleared. -/
theorem Windowed.newEntry (h : Windowed D L s s₁ W) (hv : v ∈ L) (ha : Aside s v i) (hi : i ≠ 767)
    (hfree : ¬ SysX.used s₁ f) {d : Word} (hd : d.pt = f)
    (hp : d.present = true) (hr : d.rw = true) :
    Windowed D L ((s.setBitmap f true).set v i d) ((s₁.setBitmap f true).set v i d) W ∧
      Outside ((s₁.setBitmap f true).set v i d) f ∧ f ∉ D := by
  have hfree' : ¬ SysX.used s f := fun hu => hfree (h.used f hu)
  have hD := h.logical.sub hv
  have hal := h.alloc hfree
  refine ⟨hal.setAside hD ha hi (h.logical.fits_fresh hfree' hd hp hr v i)
    (h.actual.fits_fresh hfree hd hp hr v i), ?_, (h.actual.fresh hfree).1⟩
  have ho := h.outside_fresh hfree
  have ha₁ : Aside (s₁.setBitmap f true) v i := by
    rcases ha with ha | ha
    · exact .inl fun e => ha (e.trans h.cr3_eq)
    · exact .inr ha
  exact outside_setPde (s := s₁.setBitmap f true) ho ha₁ d

theorem Windowed.newTableAt (h : Windowed D L s s₁ W) (hv : v ∈ L) (ha : Aside s v i)
    (hi : i ≠ 767) (hf : f < s₁.pmmFrames) (hfree : ¬ SysX.used s₁ f) :
    Windowed D L (SysX.newTableAt s v i f) (SysX.newTableAt s₁ v i f) W := by
  have hf' : f < 1048576 := Nat.lt_of_lt_of_le hf h.actual.frames
  have hm := h.mem_aside (h.logical.sub hv) ha
  unfold SysX.newTableAt
  rw [hm]
  obtain ⟨hw, ho, hD⟩ := h.newEntry hv ha hi hfree (newTableEntry_pt (s.mem v i) hf')
    (newTableEntry_present _ f) (newTableEntry_rw _ f)
  exact hw.setFrame ho hD _

theorem Windowed.guard_newTableAt (h : Windowed D L s s₁ W) (hv : v ∈ L) (ha : Aside s v i)
    (hi : i ≠ 767) (hf : f < s₁.pmmFrames) (hfree : ¬ SysX.used s₁ f) (hg : Guard ok s s₁ (n + 1)) :
    Guard ok (SysX.newTableAt s v i f) (SysX.newTableAt s₁ v i f) n := by
  have hf' : f < 1048576 := Nat.lt_of_lt_of_le hf h.actual.frames
  have hD := h.logical.sub hv
  unfold SysX.newTableAt
  rw [h.mem_aside hD ha]
  obtain ⟨hw, ho, -⟩ := h.newEntry hv ha hi hfree (newTableEntry_pt (s.mem v i) hf')
    (newTableEntry_present _ f) (newTableEntry_rw _ f)
  exact hw.guard_setFrame ho ((h.alloc hfree).guard_aside hD ha (guard_alloc hg f) _) _

/-- The end of `vmm_pgmap_small` in both states. -/
theorem Windowed.pgmapEntryAt' (h : Windowed D L s s₁ W) (pa : ℕ) {va : ℕ} (flags : Word) (hv : v ∈ L)
    (ha : Aside s v (va / 4194304)) (hva : OffSlot va) (he : (s.mem v (va / 4194304)).HasTable)
    (hg : Guard ok s s₁ n) :
    let f := (s.mem v (va / 4194304)).pt
    Windowed D L (SysX.pgmapEntryAt s v f pa va flags) (SysX.pgmapEntryAt s₁ v f pa va flags) W ∧
      Guard ok (SysX.pgmapEntryAt s v f pa va flags) (SysX.pgmapEntryAt s₁ v f pa va flags) n := by
  intro f
  have hD := h.logical.sub hv
  have hm := h.mem_aside hD ha
  have he₁ : (s₁.mem v (va / 4194304)).HasTable := hm ▸ he
  have hfD : f ∉ D := h.logical.notDir v hv _ hva.lt hva.2 he
  have hw := h.setAside hD ha hva.2 (h.logical.fits_orFlags hv hva.lt hva.2 he flags)
    (hm ▸ h.actual.fits_orFlags hv hva.lt hva.2 he₁ flags)
  have hgu := h.guard_aside hD ha hg ((s.mem v (va / 4194304)).orFlags flags)
  have hne : f ≠ v := h.logical.pt_ne hv hD hva.lt hva.2 he
  have ha₁ : Aside s₁ v (va / 4194304) := by
    rcases ha with ha | ha
    · exact .inl fun e => ha (e.trans h.cr3_eq)
    · exact .inr ha
  have ho := outside_setPde (h.outside_table hv hva.lt hva.2 ha he) ha₁
    ((s.mem v (va / 4194304)).orFlags flags)
  have hmf : s₁.mem f = s.mem f := h.mem_table hv hva.lt hva.2 ha he
  unfold SysX.pgmapEntryAt
  simp only
  rw [hm, Machine.set_mem_of_ne _ _ _ _ hne, Machine.set_mem_of_ne _ _ _ _ hne, hmf]
  exact ⟨hw.setTable ho hfD _ _, hw.guard_set ho hgu _ _⟩

/-! What the windows look for does not change. -/

theorem Room.congr {W : ℕ → Word} {q : ℕ} (h : Room s W q n)
    (hv : ∀ p < userPages, view s₁.mem s₁.cr3 p = view s.mem s.cr3 p) : Room s₁ W q n := by
  obtain ⟨ps, hlen, hsort, hps⟩ := h
  refine ⟨ps, hlen, hsort, fun p hp => ?_⟩
  obtain ⟨hq, h1, hu, hw, hn⟩ := hps p hp
  exact ⟨hq, h1, hu, hw, (hv p hu).trans hn⟩

theorem Tables.view_setAside (h : Tables D L s) (hc : s.cr3 ∈ L) (hv : v ∈ D) (ha : Aside s v i)
    (d : Word) {p : ℕ} (hp : p < userPages) :
    view (s.set v i d).mem (s.set v i d).cr3 p = view s.mem s.cr3 p := by
  have hi := userPages_slot hp
  have hm : (s.set v i d).mem s.cr3 (p / 1024) = s.mem s.cr3 (p / 1024) := by
    rw [Machine.set_mem, if_neg]
    rintro ⟨e, ej⟩
    rcases ha with ha | ha
    · exact ha e.symm
    · omega
  rw [Machine.set_cr3]
  refine view_congr hm fun ht => ?_
  rw [hm] at ht ⊢
  rw [Machine.set_mem_of_ne _ _ _ _ (h.pt_ne hc hv (by omega) (by omega) ht)]

theorem view_setFrame (hfv : f ≠ v) (c : ℕ → Word) {p : ℕ}
    (hf : (s.mem v (p / 1024)).HasTable → (s.mem v (p / 1024)).pt ≠ f) :
    view (s.setFrame f c).mem v p = view s.mem v p := by
  have hm : (s.setFrame f c).mem v = s.mem v := s.setFrame_mem_of_ne f hfv.symm
  refine view_congr (congrFun hm _) fun ht => ?_
  rw [hm] at ht ⊢
  rw [s.setFrame_mem_of_ne f (hf ht)]

theorem Propagates.congr (h : Propagates ok D s) (hk : kernelVmm s₁ = kernelVmm s)
    (hr : s₁.taskRing = s.taskRing) : Propagates ok D s₁ :=
  ⟨fun k hk' => h.dir k (hk ▸ hk'), fun ho hne => hk ▸ h.run ho (hr ▸ hne)⟩

theorem propagateAt_mem_of_notMem (h : Propagates ok D s) (hf : f ∉ D) :
    (propagateAt s v i).mem f = s.mem f := by
  unfold propagateAt
  split
  · rfl
  · rename_i k hk
    split_ifs
    · rfl
    · exact s.set_mem_of_ne _ _ _ fun e => hf (e ▸ (h.dir k hk).1)

theorem propagateAt_mem_self (h : Propagates ok D s) : (propagateAt s v i).mem v = s.mem v := by
  unfold propagateAt
  split
  · rfl
  · rename_i k hk
    split_ifs with hkv
    · rfl
    · refine s.set_mem_of_ne _ _ _ fun e => hkv ?_
      have := (h.dir k hk).2
      omega

@[simp] theorem propagateAt_vmmCurrent : (propagateAt s v i).vmmCurrent = s.vmmCurrent := by
  unfold propagateAt
  split
  · rfl
  · split_ifs <;> rfl

/-- Propagated or not, the directory and the frames that are no directories are as they were. -/
theorem spread_frame (c : Prop) [Decidable c] (h : c → Propagates ok D s) (hf : f ∉ D) :
    (if c then propagateAt s v i else s).vmmCurrent = s.vmmCurrent ∧
      (if c then propagateAt s v i else s).mem v = s.mem v ∧
      (if c then propagateAt s v i else s).mem f = s.mem f := by
  split_ifs with hc
  · exact ⟨propagateAt_vmmCurrent, propagateAt_mem_self (h hc), propagateAt_mem_of_notMem (h hc) hf⟩
  · exact ⟨rfl, rfl, rfl⟩

theorem Spread.vmmCurrent (h : Spread s v i s₁) : s₁.vmmCurrent = s.vmmCurrent := by
  rcases h with rfl | rfl
  · rfl
  · exact propagateAt_vmmCurrent

/-- Directory `v` and the frames of page tables stay. -/
theorem Spread.frame (h : Spread s v i s₁) (hpr : Propagates ok D s) (hf : f ∉ D) :
    s₁.vmmCurrent = s.vmmCurrent ∧ s₁.mem v = s.mem v ∧ s₁.mem f = s.mem f := by
  rcases h with rfl | rfl
  · exact ⟨rfl, rfl, rfl⟩
  · exact ⟨propagateAt_vmmCurrent, propagateAt_mem_self hpr, propagateAt_mem_of_notMem hpr hf⟩

theorem newTableAt_mem_pde (hvf : v ≠ f) :
    (newTableAt s v i f).mem v i = newTableEntry (s.mem v i) f := by
  rw [SysX.newTableAt, Machine.setFrame_mem_of_ne _ _ hvf]
  exact Machine.set_mem_self _ _ _ _

end Side

/-! On another VMM. -/

section Foreign

variable {D L : Set ℕ} {s s₁ t : Machine} {W : ℕ → Word} {K : Callees} {ok : Prop}
  {v n f p r pa va : ℕ} {flags : Word}

/-- The windows `vmm_pgmap_small` works through. -/
abbrev MapOpen (ok : Prop) (D L : Set ℕ) (s : Machine) (W : ℕ → Word) (v f n p r : ℕ)
    (t : Machine) : Prop :=
  PtOpen ok D L s W (flagPresent ||| flagRw) (flagPresent ||| flagRw) v f n p r t

/-- Both entries are written, and the windows are still open. -/
theorem PtOpen.entry_run (hd : MapOpen ok D L s W v f n p r t) (hv : v ∈ L) (hvc : v ≠ s.cr3) (hva : OffSlot va)
    (he : (s.mem v (va / 4194304)).HasTable) (hf : (s.mem v (va / 4194304)).pt = f) (K : Callees) (pa : ℕ)
    (flags : Word) : MapOpen ok D L (pgmapEntryAt s v f pa va flags) W v f n p r (pgmapEntryAt t v f pa va flags) ∧
    pgmapSmallEntry K (v * 4096) (p * 4096) (r * 4096) pa va flags t =
      (do closeWin K (v * 4096) (p * 4096); closeWin K (v * 4096) (r * 4096))
        (pgmapEntryAt t v f pa va flags) := by
  subst hf
  have hD := hd.windowed.logical.sub hv
  have hlt := (hd.windowed.logical.dir v hD).2
  have hm := hd.windowed.mem_aside hD (.inl hvc) (i := va / 4194304)
  have he₁ : (t.mem v (va / 4194304)).HasTable := hm ▸ he
  have hw := hd.windowed.setAside hD (.inl hvc) hva.2
    (hd.windowed.logical.fits_orFlags hv hva.lt hva.2 he flags)
    (hm ▸ hd.windowed.actual.fits_orFlags hv hva.lt hva.2 he₁ flags)
  have hd' := PtOpen.mk hd.pos hd.lt hd.user hd.zero hd.zero' hw
    (hd.windowed.guard_aside hD (.inl hvc) hd.guard _)
  have hpt := hd'.pageAt' windowFlags_write (Word.pt_lt _) true fun _ => rfl
  rw [← hm] at hpt
  obtain ⟨hwin, hgu⟩ := hd.windowed.pgmapEntryAt' pa flags hv (.inl hvc) hva he hd.guard
  have hrun : pgmapSmallEntry K (v * 4096) (p * 4096) (r * 4096) pa va flags t =
      (do closeWin K (v * 4096) (p * 4096); closeWin K (v * 4096) (r * 4096))
        (pgmapEntryAt t v (t.mem v (va / 4194304)).pt pa va flags) :=
    pgmapSmallEntry_run hva.lt (hd.pageAt windowFlags_write hlt true fun _ => rfl) hpt
  rw [hm] at hrun
  exact ⟨⟨hd.pos, hd.lt, hd.user, hd.zero, hd.zero', hwin, hgu⟩, hrun⟩

theorem PtOpen.entry (hd : MapOpen ok D L s W v f n p r t) (hK : K.Closed) (hv : v ∈ L)
    (hvc : v ≠ s.cr3) (hcur : v * 4096 ≠ s.vmmCurrent) (hva : OffSlot va)
    (he : (s.mem v (va / 4194304)).HasTable) (hf : (s.mem v (va / 4194304)).pt = f) :
    Comp.Wp ok (pgmapSmallEntry K (v * 4096) (p * 4096) (r * 4096) pa va flags)
      (fun _ u => Windowed D L (pgmapEntryAt s v f pa va flags) u W ∧
        Guard ok (pgmapEntryAt s v f pa va flags) u n) t := by
  obtain ⟨hopen, hrun⟩ := hd.entry_run hv hvc hva he hf K pa flags
  exact .congr hrun (hopen.close' windowFlags_write windowFlags_write hK hcur)

/-- The rest of a 4 MiB page is mapped through the new table before. -/
theorem PtOpen.tail_run (hd : MapOpen ok D L s W v f n p r t) (hv : v ∈ L) (hvc : v ≠ s.cr3) (hva : OffSlot va)
    (he : (s.mem v (va / 4194304)).HasTable) (hf : (s.mem v (va / 4194304)).pt = f)
    (hz : s.mem f = fun _ => 0#32) (orig : Word) (K : Callees) (pa : ℕ) (flags : Word) :
    MapOpen ok D L (pgmapEntryAt (s.setFrame f (splitFrame orig (va / 4096 % 1024))) v f pa va flags) W v f n p r
      (pgmapEntryAt (t.setFrame f (splitFrame orig (va / 4096 % 1024))) v f pa va flags) ∧
    (do
      Comp.when (orig.present && orig.pgsz) (remapPse (r * 4096) (va / 4096 % 1024) orig)
      pgmapSmallEntry K (v * 4096) (p * 4096) (r * 4096) pa va flags) t =
      (do closeWin K (v * 4096) (p * 4096); closeWin K (v * 4096) (r * 4096))
        (pgmapEntryAt (t.setFrame f (splitFrame orig (va / 4096 % 1024))) v f pa va flags) := by
  have hfD : f ∉ D := hf ▸ hd.windowed.logical.notDir v hv _ hva.lt hva.2 he
  have hlt : f < 1048576 := hf ▸ Word.pt_lt _
  have ho : Outside t f := hf ▸ hd.windowed.outside_table hv hva.lt hva.2 (.inl hvc) he
  have hvf : v ≠ f := fun e => hfD (e ▸ hd.windowed.logical.sub hv)
  have hd' : ∀ g, MapOpen ok D L (s.setFrame f g) W v f n p r (t.setFrame f g) := fun g =>
    PtOpen.mk hd.pos hd.lt hd.user hd.zero hd.zero' (hd.windowed.setFrame ho hfD g)
      (hd.windowed.guard_setFrame ho hd.guard g)
  have hstay : ∀ g, PageAt (t.setFrame f g) true (r * 4096) f := fun g =>
    (hd' g).pageAt' windowFlags_write hlt true fun _ => rfl
  have hzt : t.mem f = fun _ => 0#32 := (hd.windowed.frame f ho).trans hz
  have hremap : Comp.when (orig.present && orig.pgsz)
      (remapPse (r * 4096) (va / 4096 % 1024) orig) t =
      some ((), t.setFrame f (splitFrame orig (va / 4096 % 1024))) := by
    cases hp : orig.present && orig.pgsz with
    | true => rw [Comp.when_true rfl, remapPse_run orig hstay, hzt, splitFrame_of_pse hp]
    | false =>
      rw [Comp.when_false Bool.false_ne_true, splitFrame_of_not_pse hp, ← hzt,
        Machine.setFrame_eq_self]
      rfl
  have hm := s.setFrame_mem_of_ne f hvf (c := splitFrame orig (va / 4096 % 1024))
  rw [Comp.bind_of_eq hremap]
  exact (hd' _).entry_run hv hvc hva (by rw [hm]; exact he) (by rw [hm]; exact hf) K pa flags

theorem PtOpen.tail (hd : MapOpen ok D L s W v f n p r t) (hK : K.Closed) (hv : v ∈ L)
    (hvc : v ≠ s.cr3) (hcur : v * 4096 ≠ s.vmmCurrent) (hva : OffSlot va)
    (he : (s.mem v (va / 4194304)).HasTable) (hf : (s.mem v (va / 4194304)).pt = f)
    (hz : s.mem f = fun _ => 0#32) (orig : Word) :
    Comp.Wp ok (do
      Comp.when (orig.present && orig.pgsz) (remapPse (r * 4096) (va / 4096 % 1024) orig)
      pgmapSmallEntry K (v * 4096) (p * 4096) (r * 4096) pa va flags)
      (fun _ u =>
        let τ := pgmapEntryAt (s.setFrame f (splitFrame orig (va / 4096 % 1024))) v f pa va flags
        Windowed D L τ u W ∧ Guard ok τ u n) t := by
  obtain ⟨hopen, hrun⟩ := hd.tail_run hv hvc hva he hf hz orig K pa flags
  exact .congr hrun (hopen.close' windowFlags_write windowFlags_write hK hcur)

/-- The entry is written. -/
theorem PdOpen.entry_run (hd : PdOpen ok D L s W (flagPresent ||| flagRw) v (n + 1) p t) (hv : v ∈ L)
    (hvc : v ≠ s.cr3) (hva : OffSlot va) (hf : f < t.pmmFrames) (hfree : ¬ used t f) (orig : Word) :
    PdOpen ok D L ((s.setBitmap f true).set v (va / 4194304) (newTableEntry orig f)) W (flagPresent ||| flagRw) v n p
      ((t.setBitmap f true).set v (va / 4194304) (newTableEntry orig f)) ∧
    ∀ c : Kernel Unit, (do
      store (p * 4096 + 4 * (va / 4194304)) (Word.tableEntry f)
      Comp.when (orig.present && orig.pgsz) (update (p * 4096 + 4 * (va / 4194304))
        fun e => BitField.setBit e 2 (Word.user e || orig.user))
      c) (t.setBitmap f true) = c ((t.setBitmap f true).set v (va / 4194304) (newTableEntry orig f)) := by
  have hf' : f < 1048576 := Nat.lt_of_lt_of_le hf hd.windowed.actual.frames
  have hlt := (hd.windowed.logical.dir v (hd.windowed.logical.sub hv)).2
  have hg := Windowed.guard_alloc hd.guard f
  have hal := hd.windowed.alloc hfree
  have hopen : ∀ d : Word, d.pt = f → d.present = true → d.rw = true →
      PdOpen ok D L ((s.setBitmap f true).set v (va / 4194304) d) W (flagPresent ||| flagRw) v n p
        ((t.setBitmap f true).set v (va / 4194304) d) := fun d hd₁ hd₂ hd₃ =>
    ⟨hd.pos, hd.user, hd.zero, (hd.windowed.newEntry hv (.inl hvc) hva.2 hfree hd₁ hd₂ hd₃).1,
      hal.guard_aside (hal.logical.sub hv) (.inl hvc) hg d⟩
  have hd₁ := PdOpen.mk hd.pos hd.user hd.zero hal hg
  have hd₂ := hopen (Word.tableEntry f) (Word.tableEntry_pt hf') (Word.tableEntry_present f)
    (Word.tableEntry_rw f)
  refine ⟨hopen (newTableEntry orig f) (newTableEntry_pt orig hf') (newTableEntry_present orig f)
    (newTableEntry_rw orig f), fun c => ?_⟩
  rw [Comp.bind_of_eq ((hd₁.pageAt windowFlags_write hlt true fun _ => rfl).store hva.lt _)]
  cases hp : orig.present && orig.pgsz with
  | true =>
    rw [Comp.when_true rfl, Comp.bind_of_eq ((hd₂.pageAt windowFlags_write hlt true fun _ => rfl).update hva.lt _),
      Machine.set_set, Machine.set_mem_self, newTableEntry, if_pos hp]
  | false =>
    rw [Comp.when_false Bool.false_ne_true, Comp.pure_bind, newTableEntry, if_neg (by rw [hp]; exact Bool.false_ne_true)]

theorem PdOpen.entry (hd : PdOpen ok D L s W (flagPresent ||| flagRw) v (n + 1) p t) (hv : v ∈ L)
    (hvc : v ≠ s.cr3) (hva : OffSlot va) (hf : f < t.pmmFrames) (hfree : ¬ used t f) (orig : Word)
    {c : Kernel Unit} {Q : Unit → Machine → Prop}
    (hc : ∀ u, PdOpen ok D L ((s.setBitmap f true).set v (va / 4194304) (newTableEntry orig f)) W
      (flagPresent ||| flagRw) v n p u → Comp.Wp ok c Q u) :
    Comp.Wp ok (do
      store (p * 4096 + 4 * (va / 4194304)) (Word.tableEntry f)
      Comp.when (orig.present && orig.pgsz) (update (p * 4096 + 4 * (va / 4194304))
        fun e => BitField.setBit e 2 (Word.user e || orig.user))
      c) Q (t.setBitmap f true) :=
  have ⟨hopen, hrun⟩ := hd.entry_run hv hvc hva hf hfree orig
  .congr (hrun c) (hc _ hopen)

/-- The new entry is propagated, or need not be. -/
theorem PtOpen.spread (hd : MapOpen ok D L s W v f (n + 1) p r t) (hK : K.Closed) (hv : v ∈ L)
    (hcur : v * 4096 ≠ s.vmmCurrent) (hva : OffSlot va)
    (hpr : propagates s va = true → Propagates ok D s)
    (hroom : propagates s va = true → Room s (Function.update (Function.update W p
      (windowPte (flagPresent ||| flagRw) (v * 4096))) r
        (windowPte (flagPresent ||| flagRw) (f * 4096))) (r + 1) 1)
    {c : Kernel Unit} {Q : Unit → Machine → Prop} (hc : ∀ u, MapOpen ok D L
      (if propagates s va then propagateAt s v (va / 4194304) else s) W v f n p r u →
      Comp.Wp ok c Q u) :
    Comp.Wp ok (do
      let cur ← Comp.read (·.vmmCurrent)
      let spread ← Comp.read fun s => propagates s va
      let lo := if v * 4096 ≠ cur then w32 (r * 4096 + 4096) else 0
      Comp.when spread (propagatePde K (v * 4096) lo (p * 4096 + 4 * (va / 4194304)) (va / 4194304))
      c) Q t := by
  have hr := hd.user
  have hlo : w32 (r * 4096 + 4096) = (r + 1) * 4096 := by
    unfold userPages at hr
    rw [w32_of_lt (by omega)]
    omega
  have hring : t.taskRing = s.taskRing := by rw [hd.windowed.rest]
  have hspread : propagates t va = propagates s va := by
    unfold propagates
    rw [hring]
  refine .read_bind (.read_bind ?_)
  rw [hd.windowed.vmmCurrent_eq, hspread, if_pos hcur, hlo]
  dsimp only
  cases hp : propagates s va with
  | false =>
    rw [hp, if_neg Bool.false_ne_true] at hc
    rw [Comp.when_false Bool.false_ne_true, Comp.pure_bind]
    exact hc t ⟨hd.pos, hd.lt, hd.user, hd.zero, hd.zero', hd.windowed, hd.guard.mono (Nat.le_succ n)⟩
  | true =>
    rw [hp, if_pos rfl] at hc
    rw [Comp.when_true rfl]
    have hne : s.taskRing ≠ [] := by
      rintro e
      unfold propagates at hp
      rw [e] at hp
      cases hp
    have hi : 768 ≤ va / 4194304 := by
      have hk : kernelStart ≤ va := by
        unfold propagates at hp
        rw [Bool.and_eq_true, decide_eq_true_eq] at hp
        exact hp.2
      have := hva.2
      unfold kernelStart rmapStart at hk
      omega
    have hlt := (hd.windowed.logical.dir v (hd.windowed.logical.sub hv)).2
    refine .bind (hd.windowed.propagatePde hK hne (hpr hp) (fun σ u W' hw hσ hkeep => ?_) hv hva.lt hi
      (by unfold userPages at hr; omega) hd.guard (hroom hp)) fun _ u hu =>
        hc u ⟨hd.pos, hd.lt, hd.user, hd.zero, hd.zero', hu.1, hu.2⟩
    have hWp : Function.update (Function.update W p
        (windowPte (flagPresent ||| flagRw) (v * 4096))) r
        (windowPte (flagPresent ||| flagRw) (f * 4096)) p =
        windowPte (flagPresent ||| flagRw) (v * 4096) := by
      rw [Function.update_of_ne (Nat.ne_of_lt hd.lt), Function.update_self]
    exact hw.pageAt_window windowFlags_write
      ((hkeep p (by rw [hWp]; exact windowFlags_write.windowPte_ne_zero _)).trans hWp) hlt false (by simp)

/-- A new page table, from the window on the directory on. -/
theorem PdOpen.newTable (hd : PdOpen ok D L s W (flagPresent ||| flagRw) v (n + 3) p t)
    (hK : K.Closed) (hv : v ∈ L) (hvc : v ≠ s.cr3) (hva : OffSlot va) (hf : f < t.pmmFrames)
    (hfree : ¬ used t f)
    (hpr : propagates s va = true → Propagates ok D s) {m : ℕ}
    (hroom : Room s (Function.update W p (windowPte (flagPresent ||| flagRw) (v * 4096))) (p + 1)
      (m + 1)) (hm' : propagates s va = true → 1 ≤ m) :
    Comp.Wp ok (pgmapNewTable K (v * 4096) (p * 4096) f pa va (s.mem v (va / 4194304)) flags)
      (fun _ u => Windowed D L (pgmapNewAt s v f pa va flags) u W ∧
        Guard ok (pgmapNewAt s v f pa va flags) u n) (t.setBitmap f true) := by
  have hcur : v * 4096 ≠ s.vmmCurrent := fun e => hvc (by rw [Machine.cr3, ← e]; omega)
  have hf' : f < 1048576 := Nat.lt_of_lt_of_le hf hd.windowed.actual.frames
  obtain ⟨hfD, hfL⟩ := hd.windowed.logical.fresh fun hu => hfree (hd.windowed.used f hu)
  have hDv := hd.windowed.logical.sub hv
  have hvf : v ≠ f := fun e => hfD (e ▸ hDv)
  unfold pgmapNewTable pgmapNewAt
  dsimp only
  set i := va / 4194304 with hi
  set orig := s.mem v i with horig
  refine hd.entry hv hvc hva hf hfree orig fun u hdu => ?_
  have hm : ((s.setBitmap f true).set v i (newTableEntry orig f)).mem v i =
    newTableEntry orig f := Machine.set_mem_self _ _ _ _
  have hroom₁ : Room ((s.setBitmap f true).set v i (newTableEntry orig f)) _ (p + 1) (m + 1) := hroom.congr fun q hq => (hd.windowed.logical.alloc f).view_setAside hd.windowed.cur hDv (.inl hvc) _ hq
  have hlt := (hdu.windowed.logical.dir v hDv).2
  refine .bind (hdu.windowed.openPt_foreign windowFlags_write hK hcur hdu.user
    (hdu.pageAt windowFlags_write hlt false (by simp)) hva.lt
    (hdu.windowed.mem_aside hDv (.inl hvc)) hdu.guard hroom₁) ?_
  rintro a u₁ ⟨r, ha, ho, hg, hroom₂⟩
  rw [hm, newTableEntry_pt orig hf'] at ho hroom₂
  have hrp : r ≠ p := by have := ho.le; omega
  have hWr : W r = 0#32 := by
    have := ho.free.2.2.1
    rwa [Function.update_of_ne hrp] at this
  rw [ha, if_neg ho.free.addr_ne_zero]
  have hd₁ : MapOpen ok D L ((s.setBitmap f true).set v i (newTableEntry orig f)) W v f (n + 1) p r
      u₁ := ⟨hdu.pos, by have := ho.le; omega, ho.free.2.1, hdu.zero, hWr, ho.windowed, hg⟩
  have hout : Outside u₁ f := by
    have := hd₁.windowed.outside_table hv hva.lt hva.2 (.inl hvc) (by
      rw [← hi, hm]; exact newTableEntry_hasTable orig f)
    rwa [← hi, hm, newTableEntry_pt orig hf'] at this
  refine .step (hd₁.pageAt' windowFlags_write hf' true fun _ => rfl).memsetPage ?_
  have hd₂ : MapOpen ok D L (newTableAt s v i f) W v f (n + 1) p r (u₁.setFrame f fun _ => 0) :=
    ⟨hd₁.pos, hd₁.lt, hd₁.user, hd₁.zero, hd₁.zero', hd₁.windowed.setFrame hout hfD _,
      hd₁.windowed.guard_setFrame hout hd₁.guard _⟩
  have hroom₃ : Room (newTableAt s v i f) _ (r + 1) m := hroom₂.congr fun q hq => by
    have hcf : s.cr3 ≠ f := fun e => hfD (e ▸ hd.windowed.logical.sub hd.windowed.cur)
    have hj := userPages_slot hq
    refine view_setFrame hcf.symm _ fun hx => ?_
    rw [Machine.set_mem_of_ne _ _ _ _ (Ne.symm hvc)] at hx ⊢
    exact hfL _ hd.windowed.cur _ (by omega) (by omega) hx
  have hpr₂ : propagates s va = true → Propagates ok D (newTableAt s v i f) := fun hp =>
    (hpr hp).congr rfl rfl
  obtain ⟨hσc, hσv, hσf⟩ := spread_frame (propagates s va) (v := v) (i := i) hpr₂ hfD
  have hσm := congrFun hσv i
  rw [newTableAt_mem_pde hvf] at hσm
  refine hd₂.spread hK hv hcur hva hpr₂ (fun hp => hroom₃.mono (hm' hp)) fun u₂ hd₃ => ?_
  rw [show propagates (newTableAt s v i f) va = propagates s va from rfl, ← hi] at hd₃
  refine hd₃.tail hK hv ?_ ?_ hva ?_ ?_ ?_ orig
  · rw [Machine.cr3, hσc]
    exact hvc
  · rw [hσc]
    exact hcur
  · rw [hσm]
    exact newTableEntry_hasTable _ f
  · rw [hσm]
    exact newTableEntry_pt _ hf'
  · rw [hσf]
    exact Machine.setFrame_mem_self _ _ _

/-- Out of frames, the null `pt` faults. -/
theorem PdOpen.oom (hd : PdOpen ok D L s W (flagPresent ||| flagRw) v n p t) (hv : v ∈ L)
    (hvc : v ≠ s.cr3) (hva : OffSlot va) (hn : NullGuard s) {orig : Word} :
    (do
      Comp.when (orig.present && orig.pgsz) (remapPse 0 (va / 4096 % 1024) orig)
      pgmapSmallEntry K (v * 4096) (p * 4096) 0 pa va flags : Kernel Unit) t = none := by
  have hDv := hd.windowed.logical.sub hv
  have hlt := (hd.windowed.logical.dir v hDv).2
  have hnt := hd.windowed.nullGuard hn
  have hvt : v ≠ t.cr3 := fun e => hvc (e.trans hd.windowed.cr3_eq)
  cases hp : orig.present && orig.pgsz with
  | true =>
    rw [Comp.when_true rfl, Comp.bind_apply, hnt.remapPse]
    rfl
  | false =>
    rw [Comp.when_false Bool.false_ne_true, Comp.pure_bind]
    refine NullGuard.pgmapSmallEntry hva.lt (hd.pageAt windowFlags_write hlt true fun _ => rfl) ?_
    exact hnt.set _ (fun e => absurd e hvt) (hd.windowed.actual.pt_ne hd.windowed.cur₁ hDv
      (by decide) (by decide) hnt.table).symm

/-- `vmm_pgmap_small` on another VMM. -/
theorem Windowed.vmmPgmapSmall_foreign (h : Windowed D L s s₁ W) (hK : K.Closed) (hv : v ∈ L)
    (hvc : v ≠ s.cr3) (hva : OffSlot va)
    (hpr : propagates s va = true → Propagates ok D s) (hg : Guard ok s s₁ (n + 4))
    {m : ℕ} (hroom : Room s W 0 (m + 2)) (hm' : propagates s va = true → 1 ≤ m) :
    Comp.Wp ok (vmmPgmapSmall K (v * 4096) pa va flags) (fun _ t => ∃ σ,
      PgmapSmall s v pa va flags σ ∧ Windowed D L σ t W ∧ Guard ok σ t n) s₁ := by
  have hcur : v * 4096 ≠ s.vmmCurrent := fun e => hvc (by rw [Machine.cr3, ← e]; omega)
  have hDv := h.logical.sub hv
  have hlt := (h.logical.dir v hDv).2
  unfold vmmPgmapSmall
  refine .bind (h.openPd_foreign windowFlags_write hK hcur hg hroom) ?_
  rintro a t ⟨p, ha, ho, hg', hroom'⟩
  have hd : PdOpen ok D L s W (flagPresent ||| flagRw) v (n + 3) p t :=
    ⟨ho.free.1, ho.free.2.1, ho.free.2.2.1, ho.windowed, hg'⟩
  have hm : t.mem v (va / 4194304) = s.mem v (va / 4194304) := hd.windowed.mem_aside hDv (.inl hvc)
  rw [ha, if_neg ho.free.addr_ne_zero]
  refine .step ((hd.pageAt windowFlags_write hlt false (by simp)).load hva.lt) ?_
  rw [hm]
  refine .ite (fun he => ?_) fun he => ?_
  · have he' : (s.mem v (va / 4194304)).HasTable := he
    refine .bind (Windowed.openPt_pdOpen hd windowFlags_write windowFlags_write hK hv hcur hva.lt hm
      (hroom'.mono (Nat.le_add_left 1 m))) ?_
    rintro a' u ⟨r, ha', hpt⟩
    have hr0 : r * 4096 ≠ 0 :=
      Nat.mul_ne_zero (Nat.ne_of_gt (Nat.lt_of_le_of_lt (Nat.zero_le p) hpt.lt)) (by decide)
    rw [ha', if_neg hr0]
    refine (hpt.entry hK hv hvc hcur hva he' rfl).mono fun _ w hw =>
      ⟨_, ?_, hw.1, hw.2.mono (by omega)⟩
    rw [PgmapSmall, if_pos he']
  · rcases pmmAllocFree_one hd.windowed.actual.frames with ⟨hal, hfull⟩ | ⟨f, hf, hfree, hal⟩
    · have hok : ¬ ok := fun hok => by
        obtain ⟨f, hf, hfree⟩ := (hd.guard.frames hok).exists_free
        exact hfree (hfull f hf)
      refine .step hal (.of_fault ?_ hok)
      exact hd.oom hv hvc hva (hd.guard.null hok)
    · refine .step hal ((hd.newTable hK hv hvc hva hf hfree hpr hroom' hm').mono fun _ w hw =>
        ⟨_, ?_, hw.1, hw.2⟩)
      have hff : t.pmmFrames = s.pmmFrames := by rw [hd.windowed.rest]
      have he' : ¬ (s.mem v (va / 4194304)).HasTable := he
      rw [PgmapSmall, if_neg he']
      exact ⟨f, hff ▸ hf, fun hu => hfree (hd.windowed.used f hu), rfl⟩

end Foreign

/-! On the kernel half of the current VMM. -/

section Kernel

variable {D L : Set ℕ} {s s₁ : Machine} {W : ℕ → Word} {K : Callees} {ok : Prop} {n pa va : ℕ}
  {flags : Word}

/-- The directory is reached through the recursive slot, whatever windows are open. -/
theorem pdReached_cur : PdReached D L s W (vmmPd rmapStart) s.cr3 :=
  fun σ t _ h hσ _ => by
    have hc : t.cr3 = s.cr3 := by rw [h.cr3_eq, Machine.cr3, hσ, Machine.cr3]
    exact hc ▸ h.actual.pageAt_pd h.cur₁ false

/-- The result of `vmm_pgmap_small` on the current VMM. The entry of a new page table in the kernel half is copied if there
is a page for the window. -/
def PgmapOwn (s : Machine) (pa va : ℕ) (flags : Word) (t : Machine) : Prop :=
  let i := va / 4194304
  if (s.mem s.cr3 i).HasTable then t = pgmapEntryAt s s.cr3 (s.mem s.cr3 i).pt pa va flags
  else ∃ f < s.pmmFrames, ¬ used s f ∧ ∃ s₂,
    (if propagates s va then Spread (newTableAt s s.cr3 i f) s.cr3 i s₂ else s₂ = newTableAt s s.cr3 i f) ∧
    t = pgmapEntryAt (s₂.setFrame f (splitFrame (s.mem s.cr3 i) (va / 4096 % 1024))) s.cr3 f pa va flags

theorem Windowed.vmmPgmapSmall_kernel (h : Windowed D L s s₁ W) (hK : K.Closed)
    (hal : s.vmmCurrent = s.cr3 * 4096) (hva : OffSlot va) (hk : 768 ≤ va / 4194304)
    (hpr : Propagates ok D s) (hg : Guard ok s s₁ (n + 2)) :
    Comp.Wp ok (vmmPgmapSmall K s.vmmCurrent pa va flags) (fun _ t => ∃ σ,
      PgmapOwn s pa va flags σ ∧ Windowed D L σ t W ∧ Guard ok σ t n) s₁ := by
  have hDv := h.logical.sub h.cur
  have hm : s₁.mem s.cr3 (va / 4194304) = s.mem s.cr3 (va / 4194304) :=
    h.mem_aside hDv (.inr hk)
  rw [← h.vmmCurrent_eq]
  by_cases he : (s.mem s.cr3 (va / 4194304)).HasTable
  · have hrun := vmmPgmapSmall_cur_table K pa flags h.actual h.cur₁ hva
      (by rw [h.cr3_eq, hm]; exact he)
    rw [h.cr3_eq, hm] at hrun
    obtain ⟨hw, hg'⟩ := h.pgmapEntryAt' pa flags h.cur (.inr hk) hva he hg
    refine .of_eq hrun ⟨_, ?_, hw, hg'.mono (by omega)⟩
    unfold PgmapOwn
    rw [if_pos he]
  · have he₁ : ¬ (s₁.mem s₁.cr3 (va / 4194304)).HasTable := by rw [h.cr3_eq, hm]; exact he
    rcases pmmAllocFree_one h.actual.frames with ⟨ha, hfull⟩ | ⟨f, hf, hfree, ha⟩
    · have hok : ¬ ok := fun hok => by
        obtain ⟨f, hf, hfree⟩ := (hg.frames hok).exists_free
        exact hfree (hfull f hf)
      exact .of_fault (vmmPgmapSmall_cur_oom h.actual h.cur₁ hva he₁ (h.nullGuard (hg.null hok)) ha)
        hok
    · have hf' : f < 1048576 := Nat.lt_of_lt_of_le hf h.actual.frames
      have hfs : ¬ SysX.used s f := fun hu => hfree (h.used f hu)
      obtain ⟨hfD, hfL⟩ := h.logical.fresh hfs
      have hcf : s.cr3 ≠ f := fun e => hfD (e ▸ hDv)
      have hw₁ := h.newTableAt h.cur (.inr hk) hva.2 hf hfree
      have hg₁ := h.guard_newTableAt h.cur (.inr hk) hva.2 hf hfree hg
      have hpr₁ : Propagates ok D (SysX.newTableAt s s.cr3 (va / 4194304) f) := hpr.congr rfl rfl
      have hring : s₁.taskRing = s.taskRing := by rw [h.rest]
      have hsame : propagates s₁ va = propagates s va := by
        unfold propagates
        rw [hring]
      refine .congr (vmmPgmapSmall_cur_new K pa flags h.actual h.cur₁ hva he₁ hf hfree ha) ?_
      rw [h.cr3_eq, h.vmmCurrent_eq, hm, hsame]
      dsimp only
      have hself := newTableAt_mem_pde (s := s) (i := va / 4194304) hcf
      have tail : ∀ σ u, Windowed D L σ u W → Guard ok σ u n → σ.vmmCurrent = s.vmmCurrent →
          σ.mem s.cr3 = (SysX.newTableAt s s.cr3 (va / 4194304) f).mem s.cr3 →
          σ.mem f = (SysX.newTableAt s s.cr3 (va / 4194304) f).mem f → Comp.Wp ok (do
            Comp.when ((s.mem s.cr3 (va / 4194304)).present && (s.mem s.cr3 (va / 4194304)).pgsz)
              (remapPse (vmmPt rmapStart (va / 4194304)) (va / 4096 % 1024)
                (s.mem s.cr3 (va / 4194304)))
            pgmapSmallEntry K s.vmmCurrent (vmmPd rmapStart) (vmmPt rmapStart (va / 4194304)) pa va
              flags) (fun _ t =>
            let τ := SysX.pgmapEntryAt (σ.setFrame f (splitFrame (s.mem s.cr3 (va / 4194304))
              (va / 4096 % 1024))) s.cr3 f pa va flags
            Windowed D L τ t W ∧ Guard ok τ t n) u := by
        intro σ u hw hgu hσ hσd hσf
        have hσc : σ.cr3 = s.cr3 := by rw [Machine.cr3, hσ, Machine.cr3]
        have hσm : σ.mem σ.cr3 (va / 4194304) = newTableEntry (s.mem s.cr3 (va / 4194304)) f := by
          rw [hσc, hσd, hself]
        have hσt : (σ.mem σ.cr3 (va / 4194304)).HasTable := hσm ▸ newTableEntry_hasTable _ f
        have hσp : (σ.mem σ.cr3 (va / 4194304)).pt = f := hσm ▸ newTableEntry_pt _ hf'
        have hum := hw.mem_aside (hw.logical.sub hw.cur) (.inr hk) (i := va / 4194304)
        have ho : Outside u f := by
          have := hw.outside_table hw.cur hva.lt hva.2 (.inr hk) hσt
          rwa [hσp] at this
        have huf : u.mem f = fun _ => 0#32 := by
          rw [hw.frame f ho, hσf]
          exact Machine.setFrame_mem_self _ _ _
        have hcl : (σ.setFrame f (splitFrame (s.mem s.cr3 (va / 4194304)) (va / 4096 % 1024))).mem
            σ.cr3 = σ.mem σ.cr3 := Machine.setFrame_mem_of_ne _ _ (hσc ▸ hcf)
        have hrun := pgmapSmall_cur_tail K pa flags hw.actual hw.cur₁ hva
          (by rw [hw.cr3_eq, hum]; exact hσt) (by rw [hw.cr3_eq, hum]; exact hσp) huf
          (s.mem s.cr3 (va / 4194304))
        rw [hw.vmmCurrent_eq, hw.cr3_eq, hσc, hσ] at hrun
        obtain ⟨hw', hg'⟩ := (hw.setFrame ho hfD (splitFrame (s.mem s.cr3 (va / 4194304))
          (va / 4096 % 1024))).pgmapEntryAt' pa flags (show σ.cr3 ∈ L from hw.cur) (.inr hk) hva
          (by rw [hcl]; exact hσt) (hw.guard_setFrame ho hgu _)
        rw [hcl, hσp, hσc] at hw' hg'
        exact .of_eq hrun ⟨hw', hg'⟩
      have hff : s₁.pmmFrames = s.pmmFrames := by rw [h.rest]
      unfold PgmapOwn
      simp only [if_neg he]
      cases hp : propagates s va with
      | false =>
        rw [Comp.when_false Bool.false_ne_true, Comp.pure_bind]
        exact (tail _ _ hw₁ (hg₁.mono (Nat.le_succ n)) rfl rfl rfl).mono fun _ t ht =>
          ⟨_, ⟨f, hff ▸ hf, hfs, _, rfl, rfl⟩, ht⟩
      | true =>
        rw [Comp.when_true rfl, hal]
        have hne : s.taskRing ≠ [] := by
          rintro e
          unfold propagates at hp
          rw [e] at hp
          cases hp
        have hspread := hw₁.propagatePde_spread hK hne hpr₁ pdReached_cur h.cur hva.lt hk
          (show 0 < 1048576 by decide) hg₁
        rw [Nat.zero_mul] at hspread
        refine .bind hspread ?_
        rintro _ u ⟨σ, hσ, hu⟩
        obtain ⟨hcur, hdir, hfresh⟩ := hσ.frame hpr₁ hfD
        rw [← hal]
        exact (tail σ u hu.1 hu.2 hcur hdir hfresh).mono fun _ t ht =>
          ⟨_, ⟨f, hff ▸ hf, hfs, σ, hσ, rfl⟩, ht⟩

end Kernel

end SysX
