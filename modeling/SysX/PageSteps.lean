import SysX.Unmapping

/-!
The updates on the current VMM, which reaches its directory and its page tables through the recursive slot. Only a new
entry in the kernel half needs a window, to be copied to the kernel's own VMM.
-/
namespace SysX

section Outcome

variable {D L : Set ℕ} {s t : Machine} {ok : Prop} {v f pa va : ℕ} {flags : Word}

theorem Tables.pgmapEntryAt (h : Tables D L s) (hv : v ∈ L) (hva : OffSlot va)
    (he : (s.mem v (va / 4194304)).HasTable) (hf : (s.mem v (va / 4194304)).pt = f) :
    Tables D L (pgmapEntryAt s v f pa va flags) := by
  have hfD : f ∉ D := hf ▸ h.notDir v hv _ hva.lt hva.2 he
  exact (h.setPde hva.2 (h.fits_orFlags hv hva.lt hva.2 he flags)).set hfD _ _

/-- The tables after a page was mapped through a new page table that takes over a 4 MiB page. -/
theorem Tables.pgmapFilled (h : Tables D L s) (hv : v ∈ L) (hva : OffSlot va) (hf : f < s.pmmFrames)
    (hfree : ¬ SysX.used s f) (c : ℕ → Word) :
    Tables D L (SysX.pgmapEntryAt ((SysX.newTableAt s v (va / 4194304) f).setFrame f c) v f pa va flags) := by
  have hf' : f < 1048576 := Nat.lt_of_lt_of_le hf h.frames
  have hfD := (h.fresh hfree).1
  have hvf : v ≠ f := fun e => hfD (e ▸ h.sub hv)
  have hm : ((SysX.newTableAt s v (va / 4194304) f).setFrame f c).mem v (va / 4194304) =
      newTableEntry (s.mem v (va / 4194304)) f := by
    rw [Machine.setFrame_mem_of_ne _ _ hvf]
    exact newTableAt_mem_pde hvf
  refine ((h.newTableAt hva.2 hf hfree).setFrame hfD c).pgmapEntryAt hv hva ?_ ?_
  · rw [hm]
    exact newTableEntry_hasTable _ f
  · rw [hm]
    exact newTableEntry_pt _ hf'

theorem PgmapSmall.tables (hm : PgmapSmall s v pa va flags t) (h : Tables D L s) (hv : v ∈ L)
    (hva : OffSlot va) (hp : propagates s va = false) : Tables D L t := by
  unfold PgmapSmall at hm
  split_ifs at hm with he
  · rw [hm]
    exact h.pgmapEntryAt hv hva he rfl
  · obtain ⟨f, hf, hfree, rfl⟩ := hm
    unfold pgmapNewAt
    dsimp only
    rw [hp, if_neg Bool.false_ne_true]
    exact h.pgmapFilled hv hva hf hfree _

theorem Tables.setPaddrAt (h : Tables D L s) (hv : v ∈ L) (hva : OffSlot va) :
    Tables D L (SysX.setPaddrAt s v va pa) := by
  unfold SysX.setPaddrAt
  dsimp only
  split_ifs with hs hz
  · exact h.setPde hva.2 (.of_not_hasTable fun ht => ht.not_pgsz (by rw [Word.setPsePa_pgsz, hs]))
  · exact h
  · have ht : (s.mem v (va / 4194304)).HasTable := by
      by_contra hno
      rw [pteAt_of_not_hasTable (by rw [va_slot]; exact hno)] at hz
      exact hz rfl
    exact h.set (h.notDir v hv _ hva.lt hva.2 ht) _ _

/-- Below the kernel half nothing is copied. -/
theorem pgmapOwn_iff (hp : propagates s va = false) :
    PgmapOwn s pa va flags t ↔ PgmapSmall s s.cr3 pa va flags t := by
  unfold PgmapOwn PgmapSmall pgmapNewAt
  simp only [hp, Bool.false_eq_true, if_false, exists_eq_left]

/-- Only memory and the bitmap change. -/
def SameRest (s t : Machine) : Prop := t = { s with mem := t.mem, pmmBitmap := t.pmmBitmap }

theorem setPaddrAt_rest : SameRest s (setPaddrAt s v va pa) := by
  unfold SysX.setPaddrAt
  dsimp only
  split_ifs <;> rfl

theorem SameRest.trans {u : Machine} (h : SameRest s t) (h' : SameRest t u) : SameRest s u := by
  unfold SameRest at h h' ⊢
  rw [h', h]

theorem Spread.rest {i : ℕ} (h : Spread s v i t) : SameRest s t := by
  rcases h with rfl | rfl
  · rfl
  · unfold propagateAt
    split
    · rfl
    · split_ifs <;> rfl

/-- What `vmm_pgmap_small` did on the current VMM: the page went to its page table, or to a new one. -/
theorem PgmapOwn.cases (h : PgmapOwn s pa va flags t) :
    ((s.mem s.cr3 (va / 4194304)).HasTable ∧
      t = pgmapEntryAt s s.cr3 (s.mem s.cr3 (va / 4194304)).pt pa va flags) ∨
    (¬ (s.mem s.cr3 (va / 4194304)).HasTable ∧ ∃ f < s.pmmFrames, ¬ used s f ∧ ∃ s₂,
      Spread (newTableAt s s.cr3 (va / 4194304) f) s.cr3 (va / 4194304) s₂ ∧
      (propagates s va = false → s₂ = newTableAt s s.cr3 (va / 4194304) f) ∧
      t = pgmapEntryAt (s₂.setFrame f (splitFrame (s.mem s.cr3 (va / 4194304)) (va / 4096 % 1024)))
        s.cr3 f pa va flags) := by
  unfold PgmapOwn at h
  by_cases he : (s.mem s.cr3 (va / 4194304)).HasTable
  · simp only [if_pos he] at h
    exact .inl ⟨he, h⟩
  · simp only [if_neg he] at h
    obtain ⟨f, hf, hfree, s₂, hs, ht⟩ := h
    refine .inr ⟨he, f, hf, hfree, s₂, ?_, ?_, ht⟩
    · split_ifs at hs with hp
      · exact hs
      · exact .inl hs
    · intro hp
      rwa [hp, if_neg Bool.false_ne_true] at hs

theorem PgmapOwn.rest (h : PgmapOwn s pa va flags t) : SameRest s t := by
  rcases h.cases with ⟨-, rfl⟩ | ⟨-, f, -, -, s₂, hs, -, rfl⟩
  · rfl
  · have hrest := hs.rest
    unfold SameRest at hrest ⊢
    rw [hrest]
    rfl

theorem PgmapSmall.rest (h : PgmapSmall s v pa va flags t) (hp : propagates s va = false) : SameRest s t := by
  unfold PgmapSmall at h
  split_ifs at h
  · rw [h]
    rfl
  · obtain ⟨f, -, -, rfl⟩ := h
    unfold pgmapNewAt
    dsimp only
    rw [hp, if_neg Bool.false_ne_true]
    rfl

theorem pgmapEntryAt_slot (hvf : v ≠ f) (hp : (s.mem v (va / 4194304)).present = true)
    (hs : (s.mem v (va / 4194304)).pgsz = false) :
    ((pgmapEntryAt s v f pa va flags).mem v (va / 4194304)).HasTable := by
  unfold pgmapEntryAt
  dsimp only
  rw [Machine.set_mem_of_ne _ _ _ _ hvf, Machine.set_mem_self]
  exact .of_present (by simp [hp]) (by simp [hs])

/-- The slot of a small page that was mapped has a page table. -/
theorem PgmapOwn.slot (hm : PgmapOwn s pa va flags t) (h : Tables D L s) (hc : s.cr3 ∈ L)
    (hva : OffSlot va) (hpr : propagates s va = true → Propagates ok D s) :
    (t.mem s.cr3 (va / 4194304)).HasTable := by
  rcases hm.cases with ⟨he, rfl⟩ | ⟨-, f, hf, hfree, s₂, hs, hsame, rfl⟩
  · exact pgmapEntryAt_slot (h.pt_ne hc (h.sub hc) hva.lt hva.2 he).symm (h.present _ hc _ hva.lt hva.2 he) he.2
  · have hcf : s.cr3 ≠ f := fun e => hfree (e ▸ (h.dir _ (h.sub hc)).1)
    have hdir : s₂.mem s.cr3 = (newTableAt s s.cr3 (va / 4194304) f).mem s.cr3 := by
      cases hp : propagates s va with
      | true => exact (hs.frame ((hpr hp).congr rfl rfl) (h.fresh hfree).1).2.1
      | false => rw [hsame hp]
    have hpde : (s₂.setFrame f (splitFrame (s.mem s.cr3 (va / 4194304)) (va / 4096 % 1024))).mem s.cr3
        (va / 4194304) = newTableEntry (s.mem s.cr3 (va / 4194304)) f := by
      rw [Machine.setFrame_mem_of_ne _ _ hcf, hdir]
      exact newTableAt_mem_pde hcf
    refine pgmapEntryAt_slot hcf ?_ ?_
    · rw [hpde]
      exact newTableEntry_present _ f
    · rw [hpde]
      exact newTableEntry_pgsz _ f

/-- The result of `vmm_pgmap_huge` on the current VMM. -/
def PgmapHugeOwn (s : Machine) (pa va : ℕ) (flags : Word) (t : Machine) : Prop :=
  let s₂ := releaseAt s s.cr3 (va / 4194304) (Word.fillPse flags pa)
  if propagates s va then Spread s₂ s.cr3 (va / 4194304) t else t = s₂

/-- Frames that mapping a small page may take: one for a page table and one for that of a window. -/
def slotCost (s : Machine) (va : ℕ) : ℕ := if (s.mem s.cr3 (va / 4194304)).HasTable then 0 else 2

end Outcome

section Own

variable {D L : Set ℕ} {s : Machine} {K : Callees} {ok : Prop} {n pa va : ℕ} {flags : Word}

theorem vmmPgmapSmall_own (h : Tables D L s) (hc : s.cr3 ∈ L) (hal : s.vmmCurrent = s.cr3 * 4096)
    (hK : K.Closed) (hva : OffSlot va) (hpr : propagates s va = true → Propagates ok D s)
    (hf : ok → FreeFrames s (n + slotCost s va))
    (hn : ¬ (s.mem s.cr3 (va / 4194304)).HasTable → ¬ ok → NullGuard s) :
    Comp.Wp ok (vmmPgmapSmall K s.vmmCurrent pa va flags) (fun _ t => ∃ σ, PgmapOwn s pa va flags σ ∧
      Windowed D L σ t (fun _ => 0#32) ∧ (ok → FreeFrames t n)) s := by
  by_cases he : (s.mem s.cr3 (va / 4194304)).HasTable
  · rw [slotCost, if_pos he] at hf
    refine .of_eq (vmmPgmapSmall_cur_table K pa flags h hc hva he)
      ⟨_, ?_, .refl (h.pgmapEntryAt hc hva he rfl) hc, hf⟩
    unfold PgmapOwn
    rw [if_pos he]
  rw [slotCost, if_neg he] at hf
  have hg : Guard ok s s (n + 2) := ⟨hf, hn he⟩
  cases hp : propagates s va with
  | true =>
    have hk : 768 ≤ va / 4194304 := by
      unfold propagates kernelStart rmapStart at hp
      rw [Bool.and_eq_true, decide_eq_true_eq] at hp
      have := hva.2
      omega
    refine ((Windowed.refl h hc).vmmPgmapSmall_kernel hK hal hva hk (hpr hp) hg).mono
      fun _ t ⟨σ, hm, hw, hg'⟩ => ⟨σ, hm, hw, hg'.frames⟩
  | false =>
    rcases pmmAllocFree_one h.frames with ⟨ha, hfull⟩ | ⟨f, hf, hfree, ha⟩
    · have hok : ¬ ok := fun hok => by
        obtain ⟨f, hf, hfree⟩ := (hg.frames hok).exists_free
        exact hfree (hfull f hf)
      exact .of_fault (vmmPgmapSmall_cur_oom h hc hva he (hg.null hok) ha) hok
    · have hsmall : PgmapSmall s s.cr3 pa va flags (pgmapNewAt s s.cr3 f pa va flags) := by
        rw [PgmapSmall, if_neg he]
        exact ⟨f, hf, hfree, rfl⟩
      have ht := hsmall.tables h hc hva hp
      have hrun := vmmPgmapSmall_cur_alone K pa flags h hc hva he hf hfree ha hp
      have hown := (pgmapOwn_iff hp).mpr hsmall
      unfold pgmapNewAt at hown ht
      dsimp only at hown ht
      rw [hp, if_neg Bool.false_ne_true] at hown ht
      exact .of_eq hrun ⟨_, hown, .refl ht hc, fun ho => ((hg.frames ho).alloc f).mono (Nat.le_succ n)⟩

theorem vmmPgmapHuge_own (h : Tables D L s) (hc : s.cr3 ∈ L) (hal : s.vmmCurrent = s.cr3 * 4096)
    (hK : K.Closed) (hva : OffSlot va) (ho : Owned L s s.cr3 (va / 4194304))
    (hpr : propagates s va = true → Propagates ok D s) (hg : Guard ok s s (n + 1)) :
    Comp.Wp ok (vmmPgmapHuge K s.vmmCurrent pa va flags) (fun _ t => ∃ σ, PgmapHugeOwn s pa va flags σ ∧
      Windowed D L σ t (fun _ => 0#32) ∧ (ok → FreeFrames t n)) s := by
  have hd := Word.fillPse_not_hasTable flags pa
  have ht := h.release hc hva.lt hva.2 ho hd
  have hcr : (releaseAt s s.cr3 (va / 4194304) (Word.fillPse flags pa)).cr3 = s.cr3 := by
    rw [Machine.cr3, releaseAt_vmmCurrent, Machine.cr3]
  have hw : Windowed D L (releaseAt s s.cr3 (va / 4194304) (Word.fillPse flags pa)) _ fun _ => 0#32 :=
    .refl ht (hcr.symm ▸ hc)
  have hstay : ∀ e, PageAt (s.set s.cr3 (va / 4194304) e) true (vmmPd rmapStart) s.cr3 := by
    intro e
    have hself : SelfMapped (s.set s.cr3 (va / 4194304) e).mem s.cr3 := by
      have hs := h.self _ hc
      have hm := s.set_mem_of_ne_index s.cr3 (va / 4194304) e s.cr3 (Ne.symm hva.2)
      exact ⟨by rw [hm]; exact hs.present, by rw [hm]; exact hs.rw, by rw [hm]; exact hs.pgsz, by rw [hm]; exact hs.pt⟩
    exact hself.pageAt_pd true
  unfold vmmPgmapHuge
  refine .step (openPd_cur rfl _) ?_
  rw [if_neg vmmPd_ne_zero]
  refine .step ((h.pageAt_pd hc false).load hva.lt) ?_
  refine .congr (releaseAt_run hva.lt hstay _ _) ?_
  refine .read_bind (.read_bind ?_)
  rw [propagates_releaseAt]
  unfold PgmapHugeOwn
  simp only [releaseAt_vmmCurrent, ne_eq, not_true_eq_false, if_false]
  have hclose : ∀ t, t.vmmCurrent = s.vmmCurrent →
      closeWin K s.vmmCurrent (vmmPd rmapStart) t = some ((), t) := fun t e => closeWin_cur e.symm _
  cases hp : propagates s va with
  | false =>
    rw [Comp.when_false Bool.false_ne_true, Comp.pure_bind]
    refine .of_eq (hclose _ (releaseAt_vmmCurrent ..)) ⟨_, rfl, hw, fun hok => ?_⟩
    have hfr := (hg.frames hok).mono (Nat.le_succ n)
    unfold releaseAt
    split_ifs
    · exact hfr.free _
    · exact hfr
  | true =>
    have hk : 768 ≤ va / 4194304 := by
      unfold propagates kernelStart rmapStart at hp
      rw [Bool.and_eq_true, decide_eq_true_eq] at hp
      have := hva.2
      omega
    have hring : s.taskRing ≠ [] := by
      intro e
      unfold propagates at hp
      rw [e] at hp
      cases hp
    have hgu := (Windowed.refl h hc).guard_release (h.sub hc) (.inr hk) hg (Word.fillPse flags pa)
    have hrest := releaseAt_rest s s.cr3 (va / 4194304) (Word.fillPse flags pa)
    have hpr' : Propagates ok D (releaseAt s s.cr3 (va / 4194304) (Word.fillPse flags pa)) := by
      refine (hpr hp).congr ?_ ?_
      · rw [hrest]
        rfl
      · rw [hrest]
    have hspread := hw.propagatePde_spread hK (by rw [hrest]; exact hring) hpr' pdReached_cur (hcr.symm ▸ hc)
      hva.lt hk (show 0 < 1048576 by decide) hgu
    rw [Nat.zero_mul, hcr, ← hal] at hspread
    rw [Comp.when_true rfl]
    refine .bind hspread ?_
    rintro _ u ⟨σ, hσ, hu, hg'⟩
    have hcur : u.vmmCurrent = s.vmmCurrent := by
      rw [hu.vmmCurrent_eq, hσ.vmmCurrent, releaseAt_vmmCurrent]
    exact .of_eq (hclose u hcur) ⟨σ, hσ, hu, hg'.frames⟩

/-! Unmapping. -/

/-- There is no trap to resolve behind an entry; where `ok` holds, the lock of the trap table is free, too. -/
def NoResolve (ok : Prop) (s : Machine) (e : Word) (vmm va : ℕ) : Prop :=
  e.trapped = true → ¬ HasCow s vmm va ∧ (ok → s.vmmTrapsMutex = false)

theorem NoResolve.wp {e : Word} {vmm pgsz : ℕ} (h : NoResolve ok s e vmm va) :
    Comp.Wp ok (Comp.when e.trapped (vmmUnmapResolveCow K vmm va pgsz)) (fun _ t => t = s) s := by
  refine .when (fun ht => ?_) fun _ => rfl
  obtain ⟨hcow, hlock⟩ := h ht
  refine ⟨fun hnone ho => ?_, (vmmUnmapResolveCow_none hcow).2⟩
  have hrun : vmmUnmapResolveCow K vmm va pgsz s = some ((), s) := vmmUnmapResolveCow_free hcow (hlock ho)
  rw [hnone] at hrun
  cases hrun

theorem vmmPgunmapHuge_own (h : Tables D L s) (hc : s.cr3 ∈ L) (hva : OffSlot va)
    (hres : (s.mem s.cr3 (va / 4194304)).HasTable → ∀ i < 1024,
      NoResolve ok s (s.mem (s.mem s.cr3 (va / 4194304)).pt i) s.vmmCurrent (va ||| i * 4096))
    (hres' : (s.mem s.cr3 (va / 4194304)).pgsz = true →
      NoResolve ok s (s.mem s.cr3 (va / 4194304)) s.vmmCurrent va) :
    Comp.Wp ok (vmmPgunmapHuge K s.vmmCurrent va)
      (fun _ t => t = releaseAt s s.cr3 (va / 4194304) 0#32) s := by
  unfold vmmPgunmapHuge
  refine .step (openPd_cur rfl _) ?_
  rw [if_neg vmmPd_ne_zero]
  refine .step ((h.pageAt_pd hc false).load hva.lt) ?_
  refine .ite (fun h0 => ?_) fun h0 => ?_
  · refine .of_eq (closeWin_cur rfl _) ?_
    rw [releaseAt, h0, if_neg Word.not_hasTable_zero, ← h0, Machine.set_eq_self]
  cases hs : (s.mem s.cr3 (va / 4194304)).pgsz with
  | true =>
    rw [if_neg (by decide)]
    refine .bind (hres' hs).wp fun _ u hu => ?_
    subst hu
    refine .step ((h.pageAt_pd hc true).store hva.lt _) (.of_eq (closeWin_cur rfl _) ?_)
    rw [releaseAt, if_neg fun ht => ht.not_pgsz hs]
  | false =>
    have he : (s.mem s.cr3 (va / 4194304)).HasTable := ⟨h0, hs⟩
    rw [if_pos rfl]
    have hpt := h.pageAt_pt hc hva.lt hva.2 he false
    refine .step (openPt_cur rfl _ _ _) ?_
    refine .bind (Comp.Wp.forRange (J := fun _ u => u = s) (fun i _ hi u hu => ?_) rfl) fun _ u hu => ?_
    · rw [hu]
      refine .step (hpt.load (by omega)) ?_
      exact (hres he i (by omega)).wp
    · rw [hu]
      refine .step ((h.pageAt_pd hc false).load hva.lt) ?_
      refine .step (t := s.setBitmap (s.mem s.cr3 (va / 4194304)).pt false) rfl ?_
      refine .step (closeWin_cur rfl _) ?_
      have hpd : PageAt (s.setBitmap (s.mem s.cr3 (va / 4194304)).pt false) true (vmmPd rmapStart) s.cr3 :=
        h.pageAt_pd hc true
      refine .step (hpd.store hva.lt _) (.of_eq (closeWin_cur rfl _) ?_)
      rw [releaseAt, if_pos he]

/-- The loop that maps the other pages of a 4 MiB page again, one by one: what `I` says before each pass holds after the last
one. -/
theorem pgunmapSplit_own {I : ℕ → Machine → Prop} {ok' : Prop} (h : Tables D L s) (hc : s.cr3 ∈ L)
    (hal : s.vmmCurrent = s.cr3 * 4096) (hK : K.Closed) (hva : OffSlot va)
    (hs : (s.mem s.cr3 (va / 4194304)).pgsz = true) (hpr : kernelStart ≤ va → Propagates ok D s)
    (hok : ok' → ok)
    (hres : NoResolve ok' s (s.mem s.cr3 (va / 4194304)) s.vmmCurrent (va / 4194304 * 4194304)) (hg : Guard ok s s (n + 2)) (h0 : I 0 (s.set s.cr3 (va / 4194304) 0#32))
    (hskip : ∀ k w, va - va % 4194304 + k * 4096 = va → I k w → I (k + 1) w)
    (hstep : ∀ k < 1024, ∀ w σ t, va - va % 4194304 + k * 4096 ≠ va → I k w → Tables D L w →
      SameRest s w → PgmapOwn w ((s.mem s.cr3 (va / 4194304)).psePa * 4194304 + k * 4096)
        (va - va % 4194304 + k * 4096) (s.mem s.cr3 (va / 4194304)).mapFlags σ →
      Windowed D L σ t (fun _ => 0#32) → I (k + 1) t) :
    Comp.Wp ok' (pgunmapSplit K s.vmmCurrent (vmmPd rmapStart) va (s.mem s.cr3 (va / 4194304)))
      (fun _ t => I 1024 t ∧ Tables D L t ∧ SameRest s t ∧ (ok → FreeFrames t n)) s := by
  unfold pgunmapSplit
  dsimp only
  refine .bind hres.wp fun _ u hu => ?_
  rw [hu]
  refine .step ((h.pageAt_pd hc true).store hva.lt _) ?_
  have loop := @Comp.Wp.forRange Machine ok (fun k w => I k w ∧ Tables D L w ∧ SameRest s w ∧
      (ok → FreeFrames w (n + slotCost w va)) ∧
      (¬ (w.mem w.cr3 (va / 4194304)).HasTable → ¬ ok → NullGuard w))
    (fun k => Comp.when (va - va % 4194304 + k * 4096 ≠ va)
      (vmmPgmapSmall K s.vmmCurrent ((s.mem s.cr3 (va / 4194304)).psePa * 4194304 + k * 4096)
        (va - va % 4194304 + k * 4096) (s.mem s.cr3 (va / 4194304)).mapFlags)) 1024 0 ?_
    (s.set s.cr3 (va / 4194304) 0#32) ⟨h0, h.setPde hva.2 (.of_not_hasTable Word.not_hasTable_zero), rfl, ?_, ?_⟩
  · refine loop.weaken hok ?_
    rintro _ t ⟨hI, ht, hrest, hframes, _⟩
    refine ⟨hI, ht, hrest, fun ho => ?_⟩
    exact (hframes ho).mono (Nat.le_add_right _ _)
  · rintro k - hk w ⟨hI, hw, hrest, hframes, hnull⟩
    refine .when (fun hne => ?_) fun heq => ⟨hskip k w (not_not.mp heq) hI, hw, hrest, hframes, hnull⟩
    have hcur : w.vmmCurrent = s.vmmCurrent := by rw [hrest]
    have hcr : w.cr3 = s.cr3 := by rw [Machine.cr3, hcur, Machine.cr3]
    have hslot : (va - va % 4194304 + k * 4096) / 4194304 = va / 4194304 := by omega
    have hoff : OffSlot (va - va % 4194304 + k * 4096) := ⟨by have := hva.1; omega, hslot ▸ hva.2⟩
    have hprw : propagates w (va - va % 4194304 + k * 4096) = true → Propagates ok D w := by
      intro hp
      have hge : kernelStart ≤ va := by
        unfold propagates kernelStart rmapStart at hp
        rw [Bool.and_eq_true, decide_eq_true_eq] at hp
        unfold kernelStart rmapStart
        omega
      exact (hpr hge).congr (by rw [hrest]; rfl) (by rw [hrest])
    have hrun : Comp.Wp ok (vmmPgmapSmall K w.vmmCurrent ((s.mem s.cr3 (va / 4194304)).psePa * 4194304 + k * 4096)
        (va - va % 4194304 + k * 4096) (s.mem s.cr3 (va / 4194304)).mapFlags) _ w :=
      vmmPgmapSmall_own hw (hcr.symm ▸ hc) (by rw [hcr, hcur, hal]) hK hoff hprw (n := n)
        (by rw [slotCost, hslot]; exact hframes) (by rw [hslot]; exact hnull)
    rw [hcur] at hrun
    refine hrun.mono ?_
    rintro _ t ⟨σ, hm, hwt, hfr⟩
    have hrest' : SameRest s t := hrest.trans (hm.rest.trans hwt.rest)
    have htab : (t.mem t.cr3 (va / 4194304)).HasTable := by
      have hσ := hm.slot hw (hcr.symm ▸ hc) hoff hprw
      have hσc : σ.cr3 = w.cr3 := by
        have hr := hm.rest
        unfold SameRest at hr
        rw [hr]
        rfl
      rw [hslot, ← hσc] at hσ
      rw [hwt.cr3_eq, hwt.slot_of_ne_zero hσ.1]
      exact hσ
    refine ⟨hstep k (by omega) w σ t hne hI hw hrest hm hwt, hwt.actual, hrest', fun ho => ?_,
      fun hno => absurd htab hno⟩
    rw [slotCost, if_pos htab]
    exact hfr ho
  · exact fun ho => (hg.frames ho).mono (by unfold slotCost; split_ifs <;> omega)
  · intro _ hno
    have hn := hg.null hno
    have hi : va / 4194304 ≠ 0 := fun e => (e ▸ hn.table).not_pgsz hs
    exact hn.set _ (fun _ => hi) (h.pt_ne hc (h.sub hc) (by decide) (by decide) hn.table).symm

/-- `vmm_pgunmap_small` on the current VMM, apart from the pages of a 4 MiB page. -/
theorem vmmPgunmapSmall_own (h : Tables D L s) (hc : s.cr3 ∈ L) (hva : OffSlot va)
    (hs : (s.mem s.cr3 (va / 4194304)).pgsz = false)
    (hres : NoResolve ok s (pteAt s.mem s.cr3 (va / 4096)) s.vmmCurrent va) :
    Comp.Wp ok (vmmPgunmapSmall K s.vmmCurrent va) (fun _ t =>
      t = if (s.mem s.cr3 (va / 4194304)).HasTable then
        s.set (s.mem s.cr3 (va / 4194304)).pt (va / 4096 % 1024) 0#32 else s) s := by
  have hi := va_slot va
  have hj : va / 4096 % 1024 < 1024 := Nat.mod_lt _ (by decide)
  unfold vmmPgunmapSmall
  refine .step (openPd_cur rfl _) ?_
  rw [if_neg vmmPd_ne_zero]
  refine .step ((h.pageAt_pd hc false).load hva.lt) ?_
  refine .ite (fun h0 => ?_) fun h0 => ?_
  · refine .of_eq (closeWin_cur rfl _) ?_
    rw [h0, if_neg Word.not_hasTable_zero]
  have he : (s.mem s.cr3 (va / 4194304)).HasTable := ⟨h0, hs⟩
  have hpt := h.pageAt_pt hc hva.lt hva.2 he true
  rw [if_pos hs, if_pos he]
  refine .step (openPt_cur rfl _ _ _) ?_
  rw [if_neg (vmmPt_ne_zero _)]
  refine .step (hpt.load hj) ?_
  rw [pteAt_of_hasTable (by rw [hi]; exact he), hi] at hres
  refine .bind hres.wp fun _ u hu => ?_
  rw [hu]
  exact .step (hpt.store hj _) (.of_eq (closeWins_cur rfl _ _) rfl)

/-- `vmm_pgunmap_small` on the current VMM inside of a 4 MiB page. -/
theorem vmmPgunmapSmall_split (h : Tables D L s) (hc : s.cr3 ∈ L) (hva : OffSlot va)
    (hs : (s.mem s.cr3 (va / 4194304)).pgsz = true) {Q : Unit → Machine → Prop}
    (hQ : Comp.Wp ok (pgunmapSplit K s.vmmCurrent (vmmPd rmapStart) va (s.mem s.cr3 (va / 4194304)))
      (fun _ t => SameRest s t ∧ Q () t) s) : Comp.Wp ok (vmmPgunmapSmall K s.vmmCurrent va) Q s := by
  unfold vmmPgunmapSmall
  refine .step (openPd_cur rfl _) ?_
  rw [if_neg vmmPd_ne_zero]
  refine .step ((h.pageAt_pd hc false).load hva.lt) ?_
  rw [if_neg (Word.ne_zero_of_pgsz hs), if_neg (by rw [hs]; decide)]
  refine .bind hQ fun _ t ⟨hrest, ht⟩ => .of_eq (closeWin_cur ?_ _) ht
  rw [hrest]

end Own

end SysX
