import SysX.Mapping

/-!
`vmm_pgmap` of 4 MiB pages and `vmm_pgunmap` on a VMM other than the current one, as long as no
copy-on-write is resolved.
-/
namespace SysX

/-- The entry `i` of the directory `v` becomes `d`, and its page table is freed. -/
def releaseAt (s : Machine) (v i : ℕ) (d : Word) : Machine :=
  (if (s.mem v i).HasTable then s.setBitmap (s.mem v i).pt false else s).set v i d

theorem releaseAt_rest (s : Machine) (v i : ℕ) (d : Word) : releaseAt s v i d =
    { s with mem := (releaseAt s v i d).mem, pmmBitmap := (releaseAt s v i d).pmmBitmap } := by
  unfold releaseAt
  split_ifs <;> rfl

@[simp] theorem releaseAt_vmmCurrent (s : Machine) (v i : ℕ) (d : Word) :
    (releaseAt s v i d).vmmCurrent = s.vmmCurrent := by
  rw [releaseAt_rest]

@[simp] theorem propagates_releaseAt (s : Machine) (v i : ℕ) (d : Word) (va : ℕ) :
    propagates (releaseAt s v i d) va = propagates s va := by
  rw [releaseAt_rest]
  rfl

/-- No other directory holds the page table behind the entry. Entries of the user half are never
shared. -/
def Owned (L : Set ℕ) (s : Machine) (v i : ℕ) : Prop :=
  768 ≤ i → ∀ w ∈ L, w ≠ v → (s.mem w i).HasTable → (s.mem w i).pt ≠ (s.mem v i).pt

section Release

variable {D L : Set ℕ} {s s₁ t : Machine} {W : ℕ → Word} {K : Callees} {ok : Prop} {v n i f : ℕ}

/-- The page table behind an entry that was overwritten may be freed. -/
theorem Tables.release (h : Tables D L s) (hv : v ∈ L) (hi : i < 1024) (hne : i ≠ 767)
    (ho : Owned L s v i) {d : Word} (hd : ¬ d.HasTable) : Tables D L (releaseAt s v i d) := by
  unfold releaseAt
  split_ifs with ht
  · have hset : Tables D L (s.set v i d) := h.setPde hne (.of_not_hasTable hd)
    refine hset.free (h.notDir v hv i hi hne ht) fun w hw j hj hj' hx heq => ?_
    by_cases hvi : w = v ∧ j = i
    · rw [hvi.1, hvi.2, Machine.set_mem_self] at hx
      exact hd hx
    · rw [Machine.set_mem, if_neg hvi] at hx heq
      obtain ⟨rfl, hwv⟩ := h.sep w hw v hv j hj i hi hj' hne hx ht heq
      rcases hwv with rfl | h768
      · exact hvi ⟨rfl, rfl⟩
      · exact ho h768 w hw (fun e => hvi ⟨e, rfl⟩) hx heq
  · exact h.setPde hne (.of_not_hasTable hd)

theorem Owned.windowed (ho : Owned L s v i) (h : Windowed D L s s₁ W) (hv : v ∈ L) :
    Owned L s₁ v i := by
  intro h768 w hw hwv hx
  rw [h.mem_aside (h.logical.sub hw) (.inr h768)] at hx ⊢
  rw [h.mem_aside (h.logical.sub hv) (.inr h768)]
  exact ho h768 w hw hwv hx

theorem Windowed.release (h : Windowed D L s s₁ W) (hv : v ∈ L) (ha : Aside s v i) (hi : i < 1024)
    (hne : i ≠ 767) (ho : Owned L s v i) {d : Word} (hd : ¬ d.HasTable) :
    Windowed D L (releaseAt s v i d) (releaseAt s₁ v i d) W := by
  have hm := h.mem_aside (h.logical.sub hv) ha
  have ht := h.logical.release hv hi hne ho hd
  have ht₁ := h.actual.release hv hi hne (ho.windowed h hv) hd
  have hset := h.setAside (h.logical.sub hv) ha hne (Fits.of_not_hasTable hd) (Fits.of_not_hasTable hd)
  unfold releaseAt at ht ht₁ ⊢
  rw [hm] at ht₁ ⊢
  split_ifs at ht ht₁ ⊢
  · exact hset.free ht ht₁
  · exact hset

theorem FreeFrames.free (h : FreeFrames s n) (f : ℕ) : FreeFrames (s.setBitmap f false) n := by
  obtain ⟨fs, hlen, hnd, hfs⟩ := h
  exact ⟨fs, hlen, hnd, fun g hg => ⟨(hfs g hg).1, fun hu => (hfs g hg).2 ((used_free s f g).mp hu).2⟩⟩

theorem Guard.free (h : Guard ok s s₁ n) (f : ℕ) :
    Guard ok (s.setBitmap f false) (s₁.setBitmap f false) n :=
  ⟨fun ho => (h.frames ho).free f, fun hok => ⟨(h.null hok).table, (h.null hok).pte⟩⟩

theorem Windowed.guard_release (h : Windowed D L s s₁ W) (hv : v ∈ D) (ha : Aside s v i)
    (hg : Guard ok s s₁ n) (d : Word) :
    Guard ok (releaseAt s v i d) (releaseAt s₁ v i d) n := by
  have hm := h.mem_aside hv ha
  have hset := h.guard_aside hv ha hg d
  unfold releaseAt
  rw [hm]
  split_ifs
  · exact hset.free _
  · exact hset

/-- The stores of `vmm_pgmap_huge` to the directory entry. -/
theorem releaseAt_run {a : ℕ} (hi : i < 1024) (hstay : ∀ e, PageAt (s.set v i e) true a v) (d : Word)
    (c : Kernel Unit) :
    (do
      Comp.when (s.mem v i ≠ 0#32 ∧ (s.mem v i).pgsz = false) do
        pmmFree (s.mem v i).pt
        store (a + 4 * i) 0#32
      store (a + 4 * i) d
      c) s = c (releaseAt s v i d) := by
  have hpd : PageAt s true a v := by
    have := hstay (s.mem v i)
    rwa [Machine.set_eq_self] at this
  unfold releaseAt
  by_cases ht : (s.mem v i).HasTable
  · have hfree : PageAt (s.setBitmap (s.mem v i).pt false) true a v := hpd
    have hzero : PageAt ((s.setBitmap (s.mem v i).pt false).set v i 0#32) true a v := hstay 0#32
    have hif : s.mem v i ≠ 0#32 ∧ (s.mem v i).pgsz = false := ht
    rw [Comp.when_true hif, if_pos ht, Comp.bind_assoc]
    rw [show pmmFree (s.mem v i).pt = Comp.modify fun s' => s'.setBitmap (s.mem v i).pt false from rfl,
      Comp.modify_bind, Comp.bind_of_eq (hfree.store hi _), Comp.bind_of_eq (hzero.store hi _),
      Machine.set_set]
  · have hif : ¬ (s.mem v i ≠ 0#32 ∧ (s.mem v i).pgsz = false) := ht
    rw [Comp.when_false hif, if_neg ht, Comp.pure_bind_apply, Comp.bind_of_eq (hpd.store hi _)]

end Release

theorem Word.fillPse_not_hasTable (flags : Word) (pa : ℕ) : ¬ (Word.fillPse flags pa).HasTable :=
  fun h => h.not_pgsz (Word.fillPse_pgsz flags pa)

section Foreign

variable {D L : Set ℕ} {s s₁ t : Machine} {W : ℕ → Word} {K : Callees} {ok : Prop}
  {v n p r pa va : ℕ} {flags fl : Word}

/-- The directory stays within reach of its window when one of its entries changes. -/
theorem PdOpen.stay (hd : PdOpen ok D L s W fl v n p t) (hfl : WindowFlags fl) (hrw : fl.getLsbD 1 = true)
    (hv : v ∈ D) (hvc : v ≠ s.cr3) {i : ℕ} (e : Word) : PageAt (t.set v i e) true (p * 4096) v := by
  have hlt := (hd.windowed.logical.dir v hv).2
  obtain ⟨hp, hm⟩ := hd.pageAt hfl hlt true fun _ => hrw
  have hcr : t.cr3 = s.cr3 := hd.windowed.cr3_eq
  have ht : (t.mem t.cr3 (p / 1024)).HasTable := by
    rw [hcr]
    exact hd.windowed.hasTable_window (by rw [Function.update_self]; exact hfl.windowPte_ne_zero _)
  have hslot := userPages_slot hd.user
  have hne := hd.windowed.actual.pt_ne hd.windowed.cur₁ hv (by omega) (by omega) ht
  refine ⟨hp, ?_⟩
  rw [Machine.set_cr3, ← hm]
  unfold mmu
  dsimp only
  rw [Machine.set_mem_of_ne _ _ _ _ (hcr ▸ hvc.symm), page_slot, Machine.set_mem_of_ne _ _ _ _ hne]

/-- `vmm_pgmap_huge` on another VMM, when nothing is propagated. -/
theorem Windowed.vmmPgmapHuge_foreign (h : Windowed D L s s₁ W) (hK : K.Closed) (hv : v ∈ L)
    (hvc : v ≠ s.cr3) (hva : OffSlot va) (ho : Owned L s v (va / 4194304))
    (hp : propagates s va = false) (hg : Guard ok s s₁ (n + 1)) (hroom : Room s W 0 1) :
    Comp.Wp ok (vmmPgmapHuge K (v * 4096) pa va flags) (fun _ t =>
      Windowed D L (releaseAt s v (va / 4194304) (Word.fillPse flags pa)) t W ∧
      Guard ok (releaseAt s v (va / 4194304) (Word.fillPse flags pa)) t n) s₁ := by
  have hcur : v * 4096 ≠ s.vmmCurrent := fun e => hvc (by rw [Machine.cr3, ← e]; omega)
  have hDv := h.logical.sub hv
  unfold vmmPgmapHuge
  refine .bind (h.openPd_foreign windowFlags_write hK hcur hg hroom) ?_
  rintro a t ⟨q, ha, hop, hg', _⟩
  have hd : PdOpen ok D L s W (flagPresent ||| flagRw) v n q t :=
    ⟨hop.free.1, hop.free.2.1, hop.free.2.2.1, hop.windowed, hg'⟩
  have hlt := (h.logical.dir v hDv).2
  have hm : t.mem v (va / 4194304) = s.mem v (va / 4194304) := hd.windowed.mem_aside hDv (.inl hvc)
  rw [ha, if_neg hop.free.addr_ne_zero]
  refine .step ((hd.pageAt windowFlags_write hlt false (by simp)).load hva.lt) ?_
  refine .congr (releaseAt_run hva.lt (hd.stay windowFlags_write rfl hDv hvc) _ _) ?_
  have hw := hd.windowed.release hv (.inl hvc) hva.lt hva.2 ho (Word.fillPse_not_hasTable flags pa)
  have hgu := hd.windowed.guard_release (i := va / 4194304) hDv (.inl hvc) hd.guard (Word.fillPse flags pa)
  refine .read_bind (.read_bind ?_)
  have hspread : propagates t va = false := by
    rw [hd.windowed.rest]
    exact hp
  rw [propagates_releaseAt, hspread]
  dsimp only
  rw [Comp.when_false Bool.false_ne_true, Comp.pure_bind]
  have hd' : PdOpen ok D L (releaseAt s v (va / 4194304) (Word.fillPse flags pa)) W
      (flagPresent ||| flagRw) v n q _ := ⟨hd.pos, hd.user, hd.zero, hw, hgu⟩
  exact hd'.close windowFlags_write hK (by rw [releaseAt_vmmCurrent]; exact hcur)

end Foreign

/-! What a call on the directory `v` leaves alone. -/

/-- No other directory sees a difference. -/
structure Apart (L : Set ℕ) (v : ℕ) (s t : Machine) : Prop where
  vmmCurrent : t.vmmCurrent = s.vmmCurrent
  view : ∀ w ∈ L, w ≠ v → ∀ p, Regular p → view t.mem w p = view s.mem w p

section Apart

variable {D L : Set ℕ} {s t u : Machine} {v f pa va : ℕ} {flags : Word}

theorem Apart.refl (L : Set ℕ) (v : ℕ) (s : Machine) : Apart L v s s :=
  ⟨rfl, fun _ _ _ _ _ => rfl⟩

theorem Apart.trans (h : Apart L v s t) (h' : Apart L v t u) : Apart L v s u :=
  ⟨h'.vmmCurrent.trans h.vmmCurrent, fun w hw hne p hp =>
    (h'.view w hw hne p hp).trans (h.view w hw hne p hp)⟩

/-- A frame that belongs to no directory other than `v`. -/
def OnlyOf (L : Set ℕ) (s : Machine) (v f : ℕ) : Prop :=
  ∀ w ∈ L, w ≠ v → w ≠ f ∧
    ∀ i < 1024, i ≠ 767 → (s.mem w i).HasTable → (s.mem w i).pt ≠ f

/-- Only the directory itself and one frame of its own were written. -/
theorem Tables.apart (h : Tables D L s) (hv : v ∈ D) (hf : OnlyOf L s v f)
    (hc : t.vmmCurrent = s.vmmCurrent) (hm : ∀ g, g ≠ v → g ≠ f → t.mem g = s.mem g) :
    Apart L v s t := by
  refine ⟨hc, fun w hw hne p hp => ?_⟩
  obtain ⟨hwf, htf⟩ := hf w hw hne
  have hmw := hm w hne hwf
  have hi : p / 1024 < 1024 := by have := hp.1; omega
  refine view_congr (by rw [hmw]) fun ht => ?_
  rw [hmw] at ht ⊢
  rw [hm _ (h.pt_ne hw hv hi hp.2 ht) (htf _ hi hp.2 ht)]

/-- The page tables of the user half are not shared. -/
theorem Tables.onlyOf_table (h : Tables D L s) (hv : v ∈ L) {i : ℕ} (hi : i < 767)
    (ht : (s.mem v i).HasTable) : OnlyOf L s v (s.mem v i).pt := by
  intro w hw hne
  refine ⟨(h.pt_ne hv (h.sub hw) (by omega) (by omega) ht).symm, fun j hj hj' hx heq => ?_⟩
  obtain ⟨rfl, hwv⟩ := h.sep w hw v hv j hj i (by omega) hj' (by omega) hx ht heq
  rcases hwv with hwv | h768
  · exact hne hwv
  · omega

theorem Tables.onlyOf_fresh (h : Tables D L s) (hf : ¬ SysX.used s f) : OnlyOf L s v f := by
  intro w hw _
  obtain ⟨hD, hT⟩ := h.fresh hf
  exact ⟨fun e => hD (e ▸ h.sub hw), hT w hw⟩

theorem Tables.apart_pde (h : Tables D L s) (hv : v ∈ D) (i : ℕ) (d : Word) :
    Apart L v s (s.set v i d) := by
  refine ⟨rfl, fun w hw hne p hp => ?_⟩
  have hmw := s.set_mem_of_ne v i d hne
  have hi : p / 1024 < 1024 := by have := hp.1; omega
  refine view_congr (by rw [hmw]) fun ht => ?_
  rw [hmw] at ht ⊢
  rw [s.set_mem_of_ne v i d (h.pt_ne hw hv hi hp.2 ht)]

theorem Tables.apart_release (h : Tables D L s) (hv : v ∈ D) (i : ℕ) (d : Word) :
    Apart L v s (releaseAt s v i d) := by
  have hp := h.apart_pde hv i d
  unfold releaseAt
  split_ifs
  · exact ⟨hp.vmmCurrent, hp.view⟩
  · exact hp

theorem pgmapEntryAt_mem {g : ℕ} (hv : g ≠ v) (hf : g ≠ f) :
    (pgmapEntryAt s v f pa va flags).mem g = s.mem g := by
  unfold pgmapEntryAt
  dsimp only
  rw [Machine.set_mem_of_ne _ _ _ _ hf, Machine.set_mem_of_ne _ _ _ _ hv]

theorem pgmapNewAt_mem (hp : propagates s va = false) {g : ℕ} (hv : g ≠ v) (hf : g ≠ f) :
    (pgmapNewAt s v f pa va flags).mem g = s.mem g := by
  unfold pgmapNewAt
  dsimp only
  rw [hp, if_neg Bool.false_ne_true, pgmapEntryAt_mem hv hf, Machine.setFrame_mem_of_ne _ _ hf,
    newTableAt, Machine.setFrame_mem_of_ne _ _ hf, Machine.set_mem_of_ne _ _ _ _ hv,
    Machine.setBitmap_mem]

theorem PgmapSmall.apart (hm : PgmapSmall s v pa va flags t) (h : Tables D L s) (hv : v ∈ L)
    (hva : va / 4194304 < 767) (hp : propagates s va = false) : Apart L v s t := by
  have hDv := h.sub hv
  unfold PgmapSmall at hm
  split_ifs at hm with ht
  · subst hm
    exact h.apart hDv (h.onlyOf_table hv hva ht) rfl fun g => pgmapEntryAt_mem
  · obtain ⟨f, -, hf, rfl⟩ := hm
    refine h.apart hDv (h.onlyOf_fresh hf) ?_ fun g => pgmapNewAt_mem hp
    unfold pgmapNewAt
    dsimp only
    rw [hp, if_neg Bool.false_ne_true]
    rfl

end Apart

/-! Unmapping pages whose traps are gone. -/

/-- A small page of the slot `i` is mapped. -/
def SlotMapped (v i : ℕ) (flags : Word) (s t : Machine) : Prop :=
  ∃ pa va, va / 4194304 = i ∧ PgmapSmall s v pa va flags t

/-- The result of `vmm_pgunmap_small`: it maps the other pages of a 4 MiB page again. -/
def PgunmapSmall (s : Machine) (v va : ℕ) (t : Machine) : Prop :=
  let i := va / 4194304
  let e := s.mem v i
  if e.HasTable then t = s.set e.pt (va / 4096 % 1024) 0#32
  else if e.pgsz then Relation.ReflTransGen (SlotMapped v i e.mapFlags) (s.set v i 0#32) t
  else t = s

/-- A copy-on-write trap of the page is in the table. -/
def HasCow (s : Machine) (vmm va : ℕ) : Prop := ∃ t ∈ s.vmmTraps, t.isCowAt vmm va = true

theorem vmmIsCow_none {K : Callees} {s : Machine} {vmm va : ℕ} (h : ¬ HasCow s vmm va)
    (hlock : s.vmmTrapsMutex = false) : vmmIsCow K vmm va true s = some (none, s) := by
  have hslot : s.vmmTraps.findIdx? (fun t => t.isCowAt vmm va) = none := by
    rw [List.findIdx?_eq_none_iff]
    intro t ht
    by_contra hc
    exact h ⟨t, ht, by simpa using hc⟩
  unfold vmmIsCow
  simp only [if_true, Comp.pure_bind]
  unfold trapsAcquire
  rw [Comp.bind_assoc, Comp.read_bind, hlock, if_neg Bool.false_ne_true, Comp.modify_bind, Comp.read_bind,
    Comp.read_bind, hslot]
  refine congrArg some (Prod.ext rfl ?_)
  change { s with vmmTrapsMutex := false } = s
  rw [← hlock]

/-- A page without a trap has nothing to resolve. -/
theorem vmmUnmapResolveCow_free {K : Callees} {s : Machine} {vmm va pgsz : ℕ} (h : ¬ HasCow s vmm va)
    (hlock : s.vmmTrapsMutex = false) : vmmUnmapResolveCow K vmm va pgsz s = some ((), s) := by
  unfold vmmUnmapResolveCow
  rw [Comp.bind_of_eq (vmmIsCow_none h hlock), Comp.read_bind, unmapResolveLoop]
  rfl

theorem vmmUnmapResolveCow_none {K : Callees} {s : Machine} {vmm va pgsz : ℕ}
    (h : ¬ HasCow s vmm va) :
    Comp.Wp False (vmmUnmapResolveCow K vmm va pgsz) (fun _ t => t = s) s := by
  cases hm : s.vmmTrapsMutex with
  | true =>
    refine .of_fault ?_ id
    unfold vmmUnmapResolveCow vmmIsCow
    simp only [if_true, Comp.pure_bind]
    unfold trapsAcquire
    rw [Comp.bind_assoc, Comp.bind_assoc, Comp.read_bind, hm]
    rfl
  | false => exact .of_eq (vmmUnmapResolveCow_free h hm) rfl

/-- Nothing is resolved behind an entry that is not trapped or has no trap. -/
theorem resolve_none {K : Callees} {s : Machine} {e : Word} {vmm va pgsz : ℕ}
    (h : e.trapped = true → ¬ HasCow s vmm va) :
    Comp.Wp False (Comp.when e.trapped (vmmUnmapResolveCow K vmm va pgsz)) (fun _ t => t = s) s :=
  .when (fun ht => vmmUnmapResolveCow_none (h ht)) fun _ => rfl

theorem propagates_of_lt {s : Machine} {va : ℕ} (h : va < kernelStart) : propagates s va = false := by
  rw [propagates, decide_eq_false (Nat.not_le_of_lt h), Bool.and_false]

theorem offSlot_of_lt {va : ℕ} (h : va < kernelStart) : OffSlot va := by
  unfold kernelStart rmapStart at h
  exact ⟨by omega, by omega⟩

theorem slot_of_lt {va : ℕ} (h : va < kernelStart) : va / 4194304 < 767 := by
  unfold kernelStart rmapStart at h
  omega

section Foreign

variable {D L : Set ℕ} {s s₁ t : Machine} {W : ℕ → Word} {K : Callees} {ok : Prop}
  {v n p r va : ℕ}

theorem Apart.room (h : Apart L v s t) (hc : s.cr3 ∈ L) (hvc : v ≠ s.cr3) {q m : ℕ}
    (hroom : Room s W q m) : Room t W q m := by
  refine hroom.congr fun p hp => ?_
  have hcr : t.cr3 = s.cr3 := by rw [Machine.cr3, h.vmmCurrent, Machine.cr3]
  rw [hcr]
  exact h.view _ hc hvc.symm p (Windowed.regular_of_user hp)

/-- The directory entry is overwritten by one without a page table. -/
theorem PdOpen.setPde (hd : PdOpen ok D L s W (flagPresent ||| flagRw) v n p t) (hv : v ∈ D)
    (hvc : v ≠ s.cr3) {i : ℕ} (hne : i ≠ 767) {d : Word} (hfd : ¬ d.HasTable) :
    PdOpen ok D L (s.set v i d) W (flagPresent ||| flagRw) v n p (t.set v i d) :=
  ⟨hd.pos, hd.user, hd.zero, hd.windowed.setAside hv (.inl hvc) hne (.of_not_hasTable hfd)
    (.of_not_hasTable hfd), hd.windowed.guard_aside hv (.inl hvc) hd.guard d⟩

/-- One small page of a 4 MiB page goes, the others are mapped again one by one. -/
theorem PdOpen.pgunmapSplit (hd : PdOpen ok D L s W (flagPresent ||| flagRw) v (n + 4 * 1024) p t)
    (hK : K.Closed) (hv : v ∈ L) (hvc : v ≠ s.cr3) (hva : va < kernelStart)
    (hres : (s.mem v (va / 4194304)).trapped = true →
      ¬ HasCow s (v * 4096) (va / 4194304 * 4194304))
    (hroom : Room s (Function.update W p (windowPte (flagPresent ||| flagRw) (v * 4096))) 0 2) :
    Comp.Wp False (pgunmapSplit K (v * 4096) (p * 4096) va (s.mem v (va / 4194304)))
      (fun _ u => ∃ σ, Relation.ReflTransGen (SlotMapped v (va / 4194304) (s.mem v (va / 4194304)).mapFlags)
        (s.set v (va / 4194304) 0#32) σ ∧ Apart L v s σ ∧
        PdOpen ok D L σ W (flagPresent ||| flagRw) v n p u) t := by
  have hDv := hd.windowed.logical.sub hv
  have hcL := hd.windowed.cur
  have hi := slot_of_lt hva
  have hlt := (hd.windowed.logical.dir v hDv).2
  have hcow : HasCow t (v * 4096) (va / 4194304 * 4194304) ↔
      HasCow s (v * 4096) (va / 4194304 * 4194304) := by
    rw [hd.windowed.rest]
    rfl
  unfold SysX.pgunmapSplit
  dsimp only
  refine .bind (resolve_none fun ht => fun hc => hres ht (hcow.mp hc)) fun _ u hu => ?_
  subst hu
  refine .step ((hd.pageAt windowFlags_write hlt true fun _ => rfl).store (by omega) 0#32) ?_
  have hd₀ := hd.setPde hDv hvc (i := va / 4194304) (by omega) Word.not_hasTable_zero
  have hap₀ := hd.windowed.logical.apart_pde hDv (va / 4194304) 0#32
  have loop := @Comp.Wp.forRange Machine False (fun k w => ∃ σ,
    Relation.ReflTransGen (SlotMapped v (va / 4194304) (s.mem v (va / 4194304)).mapFlags)
      (s.set v (va / 4194304) 0#32) σ ∧ Apart L v s σ ∧
    PdOpen ok D L σ W (flagPresent ||| flagRw) v (n + 4 * (1024 - k)) p w)
    (fun i => Comp.when (va - va % 4194304 + i * 4096 ≠ va)
      (vmmPgmapSmall K (v * 4096) ((s.mem v (va / 4194304)).psePa * 4194304 + i * 4096)
        (va - va % 4194304 + i * 4096) (s.mem v (va / 4194304)).mapFlags)) 1024 0 ?_
    (u.set v (va / 4194304) 0#32) ⟨_, .refl, hap₀, hd₀⟩
  · exact loop.mono fun _ w hw => hw
  · rintro k - hk w ⟨σ, hsteps, hap, hdσ⟩
    have hvσ : v ≠ σ.cr3 := by
      rw [Machine.cr3, hap.vmmCurrent]
      exact hvc
    have hn : n + 4 * (1024 - k) = n + 4 * (1024 - (k + 1)) + 4 := by omega
    have hvk : va - va % 4194304 + k * 4096 < kernelStart := by
      unfold kernelStart rmapStart at hva ⊢
      omega
    refine .when (fun _ => ?_) fun _ => ⟨σ, hsteps, hap, hdσ.pos, hdσ.user, hdσ.zero, hdσ.windowed,
      hdσ.guard.mono (by omega)⟩
    have hpm : Comp.Wp _ (vmmPgmapSmall K (v * 4096) ((s.mem v (va / 4194304)).psePa * 4194304 + k * 4096)
        (va - va % 4194304 + k * 4096) (s.mem v (va / 4194304)).mapFlags) _ w :=
      hdσ.windowed.vmmPgmapSmall_foreign hK hv hvσ (offSlot_of_lt hvk)
        (fun hp => by rw [propagates_of_lt hvk] at hp; cases hp) (hn ▸ hdσ.guard)
        (hap.room hcL hvc hroom) fun hp => by rw [propagates_of_lt hvk] at hp; cases hp
    refine hpm.relax.mono fun _ x hx => ?_
    obtain ⟨σ', hsm, hw', hg'⟩ := hx
    have hslot : (va - va % 4194304 + k * 4096) / 4194304 = va / 4194304 := by omega
    exact ⟨σ', hsteps.tail ⟨_, _, hslot, hsm⟩, hap.trans (hsm.apart hdσ.windowed.logical hv (slot_of_lt hvk) (propagates_of_lt hvk)),
      hdσ.pos, hdσ.user, hdσ.zero, hw', hg'⟩

/-- How many windows are open at once while a small page is unmapped. -/
def unmapWindows (e : Word) : ℕ := if e.pgsz then 3 else walkWindows e

/-- `vmm_pgunmap_small` on another VMM, when it resolves no copy-on-write. -/
theorem Windowed.vmmPgunmapSmall_foreign (h : Windowed D L s s₁ W) (hK : K.Closed) (hv : v ∈ L)
    (hvc : v ≠ s.cr3) (hva : va < kernelStart)
    (hres : (pteAt s.mem v (va / 4096)).trapped = true → ¬ HasCow s (v * 4096) va)
    (hres' : (s.mem v (va / 4194304)).pgsz = true → (s.mem v (va / 4194304)).trapped = true →
      ¬ HasCow s (v * 4096) (va / 4194304 * 4194304))
    (hg : Guard ok s s₁ (n + (if (s.mem v (va / 4194304)).pgsz then 4 * 1024 else 1) + 1))
    (hroom : Room s W 0 (unmapWindows (s.mem v (va / 4194304)))) :
    Comp.Wp False (vmmPgunmapSmall K (v * 4096) va)
      (fun _ t => ∃ σ, PgunmapSmall s v va σ ∧ Apart L v s σ ∧ Windowed D L σ t W) s₁ := by
  have hcur : v * 4096 ≠ s.vmmCurrent := fun e => hvc (by rw [Machine.cr3, ← e]; omega)
  have hDv := h.logical.sub hv
  have hlt := (h.logical.dir v hDv).2
  have hi := slot_of_lt hva
  have hoff := offSlot_of_lt hva
  have hj : va / 4096 % 1024 < 1024 := Nat.mod_lt _ (by decide)
  have hone : ∃ m, unmapWindows (s.mem v (va / 4194304)) = m + 1 := by
    unfold unmapWindows walkWindows
    split_ifs
    · exact ⟨2, rfl⟩
    all_goals exact ⟨_, rfl⟩
  obtain ⟨m, hm⟩ := hone
  unfold PgunmapSmall
  dsimp only
  unfold vmmPgunmapSmall
  refine .bind (h.openPd_foreign windowFlags_write hK hcur hg (hm ▸ hroom)).relax ?_
  rintro a t ⟨p, ha, ho, hg', hroom'⟩
  have hd : PdOpen ok D L s W (flagPresent ||| flagRw) v
      (n + if (s.mem v (va / 4194304)).pgsz then 4 * 1024 else 1) p t :=
    ⟨ho.free.1, ho.free.2.1, ho.free.2.2.1, ho.windowed, hg'⟩
  have hmem : t.mem v (va / 4194304) = s.mem v (va / 4194304) := hd.windowed.mem_aside hDv (.inl hvc)
  rw [ha, if_neg ho.free.addr_ne_zero]
  refine .step ((hd.pageAt windowFlags_write hlt false (by simp)).load (by omega)) ?_
  rw [hmem]
  refine .ite (fun h0 => ?_) fun h0 => ?_
  · refine (hd.close windowFlags_write hK hcur).relax.mono fun _ u hu => ⟨s, ?_, .refl L v s, hu.1⟩
    rw [h0, if_neg Word.not_hasTable_zero, if_neg (by decide)]
  refine .ite (fun hs => ?_) fun hs => ?_
  · have he : (s.mem v (va / 4194304)).HasTable := ⟨h0, hs⟩
    have hm1 : m = 1 := by
      unfold unmapWindows walkWindows at hm
      rw [hs, if_neg Bool.false_ne_true, if_pos he] at hm
      omega
    subst hm1
    rw [if_neg he.not_pgsz] at hd
    refine .bind (Windowed.openPt_pdOpen hd windowFlags_write windowFlags_write hK hv hcur (by omega)
      hmem hroom').relax ?_
    rintro a' u ⟨r, ha', hpt⟩
    have hr0 : r * 4096 ≠ 0 :=
      Nat.mul_ne_zero (Nat.ne_of_gt (Nat.lt_of_le_of_lt (Nat.zero_le p) hpt.lt)) (by decide)
    rw [ha', if_neg hr0]
    have hout := hpt.windowed.outside_table hv hoff.lt hoff.2 (.inl hvc) he
    have hfD := h.logical.notDir v hv _ hoff.lt hoff.2 he
    have hfm := hpt.windowed.mem_table hv hoff.lt hoff.2 (.inl hvc) he
    have hpage := hpt.pageAt' windowFlags_write (Word.pt_lt _) true fun _ => rfl
    refine .step (hpage.load hj) ?_
    have hpte : pteAt s.mem v (va / 4096) = u.mem (s.mem v (va / 4194304)).pt (va / 4096 % 1024) := by
      rw [pteAt_of_hasTable (by rw [va_slot]; exact he), va_slot, hfm]
    have hcow : HasCow u (v * 4096) va ↔ HasCow s (v * 4096) va := by
      rw [hpt.windowed.rest]
      rfl
    rw [hpte] at hres
    refine .bind (resolve_none fun ht => fun hc => hres ht (hcow.mp hc)) fun _ x hx => ?_
    subst hx
    refine .step (hpage.store hj 0#32) ?_
    have hpt' : PtOpen ok D L (s.set (s.mem v (va / 4194304)).pt (va / 4096 % 1024) 0#32) W
        (flagPresent ||| flagRw) (flagPresent ||| flagRw) v (s.mem v (va / 4194304)).pt n p r _ :=
      PtOpen.mk hpt.pos hpt.lt hpt.user hpt.zero hpt.zero' (hpt.windowed.setTable hout hfD _ 0#32)
        (hpt.windowed.guard_set hout hpt.guard _ 0#32)
    have hap : Apart L v s (s.set (s.mem v (va / 4194304)).pt (va / 4096 % 1024) 0#32) :=
      h.logical.apart hDv (h.logical.onlyOf_table hv hi he) rfl fun g _ hgf =>
        s.set_mem_of_ne _ _ _ hgf
    exact (hpt'.close' windowFlags_write windowFlags_write hK hcur).relax.mono fun _ w hw =>
      ⟨_, by rw [if_pos he], hap, hw.1⟩
  · have hs' : (s.mem v (va / 4194304)).pgsz = true := by simpa using hs
    have hm2 : m = 2 := by
      unfold unmapWindows at hm
      rw [if_pos hs'] at hm
      omega
    subst hm2
    have hroom₀ : Room s (Function.update W p (windowPte (flagPresent ||| flagRw) (v * 4096))) 0 2 := by
      obtain ⟨ps, hlen, hsort, hps⟩ := hroom'
      exact ⟨ps, hlen, hsort, fun q hq => ⟨Nat.zero_le q, (hps q hq).2⟩⟩
    rw [if_pos hs'] at hd
    refine .bind (hd.pgunmapSplit hK hv hvc hva (hres' hs') hroom₀) ?_
    rintro _ u ⟨σ, hsteps, hap, hdσ⟩
    have hcurσ : v * 4096 ≠ σ.vmmCurrent := by rw [hap.vmmCurrent]; exact hcur
    refine (hdσ.close windowFlags_write hK hcurσ).relax.mono fun _ w hw => ⟨σ, ?_, hap, hw.1⟩
    rw [if_neg fun ht => ht.not_pgsz hs', if_pos hs']
    exact hsteps

/-- The directory `v` is left out. -/
theorem Windowed.drop (h : Windowed D L s s₁ W) (hvc : v ≠ s.cr3) :
    Windowed D (L \ {v}) s s₁ W where
  logical := h.logical.mono fun _ hw => hw.1
  actual := h.actual.mono fun _ hw => hw.1
  cur := ⟨h.cur, hvc.symm⟩
  rest := h.rest
  used := h.used
  leak := h.leak
  slot := h.slot
  pte := h.pte
  clear := h.clear
  frame := h.frame

/-- A page table of the user half of `v` may be freed as far as the others are concerned. -/
theorem Tables.free_table (h : Tables D L s) (hv : v ∈ L) {i : ℕ} (hi : i < 767)
    (ht : (s.mem v i).HasTable) : Tables D (L \ {v}) (s.setBitmap (s.mem v i).pt false) :=
  (h.mono (fun _ hw => hw.1)).free (h.notDir v hv i (by omega) (by omega) ht) fun w hw =>
    (h.onlyOf_table hv hi ht w hw.1 hw.2).2

/-- It comes back once its tables are well formed again. -/
theorem Windowed.undrop (h : Windowed D (L \ {v}) s s₁ W) (hs : Tables D L s) (hv : v ∈ L)
    (hvc : v ≠ s.cr3) : Windowed D L s s₁ W := by
  have hm : s₁.mem v = s.mem v := h.mem_dir (hs.sub hv) hvc
  -- a directory that is not `v` holds an entry of its own or one of a window's page table
  have apart : ∀ w ∈ L, w ≠ v → ∀ i < 1024, ∀ j < 1024, i ≠ 767 → j ≠ 767 → (s₁.mem w i).HasTable →
      (s.mem v j).HasTable → (s₁.mem w i).pt = (s.mem v j).pt → i = j ∧ 768 ≤ i := by
    intro w hw hwv i hi j hj hne hne' ht ht' heq
    have same : s₁.mem w i = s.mem w i → i = j ∧ 768 ≤ i := by
      intro hmw
      rw [hmw] at ht heq
      obtain ⟨hij, hwv' | hk⟩ := hs.sep w hw v hv i hi j hj hne hne' ht ht' heq
      · exact absurd hwv' hwv
      · exact ⟨hij, hk⟩
    by_cases hwc : w = s.cr3
    · subst hwc
      rcases h.slot i with hslot | ⟨-, -, -, hfree⟩
      · exact same hslot
      · rw [heq] at hfree
        exact absurd (hs.used v hv j hj hne' ht') hfree
    · exact same (congrFun (h.mem_dir (hs.sub hw) hwc) i)
  have split : ∀ {w}, w ∈ L → w ≠ v → w ∈ L \ {v} := fun hw hwv => ⟨hw, hwv⟩
  have actual : Tables D L s₁ := by
    constructor
    case frames => exact h.actual.frames
    case sub => exact hs.sub
    case dir => exact h.actual.dir
    case self =>
      intro w hw
      by_cases hwv : w = v
      · subst hwv
        have hself := hs.self w hv
        exact ⟨by rw [hm]; exact hself.present, by rw [hm]; exact hself.rw, by rw [hm]; exact hself.pgsz,
          by rw [hm]; exact hself.pt⟩
      · exact h.actual.self w (split hw hwv)
    case present =>
      intro w hw
      by_cases hwv : w = v
      · rw [hwv, hm]
        exact hs.present v hv
      · exact h.actual.present w (split hw hwv)
    case rw =>
      intro w hw
      by_cases hwv : w = v
      · rw [hwv, hm]
        exact hs.rw v hv
      · exact h.actual.rw w (split hw hwv)
    case used =>
      intro w hw i hi hne ht
      by_cases hwv : w = v
      · rw [hwv, hm] at ht ⊢
        exact h.used _ (hs.used v hv i hi hne ht)
      · exact h.actual.used w (split hw hwv) i hi hne ht
    case notDir =>
      intro w hw
      by_cases hwv : w = v
      · rw [hwv, hm]
        exact hs.notDir v hv
      · exact h.actual.notDir w (split hw hwv)
    case sep =>
      intro w hw w' hw' i hi j hj hne hne' ht ht' heq
      by_cases hwv : w = v
      · by_cases hwv' : w' = v
        · rw [hwv, hm] at ht heq
          rw [hwv', hm] at ht' heq
          exact ⟨(hs.sep v hv v hv i hi j hj hne hne' ht ht' heq).1, .inl (hwv.trans hwv'.symm)⟩
        · rw [hwv, hm] at ht heq
          obtain ⟨hij, hk⟩ := apart w' hw' hwv' j hj i hi hne' hne ht' ht heq.symm
          exact ⟨hij.symm, .inr (hij ▸ hk)⟩
      · by_cases hwv' : w' = v
        · rw [hwv', hm] at ht' heq
          obtain ⟨hij, hk⟩ := apart w hw hwv i hi j hj hne hne' ht ht' heq
          exact ⟨hij, .inr hk⟩
        · exact h.actual.sep w (split hw hwv) w' (split hw' hwv') i hi j hj hne hne' ht ht' heq
  exact ⟨hs, actual, h.cur.1, h.rest, h.used, h.leak, h.slot, h.pte, h.clear, h.frame⟩

/-- `vmm_pgunmap_huge` on another VMM, when it resolves no copy-on-write. -/
theorem Windowed.vmmPgunmapHuge_foreign (h : Windowed D L s s₁ W) (hK : K.Closed) (hv : v ∈ L)
    (hvc : v ≠ s.cr3) (hva : va < kernelStart)
    (hres : (s.mem v (va / 4194304)).HasTable → ∀ i < 1024,
      (s.mem (s.mem v (va / 4194304)).pt i).trapped = true → ¬ HasCow s (v * 4096) (va ||| i * 4096))
    (hres' : (s.mem v (va / 4194304)).pgsz = true → (s.mem v (va / 4194304)).trapped = true →
      ¬ HasCow s (v * 4096) va)
    (hg : Guard ok s s₁ (n + 2))
    (hroom : Room s W 0 (walkWindows (s.mem v (va / 4194304)))) :
    Comp.Wp False (vmmPgunmapHuge K (v * 4096) va)
      (fun _ t => Windowed D L (releaseAt s v (va / 4194304) 0#32) t W) s₁ := by
  have hcur : v * 4096 ≠ s.vmmCurrent := fun e => hvc (by rw [Machine.cr3, ← e]; omega)
  have hDv := h.logical.sub hv
  have hlt := (h.logical.dir v hDv).2
  have hi := slot_of_lt hva
  have hoff := offSlot_of_lt hva
  unfold vmmPgunmapHuge
  refine .bind (h.openPd_foreign windowFlags_write hK hcur hg hroom).relax ?_
  rintro a t ⟨p, ha, ho, hg', hroom'⟩
  have hd : PdOpen ok D L s W (flagPresent ||| flagRw) v (n + 1) p t :=
    ⟨ho.free.1, ho.free.2.1, ho.free.2.2.1, ho.windowed, hg'⟩
  have hmem : t.mem v (va / 4194304) = s.mem v (va / 4194304) := hd.windowed.mem_aside hDv (.inl hvc)
  rw [ha, if_neg ho.free.addr_ne_zero]
  refine .step ((hd.pageAt windowFlags_write hlt false (by simp)).load (by omega)) ?_
  rw [hmem]
  refine .ite (fun h0 => ?_) fun h0 => ?_
  · refine (hd.close windowFlags_write hK hcur).relax.mono fun _ u hu => ?_
    have hsame : releaseAt s v (va / 4194304) 0#32 = s := by
      unfold releaseAt
      rw [h0, if_neg Word.not_hasTable_zero, ← h0, Machine.set_eq_self]
    rw [hsame]
    exact hu.1
  have hrelease := h.logical.release hv (by omega) (by omega) (fun h768 => by omega) (i := va / 4194304)
    Word.not_hasTable_zero
  -- what remains once the traps are dealt with
  have finish : ∀ σ u, v ≠ σ.cr3 → v * 4096 ≠ σ.vmmCurrent →
      σ.set v (va / 4194304) 0#32 = releaseAt s v (va / 4194304) 0#32 →
      PdOpen ok D (L \ {v}) σ W (flagPresent ||| flagRw) v n p u →
      Comp.Wp False (do
        store (p * 4096 + 4 * (va / 4194304)) 0#32
        closeWin K (v * 4096) (p * 4096))
        (fun _ t => Windowed D L (releaseAt s v (va / 4194304) 0#32) t W) u := by
    intro σ u hvσ hcurσ hset' hdu
    refine .step ((hdu.pageAt windowFlags_write hlt true fun _ => rfl).store (by omega) 0#32) ?_
    have hset := hdu.setPde hDv hvσ (i := va / 4194304) (by omega) Word.not_hasTable_zero
    refine (hset.close windowFlags_write hK hcurσ).relax.mono fun _ w hw => ?_
    exact (hset' ▸ hw.1).undrop hrelease hv (by rwa [Machine.cr3, releaseAt_vmmCurrent])
  cases hs : (s.mem v (va / 4194304)).pgsz with
  | true =>
    rw [if_neg (by decide)]
    have hcow : HasCow t (v * 4096) va ↔ HasCow s (v * 4096) va := by
      rw [hd.windowed.rest]
      rfl
    refine .bind (resolve_none fun ht => fun hc => hres' hs ht (hcow.mp hc)) fun _ u hu => ?_
    subst hu
    refine finish s u hvc hcur ?_ ⟨hd.pos, hd.user, hd.zero, hd.windowed.drop hvc,
      hd.guard.mono (Nat.le_succ n)⟩
    rw [releaseAt, if_neg fun ht => ht.not_pgsz hs]
  | false =>
    have he : (s.mem v (va / 4194304)).HasTable := ⟨h0, hs⟩
    rw [if_pos rfl]
    rw [if_pos he] at hroom'
    refine .bind (Windowed.openPt_pdOpen hd windowFlags_write windowFlags_read hK hv hcur (by omega)
      hmem hroom').relax ?_
    rintro a' u ⟨r, ha', hpt⟩
    rw [ha']
    have hfm := hpt.windowed.mem_table hv hoff.lt hoff.2 (.inl hvc) he
    have hpage := hpt.pageAt' windowFlags_read (Word.pt_lt _) false (by simp)
    refine .bind (Comp.Wp.forRange (J := fun _ x => x = u) (fun i _ hi' x hx => ?_) rfl) fun _ x hx => ?_
    · subst hx
      refine .step (hpage.load (by omega)) ?_
      rw [hfm]
      have hcow : HasCow x (v * 4096) (va ||| i * 4096) ↔ HasCow s (v * 4096) (va ||| i * 4096) := by
        rw [hpt.windowed.rest]
        rfl
      exact resolve_none fun ht => fun hc => hres he i (by omega) ht (hcow.mp hc)
    · subst hx
      have hmx : x.mem v (va / 4194304) = s.mem v (va / 4194304) :=
        hpt.windowed.mem_aside hDv (.inl hvc)
      refine .step ((hpt.pageAt windowFlags_write hlt false (by simp)).load (by omega)) ?_
      rw [hmx]
      refine .step (t := x.setBitmap (s.mem v (va / 4194304)).pt false) rfl ?_
      have hfree := (hpt.windowed.drop hvc).free (h.logical.free_table hv hi he)
        (hmx ▸ hpt.windowed.actual.free_table hv hi (hmx.symm ▸ he))
      have hgu := hpt.guard.free (s.mem v (va / 4194304)).pt
      refine .bind (hfree.closeWin_foreign hK hcur ?_ ?_ hgu).relax fun _ w hw => ?_
      · rw [Function.update_self]
        exact windowFlags_read.windowPte_ne_zero _
      · rw [Function.update_self]
        exact (windowPte_trapped _ _).trans windowFlags_read.trapped
      · rw [update_update_cancel] at hw
        · refine finish (s.setBitmap (s.mem v (va / 4194304)).pt false) w hvc hcur ?_
            ⟨hpt.pos, hpt.lt.trans hpt.user, hpt.zero, hw.1, hw.2⟩
          rw [releaseAt, if_pos he]
        · rw [Function.update_of_ne (Nat.ne_of_gt hpt.lt)]
          exact hpt.zero'

end Foreign

end SysX
