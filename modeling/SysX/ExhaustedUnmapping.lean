import SysX.ExhaustedMapping

/-!
`vmm_pgunmap_small` with a count of the frames it takes. Unmapping a part of a 4 MiB page maps the rest of it again, with the
first call that does so asking for the page table.
-/
namespace SysX

/-- What `vmm_pgunmap_small` asks for on another VMM, with `e` in the directory and `ps` free for windows. -/
def unmapRequests (e : Word) (spread : Bool) : List ℕ → List Request
  | [] => []
  | p :: ps => .window p :: if e.pgsz then mapRequests 0#32 spread ps
      else if e.HasTable then (ps.take 1).map .window else []

/-- Unmapping a page resolves no copy-on-write. -/
structure NoCowLeft (s : Machine) (v va : ℕ) : Prop where
  small : (pteAt s.mem v (va / 4096)).trapped = true → ¬ HasCow s (v * 4096) va
  huge : (s.mem v (va / 4194304)).trapped = true → ¬ HasCow s (v * 4096) (va / 4194304 * 4194304)
  unlocked : s.vmmTrapsMutex = false

section Split

variable {v va j : ℕ} {s : Machine}

/-- The pages that are mapped again lie in the same slot. -/
theorem split_slot (hj : j < 1024) : (va - va % 4194304 + j * 4096) / 4194304 = va / 4194304 := by omega

theorem split_offSlot (hva : OffSlot va) (hj : j < 1024) : OffSlot (va - va % 4194304 + j * 4096) := by
  obtain ⟨hlt, hne⟩ := hva
  exact ⟨by omega, by rw [split_slot hj]; exact hne⟩

theorem propagates_split (hj : j < 1024) : propagates s (va - va % 4194304 + j * 4096) = propagates s va := by
  unfold propagates kernelStart rmapStart
  congr 1
  rw [decide_eq_decide]
  omega

/-- What comes of the first of them comes of the whole. -/
theorem split_const {P : Prop} {g : ℕ → Kernel Unit} (pass : ∀ j < 1024, Comp.Wp False (g j) (fun _ _ => P) s) :
    Comp.Wp False (Comp.forRange (fun j => Comp.when (va - va % 4194304 + j * 4096 ≠ va) (g j)) 1024 0)
      (fun _ _ => P) s := by
  rw [show 1024 = 1022 + 1 + 1 from rfl, Comp.forRange_succ]
  by_cases h0 : va - va % 4194304 + 0 * 4096 ≠ va
  · rw [Comp.when_true h0]
    exact .bind (pass 0 (by decide)) fun _ _ hb => .const hb
  · rw [Comp.when_false h0, Comp.pure_bind, Comp.forRange_succ, Comp.when_true (by omega)]
    exact .bind (pass 1 (by decide)) fun _ _ hb => .const hb

end Split

section Bound

variable {D L : Set ℕ} {s s₀ t : Machine} {W : ℕ → Word} {K : Callees} {seen ps : List ℕ} {k p v va n : ℕ}

theorem split_resolve {e : Word} {vmm : ℕ} (h : Windowed D L s t W) (hres : e.trapped = true → ¬ HasCow s vmm va)
    (hlock : s.vmmTrapsMutex = false) : Comp.when e.trapped (vmmUnmapResolveCow K vmm va 1) t = some ((), t) := by
  cases ht : e.trapped with
  | false => rw [Comp.when_false Bool.false_ne_true]; rfl
  | true =>
    rw [Comp.when_true rfl]
    refine vmmUnmapResolveCow_free (fun hc => hres ht ?_) ?_
    · rw [h.rest] at hc
      exact hc
    · rw [h.rest]
      exact hlock

/-- The 4 MiB page is cleared. -/
theorem PdOpen.split_start {ok : Prop} (hd : PdOpen ok D L s W (flagPresent ||| flagRw) v n p t)
    (hst : Stock s₀ t seen k) (hcr : s.cr3 = s₀.cr3)
    (hps : FreeList s (Function.update W p (windowPte (flagPresent ||| flagRw) (v * 4096))) ps) (hv : v ∈ L)
    (hvc : v ≠ s.cr3) (hva : OffSlot va) (hcow : NoCowLeft s v va) {c : Kernel Unit} :
    PdOpen ok D L (s.set v (va / 4194304) 0#32) W (flagPresent ||| flagRw) v n p (t.set v (va / 4194304) 0#32) ∧
    Stock s₀ (t.set v (va / 4194304) 0#32) seen k ∧
    FreeList (s.set v (va / 4194304) 0#32) (Function.update W p (windowPte (flagPresent ||| flagRw) (v * 4096))) ps ∧
    (do
      Comp.when (Word.trapped (s.mem v (va / 4194304)))
        (vmmUnmapResolveCow K (v * 4096) (va / 4194304 * 4194304) 1)
      store (p * 4096 + 4 * (va / 4194304)) 0#32
      c) t = c (t.set v (va / 4194304) 0#32) := by
  have hDv := hd.windowed.logical.sub hv
  have hlt := (hd.windowed.logical.dir v hDv).2
  refine ⟨hd.setPde hDv hvc hva.2 Word.not_hasTable_zero, hst.step rfl fun j _ => ?_, hps.congr fun q hq => ?_, ?_⟩
  · rw [← hcr, Machine.set_mem_of_ne _ _ _ _ (Ne.symm hvc)]
  · exact hd.windowed.logical.view_setAside hd.windowed.cur hDv (.inl hvc) _ hq
  · rw [Comp.bind_of_eq (split_resolve hd.windowed hcow.huge hcow.unlocked),
      Comp.bind_of_eq ((hd.pageAt windowFlags_write hlt true fun _ => rfl).store hva.lt 0#32)]

theorem PdOpen.pgunmapSplit_bound (hd : PdOpen False D L s W (flagPresent ||| flagRw) v n p t) (hK : K.Closed)
    (hst : Stock s₀ t seen k) (hcr : s.cr3 = s₀.cr3)
    (hps : FreeList s (Function.update W p (windowPte (flagPresent ||| flagRw) (v * 4096))) ps) (hv : v ∈ L)
    (hvc : v ≠ s.cr3) (hva : OffSlot va) (hcow : NoCowLeft s v va) :
    Comp.Wp False (SysX.pgunmapSplit K (v * 4096) (p * 4096) va (s.mem v (va / 4194304)))
      (fun _ _ => k + framesFor s₀ seen (mapRequests 0#32 (propagates s va) ps) ≤ (freeFrames s₀).length) t := by
  unfold SysX.pgunmapSplit
  dsimp only
  obtain ⟨hd₀, hst₀, hps₀, hrun⟩ := hd.split_start (K := K) hst hcr hps hv hvc hva hcow (c := Comp.forRange (fun i =>
    Comp.when (va - va % 4194304 + i * 4096 ≠ va) (vmmPgmapSmall K (v * 4096)
      ((s.mem v (va / 4194304)).psePa * 4194304 + i * 4096) (va - va % 4194304 + i * 4096)
      (s.mem v (va / 4194304)).mapFlags)) 1024 0)
  refine .congr hrun ?_
  have hself : (s.set v (va / 4194304) 0#32).mem v (va / 4194304) = 0#32 := Machine.set_mem_self _ _ _ _
  have pass : ∀ j < 1024, Comp.Wp False (vmmPgmapSmall K (v * 4096)
      ((s.mem v (va / 4194304)).psePa * 4194304 + j * 4096) (va - va % 4194304 + j * 4096)
      (s.mem v (va / 4194304)).mapFlags) (fun _ _ =>
        k + framesFor s₀ seen (mapRequests 0#32 (propagates s va) ps) ≤ (freeFrames s₀).length)
      (t.set v (va / 4194304) 0#32) := by
    intro j hj
    have hbound := hd₀.windowed.vmmPgmapSmall_bound hK hst₀ hcr (hd₀.guard.null id) hps₀ hv hvc (split_offSlot hva hj)
      ((s.mem v (va / 4194304)).psePa * 4194304 + j * 4096) (s.mem v (va / 4194304)).mapFlags
    rw [split_slot hj, hself, propagates_split hj] at hbound
    exact hbound
  exact split_const pass

theorem Windowed.vmmPgunmapSmall_bound (h : Windowed D L s t W) (hK : K.Closed) (hst : Stock s₀ t seen k)
    (hcr : s.cr3 = s₀.cr3) (hn : NullGuard s) (hps : FreeList s W ps) (hv : v ∈ L) (hvc : v ≠ s.cr3) (hva : OffSlot va)
    (hcow : NoCowLeft s v va) : Comp.Wp False (vmmPgunmapSmall K (v * 4096) va)
      (fun _ _ => k + framesFor s₀ seen (unmapRequests (s.mem v (va / 4194304)) (propagates s va) ps) ≤
        (freeFrames s₀).length) t := by
  have hcur : v * 4096 ≠ s.vmmCurrent := fun e => hvc (by rw [Machine.cr3, ← e]; omega)
  have hDv := h.logical.sub hv
  have hlt := (h.logical.dir v hDv).2
  unfold vmmPgunmapSmall
  refine .bind (h.openPd_stock windowFlags_write hK hst hcr hn hps hcur).relax fun a u ho => ?_
  cases ps with
  | nil => exact .const hst.le
  | cons p ps =>
    obtain ⟨rfl, hw, hst₁⟩ := ho
    have hp := hps.head
    have hps₁ := hps.open (windowFlags_write.windowPte_ne_zero (v * 4096))
    have hlow : ∀ r ∈ ps, p < r := (List.pairwise_cons.mp hps.sorted).1
    have hd : PdOpen False D L s W (flagPresent ||| flagRw) v 0 p u :=
      ⟨hp.1, hp.2.1, hp.2.2.1, hw, fun ho => ho.elim, fun _ => hn⟩
    have hm : u.mem v (va / 4194304) = s.mem v (va / 4194304) := hw.mem_aside hDv (.inl hvc)
    rw [if_neg hp.addr_ne_zero]
    refine .step ((hd.pageAt windowFlags_write hlt false (by simp)).load hva.lt) ?_
    rw [hm]
    simp only [unmapRequests, framesFor]
    rw [← Nat.add_assoc]
    refine .ite (fun he => ?_) fun he => .ite (fun hs => ?_) fun hs => ?_
    · rw [he]
      exact .const hst₁.le
    · have hopen := hw.openPt_stock windowFlags_write hK hst₁ hcr hn hps₁ hcur hp.2.1
        (hd.pageAt windowFlags_write hlt false (by simp)) hva.lt hlow
      rw [hs, if_neg Bool.false_ne_true, if_pos (show (s.mem v (va / 4194304)).HasTable from ⟨he, hs⟩)]
      exact .bind hopen.relax fun a' u' ho => .const (ho.bound hst₁)
    · rw [if_pos (Bool.eq_true_of_not_eq_false hs)]
      exact .bind (hd.pgunmapSplit_bound hK hst₁ hcr hps₁ hv hvc hva hcow) fun _ _ hb => .const hb

end Bound

section Own

variable {D L : Set ℕ} {s s₀ : Machine} {K : Callees} {seen ps : List ℕ} {k va : ℕ}

/-- On the current VMM only a 4 MiB page asks for anything. -/
def ownUnmapRequests (e : Word) (spread : Bool) (ps : List ℕ) : List Request :=
  if e.pgsz then ownRequests 0#32 spread ps else []

theorem vmmPgunmapSmall_own_bound (h : Tables D L s) (hc : s.cr3 ∈ L) (hal : s.vmmCurrent = s.cr3 * 4096) (hK : K.Closed)
    (hst : Stock s₀ s seen k) (hcr : s.cr3 = s₀.cr3) (hn : NullGuard s) (hps : FreeList s (fun _ => 0#32) ps)
    (hva : OffSlot va) (hcow : NoCowLeft s s.cr3 va) : Comp.Wp False (vmmPgunmapSmall K s.vmmCurrent va)
      (fun _ _ => k + framesFor s₀ seen (ownUnmapRequests (s.mem s.cr3 (va / 4194304)) (propagates s va) ps) ≤
        (freeFrames s₀).length) s := by
  have hDc := h.sub hc
  unfold vmmPgunmapSmall ownUnmapRequests
  refine .step (openPd_cur rfl _) ?_
  rw [if_neg vmmPd_ne_zero]
  refine .step ((h.pageAt_pd hc false).load hva.lt) (.ite (fun he => ?_) fun he => .ite (fun hs => ?_) fun hs => ?_)
  · rw [he]
    exact .const hst.le
  · rw [hs]
    exact .const hst.le
  have hpse := Bool.eq_true_of_not_eq_false hs
  rw [if_pos hpse]
  have hno : ¬ (s.mem s.cr3 (va / 4194304)).HasTable := fun ht => absurd ht.2 hs
  have hi0 : va / 4194304 ≠ 0 := fun h0 => hno (h0 ▸ hn.table)
  set σ := s.set s.cr3 (va / 4194304) 0#32 with hσ
  have hself : σ.mem s.cr3 (va / 4194304) = 0#32 := Machine.set_mem_self _ _ _ _
  have hother : ∀ j, j ≠ va / 4194304 → σ.mem s.cr3 j = s.mem s.cr3 j :=
    fun j hj => s.set_mem_of_ne_index _ _ _ _ hj
  have htσ : Tables D L σ := h.setPde hva.2 (.of_not_hasTable Word.not_hasTable_zero)
  have hnσ : NullGuard σ := hn.set _ (fun _ => hi0) (h.pt_ne hc hDc (by decide) (by decide) hn.table).symm
  have hstσ : Stock s₀ σ seen k := by
    refine hst.step rfl fun j _ => ?_
    rw [← hcr]
    by_cases hj : j = va / 4194304
    · rw [hj, hself]
      exact iff_of_false Word.not_hasTable_zero hno
    · rw [hother j hj]
  have hpsσ : propagates s va = true → FreeList σ (fun _ => 0#32) ps := fun hsp =>
    hps.congr fun q hq => h.view_setAside hc hDc (.inr (slot_of_propagates hsp hva)) _ hq
  have pass : ∀ j < 1024, Comp.Wp False (vmmPgmapSmall K s.vmmCurrent
      ((s.mem s.cr3 (va / 4194304)).psePa * 4194304 + j * 4096) (va - va % 4194304 + j * 4096)
      (s.mem s.cr3 (va / 4194304)).mapFlags) (fun _ _ =>
        k + framesFor s₀ seen (ownRequests 0#32 (propagates s va) ps) ≤ (freeFrames s₀).length) σ := by
    intro j hj
    have hsame : propagates σ (va - va % 4194304 + j * 4096) = propagates s va := propagates_split hj
    have hbound := vmmPgmapSmall_own_bound htσ hc hK hstσ hcr hnσ (by rw [hsame]; exact hpsσ) (split_offSlot hva hj)
      ((s.mem s.cr3 (va / 4194304)).psePa * 4194304 + j * 4096) (s.mem s.cr3 (va / 4194304)).mapFlags
    rw [split_slot hj, hsame, show σ.cr3 = s.cr3 from rfl, hself] at hbound
    exact hbound
  have hresolve := split_resolve (K := K) (Windowed.refl h hc) hcow.huge hcow.unlocked
  rw [← hal] at hresolve
  refine .bind ?_ fun _ _ hb => .const hb
  unfold pgunmapSplit
  exact .step hresolve (.step ((h.pageAt_pd hc true).store hva.lt 0#32) (split_const pass))

end Own

section Refused

variable {D L : Set ℕ} {s s₀ t : Machine} {W : ℕ → Word} {K : Callees} {seen : List ℕ} {k p r v va n : ℕ}

theorem Windowed.vmmPgunmapSmall_refused_table (h : Windowed D L s t W) (hK : K.Closed) (hst : Stock s₀ t seen k)
    (hcr : s.cr3 = s₀.cr3) (hn : NullGuard s) (hps : FreeList s W [p]) (hv : v ∈ L) (hvc : v ≠ s.cr3) (hva : OffSlot va)
    (he : (s.mem v (va / 4194304)).HasTable) :
    Comp.Wp (k + windowCost s₀ seen p ≤ (freeFrames s₀).length) (vmmPgunmapSmall K (v * 4096) va)
      (fun _ u => Windowed D L s u W) t := by
  have hcur : v * 4096 ≠ s.vmmCurrent := fun e => hvc (by rw [Machine.cr3, ← e]; omega)
  have hp := hps.head
  unfold vmmPgunmapSmall
  refine h.first_window windowFlags_write hK hst hcr hn hps hv hvc hva id fun u hpd hw hst₁ => ?_
  rw [if_neg he.1, if_pos he.2]
  exact hw.openPt_refused hK hst₁ hcr hn (hps.open (windowFlags_write.windowPte_ne_zero _)) hp.2.1 hp.2.2.1 hcur hpd
    hva.lt fun u hw _ => hw

/-- The frame `f` has become the page table of a slot that was cleared before. -/
def staleTableAt (s : Machine) (v i f : ℕ) : Machine :=
  ((s.set v i 0#32).setBitmap f true).set v i (newTableEntry 0#32 f)

/-- The rest of a 4 MiB page, when no window is left for the page table: it is in place with what its frame held before. -/
def SplitStale (D L : Set ℕ) (s₀ s : Machine) (W : ℕ → Word) (seen : List ℕ) (m v i : ℕ) (u : Machine) : Prop :=
  ∃ f k, (freeFrames s₀)[m]? = some f ∧ f < 1048576 ∧ ¬ used s f ∧ Stock s₀ u seen k ∧
    Windowed D L (staleTableAt s v i f) u W

/-- The first page that is mapped again leaves the page table in place. -/
theorem Windowed.splitStale_first (h : Windowed D L (s.set v (va / 4194304) 0#32) t W) (hK : K.Closed)
    (hst : Stock s₀ t seen k) (hcr : s.cr3 = s₀.cr3) (hn : NullGuard (s.set v (va / 4194304) 0#32))
    (hps : FreeList (s.set v (va / 4194304) 0#32) W [r]) (hv : v ∈ L) (hvc : v ≠ s.cr3) (hva : OffSlot va) (pa : ℕ)
    (flags : Word) :
    Comp.Wp (k + windowCost s₀ seen r + 1 ≤ (freeFrames s₀).length) (vmmPgmapSmall K (v * 4096) pa va flags)
      (fun _ u => SplitStale D L s₀ s W (r / 1024 :: seen) (k + windowCost s₀ seen r) v (va / 4194304) u) t := by
  have hself : (s.set v (va / 4194304) 0#32).mem v (va / 4194304) = 0#32 := Machine.set_mem_self _ _ _ _
  have hnew := h.vmmPgmapSmall_refused_new hK hst hcr hn hps hv hvc hva
    (by rw [hself]; exact Word.not_hasTable_zero) pa flags
  rw [hself] at hnew
  exact hnew.mono fun _ u ⟨f, hf, hf', hfree, hw, hst'⟩ => ⟨f, _, hf, hf', hfree, hst', hw⟩

/-- Each further page finds the page table and no window for it. -/
theorem SplitStale.next {m : ℕ} (h : SplitStale D L s₀ s W (r / 1024 :: seen) m v (va / 4194304) t) (hK : K.Closed)
    (hcr : s.cr3 = s₀.cr3) (hn : NullGuard (s.set v (va / 4194304) 0#32))
    (hps : FreeList (s.set v (va / 4194304) 0#32) W [r]) (ht : Tables D L (s.set v (va / 4194304) 0#32)) (hc : s.cr3 ∈ L)
    (hv : v ∈ L) (hvc : v ≠ s.cr3) (hva : OffSlot va) (pa : ℕ) (flags : Word) :
    Comp.Wp True (vmmPgmapSmall K (v * 4096) pa va flags)
      (fun _ u => SplitStale D L s₀ s W (r / 1024 :: seen) m v (va / 4194304) u) t := by
  obtain ⟨f, k, hf, hf', hfree, hst, hw⟩ := h
  have hDv := ht.sub hv
  have hmem : (staleTableAt s v (va / 4194304) f).mem v (va / 4194304) = newTableEntry 0#32 f :=
    Machine.set_mem_self _ _ _ _
  have hcost : windowCost s₀ (r / 1024 :: seen) r = 0 := if_pos (.inr List.mem_cons_self)
  have hna : NullGuard ((s.set v (va / 4194304) 0#32).setBitmap f true) := ⟨hn.table, hn.pte⟩
  have hnf : NullGuard (staleTableAt s v (va / 4194304) f) :=
    hna.set _ (fun e => absurd e hvc) fun e => ht.pt_ne hc hDv (by decide) (by decide) hn.table e.symm
  have hpsf : FreeList (staleTableAt s v (va / 4194304) f) W [r] :=
    hps.congr fun q hq => (ht.alloc f).view_setAside hc hDv (.inl hvc) _ hq
  have htab := hw.vmmPgmapSmall_refused_table hK hst hcr hnf hpsf hv hvc hva
    (by rw [hmem]; exact newTableEntry_hasTable _ f) pa flags
  rw [hcost, Nat.add_zero] at htab
  exact htab.weaken (fun _ => hst.le) fun _ u ⟨hw', hst'⟩ =>
    ⟨f, k, hf, hf', hfree, hst'.congr fun x => by simp, hw'⟩

theorem PdOpen.pgunmapSplit_refused (hd : PdOpen True D L s W (flagPresent ||| flagRw) v 0 p t) (hK : K.Closed)
    (hst : Stock s₀ t seen k) (hcr : s.cr3 = s₀.cr3) (hn : NullGuard s)
    (hps : FreeList s (Function.update W p (windowPte (flagPresent ||| flagRw) (v * 4096))) [r]) (hv : v ∈ L)
    (hvc : v ≠ s.cr3) (hva : OffSlot va) (hcow : NoCowLeft s v va) :
    Comp.Wp (k + windowCost s₀ seen r + 1 ≤ (freeFrames s₀).length)
      (SysX.pgunmapSplit K (v * 4096) (p * 4096) va (s.mem v (va / 4194304)))
      (fun _ u => SplitStale D L s₀ s (Function.update W p (windowPte (flagPresent ||| flagRw) (v * 4096)))
        (r / 1024 :: seen) (k + windowCost s₀ seen r) v (va / 4194304) u) t := by
  unfold SysX.pgunmapSplit
  dsimp only
  obtain ⟨hd₀, hst₀, hps₀, hrun⟩ := hd.split_start (K := K) hst hcr hps hv hvc hva hcow (c := Comp.forRange (fun i =>
    Comp.when (va - va % 4194304 + i * 4096 ≠ va) (vmmPgmapSmall K (v * 4096)
      ((s.mem v (va / 4194304)).psePa * 4194304 + i * 4096) (va - va % 4194304 + i * 4096)
      (s.mem v (va / 4194304)).mapFlags)) 1024 0)
  have hDv := hd.windowed.logical.sub hv
  have hnσ : NullGuard (s.set v (va / 4194304) 0#32) := hn.set _ (fun e => absurd e hvc) fun e =>
    hd.windowed.logical.pt_ne hd.windowed.cur hDv (by decide) (by decide) hn.table e.symm
  -- the first page that is mapped again
  obtain ⟨j₀, hj₀, hfirst, hskip⟩ : ∃ j₀ < 1024, va - va % 4194304 + j₀ * 4096 ≠ va ∧
      ∀ j < j₀, ¬ va - va % 4194304 + j * 4096 ≠ va := by
    by_cases h0 : va - va % 4194304 = va
    · exact ⟨1, by decide, by omega, fun j hj => by omega⟩
    · exact ⟨0, by decide, by omega, nofun⟩
  refine .congr hrun ((Comp.Wp.forRange (J := fun j u => (j ≤ j₀ ∧ u = t.set v (va / 4194304) 0#32) ∨
    (j₀ < j ∧ SplitStale D L s₀ s (Function.update W p (windowPte (flagPresent ||| flagRw) (v * 4096)))
      (r / 1024 :: seen) (k + windowCost s₀ seen r) v (va / 4194304) u))
    (fun j _ hj u hu => ?_) (.inl ⟨Nat.zero_le _, rfl⟩)).mono fun _ u hu => ?_)
  · have hj' : j < 1024 := by omega
    have hslot : (va - va % 4194304 + j * 4096) / 4194304 = va / 4194304 := split_slot hj'
    rcases hu with ⟨hle, rfl⟩ | ⟨hlt, hu⟩
    · rcases Nat.lt_or_eq_of_le hle with hlt | rfl
      · rw [Comp.when_false (hskip j hlt)]
        exact .pure (.inl ⟨hlt, rfl⟩)
      · rw [Comp.when_true hfirst]
        rw [← hslot] at hd₀ hst₀ hps₀ hnσ
        have hnew := hd₀.windowed.splitStale_first hK hst₀ hcr hnσ hps₀ hv hvc (split_offSlot hva hj')
          ((s.mem v (va / 4194304)).psePa * 4194304 + j * 4096) (s.mem v (va / 4194304)).mapFlags
        rw [hslot] at hnew
        exact hnew.mono fun _ w hw => .inr ⟨Nat.lt_succ_self j, hw⟩
    · refine .when (fun _ => ?_) fun _ => .inr ⟨Nat.lt_succ_of_lt hlt, hu⟩
      rw [← hslot] at hu hd₀ hps₀ hnσ
      have hnext := hu.next hK hcr hnσ hps₀ hd₀.windowed.logical hd₀.windowed.cur hv hvc (split_offSlot hva hj')
        ((s.mem v (va / 4194304)).psePa * 4194304 + j * 4096) (s.mem v (va / 4194304)).mapFlags
      rw [hslot] at hnext
      exact hnext.weaken (fun _ => trivial) fun _ w hw => .inr ⟨Nat.lt_succ_of_lt hlt, hw⟩
  · rcases hu with ⟨hle, -⟩ | ⟨-, hu⟩
    · omega
    · exact hu

theorem Windowed.vmmPgunmapSmall_refused_split (h : Windowed D L s t W) (hK : K.Closed) (hst : Stock s₀ t seen k)
    (hcr : s.cr3 = s₀.cr3) (hn : NullGuard s) (hps : FreeList s W [p, r]) (hv : v ∈ L) (hvc : v ≠ s.cr3)
    (hva : OffSlot va) (hcow : NoCowLeft s v va) (he : (s.mem v (va / 4194304)).pgsz = true) :
    Comp.Wp (k + windowCost s₀ seen p + windowCost s₀ (p / 1024 :: seen) r + 1 ≤ (freeFrames s₀).length)
      (vmmPgunmapSmall K (v * 4096) va)
      (fun _ u => ∃ f, (freeFrames s₀)[k + windowCost s₀ seen p + windowCost s₀ (p / 1024 :: seen) r]? = some f ∧
        f < 1048576 ∧ ¬ SysX.used s f ∧ Windowed D L (staleTableAt s v (va / 4194304) f) u W) t := by
  have hcur : v * 4096 ≠ s.vmmCurrent := fun e => hvc (by rw [Machine.cr3, ← e]; omega)
  have hp := hps.head
  unfold vmmPgunmapSmall
  refine h.first_window windowFlags_write hK hst hcr hn hps hv hvc hva (by omega) fun u hpd hw hst₁ => ?_
  have hd : PdOpen True D L s W (flagPresent ||| flagRw) v 0 p u :=
    ⟨hp.1, hp.2.1, hp.2.2.1, hw, fun _ => ⟨[], rfl, List.nodup_nil, by simp⟩, fun hno => absurd trivial hno⟩
  rw [if_neg (Word.ne_zero_of_pgsz he), if_neg (by simp [he])]
  refine .bind (hd.pgunmapSplit_refused hK hst₁ hcr hn (hps.open (windowFlags_write.windowPte_ne_zero _)) hv hvc hva hcow) ?_
  rintro _ u ⟨f, k', hf, hf', hfree, hst', hw'⟩
  obtain ⟨u', hrun, hw'', -⟩ := hw'.close_only hK hst' hcr hp.2.2.1 hcur
  exact .of_eq hrun ⟨f, hf, hf', hfree, hw''⟩

end Refused

end SysX
