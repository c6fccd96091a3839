import SysX.Exhaustion

/-!
`vmm_pgmap_small` with a count of the frames it takes. A run that returns had them all: without a frame the code goes on with a
null page table.
-/
namespace SysX

/-- What `vmm_pgmap_small` asks for on the current VMM, with `e` in the directory and `ps` free for windows: a page table where
there is none, and the window to copy its entry through. -/
def ownRequests (e : Word) (spread : Bool) (ps : List ℕ) : List Request :=
  if e.HasTable then [] else .table :: (ps.take (if spread then 1 else 0)).map .window

/-- On another VMM the directory and the page table need windows too. -/
def mapRequests (e : Word) (spread : Bool) : List ℕ → List Request
  | [] => []
  | p :: ps => .window p :: if e.HasTable then (ps.take 1).map .window
      else .table :: (ps.take (if spread then 2 else 1)).map .window

section Bound

variable {D L : Set ℕ} {s s₀ t u : Machine} {W : ℕ → Word} {K : Callees} {seen ps : List ℕ}
  {k p a g v f pa va : ℕ} {fs : List ℕ} {flags fl : Word}

theorem OpensFirst.bound (h : OpensFirst D L s₀ s t W seen k g fl ps a u) (hst : Stock s₀ t seen k) :
    k + firstCost s₀ seen ps ≤ (freeFrames s₀).length := by
  cases ps with
  | nil => exact hst.le
  | cons p ps => exact h.2.2.le

theorem framesFor_two (s : Machine) (seen : List ℕ) (r : ℕ) (rs : List ℕ) :
    framesFor s seen (((r :: rs).take 2).map .window) = windowCost s seen r + firstCost s (r / 1024 :: seen) rs := rfl

theorem freeFrames_one (h : freeFrames t = f :: fs) : FreeFrames t 1 := by
  refine ⟨[f], rfl, List.nodup_singleton f, fun g hg => ?_⟩
  rw [List.mem_singleton.mp hg]
  exact mem_freeFrames.mp (by rw [h]; exact List.mem_cons_self)

/-- The window through which a new entry is copied. -/
theorem Windowed.propagatePde_bound {q : ℕ} (h : Windowed D L s t W) (hK : K.Closed) (hst : Stock s₀ t seen k)
    (hcr : s.cr3 = s₀.cr3) (hn : NullGuard s) (hps : FreeList s W ps) (hq : q < 1048576) (hqp : ∀ r ∈ ps, q ≤ r)
    (vmm entry i : ℕ) : Comp.Wp False (SysX.propagatePde K vmm (q * 4096) entry i)
      (fun _ _ => k + firstCost s₀ seen ps ≤ (freeFrames s₀).length) t := by
  have hopen := h.open_stock (g := 0) windowFlags_write hK hst hcr hn hps hq hqp
  rw [Nat.zero_mul] at hopen
  refine .read_bind ?_
  rw [h.vmmCurrent_eq]
  exact .bind hopen.relax fun a u ha => .const (ha.bound hst)

theorem PdOpen.newTable_bound (hd : PdOpen False D L s W (flagPresent ||| flagRw) v 1 p t) (hK : K.Closed)
    (hst : Stock s₀ t seen k) (hcr : s.cr3 = s₀.cr3)
    (hps : FreeList s (Function.update W p (windowPte (flagPresent ||| flagRw) (v * 4096))) ps) (hlow : ∀ r ∈ ps, p < r)
    (hv : v ∈ L) (hvc : v ≠ s.cr3) (hva : OffSlot va) (hfr : freeFrames t = f :: fs) (hf : f < t.pmmFrames)
    (hfree : ¬ used t f) : Comp.Wp False (pgmapNewTable K (v * 4096) (p * 4096) f pa va (s.mem v (va / 4194304)) flags)
      (fun _ _ => k + 1 + framesFor s₀ seen ((ps.take (if propagates s va then 2 else 1)).map .window) ≤
        (freeFrames s₀).length) (t.setBitmap f true) := by
  have hcur : v * 4096 ≠ s.vmmCurrent := fun e => hvc (by rw [Machine.cr3, ← e]; omega)
  have hf' : f < 1048576 := Nat.lt_of_lt_of_le hf hd.windowed.actual.frames
  obtain ⟨hfD, hfL⟩ := hd.windowed.logical.fresh fun hu => hfree (hd.windowed.used f hu)
  have hDv := hd.windowed.logical.sub hv
  have hlt := (hd.windowed.logical.dir v hDv).2
  unfold pgmapNewTable
  dsimp only
  obtain ⟨hopen, hrun⟩ := hd.entry_run hv hvc hva hf hfree (s.mem v (va / 4194304))
  refine .congr (hrun _) ?_
  set i := va / 4194304 with hi
  set σ := (s.setBitmap f true).set v i (newTableEntry (s.mem v i) f) with hσ
  set u := (t.setBitmap f true).set v i (newTableEntry (s.mem v i) f) with hu
  have hcs : s.cr3 ≠ v := Ne.symm hvc
  have hst₁ : Stock s₀ u seen (k + 1) := by
    refine hst.alloc hfr (freeFrames_alloc hfr) fun j _ => ?_
    rw [hu, ← hcr, Machine.set_mem_of_ne _ _ _ _ hcs]
    rfl
  have hps₁ : FreeList σ (Function.update W p (windowPte (flagPresent ||| flagRw) (v * 4096))) ps :=
    hps.congr fun q hq => (hd.windowed.logical.alloc f).view_setAside hd.windowed.cur hDv (.inl hvc) _ hq
  have hmσ : σ.mem v i = newTableEntry (s.mem v i) f := Machine.set_mem_self _ _ _ _
  have hmu : u.mem v i = newTableEntry (s.mem v i) f := Machine.set_mem_self _ _ _ _
  have hnσ : NullGuard σ := hopen.guard.null id
  have hopenPt := hopen.windowed.openPt_stock windowFlags_write hK hst₁ hcr hnσ hps₁ hcur hopen.user
    (hopen.pageAt windowFlags_write hlt false (by simp)) hva.lt hlow
  rw [hmu, newTableEntry_pt _ hf'] at hopenPt
  refine .bind hopenPt.relax fun a u₁ ho => ?_
  have hbound := ho.bound hst₁
  cases hsp : propagates s va with
  | false => exact .const hbound
  | true =>
    cases ps with
    | nil => exact .const hbound
    | cons r rs =>
      obtain ⟨rfl, hw, hst₂⟩ := ho
      have hpr := hlow r List.mem_cons_self
      have hfree_r := hps₁.head
      have hWr : W r = 0#32 := by
        have h0 := hfree_r.2.2.1
        rwa [Function.update_of_ne (Nat.ne_of_gt hpr)] at h0
      have hmap : PtOpen False D L σ W (flagPresent ||| flagRw) (flagPresent ||| flagRw) v f 0 p r u₁ :=
        ⟨hopen.pos, hpr, hfree_r.2.1, hopen.zero, hWr, hw, fun ho => ho.elim, fun _ => hnσ⟩
      have hout : Outside u₁ f := by
        have ho := hw.outside_table hv hva.lt hva.2 (.inl hvc) (by
          rw [← hi, hmσ]
          exact newTableEntry_hasTable _ f)
        rwa [← hi, hmσ, newTableEntry_pt _ hf'] at ho
      rw [if_neg hfree_r.addr_ne_zero]
      refine .step (hmap.pageAt' windowFlags_write hf' true fun _ => rfl).memsetPage (.read_bind (.read_bind ?_))
      have hring : (u₁.setFrame f fun _ => 0).taskRing = s.taskRing := by
        have hrest := congrArg Machine.taskRing hw.rest
        exact hrest
      have hspread : propagates (u₁.setFrame f fun _ => 0) va = true := by
        rw [← hsp]
        unfold propagates
        rw [hring]
      have hcurr : (u₁.setFrame f fun _ => 0).vmmCurrent = s.vmmCurrent := hw.vmmCurrent_eq
      have hr := hfree_r.2.1
      have hlo : w32 (r * 4096 + 4096) = (r + 1) * 4096 := by
        unfold userPages at hr
        rw [w32_of_lt (by omega)]
        omega
      have hcf : s.cr3 ≠ f := fun e => hfD (e ▸ hd.windowed.logical.sub hd.windowed.cur)
      have hws := hw.setFrame hout hfD fun _ => 0#32
      have hst₃ : Stock s₀ (u₁.setFrame f fun _ => 0) (r / 1024 :: seen) (k + 1 + windowCost s₀ seen r) := by
        refine hst₂.step rfl fun j _ => ?_
        rw [← hcr, Machine.setFrame_mem_of_ne _ _ hcf]
      have hps₂ : FreeList (σ.setFrame f fun _ => 0#32) _ rs :=
        (hps₁.open (windowFlags_write.windowPte_ne_zero (f * 4096))).congr fun q hq => by
          have hj := userPages_slot hq
          refine view_setFrame hcf.symm _ fun hx => ?_
          rw [hσ, Machine.set_mem_of_ne _ _ _ _ hcs] at hx ⊢
          exact hfL _ hd.windowed.cur _ (by omega) (by omega) hx
      have hn₂ : NullGuard (σ.setFrame f fun _ => 0#32) :=
        (hw.guard_setFrame hout (n := 0) ⟨fun ho => ho.elim, fun _ => hnσ⟩ _).null id
      have hlow₂ : ∀ q ∈ rs, r + 1 ≤ q := (List.pairwise_cons.mp hps.sorted).1
      rw [hspread, hcurr, if_pos hcur, hlo, Comp.when_true rfl]
      unfold userPages at hr
      refine .bind (hws.propagatePde_bound hK hst₃ hcr hn₂ hps₂ (by omega) hlow₂ _ _ _) fun _ _ hb => .const ?_
      rw [if_pos rfl, framesFor_two, ← Nat.add_assoc]
      exact hb

theorem Windowed.vmmPgmapSmall_bound (h : Windowed D L s t W) (hK : K.Closed) (hst : Stock s₀ t seen k)
    (hcr : s.cr3 = s₀.cr3) (hn : NullGuard s) (hps : FreeList s W ps) (hv : v ∈ L) (hvc : v ≠ s.cr3) (hva : OffSlot va)
    (pa : ℕ) (flags : Word) : Comp.Wp False (vmmPgmapSmall K (v * 4096) pa va flags)
      (fun _ _ => k + framesFor s₀ seen (mapRequests (s.mem v (va / 4194304)) (propagates s va) ps) ≤
        (freeFrames s₀).length) t := by
  have hcur : v * 4096 ≠ s.vmmCurrent := fun e => hvc (by rw [Machine.cr3, ← e]; omega)
  have hDv := h.logical.sub hv
  have hlt := (h.logical.dir v hDv).2
  unfold vmmPgmapSmall
  refine .bind (h.openPd_stock windowFlags_write hK hst hcr hn hps hcur).relax fun a u ho => ?_
  cases ps with
  | nil => exact .const hst.le
  | cons p ps =>
    obtain ⟨rfl, hw, hst₁⟩ := ho
    have hp := hps.head
    have hps₁ := hps.open (windowFlags_write.windowPte_ne_zero (v * 4096))
    have hlow : ∀ r ∈ ps, p < r := (List.pairwise_cons.mp hps.sorted).1
    have hd : PdOpen False D L s W (flagPresent ||| flagRw) v 1 p u :=
      ⟨hp.1, hp.2.1, hp.2.2.1, hw, fun ho => ho.elim, fun _ => hn⟩
    have hm : u.mem v (va / 4194304) = s.mem v (va / 4194304) := hw.mem_aside hDv (.inl hvc)
    rw [if_neg hp.addr_ne_zero]
    refine .step ((hd.pageAt windowFlags_write hlt false (by simp)).load hva.lt) ?_
    rw [hm]
    simp only [mapRequests, framesFor]
    rw [← Nat.add_assoc]
    refine .ite (fun he => ?_) fun he => ?_
    · have hopen := hw.openPt_stock windowFlags_write hK hst₁ hcr hn hps₁ hcur hp.2.1
        (hd.pageAt windowFlags_write hlt false (by simp)) hva.lt hlow
      rw [if_pos (show (s.mem v (va / 4194304)).HasTable from he)]
      exact .bind hopen.relax fun a' u' ho => .const (ho.bound hst₁)
    · rw [if_neg (show ¬ (s.mem v (va / 4194304)).HasTable from he)]
      cases hfr : freeFrames u with
      | nil =>
        refine .step (pmmAllocFree_nil hw.actual.frames hfr) (.of_fault ?_ id)
        exact hd.oom hv hvc hva hn
      | cons f fs =>
        obtain ⟨ha, hf, hfree⟩ := pmmAllocFree_cons hw.actual.frames hfr
        refine .step ha ((hd.newTable_bound hK hst₁ hcr hps₁ hlow hv hvc hva hfr hf hfree).mono fun _ _ hb => ?_)
        simp only [framesFor]
        rw [← Nat.add_assoc]
        exact hb

end Bound

section Own

variable {D L : Set ℕ} {s s₀ : Machine} {K : Callees} {seen ps : List ℕ} {k va : ℕ}

theorem slot_of_propagates (h : propagates s va = true) (hva : OffSlot va) : 768 ≤ va / 4194304 := by
  unfold propagates at h
  rw [Bool.and_eq_true, decide_eq_true_eq] at h
  have hk := h.2
  have hne := hva.2
  unfold kernelStart rmapStart at hk
  omega

theorem vmmPgmapSmall_own_bound (h : Tables D L s) (hc : s.cr3 ∈ L) (hK : K.Closed) (hst : Stock s₀ s seen k)
    (hcr : s.cr3 = s₀.cr3) (hn : NullGuard s) (hps : propagates s va = true → FreeList s (fun _ => 0#32) ps)
    (hva : OffSlot va) (pa : ℕ) (flags : Word) : Comp.Wp False (vmmPgmapSmall K s.vmmCurrent pa va flags)
      (fun _ _ => k + framesFor s₀ seen (ownRequests (s.mem s.cr3 (va / 4194304)) (propagates s va) ps) ≤
        (freeFrames s₀).length) s := by
  unfold ownRequests
  by_cases he : (s.mem s.cr3 (va / 4194304)).HasTable
  · rw [if_pos he]
    exact .const hst.le
  rw [if_neg he]
  cases hfr : freeFrames s with
  | nil => exact .of_fault (vmmPgmapSmall_cur_oom h hc hva he hn (pmmAllocFree_nil h.frames hfr)) id
  | cons f fs =>
    obtain ⟨ha, hf, hfree⟩ := pmmAllocFree_cons h.frames hfr
    obtain ⟨hfD, hfL⟩ := h.fresh hfree
    have hcf : s.cr3 ≠ f := fun e => hfD (e ▸ h.sub hc)
    refine .congr (vmmPgmapSmall_cur_new K pa flags h hc hva he hf hfree ha) ?_
    dsimp only
    simp only [framesFor]
    rw [← Nat.add_assoc]
    cases hsp : propagates s va with
    | false => exact .const (hst.take hfr).1
    | true =>
      have hi := slot_of_propagates hsp hva
      have hcr₁ : (newTableAt s s.cr3 (va / 4194304) f).cr3 = s.cr3 := rfl
      have hmem : ∀ j < 767, (newTableAt s s.cr3 (va / 4194304) f).mem s.cr3 j = s.mem s.cr3 j := by
        intro j hj
        rw [newTableAt, Machine.setFrame_mem_of_ne _ _ hcf]
        exact Machine.set_mem_of_ne_index _ _ _ _ _ (by omega)
      have hst₁ : Stock s₀ (newTableAt s s.cr3 (va / 4194304) f) seen (k + 1) :=
        hst.alloc hfr (freeFrames_alloc hfr) fun j hj => by rw [← hcr, hmem j hj]
      have hps₁ : FreeList (newTableAt s s.cr3 (va / 4194304) f) (fun _ => 0#32) ps := (hps hsp).congr fun q hq => by
        have hj := userPages_slot hq
        have hslot := hmem (q / 1024) hj
        refine view_congr hslot fun hx => ?_
        rw [hcr₁, hslot] at hx ⊢
        rw [newTableAt, Machine.setFrame_mem_of_ne _ _ (hfL _ hc _ (by omega) (by omega) hx),
          Machine.set_mem_of_ne _ _ _ _ (h.pt_ne hc (h.sub hc) (by omega) (by omega) hx)]
        rfl
      have hw := Windowed.refl (h.newTableAt (v := s.cr3) hva.2 hf hfree) hc
      have hn₁ : NullGuard (newTableAt s s.cr3 (va / 4194304) f) :=
        ((Windowed.refl h hc).guard_newTableAt hc (.inr hi) hva.2 hf hfree (n := 0)
          ⟨fun ho => ho.elim, fun _ => hn⟩).null id
      have hbound := hw.propagatePde_bound (q := 0) hK hst₁ hcr hn₁ hps₁ (by decide) (fun r _ => Nat.zero_le r)
        s.vmmCurrent (vmmPd rmapStart + 4 * (va / 4194304)) (va / 4194304)
      rw [Nat.zero_mul] at hbound
      rw [Comp.when_true rfl]
      exact .bind hbound fun _ _ hb => .const hb

end Own

/-! No window is left for the page table, only for the directory. -/

section Refused

variable {D L : Set ℕ} {s s₀ t u : Machine} {W : ℕ → Word} {K : Callees} {seen : List ℕ} {k p v f pa va : ℕ}
  {flags : Word}

/-- The window on the directory is closed again. -/
theorem Windowed.close_only (h : Windowed D L s t (Function.update W p (windowPte (flagPresent ||| flagRw) (v * 4096))))
    (hK : K.Closed) (hst : Stock s₀ t seen k) (hcr : s.cr3 = s₀.cr3) (hp : W p = 0#32) (hcur : v * 4096 ≠ s.vmmCurrent) :
    ∃ u, closeWin K (v * 4096) (p * 4096) t = some ((), u) ∧ Windowed D L s u W ∧ Stock s₀ u seen k := by
  have hself : Function.update W p (windowPte (flagPresent ||| flagRw) (v * 4096)) p =
      windowPte (flagPresent ||| flagRw) (v * 4096) := Function.update_self _ _ _
  obtain ⟨u, hrun, hw, hst'⟩ := h.close_stock hK hst hcr
    (by rw [hself]; exact windowFlags_write.windowPte_ne_zero _)
    (by rw [hself, windowPte_trapped]; exact windowFlags_write.trapped) hcur
  rw [update_update_cancel hp] at hw
  exact ⟨u, hrun, hw, hst'⟩

/-- The start of every call on another VMM, when there is a window for the directory. -/
theorem Windowed.first_window {α : Type} {fl : Word} (h : Windowed D L s t W) (hfl : WindowFlags fl) (hK : K.Closed)
    (hst : Stock s₀ t seen k) (hcr : s.cr3 = s₀.cr3) (hn : NullGuard s) {ps : List ℕ} (hps : FreeList s W (p :: ps))
    (hv : v ∈ L) (hvc : v ≠ s.cr3) (hva : OffSlot va) {ok : Prop}
    (hok : ok → k + windowCost s₀ seen p ≤ (freeFrames s₀).length) {x : α} {c : ℕ → Word → Kernel α}
    {Q : α → Machine → Prop} (hc : ∀ u, PageAt u false (p * 4096) v →
      Windowed D L s u (Function.update W p (windowPte fl (v * 4096))) →
      Stock s₀ u (p / 1024 :: seen) (k + windowCost s₀ seen p) →
      Comp.Wp ok (c (p * 4096) (s.mem v (va / 4194304))) Q u) :
    Comp.Wp ok (do
      let pd ← openPd K (v * 4096) fl
      if pd = 0 then pure x else do
      let e ← load (pd + 4 * (va / 4194304))
      c pd e) Q t := by
  have hcur : v * 4096 ≠ s.vmmCurrent := fun e => hvc (by rw [Machine.cr3, ← e]; omega)
  have hDv := h.logical.sub hv
  have hlt := (h.logical.dir v hDv).2
  have hp := hps.head
  refine .bind ((h.openPd_stock hfl hK hst hcr hn hps hcur).weaken hok fun _ _ => id) fun a u ho => ?_
  obtain ⟨rfl, hw, hst₁⟩ := ho
  have hself : Function.update W p (windowPte fl (v * 4096)) p = windowPte fl (v * 4096) := Function.update_self _ _ _
  have hpd := hw.pageAt_window hfl hself hlt false (by simp)
  have hm : u.mem v (va / 4194304) = s.mem v (va / 4194304) := hw.mem_aside hDv (.inl hvc)
  rw [if_neg hp.addr_ne_zero]
  refine .step (hpd.load hva.lt) ?_
  rw [hm]
  exact hc u hpd hw hst₁

/-- The page table cannot be mapped. -/
theorem Windowed.openPt_refused {i : ℕ} {c : ℕ → Kernel Unit} {Q : Unit → Machine → Prop} {ok : Prop}
    (h : Windowed D L s t (Function.update W p (windowPte (flagPresent ||| flagRw) (v * 4096)))) (hK : K.Closed)
    (hst : Stock s₀ t seen k) (hcr : s.cr3 = s₀.cr3) (hn : NullGuard s)
    (hps : FreeList s (Function.update W p (windowPte (flagPresent ||| flagRw) (v * 4096))) []) (hp : p < userPages)
    (hW : W p = 0#32) (hcur : v * 4096 ≠ s.vmmCurrent) (hpd : PageAt t false (p * 4096) v) (hi : i < 1024)
    (hQ : ∀ u, Windowed D L s u W → Stock s₀ u seen k → Q () u) : Comp.Wp ok (do
      let pt ← openPt K (v * 4096) (p * 4096) i (flagPresent ||| flagRw)
      if pt = 0 then closeWin K (v * 4096) (p * 4096) else c pt) Q t := by
  have hopen := h.openPt_stock windowFlags_write hK hst hcr hn hps hcur hp hpd hi nofun
  refine .bind (hopen.weaken (fun _ => hst.le) fun _ _ => id) fun a u ho => ?_
  obtain ⟨rfl, rfl⟩ := ho
  obtain ⟨u', hrun, hw, hst'⟩ := h.close_only hK hst hcr hW hcur
  rw [if_pos rfl]
  exact .of_eq hrun (hQ u' hw hst')

theorem Windowed.vmmPgmapSmall_refused_table (h : Windowed D L s t W) (hK : K.Closed) (hst : Stock s₀ t seen k)
    (hcr : s.cr3 = s₀.cr3) (hn : NullGuard s) (hps : FreeList s W [p]) (hv : v ∈ L) (hvc : v ≠ s.cr3) (hva : OffSlot va)
    (he : (s.mem v (va / 4194304)).HasTable) (pa : ℕ) (flags : Word) :
    Comp.Wp (k + windowCost s₀ seen p ≤ (freeFrames s₀).length) (vmmPgmapSmall K (v * 4096) pa va flags)
      (fun _ u => Windowed D L s u W ∧ Stock s₀ u (p / 1024 :: seen) (k + windowCost s₀ seen p)) t := by
  have hcur : v * 4096 ≠ s.vmmCurrent := fun e => hvc (by rw [Machine.cr3, ← e]; omega)
  have hp := hps.head
  unfold vmmPgmapSmall
  refine h.first_window windowFlags_write hK hst hcr hn hps hv hvc hva id fun u hpd hw hst₁ => ?_
  rw [if_pos (show s.mem v (va / 4194304) ≠ 0#32 ∧ (s.mem v (va / 4194304)).pgsz = false from he)]
  exact hw.openPt_refused hK hst₁ hcr hn (hps.open (windowFlags_write.windowPte_ne_zero _)) hp.2.1 hp.2.2.1 hcur hpd
    hva.lt fun u hw hst => ⟨hw, hst⟩

/-- A new page table has been put in place of the entry by then, with what its frame held before. -/
theorem Windowed.vmmPgmapSmall_refused_new (h : Windowed D L s t W) (hK : K.Closed) (hst : Stock s₀ t seen k)
    (hcr : s.cr3 = s₀.cr3) (hn : NullGuard s) (hps : FreeList s W [p]) (hv : v ∈ L) (hvc : v ≠ s.cr3) (hva : OffSlot va)
    (he : ¬ (s.mem v (va / 4194304)).HasTable) (pa : ℕ) (flags : Word) :
    Comp.Wp (k + windowCost s₀ seen p + 1 ≤ (freeFrames s₀).length) (vmmPgmapSmall K (v * 4096) pa va flags)
      (fun _ u => ∃ f, (freeFrames s₀)[k + windowCost s₀ seen p]? = some f ∧ f < 1048576 ∧ ¬ SysX.used s f ∧
        Windowed D L ((s.setBitmap f true).set v (va / 4194304) (newTableEntry (s.mem v (va / 4194304)) f)) u W ∧
        Stock s₀ u (p / 1024 :: seen) (k + windowCost s₀ seen p + 1)) t := by
  have hcur : v * 4096 ≠ s.vmmCurrent := fun e => hvc (by rw [Machine.cr3, ← e]; omega)
  have hDv := h.logical.sub hv
  have hlt := (h.logical.dir v hDv).2
  have hp := hps.head
  unfold vmmPgmapSmall
  refine h.first_window windowFlags_write hK hst hcr hn hps hv hvc hva (by omega) fun u hpd hw hst₁ => ?_
  rw [if_neg (show ¬ (s.mem v (va / 4194304) ≠ 0#32 ∧ (s.mem v (va / 4194304)).pgsz = false) from he)]
  cases hfr : freeFrames u with
  | nil =>
    have hd : PdOpen False D L s W (flagPresent ||| flagRw) v 0 p u :=
      ⟨hp.1, hp.2.1, hp.2.2.1, hw, fun ho => ho.elim, fun _ => hn⟩
    exact .step (pmmAllocFree_nil hw.actual.frames hfr) (.of_fault (hd.oom hv hvc hva hn) (hst₁.empty hfr))
  | cons f fs =>
    obtain ⟨ha, hf, hfree⟩ := pmmAllocFree_cons hw.actual.frames hfr
    have hd : PdOpen True D L s W (flagPresent ||| flagRw) v 1 p u :=
      ⟨hp.1, hp.2.1, hp.2.2.1, hw, fun _ => freeFrames_one hfr, fun hno => absurd trivial hno⟩
    have hf' : f < 1048576 := Nat.lt_of_lt_of_le hf hw.actual.frames
    obtain ⟨hopen, hrun⟩ := hd.entry_run hv hvc hva hf hfree (s.mem v (va / 4194304))
    have hst₂ : Stock s₀ ((u.setBitmap f true).set v (va / 4194304) (newTableEntry (s.mem v (va / 4194304)) f))
        (p / 1024 :: seen) (k + windowCost s₀ seen p + 1) := by
      refine hst₁.alloc hfr (freeFrames_alloc hfr) fun j _ => ?_
      rw [← hcr, Machine.set_mem_of_ne _ _ _ _ (Ne.symm hvc)]
      rfl
    have hps₁ : FreeList ((s.setBitmap f true).set v (va / 4194304) (newTableEntry (s.mem v (va / 4194304)) f))
        (Function.update W p (windowPte (flagPresent ||| flagRw) (v * 4096))) [] :=
      (hps.open (windowFlags_write.windowPte_ne_zero _)).congr fun q hq =>
        (hw.logical.alloc f).view_setAside hw.cur hDv (.inl hvc) _ hq
    have hna : NullGuard (s.setBitmap f true) := ⟨hn.table, hn.pte⟩
    have hnσ : NullGuard ((s.setBitmap f true).set v (va / 4194304) (newTableEntry (s.mem v (va / 4194304)) f)) :=
      hna.set _ (fun e => absurd e hvc) fun e => hw.logical.pt_ne hw.cur hDv (by decide) (by decide) hn.table e.symm
    have hfs : ¬ SysX.used s f := fun hu => hfree (hw.used f hu)
    refine .step ha ?_
    dsimp only
    unfold pgmapNewTable
    refine .congr (hrun _) ?_
    exact hopen.windowed.openPt_refused hK hst₂ hcr hnσ hps₁ hp.2.1 hp.2.2.1 hcur
      (hopen.pageAt windowFlags_write hlt false (by simp)) hva.lt fun w hww hstw =>
        ⟨f, (hst₁.take hfr).2.1, hf', hfs, hww, hstw⟩

end Refused

end SysX
