import SysX.Unloading
import SysX.NoWindow
import SysX.DirtyBits
import SysX.ForeignRange

/-!
The walk of `elf_unload_prg` over the pages of another VMM. With every page `vmm_get_pgsz` leaves a window open in the current one;
when there is none left, the walk does not come to an end.
-/
namespace SysX

section Cramped

variable {ok : Prop} {D L : Set ℕ} {s s₁ : Machine} {W : ℕ → Word} {v n f va : ℕ} {K : Callees}

theorem Windowed.vmmGetPaddr_windows (h : Windowed D L s s₁ W) (hK : K.Closed) (hv : v ∈ L) (hvc : v ≠ s.cr3) (hva : OffSlot va)
    (hg : Guard ok s s₁ (n + 2)) : Comp.Wp ok (vmmGetPaddr K (v * 4096) va) (fun _ t => Windowed D L s t W) s₁ := by
  have hcur : v * 4096 ≠ s.vmmCurrent := fun e => hvc (by rw [Machine.cr3, ← e]; omega)
  by_cases hroom : Room s W 0 (walkWindows (s.mem v (va / 4194304)))
  · exact (h.vmmGetPaddr_foreign hK hv hvc hva hg hroom).mono fun _ _ ht => ht.2.1
  · unfold vmmGetPaddr
    refine h.foreign_walk_blocked windowFlags_read windowFlags_read hK hv hvc hva.lt hg hroom h fun p t hd => ?_
    exact .bind (hd.close windowFlags_read hK hcur) fun _ u hu => .pure hu.1

/-- Without two free pages no page is found to be mapped. -/
theorem Windowed.vmmGetPgsz_none (h : Windowed D L s s₁ W) (hK : K.Closed) (hv : v ∈ L) (hvc : v ≠ s.cr3) (hva : OffSlot va)
    (hg : Guard ok s s₁ (n + 2)) (hsmall : (s.mem v (va / 4194304)).pgsz = false) (hno : ¬ Room s W 0 2) :
    Comp.Wp ok (vmmGetPgsz K (v * 4096) va) (fun r _ => r = none) s₁ := by
  by_cases hroom : Room s W 0 (walkWindows (s.mem v (va / 4194304)))
  · have ht : ¬ (s.mem v (va / 4194304)).HasTable := by
      intro ht
      rw [walkWindows, if_pos ht] at hroom
      exact hno hroom
    have hzero : s.mem v (va / 4194304) = 0#32 := by
      by_contra hne
      exact ht ⟨hne, hsmall⟩
    refine (h.vmmGetPgsz_foreign hK hv hvc hva hg hroom).mono ?_
    rintro r t ⟨rfl, -⟩
    exact pgszAt_eq_none.mpr (view_of_slot_zero (by rw [va_slot, hzero]))
  · exact (h.vmmGetPgsz_cramped hK hv hvc hva hg hroom).mono fun _ _ ht => ht.1

/-- Nor is it unmapped. -/
theorem Windowed.vmmPgunmapSmall_none (h : Windowed D L s s₁ W) (hK : K.Closed) (hv : v ∈ L) (hvc : v ≠ s.cr3) (hva : OffSlot va)
    (hg : Guard ok s s₁ (n + 2)) (ht : (s.mem v (va / 4194304)).HasTable) (hno : ¬ Room s W 0 2) :
    Comp.Wp ok (vmmPgunmapSmall K (v * 4096) va) (fun _ t => Windowed D L s t W) s₁ := by
  have hcur : v * 4096 ≠ s.vmmCurrent := fun e => hvc (by rw [Machine.cr3, ← e]; omega)
  have hDv := h.logical.sub hv
  have hlt := (h.logical.dir v hDv).2
  have hclosed := hK
  obtain ⟨K', hK', -⟩ := hK
  have hopen := h.openWindow windowFlags_write K' (q := 0) (by decide) (Nat.mul_mod_left v 4096) hg
  rw [Nat.zero_mul] at hopen
  have hpd : openPd K (v * 4096) (flagPresent ||| flagRw) s₁ =
      SysX.vmmAllocMap K' s.vmmCurrent (v * 4096) 4096 0 kernelStart 0 0 false (flagPresent ||| flagRw) s₁ := by
    rw [openPd, Comp.read_bind, h.vmmCurrent_eq, if_pos hcur, hK']
  unfold vmmPgunmapSmall
  refine .bind (.congr hpd hopen) fun a t ht₁ => ?_
  rcases ht₁ with ⟨ha, rfl, -⟩ | ⟨p, ha, -, hfree, -, hw, hg'⟩
  · rw [if_pos ha]
    exact .pure h
  have hd : PdOpen ok D L s W (flagPresent ||| flagRw) v (n + 1) p t := ⟨hfree.1, hfree.2.1, hfree.2.2.1, hw, hg'⟩
  have hm : t.mem v (va / 4194304) = s.mem v (va / 4194304) := congrFun (hw.mem_dir hDv hvc) _
  have hblocked : ∀ r, p < r → ¬ FreePage s (Function.update W p (windowPte (flagPresent ||| flagRw) (v * 4096))) r := by
    intro r hpr hr
    have hzero := hr.2.2.1
    rw [Function.update_of_ne (Nat.ne_of_gt hpr)] at hzero
    refine hno ⟨[p, r], rfl, by simp [hpr], fun r' hr' => ⟨Nat.zero_le _, ?_⟩⟩
    rcases List.mem_pair.mp hr' with rfl | rfl
    · exact hfree
    · exact ⟨hr.1, hr.2.1, hzero, hr.2.2.2⟩
  rw [ha, if_neg hfree.addr_ne_zero]
  refine .step ((hd.pageAt windowFlags_write hlt false (by simp)).load hva.lt) ?_
  rw [hm, if_neg ht.1, if_pos ht.2]
  refine .bind (hd.openPt_blocked windowFlags_write windowFlags_write hclosed hv hcur hva.lt hblocked) ?_
  rintro b u ⟨hb, rfl⟩
  rw [if_pos hb]
  exact (hd.close windowFlags_write hclosed hcur).mono fun _ _ hu => hu.1

theorem Windowed.pt_ne (h : Windowed D L s s₁ W) (hused : SysX.used s f)
    (hdata : ∀ w ∈ L, ∀ i < 1024, i ≠ 767 → (s.mem w i).HasTable → (s.mem w i).pt ≠ f) :
    ∀ w ∈ L, ∀ i < 1024, i ≠ 767 → (s₁.mem w i).HasTable → (s₁.mem w i).pt ≠ f := by
  intro w hw i hi hne ht
  by_cases hwc : w = s.cr3
  · subst hwc
    rcases h.slot i with he | ⟨-, -, -, hfresh⟩
    · rw [he] at ht ⊢
      exact hdata _ hw i hi hne ht
    · exact fun he => hfresh (he ▸ hused)
  · rw [h.mem_dir (h.logical.sub hw) hwc] at ht ⊢
    exact hdata w hw i hi hne ht

/-- A frame that holds no table is freed in both states. -/
theorem Windowed.freeData (h : Windowed D L s s₁ W) (hused : SysX.used s f) (hf : f ∉ D)
    (hdata : ∀ w ∈ L, ∀ i < 1024, i ≠ 767 → (s.mem w i).HasTable → (s.mem w i).pt ≠ f) :
    Windowed D L (s.setBitmap f false) (s₁.setBitmap f false) W :=
  h.free (h.logical.free hf hdata) (h.actual.free hf (h.pt_ne hused hdata))

/-- Windows take at most one frame for each slot of the user half. -/
theorem Windowed.guard_of_spare (h : Windowed D L s s₁ W) (hspare : ok → FreeFrames s (767 + n)) (hnull : ¬ ok → NullGuard s) :
    Guard ok s s₁ n := by
  refine ⟨fun hok => (hspare hok).of_used ((List.range 767).map fun i => (s₁.mem s.cr3 i).pt) ?_ ?_ fun f hf => ?_, hnull⟩
  · rw [List.length_map, List.length_range]
  · rw [h.rest]
  · refine (h.leak f hf).imp_right ?_
    rintro ⟨i, hi, -, he⟩
    exact List.mem_map.mpr ⟨i, List.mem_range.mpr hi, he⟩

end Cramped

/-- What the walk over the pages `Q` of another VMM goes on from, but for its windows `W`. -/
structure ForeignLaid (ok : Prop) (L : Set ℕ) (v : ℕ) (Q : Set ℕ) (F : ℕ → ℕ) (σ : Machine) (W : ℕ → Word) : Prop where
  other : v ≠ σ.cr3
  mem : v ∈ L
  small : ∀ q ∈ Q, (σ.mem v (q / 1024)).pgsz = false
  spare : ok → FreeFrames σ (767 + 4)
  null : ¬ ok → NullGuard σ
  laid : Room σ W 0 2 → Laid L v Q F σ

/-- In the state `t` the windows of `W` are open still, and one on the directory of `v` where the walk has come to a page. -/
def Walked (ok : Prop) (L : Set ℕ) (v : ℕ) (Q : Set ℕ) (F : ℕ → ℕ) (σ : Machine) (W : ℕ → Word) (visited : Prop) (t : Machine) : Prop :=
  ∃ σ' W', ForeignLaid ok L v Q F σ' W' ∧ Windowed L L σ' t W' ∧ Apart L v σ σ' ∧ (∀ p, W p ≠ 0#32 → W' p = W p) ∧
    (visited → ∃ p, W' p = windowPte flagPresent (v * 4096))

section Walk

variable {ok visited visited' : Prop} {L Q : Set ℕ} {v : ℕ} {F : ℕ → ℕ} {σ τ σ' t u : Machine} {W W' : ℕ → Word} {K : Callees}

theorem Walked.refl (h : ForeignLaid ok L v Q F σ W) (hw : Windowed L L σ τ W) (hno : ¬ visited) :
    Walked ok L v Q F σ W visited τ :=
  ⟨σ, W, h, hw, .refl L v σ, fun _ _ => rfl, fun hyes => absurd hyes hno⟩

theorem Walked.trans (hap : Apart L v σ σ') (hkept : ∀ p, W p ≠ 0#32 → W' p = W p)
    (hopen : visited → ∃ p, W' p = windowPte flagPresent (v * 4096)) (h : Walked ok L v Q F σ' W' visited' u) :
    Walked ok L v Q F σ W (visited ∨ visited') u := by
  obtain ⟨σ'', W'', hlaid, hw, hap', hkept', hopen'⟩ := h
  refine ⟨σ'', W'', hlaid, hw, hap.trans hap', fun p hp => ?_, ?_⟩
  · have hp' := hkept p hp
    rw [hkept' p (by rwa [hp']), hp']
  · rintro (hyes | hyes)
    · obtain ⟨p, hp⟩ := hopen hyes
      refine ⟨p, ?_⟩
      rw [hkept' p (by rw [hp]; exact windowFlags_read.windowPte_ne_zero _), hp]
    · exact hopen' hyes

/-- A page has been cleared and its frame is free. -/
theorem ForeignLaid.drop {q : ℕ} (h : ForeignLaid ok L v Q F σ W) (hroom : Room σ W 0 2) (hc : σ.cr3 ∈ L) (hq : q ∈ Q) :
    ForeignLaid ok L v Q F (dropPage σ v q (F q)) W' := by
  have hlaid := h.laid hroom
  have hslot := userPages_slot (hlaid.user q hq)
  obtain ⟨hcr, hpt⟩ := hlaid.tables.onlyOf_table hlaid.mem hslot (hlaid.table q hq) σ.cr3 hc h.other.symm
  refine ⟨h.other, h.mem, fun p hp => ?_, fun hok => ?_, fun hno => ?_, fun _ => hlaid.drop hq⟩
  · rw [hlaid.dir hq h.mem]
    exact h.small p hp
  · exact FreeFrames.free (s := σ.set _ _ _) (h.spare hok) (F q)
  · have hn := h.null hno
    have hset := hn.set (f := (σ.mem v (q / 1024)).pt) (i := q % 1024) 0#32 (fun he => absurd he.symm hcr) fun he =>
      hpt 0 (by decide) (by decide) hn.table he.symm
    exact ⟨hset.table, hset.pte⟩

/-- A page is still mapped when its frame is freed, and there is no room for windows any more. -/
theorem ForeignLaid.stuck {q : ℕ} (h : ForeignLaid ok L v Q F σ W) (hno : ¬ Room σ W' 0 2) :
    ForeignLaid ok L v Q F (σ.setBitmap q false) W' :=
  ⟨h.other, h.mem, h.small, fun hok => (h.spare hok).free q, fun hn => ⟨(h.null hn).table, (h.null hn).pte⟩, fun hroom => absurd hroom hno⟩

/-- One pass of the loop. -/
theorem ForeignLaid.pass (visited : Prop) (h : ForeignLaid ok L v Q F σ W) (hw : Windowed L L σ τ W) (hK : K.Closed) {size fuel off va : ℕ}
    (hq : va / 4096 ∈ Q) (hva : va < kernelStart) (hoff : off < size)
    (hrest : ∀ σ' τ' W', ForeignLaid ok L v Q F σ' W' → Windowed L L σ' τ' W' → Comp.Wp False
      (elfFreePages K (v * 4096) size fuel (w32 (off + 4096)) (w32 (va + 4096))) (fun _ t => Walked ok L v Q F σ' W' visited t) τ') :
    Comp.Wp False (elfFreePages K (v * 4096) size (fuel + 1) off va) (fun _ t => Walked ok L v Q F σ W True t) τ := by
  have hoffslot := offSlot_of_lt hva
  have hslotva := va_slot va
  have hspare := fun (t : Machine) (W : ℕ → Word) (ht : Windowed L L σ t W) => ht.guard_of_spare h.spare h.null
  rw [elfFreePages, if_pos hoff]
  by_cases hroom : Room σ W 0 2
  · have hlaid := h.laid hroom
    have ht := hlaid.table _ hq
    rw [hslotva] at ht
    have hwalk : walkWindows (σ.mem v (va / 4194304)) = 2 := by rw [walkWindows, if_pos ht]
    refine .bind (hw.vmmGetPaddr_foreign (n := 2) hK h.mem h.other hoffslot (hspare τ W hw) (by rw [hwalk]; exact hroom)).relax ?_
    rintro paddr τ₁ ⟨rfl, hw₁, -⟩
    refine .bind (hw₁.vmmGetPgsz_foreign (n := 2) hK h.mem h.other hoffslot (hspare τ₁ W hw₁) (by rw [hwalk]; exact hroom)).relax ?_
    rintro idx τ₂ ⟨rfl, hwin, -⟩
    rw [if_pos ht] at hwin
    obtain ⟨p, hfree, hw₂⟩ := hwin
    rcases hlaid.page _ hq with hnone | ⟨fl, hview, htrap⟩
    · rw [pgszAt_eq_none.mpr hnone]
      exact .of_fault rfl id
    have hsome : view σ.mem v (va / 4096) ≠ none := by
      rw [hview]
      exact Option.some_ne_none _
    have hpte : viewPte (pteAt σ.mem v (va / 4096)) = some (F (va / 4096), fl) := by
      rw [← view_of_not_pgsz (by rw [hslotva]; exact ht.2), hview]
    have hsize : pgszAt σ.mem v (va / 4096) = some 0 := by
      have hne := mt view_eq_none.mpr hsome
      rw [pgszAt, hslotva, if_neg ht.not_pgsz, if_neg fun hz => hne ⟨by rw [hslotva]; exact ht.2, hz⟩]
    have htrapped : (pteAt σ.mem v (va / 4096)).trapped = false := by
      unfold viewPte at hpte
      split_ifs at hpte
      have hflags : (pteAt σ.mem v (va / 4096)).getFlags = fl := congrArg Prod.snd (Option.some.inj hpte)
      rw [← Word.getFlags_bit6, hflags, htrap]
    obtain ⟨hzero, hlt, hL⟩ := hlaid.frame _ hq
    have hused := hlaid.taken _ hq hsome
    have hdata := hlaid.data _ hq
    have hpaddr : paddrAt σ.mem v va = F (va / 4096) * 4096 + va % 4096 := by
      rw [paddrAt, hview]
    have hframe : (F (va / 4096) * 4096 + va % 4096) / 4096 = F (va / 4096) := by omega
    have hlist : (List.range (vmmPgsz 0 / 4096)).map (fun j => w32 ((F (va / 4096) * 4096 + va % 4096) / 4096 + j)) =
        [F (va / 4096)] := by
      rw [hframe, show vmmPgsz 0 / 4096 = 1 from rfl, List.range_one, List.map_singleton, Nat.add_zero, w32_of_lt (by omega)]
    have hcall : vmmPgunmap K (v * 4096) va 0 = vmmPgunmapSmall K (v * 4096) va := if_neg hoffslot.not_rmap
    rw [hsize]
    dsimp only
    rw [hcall, hpaddr, if_pos (show F (va / 4096) * 4096 + va % 4096 ≠ 0 by omega), hlist]
    generalize hW' : Function.update W p (windowPte flagPresent (v * 4096)) = W' at hw₂
    have hkept : ∀ q, W q ≠ 0#32 → W' q = W q := by
      intro q hne
      rw [← hW', Function.update_of_ne]
      rintro rfl
      exact hne hfree.2.2.1
    have hopen : True → ∃ q, W' q = windowPte flagPresent (v * 4096) := fun _ => ⟨p, by rw [← hW', Function.update_self]⟩
    -- what is left of the pass, with a state that has the page or not
    have hnext : ∀ σ₃ τ₃ : Machine, Apart L v σ (σ₃.setBitmap (F (va / 4096)) false) →
        ForeignLaid ok L v Q F (σ₃.setBitmap (F (va / 4096)) false) W' →
        Windowed L L (σ₃.setBitmap (F (va / 4096)) false) (τ₃.setBitmap (F (va / 4096)) false) W' → Comp.Wp False (do
          Comp.forList pmmFree [F (va / 4096)]
          let rest ← elfFreePages K (v * 4096) size fuel (w32 (off + vmmPgsz 0)) (w32 (va + vmmPgsz 0))
          pure ([F (va / 4096)] ++ rest)) (fun _ t => Walked ok L v Q F σ W True t) τ₃ := by
      intro σ₃ τ₃ hap hlaid₃ hw₃
      have hrun : Comp.forList pmmFree [F (va / 4096)] τ₃ = some ((), τ₃.setBitmap (F (va / 4096)) false) := rfl
      refine .step hrun (.bind (hrest _ _ _ hlaid₃ hw₃) fun _ t hdone => .pure ?_)
      obtain ⟨σ', W'', hall⟩ := Walked.trans hap hkept hopen hdone
      exact ⟨σ', W'', hall.1, hall.2.1, hall.2.2.1, hall.2.2.2.1, fun _ => hall.2.2.2.2 (.inl trivial)⟩
    by_cases hroom' : Room σ W' 0 2
    · have hguard : Guard ok σ τ₂ (2 + (if (σ.mem v (va / 4194304)).pgsz then 4 * 1024 else 1) + 1) := by
        rw [if_neg ht.not_pgsz]
        exact hspare τ₂ W' hw₂
      refine .bind (hw₂.vmmPgunmapSmall_foreign hK h.mem h.other hva (fun hyes => ?_) (fun hyes => ?_) hguard ?_) ?_
      · rw [htrapped] at hyes
        cases hyes
      · exact absurd hyes ht.not_pgsz
      · rw [unmapWindows, if_neg ht.not_pgsz, hwalk]
        exact hroom'
      · rintro _ τ₃ ⟨σ₃, hσ₃, hap, hw₃⟩
        unfold PgunmapSmall at hσ₃
        rw [if_pos ht] at hσ₃
        subst hσ₃
        have hdrop : ForeignLaid ok L v Q F (dropPage σ v (va / 4096) (F (va / 4096))) W' := h.drop hroom hw.cur hq
        rw [dropPage, hslotva] at hdrop
        refine hnext (σ.set (σ.mem v (va / 4194304)).pt (va / 4096 % 1024) 0#32) τ₃ ⟨hap.vmmCurrent, hap.view⟩ hdrop (hw₃.freeData hused hL fun w hwL i hi hne hi' => ?_)
        have hdir : (σ.set (σ.mem v (va / 4194304)).pt (va / 4096 % 1024) 0#32).mem w = σ.mem w := by
          have hdir := hlaid.dir hq hwL
          rwa [dropPage, hslotva] at hdir
        rw [hdir] at hi' ⊢
        exact hdata w hwL i hi hne hi'
    · refine .bind (hw₂.vmmPgunmapSmall_none (n := 2) hK h.mem h.other hoffslot (hspare τ₂ W' hw₂) ht hroom').relax fun _ τ₃ hw₃ => ?_
      exact hnext σ τ₃ ⟨rfl, fun _ _ _ _ _ => rfl⟩ (h.stuck hroom') (hw₃.freeData hused hL hdata)
  · refine .bind (hw.vmmGetPaddr_windows (n := 2) hK h.mem h.other hoffslot (hspare τ W hw)).relax fun paddr τ₁ hw₁ => ?_
    have hsmall : (σ.mem v (va / 4194304)).pgsz = false := by
      rw [← hslotva]
      exact h.small _ hq
    refine .bind (hw₁.vmmGetPgsz_none (n := 2) hK h.mem h.other hoffslot (hspare τ₁ W hw₁) hsmall hroom).relax ?_
    rintro idx τ₂ rfl
    exact .of_fault rfl id

/-- The walk over a segment. -/
theorem ForeignLaid.pages {size : ℕ} (hK : K.Closed) (hsize : size ≤ kernelStart) (fuel : ℕ) :
    ∀ {n off va : ℕ} {σ τ : Machine} {W : ℕ → Word}, ForeignLaid ok L v Q F σ W → Windowed L L σ τ W →
      n = (size - off + 4095) / 4096 → va + (size - off) ≤ kernelStart → off < size + 4096 →
      (∀ q ∈ List.range' (va / 4096) n, q ∈ Q) →
      Comp.Wp False (elfFreePages K (v * 4096) size fuel off va) (fun _ t => Walked ok L v Q F σ W (off < size) t) τ := by
  induction fuel with
  | zero => exact fun _ _ _ _ _ _ => .of_fault rfl id
  | succ fuel ih =>
    intro n off va σ τ W h hw hn hva hle hQ
    by_cases hoff : off < size
    · obtain ⟨k, rfl⟩ : ∃ k, n = k + 1 := ⟨n - 1, by omega⟩
      rw [List.range'_succ] at hQ
      have hq := hQ (va / 4096) List.mem_cons_self
      unfold kernelStart rmapStart at hva hsize
      have hnext : (va + 4096) / 4096 = va / 4096 + 1 := by omega
      refine (h.pass (off + 4096 < size) hw hK hq (by unfold kernelStart rmapStart; omega) hoff fun σ' τ' W' h' hw' => ?_).mono
        fun _ t hdone => ?_
      · rw [w32_of_lt (show off + 4096 < 4294967296 by omega), w32_of_lt (show va + 4096 < 4294967296 by omega)]
        by_cases hlast : off + 4096 < size
        · refine @ih k (off + 4096) (va + 4096) σ' τ' W' h' hw' (by omega) (by unfold kernelStart rmapStart; omega) (by omega) ?_
          rw [hnext]
          exact fun p hp => hQ p (List.mem_cons_of_mem _ hp)
        · cases fuel with
          | zero => exact .of_fault rfl id
          | succ fuel =>
            rw [elfFreePages, if_neg hlast]
            exact .pure (.refl h' hw' hlast)
      · obtain ⟨σ', W', hall⟩ := hdone
        exact ⟨σ', W', hall.1, hall.2.1, hall.2.2.1, hall.2.2.2.1, fun _ => hall.2.2.2.2 trivial⟩
    · rw [elfFreePages, if_neg hoff]
      exact .pure (.refl h hw hoff)

/-- `elf_unload_prg` on another VMM. -/
theorem ForeignLaid.unload (hK : K.Closed) (rs : List ElfPrgload) : ∀ {σ τ : Machine} {W : ℕ → Word}, ForeignLaid ok L v Q F σ W →
    Windowed L L σ τ W → (∀ r ∈ rs, r.Below) → (∀ q ∈ rs.flatMap ElfPrgload.walk, q ∈ Q) →
    Comp.Wp False (elfFreePrg K (v * 4096) rs) (fun _ t => Walked ok L v Q F σ W (∃ r ∈ rs, 0 < r.size) t) τ := by
  induction rs with
  | nil => exact fun h hw _ _ => .pure (.refl h hw (by simp))
  | cons r rs ih =>
    intro σ τ W h hw hbelow hQ
    have hr := hbelow r List.mem_cons_self
    have hfit := hr
    unfold ElfPrgload.Below kernelStart rmapStart at hfit
    rw [List.flatMap_cons] at hQ
    have hfirst : Comp.Wp False (elfFreePages K (v * 4096) r.size loopFuel 0 r.vaddr)
        (fun _ t => Walked ok L v Q F σ W (0 < r.size) t) τ :=
      h.pages hK (by unfold kernelStart rmapStart; omega) loopFuel hw rfl hr (by omega) fun q hq => hQ q (List.mem_append_left _ hq)
    refine .bind hfirst ?_
    rintro frames t ⟨σ', W', h', hw', hap, hkept, hopen⟩
    refine .bind (ih h' hw' (fun r' hr' => hbelow r' (List.mem_cons_of_mem r hr')) fun q hq => hQ q (List.mem_append_right _ hq)) ?_
    intro rest u hu
    refine .pure ?_
    have hdone := Walked.trans hap hkept hopen hu
    obtain ⟨σ'', W'', hall⟩ := hdone
    refine ⟨σ'', W'', hall.1, hall.2.1, hall.2.2.1, hall.2.2.2.1, ?_⟩
    rintro ⟨r', hr', hpos⟩
    rcases List.mem_cons.mp hr' with rfl | hr'
    · exact hall.2.2.2.2 (.inl hpos)
    · exact hall.2.2.2.2 (.inr ⟨r', hr', hpos⟩)

/-- The window is a page of the current VMM, which was free. -/
theorem Walked.window (h : Walked ok L v Q F σ W visited t) (hyes : visited) (hother : v ≠ σ.cr3) (hc : σ.cr3 ∈ L) :
    ∃ p < userPages, view σ.mem σ.cr3 p = none ∧ accessAt t.mem σ.cr3 p ≠ none := by
  obtain ⟨σ', W', hlaid, hw, hap, -, hopen⟩ := h
  obtain ⟨p, hp⟩ := hopen hyes
  have hcr3 : σ'.cr3 = σ.cr3 := by rw [Machine.cr3, hap.vmmCurrent, Machine.cr3]
  have hne : W' p ≠ 0#32 := by
    rw [hp]
    exact windowFlags_read.windowPte_ne_zero _
  obtain ⟨-, huser, hnone⟩ := hw.clear p hne
  rw [hcr3] at hnone
  have hview := hw.view_window hne
  rw [hcr3] at hview
  refine ⟨p, huser, ?_, ?_⟩
  · rw [← hap.view _ hc hother.symm p (Windowed.regular_of_user huser)]
    exact hnone
  · have hpres : (W' p).getFlags.getLsbD 0 = true := by
      rw [Word.getFlags_bit0, hp, windowPte_present]
      exact windowFlags_read.present
    rw [accessAt_eq, transAt, hview, Option.filter_some, if_pos hpres]
    exact Option.some_ne_none _

end Walk

end SysX
