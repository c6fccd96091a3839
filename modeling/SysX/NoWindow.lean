import SysX.ElfImage

/-!
`vmm_pgmap` on another VMM when there are no pages for the windows on its directory and on the page table.
-/
namespace SysX

section NoWindow

variable {ok : Prop} {D L : Set ℕ} {s t : Machine} {W : ℕ → Word} {v n p i f pa va : ℕ} {flags flags' : Word} {K : Callees}

/-- There is no page for a window behind the one on the directory. -/
theorem PdOpen.openPt_blocked (hd : PdOpen ok D L s W flags v (n + 1) p t) (hfl : WindowFlags flags) (hfl' : WindowFlags flags')
    (hK : K.Closed) (hv : v ∈ L) (hcur : v * 4096 ≠ s.vmmCurrent) (hi : i < 1024)
    (hno : ∀ r, p < r → ¬ FreePage s (Function.update W p (windowPte flags (v * 4096))) r) :
    Comp.Wp ok (openPt K (v * 4096) (p * 4096) i flags') (fun a u => a = 0 ∧ u = t) t := by
  have hlt := (hd.windowed.logical.dir v (hd.windowed.logical.sub hv)).2
  have hp := hd.user
  unfold userPages at hp
  have hlo : w32 (p * 4096 + 4096) = (p + 1) * 4096 := by
    rw [w32_of_lt (by omega)]
    omega
  obtain ⟨K', hK', -⟩ := hK
  have hopen := hd.windowed.openWindow hfl' K' (q := p + 1) (by omega) (Nat.mul_mod_left (t.mem v i).pt 4096) hd.guard
  have hpt : openPt K (v * 4096) (p * 4096) i flags' t = SysX.vmmAllocMap K' s.vmmCurrent
      ((t.mem v i).pt * 4096) 4096 ((p + 1) * 4096) kernelStart 0 0 false flags' t := by
    rw [openPt, Comp.read_bind, hd.windowed.vmmCurrent_eq, if_pos hcur,
      Comp.bind_of_eq ((hd.pageAt hfl hlt false (by simp)).load hi), hlo, hK']
  refine .congr hpt (hopen.mono fun a u hu => ?_)
  rcases hu with ⟨ha, hu, -⟩ | ⟨r, -, hle, hfree, -⟩
  · exact ⟨ha, hu⟩
  · exact absurd hfree (hno r hle)

/-- What `vmm_pgmap` has done by the time that it finds no window: nothing, or a new page table with the old content of its
frame. -/
def Refused (s : Machine) (v i : ℕ) (σ : Machine) : Prop :=
  σ = s ∨ ¬ (s.mem v i).HasTable ∧ ∃ f < s.pmmFrames, ¬ used s f ∧
    σ = (s.setBitmap f true).set v i (newTableEntry (s.mem v i) f)

theorem Refused.rest {σ : Machine} (h : Refused s v i σ) : SameRest s σ := by
  rcases h with rfl | ⟨-, f, -, -, rfl⟩
  · exact .refl _
  · rfl

theorem Settled.mapRefused (h : Settled ok D L (n + 3) s) (hK : K.Closed) (hv : v ∈ L) (hvc : v ≠ s.cr3) (hva : OffSlot va)
    (hroom : ¬ Room s (fun _ => 0#32) 0 2) (pa : ℕ) (flags : Word) :
    Comp.Wp ok (vmmPgmap K (v * 4096) pa va 0 flags) (fun _ t => ∃ σ, Refused s v (va / 4194304) σ ∧
      Windowed D L σ t (fun _ => 0#32) ∧ Settled ok D L n t) s := by
  have hcur := h.foreign hvc
  have hDv := h.tables.sub hv
  have hlt := (h.tables.dir v hDv).2
  have hcall : vmmPgmap K (v * 4096) pa va 0 flags = vmmPgmapSmall K (v * 4096) pa va flags := if_neg hva.not_rmap
  have hdone : ∀ (σ t : Machine), Refused s v (va / 4194304) σ → Windowed D L σ t (fun _ => 0#32) → Guard ok σ t n →
      ∃ σ, Refused s v (va / 4194304) σ ∧ Windowed D L σ t (fun _ => 0#32) ∧ Settled ok D L n t := fun σ t hσ hw hg =>
    ⟨σ, hσ, hw, h.windowed hσ.rest hw hg⟩
  -- from the window on the directory on, the one on the page table is refused
  have hlast : ∀ (σ t : Machine) (p : ℕ) (c : ℕ → Kernel Unit), Refused s v (va / 4194304) σ →
      PdOpen ok D L σ (fun _ => 0#32) (flagPresent ||| flagRw) v (n + 1) p t → σ.vmmCurrent = s.vmmCurrent →
      (∀ r, p < r → ¬ FreePage σ (Function.update (fun _ => 0#32) p (windowPte (flagPresent ||| flagRw) (v * 4096))) r) →
      Comp.Wp ok (do
        let pt ← openPt K (v * 4096) (p * 4096) (va / 4194304) (flagPresent ||| flagRw)
        if pt = 0 then closeWin K (v * 4096) (p * 4096) else c pt) (fun _ t => ∃ σ, Refused s v (va / 4194304) σ ∧
        Windowed D L σ t (fun _ => 0#32) ∧ Settled ok D L n t) t := by
    intro σ t p c hσ hd hcurσ hno
    have hcur' : v * 4096 ≠ σ.vmmCurrent := by rwa [hcurσ]
    refine .bind (hd.openPt_blocked windowFlags_write windowFlags_write hK hv hcur' hva.lt hno) ?_
    rintro a u ⟨ha, hu⟩
    rw [if_pos ha, hu]
    exact (hd.close windowFlags_write hK hcur').mono fun _ u hu => hdone σ u hσ hu.1 (hu.2.mono (Nat.le_succ n))
  obtain ⟨K', hK', -⟩ := hK
  have hopen := h.refl.openWindow windowFlags_write K' (q := 0) (by decide) (Nat.mul_mod_left v 4096) h.guard
  rw [Nat.zero_mul] at hopen
  have hpd : openPd K (v * 4096) (flagPresent ||| flagRw) s =
      SysX.vmmAllocMap K' s.vmmCurrent (v * 4096) 4096 0 kernelStart 0 0 false (flagPresent ||| flagRw) s := by
    rw [openPd, Comp.read_bind, if_pos hcur, hK']
  rw [hcall]
  unfold vmmPgmapSmall
  refine .bind (.congr hpd hopen) fun a t ht => ?_
  rcases ht with ⟨ha, rfl, -⟩ | ⟨p, ha, -, hfree, -, hw, hg⟩
  · rw [if_pos ha]
    exact .pure (hdone t t (.inl rfl) h.refl (h.guard.mono (by omega)))
  have hd : PdOpen ok D L s (fun _ => 0#32) (flagPresent ||| flagRw) v (n + 1 + 1) p t := ⟨hfree.1, hfree.2.1, hfree.2.2.1, hw, hg⟩
  have hm : t.mem v (va / 4194304) = s.mem v (va / 4194304) := congrFun (hw.mem_dir hDv hvc) _
  -- a second free page would have been room enough
  have hno : ∀ r, p < r → ¬ FreePage s (Function.update (fun _ => 0#32) p (windowPte (flagPresent ||| flagRw) (v * 4096))) r := by
    intro r hpr hr
    refine hroom ⟨[p, r], rfl, by simp [hpr], fun r' hr' => ⟨Nat.zero_le _, ?_⟩⟩
    rcases List.mem_pair.mp hr' with rfl | rfl
    · exact hfree
    · exact ⟨hr.1, hr.2.1, rfl, hr.2.2.2⟩
  rw [ha, if_neg hfree.addr_ne_zero]
  refine .step ((hd.pageAt windowFlags_write hlt false (by simp)).load hva.lt) ?_
  rw [hm]
  refine .ite (fun _ => hlast s t p _ (.inl rfl) { hd with guard := hg.mono (by omega) } rfl hno) fun he => ?_
  rcases pmmAllocFree_one hw.actual.frames with ⟨hal, hfull⟩ | ⟨f, hf, hunused, hal⟩
  · have hok : ¬ ok := fun hok => by
      obtain ⟨f, hf, hunused⟩ := (hd.guard.frames hok).exists_free
      exact hunused (hfull f hf)
    exact .step hal (.of_fault (hd.oom hv hvc hva (hd.guard.null hok)) hok)
  · have he' : ¬ (s.mem v (va / 4194304)).HasTable := he
    have hfs : ¬ SysX.used s f := fun hu => hunused (hw.used f hu)
    have hff : t.pmmFrames = s.pmmFrames := by rw [hw.rest]
    obtain ⟨hentry, hrun⟩ := hd.entry_run hv hvc hva hf hunused (s.mem v (va / 4194304))
    refine .step hal ?_
    dsimp only
    unfold pgmapNewTable
    refine .congr (hrun _) (hlast _ _ p _ (.inr ⟨he', f, hff ▸ hf, hfs, rfl⟩) hentry rfl fun r hpr hr => hno r hpr ?_)
    obtain ⟨hpos, huser, hzero, hnone⟩ := hr
    refine ⟨hpos, huser, hzero, ?_⟩
    rw [← hnone]
    exact ((h.tables.alloc f).view_setAside h.cur hDv (.inl hvc) _ huser).symm

end NoWindow

end SysX
