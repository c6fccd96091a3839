import SysX.Foreign

/-! The dirty bit of a page (`vmm_get_dirty` and `vmm_set_dirty` of `arch/x86cpu/vmm.c`). -/
namespace SysX
open BitField

namespace Word

def setDirty (e : Word) (dirty : Bool) : Word := setBit e 6 dirty

variable (e : Word) (b : Bool)

theorem getLsbD_setDirty (i : ℕ) : (e.setDirty b).getLsbD i = if i = 6 then b else e.getLsbD i :=
  getLsbD_setBit e (by decide) b i

@[simp] theorem setDirty_dirty : (e.setDirty b).dirty = b := by
  rw [dirty, getLsbD_setDirty, if_pos rfl]

@[simp] theorem setDirty_present : (e.setDirty b).present = e.present := by
  rw [present, getLsbD_setDirty, if_neg (by decide)]
  rfl

@[simp] theorem setDirty_pgsz : (e.setDirty b).pgsz = e.pgsz := by
  rw [pgsz, getLsbD_setDirty, if_neg (by decide)]
  rfl

end Word

/-- A directory that cannot be opened makes every page look dirty. -/
def vmmGetDirty (K : Callees) (vmm va : ℕ) : Kernel Bool := do
  let pde := va / 4194304
  let pte := va / 4096 % 1024
  let pd ← openPd K vmm flagPresent
  if pd = 0 then pure true else do
  let e ← load (pd + 4 * pde)
  if e = 0#32 then do
    closeWin K vmm pd
    pure false
  else if e.pgsz then do
    closeWin K vmm pd
    pure e.dirty
  else do
    let pt ← openPt K vmm pd pde flagPresent
    if pt = 0 then do
      closeWin K vmm pd
      pure true
    else do
      let t ← load (pt + 4 * pte)
      closeWin K vmm pt
      closeWin K vmm pd
      pure t.dirty

/-- Both windows on a foreign VMM are read-only. -/
def vmmSetDirty (K : Callees) (vmm va : ℕ) (dirty : Bool) : Kernel Unit := do
  let pde := va / 4194304
  let pte := va / 4096 % 1024
  let pd ← openPd K vmm flagPresent
  if pd = 0 then pure () else do
  let e ← load (pd + 4 * pde)
  if e = 0#32 then closeWin K vmm pd
  else if e.pgsz then do
    update (pd + 4 * pde) fun e => e.setDirty dirty
    closeWin K vmm pd
  else do
    let pt ← openPt K vmm pd pde flagPresent
    if pt = 0 then closeWin K vmm pd
    else do
      let t ← load (pt + 4 * pte)
      Comp.when (t ≠ 0#32) (update (pt + 4 * pte) fun t => t.setDirty dirty)
      closeWin K vmm pt
      closeWin K vmm pd

/-- The dirty bit of the page at `p`. -/
def dirtyAt (m : ℕ → ℕ → Word) (pd p : ℕ) : Bool :=
  if (m pd (p / 1024)).pgsz then (m pd (p / 1024)).dirty else (pteAt m pd p).dirty

/-- `vmm_set_dirty` on the tables of a directory. -/
def setDirtyAt (s : Machine) (pd va : ℕ) (dirty : Bool) : Machine :=
  let i := va / 4194304
  let e := s.mem pd i
  if e.pgsz then s.set pd i (e.setDirty dirty)
  else
    let t := pteAt s.mem pd (va / 4096)
    if t = 0#32 then s else s.set e.pt (va / 4096 % 1024) (t.setDirty dirty)

section Current

variable {D L : Set ℕ} {K : Callees} {s : Machine} {va : ℕ}

theorem vmmGetDirty_cur (ht : Tables D L s) (hc : s.cr3 ∈ L) (hva : OffSlot va) :
    vmmGetDirty K s.vmmCurrent va s = some (dirtyAt s.mem s.cr3 (va / 4096), s) := by
  have hi := va_slot va
  rw [vmmGetDirty, Comp.bind_of_eq (openPd_cur rfl _), if_neg vmmPd_ne_zero,
    Comp.bind_of_eq ((ht.pageAt_pd hc false).load hva.lt), dirtyAt, hi]
  by_cases h0 : s.mem s.cr3 (va / 4194304) = 0#32
  · have hpte : pteAt s.mem s.cr3 (va / 4096) = 0#32 :=
      pteAt_of_not_hasTable (by rw [hi, h0]; exact Word.not_hasTable_zero)
    rw [if_pos h0, Comp.bind_of_eq (closeWin_cur rfl _), h0, hpte]
    rfl
  rw [if_neg h0]
  cases hs : (s.mem s.cr3 (va / 4194304)).pgsz with
  | true =>
    rw [if_pos rfl, if_pos rfl, Comp.bind_of_eq (closeWin_cur rfl _)]
    rfl
  | false =>
    rw [if_neg Bool.false_ne_true, if_neg Bool.false_ne_true,
      pteAt_of_hasTable (by rw [hi]; exact ⟨h0, hs⟩), hi,
      Comp.bind_of_eq (openPt_cur rfl _ _ _), if_neg (vmmPt_ne_zero _),
      Comp.bind_of_eq ((ht.pageAt_pt hc hva.lt hva.2 ⟨h0, hs⟩ false).load
        (Nat.mod_lt _ (by decide))), Comp.bind_of_eq (closeWin_cur rfl _),
      Comp.bind_of_eq (closeWin_cur rfl _), Comp.pure_apply]

theorem vmmSetDirty_cur (ht : Tables D L s) (hc : s.cr3 ∈ L) (hva : OffSlot va) (dirty : Bool) :
    vmmSetDirty K s.vmmCurrent va dirty s = some ((), setDirtyAt s s.cr3 va dirty) := by
  have hi := va_slot va
  have hpd := ht.pageAt_pd hc true
  rw [vmmSetDirty, Comp.bind_of_eq (openPd_cur rfl _), if_neg vmmPd_ne_zero,
    Comp.bind_of_eq (hpd.load hva.lt), setDirtyAt]
  by_cases h0 : s.mem s.cr3 (va / 4194304) = 0#32
  · have hpte : pteAt s.mem s.cr3 (va / 4096) = 0#32 :=
      pteAt_of_not_hasTable (by rw [hi, h0]; exact Word.not_hasTable_zero)
    rw [if_pos h0, closeWin_cur rfl]
    simp only [h0, hpte, if_true]
    rfl
  rw [if_neg h0]
  cases hs : (s.mem s.cr3 (va / 4194304)).pgsz with
  | true =>
    simp only [if_true]
    rw [Comp.bind_of_eq (hpd.update hva.lt _)]
    exact closeWin_cur rfl _
  | false =>
    have hj : va / 4096 % 1024 < 1024 := Nat.mod_lt _ (by decide)
    have hpt := ht.pageAt_pt hc hva.lt hva.2 ⟨h0, hs⟩ true
    simp only [Bool.false_eq_true, if_false]
    rw [Comp.bind_of_eq (openPt_cur rfl _ _ _), if_neg (vmmPt_ne_zero _),
      Comp.bind_of_eq (hpt.load hj), pteAt_of_hasTable (by rw [hi]; exact ⟨h0, hs⟩), hi]
    by_cases hz : s.mem (s.mem s.cr3 (va / 4194304)).pt (va / 4096 % 1024) = 0#32
    · rw [Comp.when_false (not_not.mpr hz), if_pos hz, Comp.pure_bind_apply, closeWins_cur rfl]
    · rw [Comp.when_true hz, if_neg hz, Comp.bind_of_eq (hpt.update hj _)]
      exact closeWins_cur rfl _ _

end Current

/-! What setting the dirty bit of a page changes. -/

/-- The page at `p` is a present one. -/
def presentAt (m : ℕ → ℕ → Word) (pd p : ℕ) : Bool :=
  if (m pd (p / 1024)).pgsz then (m pd (p / 1024)).present else (pteAt m pd p).present

/-- `p` is of the same page as `q`: the same 4 KiB page, or of the same 4 MiB page. -/
def SamePage (m : ℕ → ℕ → Word) (pd q p : ℕ) : Prop :=
  p = q ∨ (m pd (q / 1024)).pgsz = true ∧ p / 1024 = q / 1024

instance (m : ℕ → ℕ → Word) (pd q p : ℕ) : Decidable (SamePage m pd q p) :=
  inferInstanceAs (Decidable (_ ∨ _))

theorem samePage_huge {m : ℕ → ℕ → Word} {pd q p : ℕ} (h : (m pd (p / 1024)).pgsz = true) :
    SamePage m pd q p ↔ p / 1024 = q / 1024 := by
  constructor
  · rintro (rfl | hslot)
    · rfl
    · exact hslot.2
  · intro hslot
    rw [hslot] at h
    exact .inr ⟨h, hslot⟩

theorem samePage_small {m : ℕ → ℕ → Word} {pd q p : ℕ} (h : ¬(m pd (p / 1024)).pgsz = true) :
    SamePage m pd q p ↔ p = q := by
  constructor
  · rintro (hpq | hslot)
    · exact hpq
    · rw [hslot.2] at h
      exact absurd hslot.1 h
  · exact .inl

section Set

variable {D L : Set ℕ} {s : Machine} {v va p : ℕ}

theorem pgszAt_of_present {m : ℕ → ℕ → Word} (h : presentAt m v p = true) :
    pgszAt m v p = some (if (m v (p / 1024)).pgsz then 1 else 0) := by
  unfold presentAt at h
  unfold pgszAt
  split_ifs at h ⊢ with hs hz
  · rfl
  · exact absurd hz (Word.ne_zero_of_present h)
  · rfl

/-- Setting the bit of a present page either changes its directory entry or its table entry. -/
theorem setDirtyAt_cases (hpresent : presentAt s.mem v (va / 4096) = true) (b : Bool) :
    (s.mem v (va / 4194304)).pgsz = true ∧
        setDirtyAt s v va b = s.set v (va / 4194304) ((s.mem v (va / 4194304)).setDirty b) ∨
      (s.mem v (va / 4194304)).HasTable ∧ (pteAt s.mem v (va / 4096)).present = true ∧
        setDirtyAt s v va b = s.set (s.mem v (va / 4096 / 1024)).pt (va / 4096 % 1024)
          ((pteAt s.mem v (va / 4096)).setDirty b) := by
  have hi := va_slot va
  unfold presentAt at hpresent
  unfold setDirtyAt
  rw [hi] at hpresent ⊢
  dsimp only
  split_ifs at hpresent ⊢ with hs hz
  · exact .inl ⟨hs, rfl⟩
  · exact absurd hz (Word.ne_zero_of_present hpresent)
  · have htable : (s.mem v (va / 4194304)).HasTable := by
      by_contra h
      exact hz (pteAt_of_not_hasTable (by rw [hi]; exact h))
    exact .inr ⟨htable, hpresent, rfl⟩

theorem Tables.setDirtyAt (ht : Tables D L s) (hv : v ∈ L) (hva : OffSlot va)
    (hpresent : presentAt s.mem v (va / 4096) = true) (b : Bool) :
    Tables D L (SysX.setDirtyAt s v va b) := by
  rcases setDirtyAt_cases hpresent b with ⟨hs, heq⟩ | ⟨htable, -, heq⟩
  · rw [heq]
    apply ht.setPde hva.2
    apply Fits.of_not_hasTable
    intro h
    exact h.not_pgsz ((Word.setDirty_pgsz _ _).trans hs)
  · rw [heq, va_slot]
    exact ht.set (ht.notDir v hv _ hva.lt hva.2 htable) _ _

/-- The directory keeps its entries but for the dirty bit of a 4 MiB page. -/
theorem setDirtyAt_pde (ht : Tables D L s) (hv : v ∈ L) (hva : OffSlot va)
    (hpresent : presentAt s.mem v (va / 4096) = true) (b : Bool) (i : ℕ) :
    (setDirtyAt s v va b).mem v i =
      if (s.mem v i).pgsz = true ∧ i = va / 4194304 then (s.mem v i).setDirty b else s.mem v i := by
  rcases setDirtyAt_cases hpresent b with ⟨hs, heq⟩ | ⟨htable, -, heq⟩
  · rw [heq, Machine.set_mem]
    by_cases hi : i = va / 4194304
    · rw [if_pos ⟨rfl, hi⟩, if_pos ⟨hi ▸ hs, hi⟩, hi]
    · rw [if_neg fun h => hi h.2, if_neg fun h => hi h.2]
  · have hne := ht.pt_ne hv (ht.sub hv) hva.lt hva.2 htable
    rw [heq, va_slot, Machine.set_mem_of_ne _ _ _ _ hne.symm, if_neg]
    rintro ⟨hs, rfl⟩
    exact htable.not_pgsz hs

theorem setDirtyAt_pte (ht : Tables D L s) (hv : v ∈ L) (hva : OffSlot va)
    (hpresent : presentAt s.mem v (va / 4096) = true) (b : Bool) (hp : Regular p) :
    pteAt (setDirtyAt s v va b).mem v p =
      if (s.mem v (p / 1024)).HasTable ∧ p = va / 4096 then (pteAt s.mem v p).setDirty b
      else pteAt s.mem v p := by
  have hslot : p / 1024 < 1024 := by
    have := hp.1
    omega
  rcases setDirtyAt_cases hpresent b with ⟨hs, heq⟩ | ⟨htable, -, heq⟩
  · have hpde : ((setDirtyAt s v va b).mem v (p / 1024)).HasTable ↔ (s.mem v (p / 1024)).HasTable := by
      rw [setDirtyAt_pde ht hv hva hpresent]
      split_ifs with hsame
      · exact iff_of_false (fun h => h.not_pgsz ((Word.setDirty_pgsz _ _).trans hsame.1))
          fun h => h.not_pgsz hsame.1
      · rfl
    rw [if_neg]
    · by_cases hx : (s.mem v (p / 1024)).HasTable
      · have hne := ht.pt_ne hv (ht.sub hv) hslot hp.2 hx
        rw [pteAt_of_hasTable (hpde.mpr hx), pteAt_of_hasTable hx, setDirtyAt_pde ht hv hva hpresent,
          if_neg fun h => hx.not_pgsz h.1, heq, Machine.set_mem_of_ne _ _ _ _ hne]
      · rw [pteAt_of_not_hasTable fun h => hx (hpde.mp h), pteAt_of_not_hasTable hx]
    · rintro ⟨hx, rfl⟩
      rw [va_slot] at hx
      exact hx.not_pgsz hs
  · have hreg : Regular (va / 4096) := by
      have := hva.1
      have := hva.2
      exact ⟨by omega, by omega⟩
    rw [heq, ht.pteAt_set hv hreg (by rw [va_slot]; exact htable) _ hp]
    by_cases hpq : p = va / 4096
    · rw [if_pos hpq, if_pos ⟨by rw [hpq, va_slot]; exact htable, hpq⟩, hpq]
    · rw [if_neg hpq, if_neg fun h => hpq h.2]

/-- The size of every page stays, -/
theorem setDirtyAt_pgsz (ht : Tables D L s) (hv : v ∈ L) (hva : OffSlot va)
    (hpresent : presentAt s.mem v (va / 4096) = true) (b : Bool) (i : ℕ) :
    ((setDirtyAt s v va b).mem v i).pgsz = (s.mem v i).pgsz := by
  rw [setDirtyAt_pde ht hv hva hpresent]
  split_ifs
  · exact Word.setDirty_pgsz _ _
  · rfl

/-- a present page stays present, -/
theorem presentAt_setDirtyAt (ht : Tables D L s) (hv : v ∈ L) (hva : OffSlot va)
    (hpresent : presentAt s.mem v (va / 4096) = true) (b : Bool) (hp : Regular p) :
    presentAt (setDirtyAt s v va b).mem v p = presentAt s.mem v p := by
  unfold presentAt
  rw [setDirtyAt_pgsz ht hv hva hpresent, setDirtyAt_pde ht hv hva hpresent,
    setDirtyAt_pte ht hv hva hpresent b hp]
  split_ifs <;> simp

/-- and only the dirty bit of the page itself is set. -/
theorem dirtyAt_setDirtyAt (ht : Tables D L s) (hv : v ∈ L) (hva : OffSlot va)
    (hpresent : presentAt s.mem v (va / 4096) = true) (b : Bool) (hp : Regular p) :
    dirtyAt (setDirtyAt s v va b).mem v p =
      if SamePage s.mem v (va / 4096) p then b else dirtyAt s.mem v p := by
  unfold dirtyAt
  rw [setDirtyAt_pgsz ht hv hva hpresent, setDirtyAt_pde ht hv hva hpresent,
    setDirtyAt_pte ht hv hva hpresent b hp]
  unfold presentAt at hpresent
  rw [← va_slot]
  generalize va / 4096 = q at hpresent ⊢
  by_cases hs : (s.mem v (p / 1024)).pgsz = true
  · rw [if_pos hs, if_pos hs]
    by_cases hslot : p / 1024 = q / 1024
    · rw [if_pos ⟨hs, hslot⟩, if_pos ((samePage_huge hs).mpr hslot)]
      exact Word.setDirty_dirty _ _
    · rw [if_neg fun h => hslot h.2, if_neg fun h => hslot ((samePage_huge hs).mp h)]
  · rw [if_neg hs, if_neg hs]
    by_cases hpq : p = q
    · have htable : (s.mem v (p / 1024)).HasTable := by
        by_contra htable
        rw [← hpq, if_neg hs, pteAt_of_not_hasTable htable] at hpresent
        exact absurd hpresent (by decide)
      rw [if_pos ⟨htable, hpq⟩, if_pos ((samePage_small hs).mpr hpq)]
      exact Word.setDirty_dirty _ _
    · rw [if_neg fun h => hpq h.2, if_neg fun h => hpq ((samePage_small hs).mp h)]

end Set

/-! A foreign VMM. -/

section Foreign

variable {D L : Set ℕ} {s s₁ : Machine} {W : ℕ → Word} {K : Callees} {ok : Prop} {v n va : ℕ}

/-- `vmm_set_dirty` never returns where it reaches the entry of a foreign page: its windows are read-only. -/
theorem Windowed.vmmSetDirty_room (h : Windowed D L s s₁ W) (hK : K.Closed) (hv : v ∈ L) (hvc : v ≠ s.cr3)
    (hva : OffSlot va) (hg : Guard ok s s₁ (n + 2)) (hroom : Room s W 0 (walkWindows (s.mem v (va / 4194304))))
    (hpresent : presentAt s.mem v (va / 4096) = true) (b : Bool) :
    Comp.Wp False (vmmSetDirty K (v * 4096) va b) (fun _ _ => False) s₁ := by
  have hi := va_slot va
  unfold presentAt at hpresent
  rw [hi] at hpresent
  unfold vmmSetDirty
  refine h.foreign_walk False.elim windowFlags_read windowFlags_read hK hv hvc hva.lt hg hroom
    (fun h0 p t hd => ?_) (fun hs p t hd => ?_) fun he p r t hd => ?_
  · have hpte : pteAt s.mem v (va / 4096) = 0#32 :=
      pteAt_of_not_hasTable (by rw [hi, h0]; exact Word.not_hasTable_zero)
    rw [h0, hpte] at hpresent
    exact absurd hpresent (by decide)
  · refine .of_fault ?_ id
    rw [Comp.bind_apply, hd.windowed.update_readonly hva.lt
      (by rw [Function.update_self, windowPte_present]; rfl) (by rw [Function.update_self, windowPte_rw]; rfl)]
    rfl
  · have hpte : pteAt s.mem v (va / 4096) = s.mem (s.mem v (va / 4096 / 1024)).pt (va / 4096 % 1024) :=
      pteAt_of_hasTable (by rw [hi]; exact he)
    have hm := hd.windowed.mem_table hv hva.lt hva.2 (.inl hvc) he
    have hj : va / 4096 % 1024 < 1024 := Nat.mod_lt _ (by decide)
    rw [if_neg he.not_pgsz, hpte, hi] at hpresent
    refine .step ((hd.pageAt' windowFlags_read (Word.pt_lt _) false (by simp)).load hj) ?_
    rw [hm, Comp.when_true (Word.ne_zero_of_present hpresent)]
    refine .of_fault ?_ id
    rw [Comp.bind_apply, hd.windowed.update_readonly hj
      (by rw [Function.update_self, windowPte_present]; rfl) (by rw [Function.update_self, windowPte_rw]; rfl)]
    rfl

/-- Otherwise it returns without an effect. -/
theorem Windowed.vmmSetDirty_cramped (h : Windowed D L s s₁ W) (hK : K.Closed) (hv : v ∈ L) (hvc : v ≠ s.cr3)
    (hva : OffSlot va) (hg : Guard ok s s₁ (n + 2))
    (hcramped : ¬Room s W 0 (walkWindows (s.mem v (va / 4194304)))) (b : Bool) :
    Comp.Wp ok (vmmSetDirty K (v * 4096) va b) (fun _ t => Windowed D L s t W) s₁ := by
  have hcur : v * 4096 ≠ s.vmmCurrent := fun e => hvc (by rw [Machine.cr3, ← e]; omega)
  unfold vmmSetDirty
  refine h.foreign_walk_blocked windowFlags_read windowFlags_read hK hv hvc hva.lt hg hcramped h fun p t hd => ?_
  exact (hd.close windowFlags_read hK hcur).mono fun _ u hu => hu.1

theorem Windowed.vmmGetPgsz_cramped (h : Windowed D L s s₁ W) (hK : K.Closed) (hv : v ∈ L) (hvc : v ≠ s.cr3)
    (hva : OffSlot va) (hg : Guard ok s s₁ (n + 2))
    (hcramped : ¬Room s W 0 (walkWindows (s.mem v (va / 4194304)))) :
    Comp.Wp ok (vmmGetPgsz K (v * 4096) va) (fun r t => r = none ∧ Windowed D L s t W) s₁ := by
  have hcur : v * 4096 ≠ s.vmmCurrent := fun e => hvc (by rw [Machine.cr3, ← e]; omega)
  unfold vmmGetPgsz
  refine h.foreign_walk_blocked windowFlags_read windowFlags_read hK hv hvc hva.lt hg hcramped ⟨rfl, h⟩
    fun p t hd => ?_
  exact .bind (hd.close windowFlags_read hK hcur) fun _ u hu => .pure ⟨rfl, hu.1⟩

/-- `vmm_get_dirty` closes its windows on every path. -/
theorem Windowed.vmmGetDirty_foreign (h : Windowed D L s s₁ W) (hK : K.Closed) (hv : v ∈ L) (hvc : v ≠ s.cr3)
    (hva : OffSlot va) (hg : Guard ok s s₁ (n + 2)) :
    Comp.Wp ok (vmmGetDirty K (v * 4096) va) (fun _ t => Windowed D L s t W) s₁ := by
  have hcur : v * 4096 ≠ s.vmmCurrent := fun e => hvc (by rw [Machine.cr3, ← e]; omega)
  unfold vmmGetDirty
  by_cases hroom : Room s W 0 (walkWindows (s.mem v (va / 4194304)))
  · refine h.foreign_walk id windowFlags_read windowFlags_read hK hv hvc hva.lt hg hroom
      (fun h0 p t hd => ?_) (fun hs p t hd => ?_) fun he p r t hd => ?_
    · exact .bind (hd.close windowFlags_read hK hcur) fun _ u hu => .pure hu.1
    · exact .bind (hd.close windowFlags_read hK hcur) fun _ u hu => .pure hu.1
    · refine .step ((hd.pageAt' windowFlags_read (Word.pt_lt _) false (by simp)).load (Nat.mod_lt _ (by decide))) ?_
      rw [← Comp.bind_assoc]
      exact .bind (hd.close windowFlags_read windowFlags_read hK hcur) fun _ u hu => .pure hu.1
  · refine h.foreign_walk_blocked windowFlags_read windowFlags_read hK hv hvc hva.lt hg hroom h fun p t hd => ?_
    exact .bind (hd.close windowFlags_read hK hcur) fun _ u hu => .pure hu.1

end Foreign

end SysX
