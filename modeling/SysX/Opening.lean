import SysX.Window
import SysX.FreeSpace

/-! Opening a window with `vmm_alloc_map` and closing it with `vmm_pgunmap`. -/
namespace SysX

/-- Flags a window is mapped with: present, supervisor, no trap. -/
structure WindowFlags (flags : Word) : Prop where
  present : flags.getLsbD 0 = true
  user : flags.getLsbD 2 = false
  trapped : flags.getLsbD 6 = false

theorem windowFlags_read : WindowFlags flagPresent := ⟨rfl, rfl, rfl⟩

theorem windowFlags_write : WindowFlags (flagPresent ||| flagRw) := ⟨rfl, rfl, rfl⟩

/-- The entry of a window onto the physical address `pa`. -/
def windowPte (flags : Word) (pa : ℕ) : Word := Word.fillPte 0#32 flags pa

@[simp] theorem windowPte_present (flags : Word) (pa : ℕ) :
    (windowPte flags pa).present = flags.getLsbD 0 := Word.fillPte_present _ _ _

@[simp] theorem windowPte_rw (flags : Word) (pa : ℕ) : (windowPte flags pa).rw = flags.getLsbD 1 :=
  Word.fillPte_rw _ _ _

@[simp] theorem windowPte_trapped (flags : Word) (pa : ℕ) :
    (windowPte flags pa).trapped = flags.getLsbD 6 := Word.fillPte_trapped _ _ _

@[simp] theorem windowPte_pt (flags : Word) (pa : ℕ) :
    (windowPte flags pa).pt = pa / 4096 % 1048576 := Word.fillPte_pt _ _ _

theorem WindowFlags.windowPte_ne_zero {flags : Word} (h : WindowFlags flags) (pa : ℕ) :
    windowPte flags pa ≠ 0#32 :=
  Word.ne_zero_of_present ((windowPte_present _ _).trans h.present)

/-- A page a window may be opened at: not page 0, below the recursive slot, and unmapped. -/
def FreePage (s : Machine) (W : ℕ → Word) (p : ℕ) : Prop :=
  1 ≤ p ∧ p < userPages ∧ W p = 0#32 ∧ view s.mem s.cr3 p = none

/-- At least `n` frames are free. -/
def FreeFrames (s : Machine) (n : ℕ) : Prop :=
  ∃ fs : List ℕ, fs.length = n ∧ fs.Nodup ∧ ∀ f ∈ fs, f < s.pmmFrames ∧ ¬ used s f

theorem FreeFrames.alloc {s : Machine} {n : ℕ} (h : FreeFrames s (n + 1)) (f : ℕ) :
    FreeFrames (s.setBitmap f true) n := by
  obtain ⟨fs, hlen, hnd, hfs⟩ := h
  have hle : n ≤ (fs.erase f).length := by
    have : fs.length - 1 ≤ (fs.erase f).length := List.le_length_erase
    omega
  refine ⟨(fs.erase f).take n, by rw [List.length_take, Nat.min_eq_left hle],
    (hnd.erase f).take, fun g hg => ?_⟩
  have hg' := (List.take_sublist n _).mem hg
  obtain ⟨hgf, hmem⟩ := (hnd.mem_erase_iff).mp hg'
  refine ⟨(hfs g hmem).1, fun hu => ?_⟩
  rcases (used_alloc s f g).mp hu with hu | hu
  · exact hgf hu
  · exact (hfs g hmem).2 hu

theorem FreeFrames.mono {s : Machine} {m n : ℕ} (h : FreeFrames s n) (hm : m ≤ n) :
    FreeFrames s m := by
  obtain ⟨fs, hlen, hnd, hfs⟩ := h
  exact ⟨fs.take m, by rw [List.length_take]; omega, hnd.take, fun f hf =>
    hfs f ((List.take_sublist m _).mem hf)⟩

theorem FreeFrames.exists_free {s : Machine} {n : ℕ} (h : FreeFrames s (n + 1)) :
    ∃ f < s.pmmFrames, ¬ used s f := by
  obtain ⟨fs, hlen, -, hfs⟩ := h
  cases fs with
  | nil => cases hlen
  | cons f fs => exact ⟨f, hfs f (by simp)⟩

namespace Windowed

variable {D L : Set ℕ} {s s₁ : Machine} {W : ℕ → Word}

theorem regular_of_user {p : ℕ} (h : p < userPages) : Regular p := by
  unfold userPages at h
  exact ⟨by omega, by omega⟩

/-- Pages that look unmapped are free. -/
theorem freePage_iff (h : Windowed D L s s₁ W) {p : ℕ} (hp : p < userPages) :
    view s₁.mem s.cr3 p = none ↔ W p = 0#32 ∧ view s.mem s.cr3 p = none := by
  by_cases hw : W p = 0#32
  · rw [h.view_cur (regular_of_user hp) hw]
    simp [hw]
  · rw [h.view_window hw]
    simp [hw]

/-- An empty slot gains an empty page table. -/
theorem grow (h : Windowed D L s s₁ W) {i f : ℕ} (hi : i < 767) (hz : s₁.mem s.cr3 i = 0#32)
    (hf : f < s₁.pmmFrames) (hfree : ¬ SysX.used s₁ f) :
    Windowed D L s (newTableAt s₁ s.cr3 i f) W := by
  have hf' : f < 1048576 := Nat.lt_of_lt_of_le hf h.actual.frames
  obtain ⟨hfD, hfT⟩ := h.actual.fresh hfree
  have hcf : s.cr3 ≠ f := fun e => hfD (e ▸ h.logical.sub h.cur)
  have hself : (newTableAt s₁ s.cr3 i f).mem s.cr3 i = newTableEntry 0#32 f := by
    rw [newTableAt, Machine.setFrame_mem_of_ne _ _ hcf, hz]
    exact Machine.set_mem_self _ _ _ _
  have hother : ∀ j, j ≠ i → (newTableAt s₁ s.cr3 i f).mem s.cr3 j = s₁.mem s.cr3 j := by
    intro j hj
    rw [newTableAt, Machine.setFrame_mem_of_ne _ _ hcf]
    exact Machine.set_mem_of_ne_index _ _ _ _ _ hj
  have hframe : ∀ g, g ≠ f → g ≠ s.cr3 → (newTableAt s₁ s.cr3 i f).mem g = s₁.mem g := by
    intro g hg hgc
    rw [newTableAt, Machine.setFrame_mem_of_ne _ _ hg]
    exact Machine.set_mem_of_ne _ _ _ _ hgc
  have hpte : ∀ p < userPages, pteAt (newTableAt s₁ s.cr3 i f).mem s.cr3 p = pteAt s₁.mem s.cr3 p := by
    intro p hp
    by_cases hpi : p / 1024 = i
    · rw [pteAt_of_hasTable (by rw [hpi, hself]; exact newTableEntry_hasTable _ f),
        pteAt_of_not_hasTable (by rw [hpi, hz]; exact Word.not_hasTable_zero), hpi, hself,
        newTableEntry_pt _ hf', newTableAt, Machine.setFrame_mem_self]
    · unfold pteAt
      rw [hother _ hpi]
      split_ifs with hx
      · have hj := userPages_slot hp
        rw [hframe _ (hfT _ (h.cr3_eq ▸ h.cur₁) _ (by omega) (by omega) hx)
          (h.actual.pt_ne (h.cr3_eq ▸ h.cur₁) (h.logical.sub h.cur) (by omega) (by omega) hx)]
      · rfl
  have hbm : ∀ g, SysX.used (newTableAt s₁ s.cr3 i f) g ↔ g = f ∨ SysX.used s₁ g := fun g =>
    used_alloc s₁ f g
  constructor
  case logical => exact h.logical
  case actual => exact h.actual.newTableAt (by omega) hf hfree
  case cur => exact h.cur
  case rest =>
    conv_lhs => rw [h.rest]
    rfl
  case used => exact fun g hg => (hbm g).mpr (.inr (h.used g hg))
  case leak =>
    intro g hg
    rcases (hbm g).mp hg with hgf | hg
    · refine .inr ⟨i, hi, ?_⟩
      rw [hself, newTableEntry_pt _ hf']
      exact ⟨newTableEntry_hasTable _ f, hgf.symm⟩
    · refine (h.leak g hg).imp_right ?_
      rintro ⟨j, hj, hx, he⟩
      refine ⟨j, hj, ?_⟩
      have hji : j ≠ i := fun e => by
        rw [e, hz] at hx
        exact Word.not_hasTable_zero hx
      rw [hother j hji]
      exact ⟨hx, he⟩
  case slot =>
    intro j
    by_cases hj : j = i
    · rw [hj, hself]
      have hzs : s.mem s.cr3 i = 0#32 := by
        rw [← h.slot_of_not_hasTable (by rw [hz]; exact Word.not_hasTable_zero), hz]
      refine .inr ⟨hi, hzs, newTableEntry_hasTable _ f, fun hu => hfree ?_⟩
      rw [newTableEntry_pt _ hf'] at hu
      exact h.used f hu
    · rw [hother j hj]
      exact h.slot j
  case pte => exact fun p hp => (hpte p hp).trans (h.pte p hp)
  case clear => exact h.clear
  case frame =>
    intro g hg
    have hcr : (newTableAt s₁ s.cr3 i f).cr3 = s.cr3 := h.cr3_eq
    have hgc : g ≠ s.cr3 := fun e => hg.1 (by rw [hcr, e])
    have hgf : g ≠ f := by
      have := hg.2 i hi (by rw [hcr, hself]; exact newTableEntry_hasTable _ f)
      rw [hcr, hself, newTableEntry_pt _ hf'] at this
      exact this.symm
    rw [hframe g hgf hgc]
    refine h.frame g ⟨by rw [h.cr3_eq]; exact hgc, fun j hj hx => ?_⟩
    rw [h.cr3_eq] at hx ⊢
    have hji : j ≠ i := fun e => by
      rw [e, hz] at hx
      exact Word.not_hasTable_zero hx
    have := hg.2 j hj (by rw [hcr, hother j hji]; exact hx)
    rwa [hcr, hother j hji] at this

/-- The entry of a page that is unmapped without windows changes. -/
theorem place (h : Windowed D L s s₁ W) {p : ℕ} (h1 : 1 ≤ p) (hp : p < userPages)
    (hv : view s.mem s.cr3 p = none) (ht : (s₁.mem s.cr3 (p / 1024)).HasTable) (d : Word) :
    Windowed D L s (s₁.set (s₁.mem s.cr3 (p / 1024)).pt (p % 1024) d) (Function.update W p d) := by
  have hi := userPages_slot hp
  have hcL : s.cr3 ∈ L := h.cur
  have hD : (s₁.mem s.cr3 (p / 1024)).pt ∉ D :=
    h.actual.notDir _ hcL _ (by omega) (by omega) ht
  have hm : (s₁.set (s₁.mem s.cr3 (p / 1024)).pt (p % 1024) d).mem s.cr3 = s₁.mem s.cr3 :=
    Machine.set_mem_of_ne _ _ _ _
      (h.actual.pt_ne hcL (h.logical.sub hcL) (by omega) (by omega) ht).symm
  constructor
  case logical => exact h.logical
  case actual => exact h.actual.set hD _ _
  case cur => exact h.cur
  case rest =>
    conv_lhs => rw [h.rest]
    rfl
  case used => exact h.used
  case leak =>
    rw [hm]
    exact h.leak
  case slot =>
    rw [hm]
    exact h.slot
  case pte =>
    intro q hq
    rw [h.actual.pteAt_set hcL (regular_of_user hp) ht d (regular_of_user hq),
      Function.update_apply]
    by_cases hqp : q = p
    · subst hqp
      rw [if_pos rfl, if_pos rfl, (view_eq_none.mp hv).2]
      split_ifs with hd
      · exact hd
      · rfl
    · rw [if_neg hqp, if_neg hqp]
      exact h.pte q hq
  case clear =>
    intro q hw
    rw [Function.update_apply] at hw
    by_cases hqp : q = p
    · exact hqp ▸ ⟨h1, hp, hv⟩
    · rw [if_neg hqp] at hw
      exact h.clear q hw
  case frame =>
    intro g hg
    have hcr : (s₁.set (s₁.mem s.cr3 (p / 1024)).pt (p % 1024) d).cr3 = s.cr3 := h.cr3_eq
    have hgt := hg.2 (p / 1024) hi (by rw [hcr, hm]; exact ht)
    rw [hcr, hm] at hgt
    rw [Machine.set_mem_of_ne _ _ _ _ hgt.symm]
    refine h.frame g ⟨by rw [h.cr3_eq, ← hcr]; exact hg.1, fun j hj hx => ?_⟩
    rw [h.cr3_eq] at hx ⊢
    have := hg.2 j hj (by rw [hcr, hm]; exact hx)
    rwa [hcr, hm] at this

/-- `vmm_pgunmap` of a window. -/
theorem close (h : Windowed D L s s₁ W) (K : Callees) {p : ℕ} (hw : W p ≠ 0#32)
    (hu : (W p).trapped = false) : ∃ t, vmmPgunmap K s.vmmCurrent (p * 4096) 0 s₁ = some ((), t) ∧
      t = s₁.set (s₁.mem s.cr3 (p / 1024)).pt (p % 1024) 0#32 ∧
      Windowed D L s t (Function.update W p 0#32) := by
  obtain ⟨h1, hp, hv⟩ := h.clear p hw
  have ht := h.hasTable_window hw
  have hi := page_slot p
  have hj := page_div p
  have hoff : OffSlot (p * 4096) := by
    have := userPages_slot hp
    unfold userPages at hp
    exact ⟨by omega, by omega⟩
  have hrun := vmmPgunmapSmall_cur_table (K := K) h.actual h.cur₁ hoff
    (by rw [hi, h.cr3_eq]; exact ht) (by rw [hj, h.cr3_eq, h.pte p hp, if_neg hw]; exact hu)
  rw [h.vmmCurrent_eq, h.cr3_eq, hi, hj] at hrun
  refine ⟨_, ?_, rfl, h.place h1 hp hv ht _⟩
  have hreg : ¬ (rmapStart ≤ p * 4096 ∧ p * 4096 < rmapEnd) := by
    unfold userPages at hp
    unfold rmapStart
    omega
  rw [vmmPgunmap, if_neg hreg]
  exact hrun

theorem nullGuard (h : Windowed D L s s₁ W) (hn : NullGuard s) : NullGuard s₁ := by
  have hw : W 0 = 0#32 := by
    by_contra hw
    have := (h.clear 0 hw).1
    omega
  have he : s₁.mem s.cr3 0 = s.mem s.cr3 0 := h.slot_of_ne_zero hn.table.1
  refine ⟨by rw [h.cr3_eq, he]; exact hn.table, ?_⟩
  rw [h.cr3_eq, h.pte 0 (by decide), if_pos hw]
  exact hn.pte

end Windowed

/-- What excludes a fault for want of frames: enough free frames where `ok` demands it, and a fault
at page 0 where it does not. -/
structure Guard (ok : Prop) (s s₁ : Machine) (n : ℕ) : Prop where
  frames : ok → FreeFrames s₁ n
  null : ¬ ok → NullGuard s

theorem Guard.mono {ok : Prop} {s s₁ : Machine} {m n : ℕ} (h : Guard ok s s₁ n) (hm : m ≤ n) :
    Guard ok s s₁ m := ⟨fun ho => (h.frames ho).mono hm, h.null⟩

/-! The search for free pages. -/

section FirstFree

variable {D L : Set ℕ} {s : Machine}

/-- The run of `n` pages from `r` on is unmapped. -/
def FreeRun (s : Machine) (n r : ℕ) : Prop := ∀ k < n, view s.mem s.cr3 (r + k) = none

/-- The start page of a search from the page `q` on: page 0 is left out. -/
def firstPage (q : ℕ) : ℕ := if q = 0 then 1 else q

/-- The search returns the first run of `n` unmapped pages, or zero when there is none. -/
theorem vmmFirstFree_cur (K : Callees) (ht : Tables D L s) (hc : s.cr3 ∈ L) (vaEnd : ℕ) {q n : ℕ}
    (hn : 0 < n) (hn' : n < 1048576) (hq : q < 1048576) (hend : vaEnd < 4294967296) :
    ∃ a, vmmFirstFree K s.vmmCurrent (q * 4096) vaEnd (n * 4096) 0 false s = some (a, s) ∧
      ((a = 0 ∧ ∀ r, firstPage q ≤ r → r + n ≤ vaEnd / 4096 → ¬ FreeRun s n r) ∨
        ∃ r, a = r * 4096 ∧ firstPage q ≤ r ∧ r + n ≤ vaEnd / 4096 ∧ FreeRun s n r ∧
          ∀ r', firstPage q ≤ r' → r' < r → ¬ FreeRun s n r') := by
  have hpages : pages (n * 4096) = n := by
    unfold pages
    omega
  have hlow : ∀ r, firstPage q ≤ r ↔ max 4096 ((q * 4096 + 4095) / 4096 * 4096) ≤ r * 4096 := by
    intro r
    unfold firstPage
    split_ifs <;> omega
  have vacant : ∀ r, firstPage q ≤ r → r + n ≤ vaEnd / 4096 → FreeRun s n r →
      Vacant s (q * 4096) vaEnd (n * 4096) (r * 4096) := by
    intro r hr hlt hrun
    refine ⟨by omega, (hlow r).mp hr, by rw [hpages]; omega, fun k hk => ?_⟩
    rw [hpages] at hk
    rw [page_div]
    exact hrun k hk
  obtain ⟨a, hrun, ⟨ha, hno⟩ | ⟨ha, hleast⟩⟩ := vmmFirstFree_up (K := K)
    (ht.walkable hc) (show q * 4096 ≤ 4294963200 by omega) hend (show 0 < n * 4096 by omega) (by omega)
  · exact ⟨a, hrun, .inl ⟨ha, fun r hr hlt hfree => hno _ (vacant r hr hlt hfree)⟩⟩
  · have hv : Vacant s (q * 4096) vaEnd (n * 4096) a := ha
    have haddr := hv.eq_mul
    have hupper := hv.upper
    have hlower := hv.lower
    have hfree := hv.unmapped
    rw [hpages] at hupper hfree
    rw [haddr] at hlower
    refine ⟨a, hrun, .inr ⟨a / 4096, haddr, (hlow _).mpr hlower, by omega, hfree, fun r hr hlt hrun' => ?_⟩⟩
    have hle := hleast (vacant r hr (by omega) hrun')
    omega

end FirstFree

/-! Mapping the pages found. -/

section Map

variable {K : Callees} {vmm pa va vaEnd fuel : ℕ} {flags : Word}

theorem vmmMapLoop_small (hpa : pa % 4096 = 0) (hva : va % 4096 = 0) (hend : va + 4096 ≤ vaEnd)
    (hlt : vaEnd < 4294967296) :
    vmmMapLoop K vmm 0 flags vaEnd (fuel + 1) pa va = (do
      vmmPgmap K vmm pa va 0 flags
      vmmMapLoop K vmm 0 flags vaEnd fuel (w32 (pa + 4096)) (va + 4096)) := by
  have hw : w32 (va + 4096) = va + 4096 := w32_of_lt (by omega)
  have hpick : vmmMapPick pa va vaEnd 0 = some 0 := by
    simp only [vmmMapPick, vmmPgsz]
    rw [hw, if_neg (by omega)]
  rw [vmmMapLoop, if_pos (by omega), hpick]
  simp only [vmmPgsz, hw]

theorem vmmMapLoop_done : vmmMapLoop K vmm 0 flags vaEnd (fuel + 1) pa vaEnd = pure vaEnd := by
  rw [vmmMapLoop, if_neg (Nat.lt_irrefl _)]

/-- `vmm_map` of one small page. -/
theorem vmmMap_one (hpa : pa % 4096 = 0) (hva : va % 4096 = 0) (hlt : va + 4096 < 4294967296) :
    vmmMap K vmm pa va 4096 0 flags = (do
      vmmPgmap K vmm pa va 0 flags
      pure va) := by
  have hend : w32 (va + 4096) = va + 4096 := w32_of_lt hlt
  have hres : w32 (sub32 (va + 4096) 4096 + 0) = va := by
    unfold sub32 w32
    omega
  have hloop : vmmMapLoop K vmm 0 flags (va + 4096) loopFuel pa va = (do
      vmmPgmap K vmm pa va 0 flags
      pure (va + 4096)) := by
    obtain ⟨k, hk⟩ : ∃ k, loopFuel = k + 1 + 1 := ⟨4294967294, by unfold loopFuel; omega⟩
    rw [hk, vmmMapLoop_small hpa hva (Nat.le_refl _) hlt, vmmMapLoop_done]
  have h0 : ¬ vmmPgszNum ≤ 0 := by decide
  have h1 : ¬ (0 ≠ 0 ∧ 0 < sub32 0 (va - 0)) := fun h => h.1 rfl
  have h2 : w32 (4096 + 0) = 4096 := rfl
  have h3 : ¬ 4096 % 4096 ≠ 0 := fun h => h rfl
  have h4 : ¬ (0 ≠ 0 ∧ 4096 < vmmPgsz 0) := fun h => h.1 rfl
  simp only [vmmMap]
  rw [hpa, hva, if_neg h0, if_neg h1, h2, if_neg h3, if_neg h4, Nat.sub_zero, Nat.sub_zero, hend,
    hloop]
  simp only [Comp.bind_assoc, Comp.pure_bind, hres]

/-- `vmm_map` of two small pages. -/
theorem vmmMap_two (hpa : pa % 4096 = 0) (hva : va % 4096 = 0) (hlt : va + 8192 < 4294967296) :
    vmmMap K vmm pa va 8192 0 flags = (do
      vmmPgmap K vmm pa va 0 flags
      vmmPgmap K vmm (w32 (pa + 4096)) (va + 4096) 0 flags
      pure va) := by
  have hend : w32 (va + 8192) = va + 8192 := w32_of_lt hlt
  have hres : w32 (sub32 (va + 8192) 8192 + 0) = va := by
    unfold sub32 w32
    omega
  have hloop : vmmMapLoop K vmm 0 flags (va + 8192) loopFuel pa va = (do
      vmmPgmap K vmm pa va 0 flags
      vmmPgmap K vmm (w32 (pa + 4096)) (va + 4096) 0 flags
      pure (va + 8192)) := by
    obtain ⟨k, hk⟩ : ∃ k, loopFuel = k + 1 + 1 + 1 := ⟨4294967293, by unfold loopFuel; omega⟩
    rw [hk, vmmMapLoop_small hpa hva (by omega) hlt,
      vmmMapLoop_small (by unfold w32; omega) (by omega) (by omega) hlt,
      show va + 4096 + 4096 = va + 8192 by omega, vmmMapLoop_done]
  have h0 : ¬ vmmPgszNum ≤ 0 := by decide
  have h1 : ¬ (0 ≠ 0 ∧ 0 < sub32 0 (va - 0)) := fun h => h.1 rfl
  have h2 : w32 (8192 + 0) = 8192 := rfl
  have h3 : ¬ 8192 % 4096 ≠ 0 := fun h => h rfl
  have h4 : ¬ (0 ≠ 0 ∧ 8192 < vmmPgsz 0) := fun h => h.1 rfl
  simp only [vmmMap]
  rw [hpa, hva, if_neg h0, if_neg h1, h2, if_neg h3, if_neg h4, Nat.sub_zero, Nat.sub_zero, hend,
    hloop]
  simp only [Comp.bind_assoc, Comp.pure_bind, hres]

end Map

/-! Opening a window. -/

/-- `vmm_alloc_map` for a page-aligned physical address. -/
theorem vmmAllocMap_aligned {K : Callees} {vmm pa sz lo hi align idx : ℕ} {reverse : Bool}
    {flags : Word} (hpa : pa % 4096 = 0) (hsz : sz < 4294967296) :
    vmmAllocMap K vmm pa sz lo hi align idx reverse flags = (do
      let vaddr ← vmmFirstFree K vmm lo hi sz align reverse
      if vaddr = 0 then pure 0
      else do
        let _ ← vmmMap K vmm pa vaddr sz idx flags
        pure (w32 vaddr)) := by
  have hw : w32 (sz + 0) = sz := w32_of_lt hsz
  simp only [vmmAllocMap]
  rw [hpa, hw, Nat.sub_zero]
  rfl

theorem offSlot_of_user {p : ℕ} (h : p < userPages) : OffSlot (p * 4096) := by
  unfold userPages at h
  exact ⟨by omega, by omega⟩

theorem propagates_user {s : Machine} {p : ℕ} (h : p < userPages) :
    propagates s (p * 4096) = false := by
  have : ¬ kernelStart ≤ p * 4096 := by
    unfold userPages at h
    unfold kernelStart rmapStart
    omega
  rw [propagates, decide_eq_false this, Bool.and_false]

theorem vmmPgmap_user {K : Callees} {vmm pa p : ℕ} {flags : Word} (h : p < userPages) :
    vmmPgmap K vmm pa (p * 4096) 0 flags = vmmPgmapSmall K vmm pa (p * 4096) flags := by
  have hreg : ¬ (rmapStart ≤ p * 4096 ∧ p * 4096 < rmapEnd) := by
    unfold userPages at h
    unfold rmapStart
    omega
  rw [vmmPgmap, if_neg hreg]

namespace Windowed

variable {D L : Set ℕ} {s s₁ : Machine} {W : ℕ → Word} {flags : Word}

/-- With a page table in place, mapping a window writes one entry. -/
theorem pgmapEntryAt (h : Windowed D L s s₁ W) (hfl : WindowFlags flags) {p : ℕ} (pa : ℕ)
    (hp : FreePage s W p) (ht : (s₁.mem s.cr3 (p / 1024)).HasTable) :
    Windowed D L s
      (pgmapEntryAt s₁ s.cr3 (s₁.mem s.cr3 (p / 1024)).pt pa (p * 4096) flags)
      (Function.update W p (windowPte flags pa)) := by
  obtain ⟨h1, hu, hw, hv⟩ := hp
  have hi := page_slot p
  have hj : p * 4096 / 4096 % 1024 = p % 1024 := by omega
  have hlt := userPages_slot hu
  have hor : (s₁.mem s.cr3 (p / 1024)).orFlags flags = s₁.mem s.cr3 (p / 1024) :=
    Word.orFlags_eq_self (fun _ => h.actual.present _ h.cur _ (by omega) (by omega) ht)
      (fun _ => h.actual.rw _ h.cur _ (by omega) (by omega) ht)
      (fun hx => by rw [hfl.user] at hx; cases hx)
  have hz : s₁.mem (s₁.mem s.cr3 (p / 1024)).pt (p % 1024) = 0#32 := by
    have := (view_eq_none.mp ((h.freePage_iff hu).mpr ⟨hw, hv⟩)).2
    rwa [pteAt_of_hasTable ht] at this
  have hplace := h.place h1 hu hv ht (windowPte flags pa)
  unfold SysX.pgmapEntryAt
  rw [hi, hj, hor, Machine.set_eq_self]
  simp only [hz]
  exact hplace

/-- Mapping a window where there is a page table. -/
theorem mapWindow_table (h : Windowed D L s s₁ W) (K : Callees) {p : ℕ} (pa : ℕ) (flags : Word)
    (hp : FreePage s W p) (ht : (s₁.mem s.cr3 (p / 1024)).HasTable) :
    vmmPgmap K s.vmmCurrent pa (p * 4096) 0 flags s₁ = some ((), SysX.pgmapEntryAt s₁ s.cr3
      (s₁.mem s.cr3 (p / 1024)).pt pa (p * 4096) flags) := by
  have hi := page_slot p
  have hrun := vmmPgmapSmall_cur_table K pa flags h.actual h.cur₁ (offSlot_of_user hp.2.1)
    (by rw [hi, h.cr3_eq]; exact ht)
  rw [hi, h.cr3_eq, h.vmmCurrent_eq] at hrun
  rw [vmmPgmap_user hp.2.1]
  exact hrun

/-- Where there is none, a frame is taken for it. -/
theorem mapWindow_new (h : Windowed D L s s₁ W) (hfl : WindowFlags flags) (K : Callees) {p f : ℕ} (pa : ℕ)
    (hp : FreePage s W p) (ht : ¬ (s₁.mem s.cr3 (p / 1024)).HasTable) (hf : f < s₁.pmmFrames)
    (hfree : ¬ SysX.used s₁ f) (ha : pmmAllocFree 1 s₁ = some (some f, s₁.setBitmap f true)) :
    vmmPgmap K s.vmmCurrent pa (p * 4096) 0 flags s₁ = some ((), SysX.pgmapEntryAt
      (newTableAt s₁ s.cr3 (p / 1024) f) s.cr3 f pa (p * 4096) flags) ∧
    Windowed D L s (SysX.pgmapEntryAt (newTableAt s₁ s.cr3 (p / 1024) f) s.cr3 f pa (p * 4096) flags)
      (Function.update W p (windowPte flags pa)) := by
  have hi := page_slot p
  have hz : s₁.mem s.cr3 (p / 1024) = 0#32 := by
    have hs := (view_eq_none.mp ((h.freePage_iff hp.2.1).mpr hp.2.2)).1
    by_contra hne
    exact ht ⟨hne, hs⟩
  have hrun := vmmPgmapSmall_cur_alone K pa flags h.actual h.cur₁ (offSlot_of_user hp.2.1)
    (by rw [hi, h.cr3_eq]; exact ht) hf hfree ha (propagates_user hp.2.1)
  have hgrow := h.grow (userPages_slot hp.2.1) hz hf hfree
  have hself : (newTableAt s₁ s.cr3 (p / 1024) f).mem s.cr3 (p / 1024) = newTableEntry 0#32 f := by
    have hcf : s.cr3 ≠ f := fun e => hfree (e ▸ (h.actual.dir _ (h.actual.sub h.cur)).1)
    rw [newTableAt, Machine.setFrame_mem_of_ne _ _ hcf, hz]
    exact Machine.set_mem_self _ _ _ _
  have hent := hgrow.pgmapEntryAt hfl pa hp (by rw [hself]; exact newTableEntry_hasTable _ f)
  rw [hself, newTableEntry_pt _ (Nat.lt_of_lt_of_le hf h.actual.frames)] at hent
  rw [hi, h.cr3_eq, h.vmmCurrent_eq, hz, splitFrame_of_not_pse (by decide), newTableAt,
    Machine.setFrame_setFrame] at hrun
  rw [vmmPgmap_user hp.2.1]
  exact ⟨hrun, hent⟩

theorem mapWindow_full (h : Windowed D L s s₁ W) (K : Callees) {p : ℕ} (pa : ℕ) (flags : Word) (hp : FreePage s W p)
    (ht : ¬ (s₁.mem s.cr3 (p / 1024)).HasTable) (hn : NullGuard s) (ha : pmmAllocFree 1 s₁ = some (none, s₁)) :
    vmmPgmap K s.vmmCurrent pa (p * 4096) 0 flags s₁ = none := by
  rw [vmmPgmap_user hp.2.1, ← h.vmmCurrent_eq]
  exact vmmPgmapSmall_cur_oom h.actual h.cur₁ (offSlot_of_user hp.2.1)
    (by rw [page_slot p, h.cr3_eq]; exact ht) (h.nullGuard hn) ha

theorem mapWindow {ok : Prop} (h : Windowed D L s s₁ W) (hfl : WindowFlags flags) (K : Callees)
    {p pa n : ℕ} (hp : FreePage s W p) (hg : Guard ok s s₁ (n + 1)) :
    Comp.Wp ok (vmmPgmap K s.vmmCurrent pa (p * 4096) 0 flags) (fun _ t =>
      Windowed D L s t (Function.update W p (windowPte flags pa)) ∧ Guard ok s t n) s₁ := by
  by_cases ht : (s₁.mem s.cr3 (p / 1024)).HasTable
  · exact .of_eq (h.mapWindow_table K pa flags hp ht)
      ⟨h.pgmapEntryAt hfl pa hp ht, ⟨fun ho => (hg.frames ho).mono (by omega), hg.null⟩⟩
  · rcases pmmAllocFree_one h.actual.frames with ⟨ha, hfull⟩ | ⟨f, hf, hfree, ha⟩
    · have hok : ¬ ok := fun ho => by
        obtain ⟨f, hf, hfree⟩ := (hg.frames ho).exists_free
        exact hfree (hfull f hf)
      exact .of_fault (h.mapWindow_full K pa flags hp ht (hg.null hok) ha) hok
    · obtain ⟨hrun, hw⟩ := h.mapWindow_new hfl K pa hp ht hf hfree ha
      exact .of_eq hrun ⟨hw, ⟨fun ho => (hg.frames ho).alloc f, hg.null⟩⟩

end Windowed

/-- What opening a window from the page `q` on comes to: the first free page with the entry `w`, or
the address 0 when no page is free. -/
def Opens (ok : Prop) (D L : Set ℕ) (s s₁ : Machine) (W : ℕ → Word) (q : ℕ) (w : Word)
    (n a : ℕ) (t : Machine) : Prop :=
  (a = 0 ∧ t = s₁ ∧ ∀ p, q ≤ p → ¬ FreePage s W p) ∨
  ∃ p, a = p * 4096 ∧ q ≤ p ∧ FreePage s W p ∧ (∀ r, q ≤ r → r < p → ¬ FreePage s W r) ∧
    Windowed D L s t (Function.update W p w) ∧ Guard ok s t n

namespace Windowed

variable {D L : Set ℕ} {s s₁ : Machine} {W : ℕ → Word} {flags : Word}

/-- A window is mapped at the first free page, whatever mapping it there comes to. -/
theorem openWindow_rule {ok : Prop} {R : ℕ → Machine → Prop} (h : Windowed D L s s₁ W) (K : Callees)
    {q pa : ℕ} (hq : q < 1048576) (hpa : pa % 4096 = 0)
    (hmap : ∀ p, q ≤ p → FreePage s W p → (∀ r, q ≤ r → r < p → ¬ FreePage s W r) →
      Comp.Wp ok (vmmPgmap K s.vmmCurrent pa (p * 4096) 0 flags) (fun _ t => R p t) s₁) :
    Comp.Wp ok (vmmAllocMap K s.vmmCurrent pa 4096 (q * 4096) kernelStart 0 0 false flags)
      (fun a t => (a = 0 ∧ t = s₁ ∧ ∀ p, q ≤ p → ¬ FreePage s W p) ∨
        ∃ p, a = p * 4096 ∧ q ≤ p ∧ FreePage s W p ∧ (∀ r, q ≤ r → r < p → ¬ FreePage s W r) ∧ R p t) s₁ := by
  have hend : kernelStart / 4096 = userPages := by decide
  have free_iff : ∀ r, firstPage q ≤ r → (r + 1 ≤ userPages ∧ FreeRun s₁ 1 r ↔ FreePage s W r) := by
    intro r hr
    have h1 : 1 ≤ r := by
      unfold firstPage at hr
      split_ifs at hr <;> omega
    refine ⟨fun ⟨hlt, hrun⟩ => ⟨h1, hlt, ?_⟩, fun hf => ⟨hf.2.1, fun k hk => ?_⟩⟩
    · have := hrun 0 Nat.one_pos
      rw [h.cr3_eq] at this
      exact (h.freePage_iff hlt).mp this
    · obtain rfl : k = 0 := by omega
      rw [h.cr3_eq]
      exact (h.freePage_iff hf.2.1).mpr hf.2.2
  have first_le : ∀ r, q ≤ r → 1 ≤ r → firstPage q ≤ r := by
    intro r hr h1
    unfold firstPage
    split_ifs
    · exact h1
    · exact hr
  obtain ⟨a, hrun, hres⟩ := vmmFirstFree_cur K h.actual h.cur₁ kernelStart
    (q := q) (n := 1) Nat.one_pos (by decide) hq (by decide)
  rw [hend] at hres
  rw [vmmAllocMap_aligned hpa (by decide), ← h.vmmCurrent_eq]
  refine .step hrun ?_
  rcases hres with ⟨ha, hno⟩ | ⟨p, ha, hp1, hp2, hfree, hmin⟩
  · rw [if_pos ha]
    refine .pure (.inl ⟨rfl, rfl, fun p hp hf => ?_⟩)
    exact hno p (first_le p hp hf.1) hf.2.1 ((free_iff p (first_le p hp hf.1)).mpr hf).2
  · have hf : FreePage s W p := (free_iff p hp1).mp ⟨hp2, hfree⟩
    have hp0 : p * 4096 ≠ 0 := by have := hf.1; omega
    have hva : p * 4096 % 4096 = 0 := by omega
    have hplt : p * 4096 + 4096 < 4294967296 := by unfold userPages at hp2; omega
    have hq1 : q ≤ p := by
      unfold firstPage at hp1
      split_ifs at hp1 <;> omega
    have hfirst : ∀ r, q ≤ r → r < p → ¬ FreePage s W r := fun r hr hrp hfr =>
      hmin r (first_le r hr hfr.1) hrp ((free_iff r (first_le r hr hfr.1)).mpr hfr).2
    rw [ha, if_neg hp0, h.vmmCurrent_eq, vmmMap_one hpa hva hplt,
      w32_of_lt (Nat.lt_of_le_of_lt (Nat.le_add_right _ _) hplt)]
    refine .bind (R := fun _ t => R p t) (.bind (hmap p hq1 hf hfirst) fun _ t ht => .pure ht) fun _ t ht => .pure ?_
    exact .inr ⟨p, rfl, hq1, hf, hfirst, ht⟩

theorem openWindow {ok : Prop} (h : Windowed D L s s₁ W) (hfl : WindowFlags flags) (K : Callees)
    {q pa n : ℕ} (hq : q < 1048576) (hpa : pa % 4096 = 0) (hg : Guard ok s s₁ (n + 1)) :
    Comp.Wp ok (vmmAllocMap K s.vmmCurrent pa 4096 (q * 4096) kernelStart 0 0 false flags)
      (Opens ok D L s s₁ W q (windowPte flags pa) n) s₁ :=
  h.openWindow_rule K hq hpa fun _ _ hf _ => h.mapWindow hfl K hf hg

end Windowed

end SysX
