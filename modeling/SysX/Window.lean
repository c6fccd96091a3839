import SysX.Current

/-!
Temporary windows. The state the kernel is in while windows are open is compared with the state
without them: the current VMM may have gained empty page tables and holds the window entries, and
everything else agrees.
-/
namespace SysX

/-- A frame that is neither the current directory nor one of its user page tables. -/
def Outside (s : Machine) (f : ℕ) : Prop :=
  f ≠ s.cr3 ∧ ∀ i < 767, (s.mem s.cr3 i).HasTable → (s.mem s.cr3 i).pt ≠ f

/-- `s₁` is `s` with empty page tables added to the user half of the current VMM and with the
window entries `W` in it. -/
structure Windowed (D L : Set ℕ) (s s₁ : Machine) (W : ℕ → Word) : Prop where
  logical : Tables D L s
  actual : Tables D L s₁
  cur : s.cr3 ∈ L
  rest : s₁ = { s with mem := s₁.mem, pmmBitmap := s₁.pmmBitmap }
  used : ∀ f, used s f → used s₁ f
  leak : ∀ f, SysX.used s₁ f → SysX.used s f ∨ ∃ i < 767, (s₁.mem s.cr3 i).HasTable ∧ (s₁.mem s.cr3 i).pt = f
  slot : ∀ i, s₁.mem s.cr3 i = s.mem s.cr3 i ∨
    (i < 767 ∧ s.mem s.cr3 i = 0#32 ∧ (s₁.mem s.cr3 i).HasTable ∧ ¬ SysX.used s (s₁.mem s.cr3 i).pt)
  pte : ∀ p < userPages,
    pteAt s₁.mem s.cr3 p = if W p = 0#32 then pteAt s.mem s.cr3 p else W p
  clear : ∀ p, W p ≠ 0#32 → 1 ≤ p ∧ p < userPages ∧ view s.mem s.cr3 p = none
  frame : ∀ f, Outside s₁ f → s₁.mem f = s.mem f

theorem userPages_slot {p : ℕ} (h : p < userPages) : p / 1024 < 767 := by
  unfold userPages at h
  omega

namespace Windowed

variable {D L : Set ℕ} {s s₁ : Machine} {W : ℕ → Word}

theorem refl (h : Tables D L s) (hc : s.cr3 ∈ L) : Windowed D L s s fun _ => 0#32 where
  logical := h
  actual := h
  cur := hc
  rest := rfl
  used _ hu := hu
  leak _ hu := .inl hu
  slot _ := .inl rfl
  pte _ _ := by rw [if_pos rfl]
  clear _ hp := absurd rfl hp
  frame _ _ := rfl

theorem vmmCurrent_eq (h : Windowed D L s s₁ W) : s₁.vmmCurrent = s.vmmCurrent := by
  rw [h.rest]

theorem cr3_eq (h : Windowed D L s s₁ W) : s₁.cr3 = s.cr3 := by
  rw [Machine.cr3, h.vmmCurrent_eq, Machine.cr3]

theorem cur₁ (h : Windowed D L s s₁ W) : s₁.cr3 ∈ L := h.cr3_eq ▸ h.cur

/-- An entry that is not empty is the same with windows. -/
theorem slot_of_ne_zero (h : Windowed D L s s₁ W) {i : ℕ} (hne : s.mem s.cr3 i ≠ 0#32) :
    s₁.mem s.cr3 i = s.mem s.cr3 i :=
  (h.slot i).resolve_right fun hr => hne hr.2.1

theorem slot_kernel (h : Windowed D L s s₁ W) {i : ℕ} (hi : 767 ≤ i) :
    s₁.mem s.cr3 i = s.mem s.cr3 i :=
  (h.slot i).resolve_right fun hr => by omega

/-- The slots without a page table are the same, too. -/
theorem slot_of_not_hasTable (h : Windowed D L s s₁ W) {i : ℕ}
    (hne : ¬ (s₁.mem s.cr3 i).HasTable) : s₁.mem s.cr3 i = s.mem s.cr3 i :=
  (h.slot i).resolve_right fun hr => hne hr.2.2.1

theorem pgsz_eq (h : Windowed D L s s₁ W) (i : ℕ) :
    (s₁.mem s.cr3 i).pgsz = (s.mem s.cr3 i).pgsz := by
  rcases h.slot i with he | ⟨_, hz, ht, _⟩
  · rw [he]
  · rw [ht.2, hz]
    decide

/-- Directories other than the current one are outside. -/
theorem outside_dir (h : Windowed D L s s₁ W) {v : ℕ} (hv : v ∈ D) (hne : v ≠ s.cr3) :
    Outside s₁ v := by
  refine ⟨by rwa [h.cr3_eq], fun i hi ht => ?_⟩
  exact h.actual.pt_ne h.cur₁ hv (by omega) (by omega) ht

theorem mem_dir (h : Windowed D L s s₁ W) {v : ℕ} (hv : v ∈ D) (hne : v ≠ s.cr3) :
    s₁.mem v = s.mem v := h.frame v (h.outside_dir hv hne)

/-- So are the page tables of the others and those of the kernel half. -/
theorem outside_table (h : Windowed D L s s₁ W) {v i : ℕ} (hv : v ∈ L) (hi : i < 1024)
    (hne : i ≠ 767) (ho : v ≠ s.cr3 ∨ 768 ≤ i) (ht : (s.mem v i).HasTable) :
    Outside s₁ (s.mem v i).pt := by
  have hm : s₁.mem v i = s.mem v i := by
    by_cases hvc : v = s.cr3
    · subst hvc
      exact h.slot_of_ne_zero ht.1
    · rw [h.mem_dir (h.logical.sub hv) hvc]
  have ht₁ : (s₁.mem v i).HasTable := hm ▸ ht
  refine ⟨fun e => ?_, fun j hj htj e => ?_⟩
  · exact h.logical.pt_ne hv (h.logical.sub h.cur₁) hi hne ht e
  · rw [← hm] at e
    obtain ⟨hji, hcv⟩ := h.actual.sep _ h.cur₁ v hv j (by omega) i hi (by omega) hne htj ht₁ e
    rcases ho with ho | ho
    · rcases hcv with hcv | hcv
      · exact ho (hcv.symm.trans h.cr3_eq)
      · omega
    · omega

theorem mem_table (h : Windowed D L s s₁ W) {v i : ℕ} (hv : v ∈ L) (hi : i < 1024)
    (hne : i ≠ 767) (ho : v ≠ s.cr3 ∨ 768 ≤ i) (ht : (s.mem v i).HasTable) :
    s₁.mem (s.mem v i).pt = s.mem (s.mem v i).pt :=
  h.frame _ (h.outside_table hv hi hne ho ht)

/-- Another directory sees every page as without windows. -/
theorem view_other (h : Windowed D L s s₁ W) {v p : ℕ} (hv : v ∈ L) (hne : v ≠ s.cr3)
    (hp : Regular p) : view s₁.mem v p = view s.mem v p := by
  have hm := congrFun (h.mem_dir (h.logical.sub hv) hne) (p / 1024)
  refine view_congr hm fun ht => ?_
  have hi : p / 1024 < 1024 := by have := hp.1; omega
  rw [hm] at ht ⊢
  rw [h.mem_table hv hi hp.2 (.inl hne) ht]

/-- So does the current one, on the pages that are no windows. -/
theorem view_cur (h : Windowed D L s s₁ W) {p : ℕ} (hp : Regular p) (hw : W p = 0#32) :
    view s₁.mem s.cr3 p = view s.mem s.cr3 p := by
  have hi : p / 1024 < 1024 := by have := hp.1; omega
  by_cases hu : p < userPages
  · have hpte := h.pte p hu
    rw [if_pos hw] at hpte
    cases hs : (s.mem s.cr3 (p / 1024)).pgsz with
    | true =>
      have hm := h.slot_of_ne_zero (Word.ne_zero_of_pgsz hs)
      exact view_congr hm fun ht => absurd (hm ▸ hs) ht.not_pgsz
    | false =>
      rw [view_of_not_pgsz hs, view_of_not_pgsz ((h.pgsz_eq _).trans hs), hpte]
  · have h768 : 768 ≤ p / 1024 := by
      have := hp.2
      unfold userPages at hu
      omega
    have hm := h.slot_kernel (i := p / 1024) (by omega)
    refine view_congr hm fun ht => ?_
    rw [hm] at ht ⊢
    rw [h.mem_table h.cur hi hp.2 (.inr h768) ht]

/-- A window as the current VMM sees it. -/
theorem view_window (h : Windowed D L s s₁ W) {p : ℕ} (hw : W p ≠ 0#32) :
    view s₁.mem s.cr3 p = some ((W p).pt, (W p).getFlags) := by
  obtain ⟨-, hu, hv⟩ := h.clear p hw
  have hpte := h.pte p hu
  rw [if_neg hw] at hpte
  rw [view_of_not_pgsz ((h.pgsz_eq _).trans (view_eq_none.mp hv).1), hpte, viewPte, if_neg hw]

theorem hasTable_window (h : Windowed D L s s₁ W) {p : ℕ} (hw : W p ≠ 0#32) :
    (s₁.mem s.cr3 (p / 1024)).HasTable := by
  have hpte := h.pte p (h.clear p hw).2.1
  rw [if_neg hw] at hpte
  by_contra ht
  rw [pteAt_of_not_hasTable ht] at hpte
  exact hw hpte.symm

/-- A window reaches the frame in its entry. -/
theorem pageAt (h : Windowed D L s s₁ W) {p : ℕ} (w : Bool) (hp : (W p).present = true)
    (hr : w = true → (W p).rw = true) : PageAt s₁ w (p * 4096) (W p).pt := by
  have hw := Word.ne_zero_of_present hp
  have hu := (h.clear p hw).2.1
  have hi : p / 1024 < 767 := userPages_slot hu
  have ht : (s₁.mem s₁.cr3 (p / 1024)).HasTable := h.cr3_eq ▸ h.hasTable_window hw
  have hpte : pteAt s₁.mem s₁.cr3 p = W p := by
    rw [h.cr3_eq, h.pte p hu, if_neg hw]
  have := pageAt_of_pte (s := s₁) (p := p) w ht
    (h.actual.present _ h.cur₁ _ (by omega) (by omega) ht)
    (h.actual.rw _ h.cur₁ _ (by omega) (by omega) ht) (hpte ▸ hp) fun hw => hpte ▸ hr hw
  rwa [hpte] at this

/-! What may happen to both states alike. -/

/-- A frame outside changes in both. -/
theorem outside {t t₁ : Machine} {f : ℕ} (h : Windowed D L s s₁ W) (ho : Outside s₁ f)
    (ht : Tables D L t) (ht₁ : Tables D L t₁) (hs : t = { s with mem := t.mem })
    (hs₁ : t₁ = { s₁ with mem := t₁.mem }) (hm : ∀ g, g ≠ f → t.mem g = s.mem g)
    (hm₁ : ∀ g, g ≠ f → t₁.mem g = s₁.mem g) (heq : t₁.mem f = t.mem f) : Windowed D L t t₁ W := by
  have hb : t.pmmBitmap = s.pmmBitmap := by rw [hs]
  have hb₁ : t₁.pmmBitmap = s₁.pmmBitmap := by rw [hs₁]
  have hcur : t.vmmCurrent = s.vmmCurrent := by rw [hs]
  have hcr : t.cr3 = s.cr3 := by rw [Machine.cr3, hcur, Machine.cr3]
  have hcur₁ : t₁.vmmCurrent = s₁.vmmCurrent := by rw [hs₁]
  have hcr₁ : t₁.cr3 = s₁.cr3 := by rw [Machine.cr3, hcur₁, Machine.cr3]
  have hcf : s.cr3 ≠ f := fun e => ho.1 (by rw [h.cr3_eq]; exact e.symm)
  have hc : t.mem s.cr3 = s.mem s.cr3 := hm _ hcf
  have hc₁ : t₁.mem s.cr3 = s₁.mem s.cr3 := hm₁ _ hcf
  have hpte : ∀ p < userPages, pteAt t₁.mem s.cr3 p = pteAt s₁.mem s.cr3 p := by
    intro p hp
    unfold pteAt
    rw [hc₁]
    split_ifs with hx
    · have hne := ho.2 (p / 1024) (userPages_slot hp) (by rw [h.cr3_eq]; exact hx)
      rw [h.cr3_eq] at hne
      rw [hm₁ _ hne]
    · rfl
  have hpte' : ∀ p < userPages, pteAt t.mem s.cr3 p = pteAt s.mem s.cr3 p := by
    intro p hp
    unfold pteAt
    rw [hc]
    split_ifs with hx
    · have hne := ho.2 (p / 1024) (userPages_slot hp)
        (by rw [h.cr3_eq, h.slot_of_ne_zero hx.1]; exact hx)
      rw [h.cr3_eq, h.slot_of_ne_zero hx.1] at hne
      rw [hm _ hne]
    · rfl
  constructor
  case logical => exact ht
  case actual => exact ht₁
  case cur => exact hcr ▸ h.cur
  case rest =>
    rw [hs₁, h.rest, hs]
  case used =>
    intro g hg
    unfold SysX.used at hg ⊢
    rw [hb] at hg
    rw [hb₁]
    exact h.used g hg
  case leak =>
    intro g hg
    unfold SysX.used at hg ⊢
    rw [hb₁] at hg
    rw [hb, hcr, hc₁]
    exact h.leak g hg
  case slot =>
    intro i
    rw [hcr, hc, hc₁]
    unfold SysX.used
    rw [hb]
    exact h.slot i
  case pte =>
    intro p hp
    rw [hcr, hpte p hp, hpte' p hp]
    exact h.pte p hp
  case clear =>
    intro p hw
    obtain ⟨h1, hu, hv⟩ := h.clear p hw
    refine ⟨h1, hu, ?_⟩
    rw [view_eq_none] at hv ⊢
    rw [hcr, hc, hpte' p hu]
    exact hv
  case frame =>
    intro g hg
    by_cases hgf : g = f
    · rw [hgf, heq]
    · rw [hm g hgf, hm₁ g hgf]
      refine h.frame g ⟨fun e => hg.1 (by rw [hcr₁]; exact e), fun i hi hx => ?_⟩
      have hx' : (t₁.mem t₁.cr3 i).HasTable := by
        rw [hcr₁, h.cr3_eq, hc₁, ← h.cr3_eq]
        exact hx
      have := hg.2 i hi hx'
      rwa [hcr₁, h.cr3_eq, hc₁, ← h.cr3_eq] at this

theorem set (h : Windowed D L s s₁ W) {f i : ℕ} {d : Word} (ho : Outside s₁ f)
    (ht : Tables D L (s.set f i d)) (ht₁ : Tables D L (s₁.set f i d)) :
    Windowed D L (s.set f i d) (s₁.set f i d) W := by
  refine h.outside ho ht ht₁ rfl rfl (fun g hg => s.set_mem_of_ne f i d hg)
    (fun g hg => s₁.set_mem_of_ne f i d hg) ?_
  funext j
  rw [Machine.set_mem, Machine.set_mem, h.frame f ho]

theorem setFrame (h : Windowed D L s s₁ W) {f : ℕ} (ho : Outside s₁ f) (hf : f ∉ D)
    (c : ℕ → Word) : Windowed D L (s.setFrame f c) (s₁.setFrame f c) W := by
  refine h.outside ho (h.logical.setFrame hf c) (h.actual.setFrame hf c) rfl rfl
    (fun g hg => s.setFrame_mem_of_ne f hg) (fun g hg => s₁.setFrame_mem_of_ne f hg) ?_
  rw [Machine.setFrame_mem_self, Machine.setFrame_mem_self]

/-- A word of a page table outside, or of any other frame that is no directory. -/
theorem setTable (h : Windowed D L s s₁ W) {f : ℕ} (ho : Outside s₁ f) (hf : f ∉ D) (i : ℕ)
    (d : Word) : Windowed D L (s.set f i d) (s₁.set f i d) W :=
  h.set ho (h.logical.set hf i d) (h.actual.set hf i d)

/-- A word of an entry of the kernel half of the current directory. -/
theorem setKernel (h : Windowed D L s s₁ W) {i : ℕ} {d : Word} (hi : 768 ≤ i)
    (ht : Tables D L (s.set s.cr3 i d)) (ht₁ : Tables D L (s₁.set s.cr3 i d)) :
    Windowed D L (s.set s.cr3 i d) (s₁.set s.cr3 i d) W := by
  have hm : ∀ j, j < 767 → (s.set s.cr3 i d).mem s.cr3 j = s.mem s.cr3 j := fun j hj =>
    s.set_mem_of_ne_index _ _ _ _ (by omega)
  have hm₁ : ∀ j, j < 767 → (s₁.set s.cr3 i d).mem s.cr3 j = s₁.mem s.cr3 j := fun j hj =>
    s₁.set_mem_of_ne_index _ _ _ _ (by omega)
  have hpte : ∀ p < userPages, pteAt (s.set s.cr3 i d).mem s.cr3 p = pteAt s.mem s.cr3 p := by
    intro p hp
    have hj := userPages_slot hp
    unfold pteAt
    rw [hm _ hj]
    split_ifs with hx
    · rw [Machine.set_mem_of_ne _ _ _ _
        (h.logical.pt_ne h.cur (h.logical.sub h.cur) (by omega) (by omega) hx)]
    · rfl
  have hpte₁ : ∀ p < userPages, pteAt (s₁.set s.cr3 i d).mem s.cr3 p = pteAt s₁.mem s.cr3 p := by
    intro p hp
    have hj := userPages_slot hp
    unfold pteAt
    rw [hm₁ _ hj]
    split_ifs with hx
    · rw [Machine.set_mem_of_ne _ _ _ _
        (h.actual.pt_ne h.cur (h.logical.sub h.cur) (by omega) (by omega) hx)]
    · rfl
  constructor
  case logical => exact ht
  case actual => exact ht₁
  case cur => exact h.cur
  case rest =>
    conv_lhs => rw [h.rest]
    rfl
  case used => exact h.used
  case leak =>
    intro g hg
    refine (h.leak g hg).imp_right fun ⟨j, hj, hx, he⟩ => ⟨j, hj, ?_⟩
    rw [Machine.set_cr3, hm₁ j hj]
    exact ⟨hx, he⟩
  case slot =>
    intro j
    by_cases hj : j = i
    · refine .inl ?_
      rw [Machine.set_cr3, hj, Machine.set_mem_self, Machine.set_mem_self]
    · rw [Machine.set_cr3, Machine.set_mem_of_ne_index _ _ _ _ _ hj,
        Machine.set_mem_of_ne_index _ _ _ _ _ hj]
      exact h.slot j
  case pte =>
    intro p hp
    rw [Machine.set_cr3, hpte p hp, hpte₁ p hp]
    exact h.pte p hp
  case clear =>
    intro p hw
    obtain ⟨h1, hu, hv⟩ := h.clear p hw
    refine ⟨h1, hu, ?_⟩
    rw [view_eq_none] at hv ⊢
    rw [Machine.set_cr3, hm _ (userPages_slot hu), hpte p hu]
    exact hv
  case frame =>
    intro g hg
    have hgc : g ≠ s.cr3 := fun e => hg.1 (e.trans h.cr3_eq.symm)
    rw [s₁.set_mem_of_ne _ _ _ hgc, s.set_mem_of_ne _ _ _ hgc]
    refine h.frame g ⟨hg.1, fun j hj hx => ?_⟩
    have := hg.2 j hj
    rw [Machine.set_cr3, h.cr3_eq, hm₁ j hj] at this
    rw [h.cr3_eq] at hx ⊢
    exact this hx

theorem alloc (h : Windowed D L s s₁ W) {f : ℕ} (hf : ¬ SysX.used s₁ f) :
    Windowed D L (s.setBitmap f true) (s₁.setBitmap f true) W where
  logical := h.logical.alloc f
  actual := h.actual.alloc f
  cur := h.cur
  rest := by
    conv_lhs => rw [h.rest]
    rfl
  used g hg := by
    rw [used_alloc] at hg ⊢
    exact hg.imp id (h.used g)
  leak g hg := by
    rw [used_alloc] at hg ⊢
    rcases hg with hgf | hg
    · exact .inl (.inl hgf)
    · exact (h.leak g hg).imp_left .inr
  slot i := by
    refine (h.slot i).imp id fun ⟨hi, hz, ht, hu⟩ => ⟨hi, hz, ht, fun hx => ?_⟩
    rcases (used_alloc s f _).mp hx with hx | hx
    · exact hf (hx ▸ h.actual.used _ h.cur i (by omega) (by omega) ht)
    · exact hu hx
  pte := h.pte
  clear := h.clear
  frame := h.frame

theorem free (h : Windowed D L s s₁ W) {f : ℕ} (ht : Tables D L (s.setBitmap f false))
    (ht₁ : Tables D L (s₁.setBitmap f false)) :
    Windowed D L (s.setBitmap f false) (s₁.setBitmap f false) W where
  logical := ht
  actual := ht₁
  cur := h.cur
  rest := by
    conv_lhs => rw [h.rest]
    rfl
  used g hg := by
    rw [used_free] at hg ⊢
    exact ⟨hg.1, h.used g hg.2⟩
  leak g hg := by
    rw [used_free] at hg ⊢
    exact (h.leak g hg.2).imp_left fun hu => ⟨hg.1, hu⟩
  slot i := by
    refine (h.slot i).imp id fun ⟨hi, hz, ht, hu⟩ => ⟨hi, hz, ht, fun hx => ?_⟩
    exact hu ((used_free s f _).mp hx).2
  pte := h.pte
  clear := h.clear
  frame := h.frame

end Windowed

/-- A write to the entry of one page. -/
theorem Tables.pteAt_set {D L : Set ℕ} {s : Machine} (h : Tables D L s) {v p : ℕ} (hv : v ∈ L)
    (hp : Regular p) (ht : (s.mem v (p / 1024)).HasTable) (d : Word) {q : ℕ} (hq : Regular q) :
    pteAt (s.set (s.mem v (p / 1024)).pt (p % 1024) d).mem v q =
      if q = p then d else pteAt s.mem v q := by
  have hi : p / 1024 < 1024 := by have := hp.1; omega
  have hj : q / 1024 < 1024 := by have := hq.1; omega
  have hne := h.pt_ne hv (h.sub hv) hi hp.2 ht
  unfold pteAt
  rw [Machine.set_mem_of_ne _ _ _ _ hne.symm]
  by_cases htq : (s.mem v (q / 1024)).HasTable
  · rw [if_pos htq, if_pos htq, Machine.set_mem]
    by_cases hpq : q = p
    · rw [hpq, if_pos ⟨rfl, rfl⟩, if_pos rfl]
    · rw [if_neg hpq, if_neg]
      rintro ⟨he, hm⟩
      have := (h.sep v hv v hv _ hj _ hi hq.2 hp.2 htq ht he).1
      omega
  · rw [if_neg htq, if_neg htq, if_neg]
    rintro rfl
    exact htq ht

end SysX
