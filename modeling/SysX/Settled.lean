import SysX.OutOfMemory
import SysX.HeapGrowth

/-!
Calls of the paging primitives one after the other, none of which leaves a window open. What the hardware makes of a
page is `accessAt`; `Within` says which pages a call may have changed, `Settled` what the next call may rely on.
-/
namespace SysX

/-- The frame behind a page and whether it may be written. -/
def accessAt (m : ℕ → ℕ → Word) (v p : ℕ) : Option (ℕ × Bool) :=
  let e := m v (p / 1024)
  if e.pgsz then if e.present then some (e.psePa * 1024 + p % 1024, e.rw) else none
  else
    let t := pteAt m v p
    if t.present then some (t.pt, t.rw) else none

/-- The pages of the VMM `v` that an update at the page `q` reaches: the whole slot where it holds a 4 MiB page. -/
def InPage (s : Machine) (v q w p : ℕ) : Prop :=
  w = v ∧ (p = q ∨ (s.mem v (q / 1024)).pgsz = true ∧ p / 1024 = q / 1024)

/-- The changes from `s` to `t` are confined to the pages `C` of the VMMs. Of another VMM than the current one only the
user half counts; the frames of `D` that are no directories and the free ones keep their content. -/
structure Within (D L : Set ℕ) (C : ℕ → ℕ → Prop) (s t : Machine) : Prop where
  vmmCurrent : t.vmmCurrent = s.vmmCurrent
  access : ∀ w ∈ L, ∀ p, Regular p → (w = s.cr3 ∨ p < userPages) → ¬ C w p →
    accessAt t.mem w p = accessAt s.mem w p
  vacant : ∀ p, Regular p → userPages ≤ p → ¬ C s.cr3 p → (view t.mem s.cr3 p = none ↔ view s.mem s.cr3 p = none)
  pgsz : ∀ w ∈ L, ∀ i, (w = s.cr3 ∨ i < 767) → (t.mem w i).pgsz = (s.mem w i).pgsz
  content : ∀ f ∈ D, f ∉ L → t.mem f = s.mem f
  used : ∀ f, used s f → used t f
  spare : ∀ f, ¬ SysX.used t f → t.mem f = s.mem f

section Access

variable {D L : Set ℕ} {s t u : Machine} {v p q f : ℕ} {r : Bool} {C C' : ℕ → ℕ → Prop}

theorem accessAt_of_pgsz {m : ℕ → ℕ → Word} (h : (m v (p / 1024)).pgsz = true) : accessAt m v p =
    if (m v (p / 1024)).present then some ((m v (p / 1024)).psePa * 1024 + p % 1024, (m v (p / 1024)).rw) else none := by
  unfold accessAt
  simp only [h, if_true]

theorem accessAt_of_pte {m : ℕ → ℕ → Word} (h : (m v (p / 1024)).pgsz = false) : accessAt m v p =
    if (pteAt m v p).present then some ((pteAt m v p).pt, (pteAt m v p).rw) else none := by
  unfold accessAt
  simp only [h, Bool.false_eq_true, if_false]

theorem accessAt_eq {m : ℕ → ℕ → Word} : accessAt m v p = (transAt m v p).map fun x => (x.1, x.2.getLsbD 1) := by
  unfold transAt
  cases hs : (m v (p / 1024)).pgsz with
  | true =>
    rw [accessAt_of_pgsz hs, view_of_pgsz hs, Option.filter_some]
    simp only [Word.getFlags_bit0]
    split_ifs
    · rw [Option.map_some, Word.getFlags_bit1]
    · rfl
  | false =>
    rw [accessAt_of_pte hs, view_of_not_pgsz hs, filter_viewPte]
    split_ifs
    · rw [Option.map_some, Word.getFlags_bit1]
    · rfl

theorem view_of_access {m : ℕ → ℕ → Word} (h : accessAt m v p = some (f, r)) :
    ∃ flags, view m v p = some (f, flags) ∧ flags.getLsbD 0 = true ∧ flags.getLsbD 1 = r := by
  rw [accessAt_eq] at h
  obtain ⟨x, hx, hfr⟩ := Option.map_eq_some_iff.mp h
  obtain ⟨hview, hp⟩ := Option.filter_eq_some_iff.mp hx
  cases hfr
  exact ⟨x.2, hview, hp, rfl⟩

theorem accessAt_congr {m m' : ℕ → ℕ → Word} {v' : ℕ} (h : view m' v' p = view m v p) :
    accessAt m' v' p = accessAt m v p := by
  rw [accessAt_eq, accessAt_eq, transAt, transAt, h]

theorem paddrAt_of_access {m : ℕ → ℕ → Word} {va : ℕ} (h : accessAt m v (va / 4096) = some (f, r)) :
    paddrAt m v va = f * 4096 + va % 4096 := by
  obtain ⟨flags, hview, -, -⟩ := view_of_access h
  rw [paddrAt, hview]

/-- The page walk for an access in any of the directories. -/
theorem Tables.mmu_access (h : Tables D L s) (hv : v ∈ L) {a : ℕ} (ha : OffSlot a)
    (hf : accessAt s.mem v (a / 4096) = some (f, r)) {w : Bool} (hw : w = true → r = true) :
    mmu s.mem v w a = some f := by
  have hslot : a / 4096 / 1024 = a / 4194304 := va_slot a
  unfold mmu
  dsimp only
  rw [← hslot]
  cases hs : (s.mem v (a / 4096 / 1024)).pgsz with
  | true =>
    rw [accessAt_of_pgsz hs] at hf
    split_ifs at hf with hpres
    cases hf
    rw [if_neg]
    · rfl
    · rintro (hno | ⟨hw', hno⟩)
      · rw [hpres] at hno
        cases hno
      · rw [hw hw'] at hno
        cases hno
  | false =>
    rw [accessAt_of_pte hs] at hf
    split_ifs at hf with hpres
    cases hf
    have he : (s.mem v (a / 4096 / 1024)).HasTable := by
      by_contra hno
      rw [pteAt_of_not_hasTable hno] at hpres
      cases hpres
    have hpte := pteAt_of_hasTable (m := s.mem) he
    rw [hpte] at hpres hw
    have hlt : a / 4096 / 1024 < 1024 := hslot ▸ ha.lt
    have hne : a / 4096 / 1024 ≠ 767 := hslot ▸ ha.2
    have hdir : ¬ ((s.mem v (a / 4096 / 1024)).present = false ∨ w = true ∧ (s.mem v (a / 4096 / 1024)).rw = false) := by
      rintro (hno | ⟨-, hno⟩)
      · rw [h.present _ hv _ hlt hne he] at hno
        cases hno
      · rw [h.rw _ hv _ hlt hne he] at hno
        cases hno
    rw [if_neg hdir, if_neg Bool.false_ne_true, hpte, if_neg]
    rintro (hno | ⟨hw', hno⟩)
    · rw [hpres] at hno
      cases hno
    · rw [hw hw'] at hno
      cases hno

/-- What a memory access finds. -/
theorem Tables.pageAt_access (h : Tables D L s) (hc : s.cr3 ∈ L) (hp : Regular p)
    (ha : accessAt s.mem s.cr3 p = some (f, r)) {w : Bool} (hw : w = true → r = true) : PageAt s w (p * 4096) f :=
  ⟨Nat.mul_mod_left p 4096, h.mmu_access hc hp.offSlot (by rw [page_div]; exact ha) hw⟩

theorem Within.refl (D L : Set ℕ) (C : ℕ → ℕ → Prop) (s : Machine) : Within D L C s s :=
  ⟨rfl, fun _ _ _ _ _ _ => rfl, fun _ _ _ _ => Iff.rfl, fun _ _ _ _ => rfl, fun _ _ _ => rfl, fun _ => id, fun _ _ => rfl⟩

theorem Within.mono (h : Within D L C s t) (hC : ∀ w p, C w p → C' w p) : Within D L C' s t where
  vmmCurrent := h.vmmCurrent
  access w hw p hp hside hno := h.access w hw p hp hside fun hin => hno (hC w p hin)
  vacant p hp hk hno := h.vacant p hp hk fun hin => hno (hC _ p hin)
  pgsz := h.pgsz
  content := h.content
  used := h.used
  spare := h.spare

theorem Within.antitone {D' : Set ℕ} (h : Within D L C s t) (hD : D' ⊆ D) : Within D' L C s t where
  vmmCurrent := h.vmmCurrent
  access := h.access
  vacant := h.vacant
  pgsz := h.pgsz
  content f hf := h.content f (hD hf)
  used := h.used
  spare := h.spare

theorem Within.widen (h : Within D L C s t) (hf : t.mem f = s.mem f) : Within (insert f D) L C s t where
  vmmCurrent := h.vmmCurrent
  access := h.access
  vacant := h.vacant
  pgsz := h.pgsz
  content g hg hL := by
    rcases hg with rfl | hg
    · exact hf
    · exact h.content g hg hL
  used := h.used
  spare := h.spare

theorem Within.cr3 (h : Within D L C s t) : t.cr3 = s.cr3 := congrArg (· / 4096) h.vmmCurrent

theorem Within.trans (h : Within D L C s t) (h' : Within D L C t u) : Within D L C s u where
  vmmCurrent := h'.vmmCurrent.trans h.vmmCurrent
  access w hw p hp hside hno :=
    (h'.access w hw p hp (by rw [h.cr3]; exact hside) hno).trans (h.access w hw p hp hside hno)
  vacant p hp hk hno := by
    have h₁ := h'.vacant p hp hk (by rw [h.cr3]; exact hno)
    rw [h.cr3] at h₁
    exact h₁.trans (h.vacant p hp hk hno)
  pgsz w hw i hi := (h'.pgsz w hw i (by rw [h.cr3]; exact hi)).trans (h.pgsz w hw i hi)
  content f hf hL := (h'.content f hf hL).trans (h.content f hf hL)
  used f hf := h'.used f (h.used f hf)
  spare f hf := (h'.spare f hf).trans (h.spare f fun hu => hf (h'.used f hu))

/-- Two calls one after the other. -/
theorem Within.next (h : Within D L C s t) (h' : Within D L C' t u) :
    Within D L (fun w p => C w p ∨ C' w p) s u :=
  (h.mono fun _ _ => .inl).trans (h'.mono fun _ _ => .inr)

/-- From views that are the same, for a change that leaves the directories and the other frames alone. -/
theorem Within.of_view (hc : s.cr3 ∈ L) (hcur : t.vmmCurrent = s.vmmCurrent)
    (hview : ∀ w ∈ L, ∀ p, Regular p → (w = s.cr3 ∨ p < userPages) → ¬ C w p → view t.mem w p = view s.mem w p)
    (hpgsz : ∀ w ∈ L, ∀ i, (w = s.cr3 ∨ i < 767) → (t.mem w i).pgsz = (s.mem w i).pgsz)
    (hcontent : ∀ f ∈ D, f ∉ L → t.mem f = s.mem f) (hused : ∀ f, SysX.used s f → SysX.used t f)
    (hspare : ∀ f, ¬ SysX.used t f → t.mem f = s.mem f) : Within D L C s t where
  vmmCurrent := hcur
  access w hw p hp hside hno := accessAt_congr (hview w hw p hp hside hno)
  vacant p hp _ hno := by rw [hview _ hc p hp (.inl rfl) hno]
  pgsz := hpgsz
  content := hcontent
  used := hused
  spare := hspare

/-- What the windows that are open hide is the window pages. -/
theorem Windowed.within {W : ℕ → Word} (h : Windowed D L s t W) :
    Within D L (fun w p => w = s.cr3 ∧ W p ≠ 0#32) s t := by
  refine .of_view h.cur h.vmmCurrent_eq ?_ ?_ ?_ h.used fun f hf => h.frame f ⟨?_, fun i hi ht he => ?_⟩
  · intro w hw p hp _ hno
    by_cases hwc : w = s.cr3
    · subst hwc
      exact h.view_cur hp (not_not.mp fun hne => hno ⟨rfl, hne⟩)
    · exact h.view_other hw hwc hp
  · intro w hw i _
    by_cases hwc : w = s.cr3
    · rw [hwc]
      exact h.pgsz_eq i
    · rw [h.mem_dir (h.logical.sub hw) hwc]
  · intro f hf hL
    exact h.mem_dir hf fun he => hL (he ▸ h.cur)
  · rintro rfl
    exact hf (h.actual.dir _ (h.actual.sub (by rw [h.cr3_eq]; exact h.cur))).1
  · rw [← he] at hf
    exact hf (h.actual.used _ (by rw [h.cr3_eq]; exact h.cur) i (by omega) (by omega) ht)

theorem Windowed.within_closed (h : Windowed D L s t fun _ => 0#32) (C : ℕ → ℕ → Prop) : Within D L C s t :=
  h.within.mono fun _ _ hno => absurd rfl hno.2

/-- An entry of a page table is written. -/
theorem Tables.view_pte (h : Tables D L s) (hv : v ∈ L) (hq : Regular q) (hside : v = s.cr3 ∨ q < userPages)
    (ht : (s.mem v (q / 1024)).HasTable) (d : Word) {w : ℕ} (hw : w ∈ L) (hp : Regular p)
    (hpw : w = s.cr3 ∨ p < userPages) (hne : ¬ (w = v ∧ p = q)) :
    view (s.set (s.mem v (q / 1024)).pt (q % 1024) d).mem w p = view s.mem w p := by
  have hi : q / 1024 < 1024 := by have := hq.1; omega
  have hj : p / 1024 < 1024 := by have := hp.1; omega
  have hdir : (s.set (s.mem v (q / 1024)).pt (q % 1024) d).mem w = s.mem w :=
    s.set_mem_of_ne _ _ _ (h.pt_ne hv (h.sub hw) hi hq.2 ht).symm
  by_cases hwv : w = v
  · subst hwv
    unfold view
    rw [hdir, h.pteAt_set hw hq ht d hp, if_neg fun he => hne ⟨rfl, he⟩]
  · refine view_congr (congrFun hdir _) fun htp => ?_
    rw [hdir] at htp ⊢
    rw [s.set_mem_of_ne _ _ _ fun he => ?_]
    obtain ⟨hslot, hor⟩ := h.sep w hw v hv _ hj _ hi hp.2 hq.2 htp ht he
    have hk : 768 ≤ p / 1024 := hor.resolve_left hwv
    unfold userPages at hside hpw
    rcases hside with rfl | hlt
    · have hlt := hpw.resolve_left hwv
      omega
    · omega

theorem Tables.within_pte (h : Tables D L s) (hc : s.cr3 ∈ L) (hv : v ∈ L) (hq : Regular q)
    (hside : v = s.cr3 ∨ q < userPages) (ht : (s.mem v (q / 1024)).HasTable) (d : Word) :
    Within D L (fun w p => w = v ∧ p = q) s (s.set (s.mem v (q / 1024)).pt (q % 1024) d) := by
  have hi : q / 1024 < 1024 := by have := hq.1; omega
  have hnot := h.notDir v hv _ hi hq.2 ht
  refine .of_view hc rfl (fun w hw p hp hpw hne => h.view_pte hv hq hside ht d hw hp hpw hne) ?_ ?_ (fun _ => id) ?_
  · intro w hw i _
    rw [s.set_mem_of_ne _ _ _ ?_]
    rintro rfl
    exact hnot (h.sub hw)
  · intro f hf _
    refine s.set_mem_of_ne _ _ _ ?_
    rintro rfl
    exact hnot hf
  · intro f hf
    refine s.set_mem_of_ne _ _ _ ?_
    rintro rfl
    exact hf (h.used v hv _ hi hq.2 ht)

/-- A directory entry that maps 4 MiB is written. -/
theorem Tables.within_pse (h : Tables D L s) (hc : s.cr3 ∈ L) (hv : v ∈ L) {i : ℕ}
    (hs : (s.mem v i).pgsz = true) {d : Word} (hd : d.pgsz = true) :
    Within D L (fun w p => w = v ∧ p / 1024 = i) s (s.set v i d) := by
  refine .of_view hc rfl ?_ ?_ ?_ (fun _ => id) fun f hf => s.set_mem_of_ne _ _ _ fun he => hf (he ▸ (h.dir v (h.sub hv)).1)
  · intro w hw p hp _ hne
    have hj : p / 1024 < 1024 := by have := hp.1; omega
    have hdir : (s.set v i d).mem w (p / 1024) = s.mem w (p / 1024) := by
      rw [Machine.set_mem, if_neg hne]
    refine view_congr hdir fun htp => ?_
    rw [hdir] at htp ⊢
    rw [s.set_mem_of_ne _ _ _ (h.pt_ne hw (h.sub hv) hj hp.2 htp)]
  · intro w hw j _
    rw [Machine.set_mem]
    split_ifs with he
    · rw [he.1, he.2, hd, hs]
    · rfl
  · intro f _ hL
    exact s.set_mem_of_ne _ _ _ fun he => hL (he ▸ hv)

end Access

section Updates

variable {D L : Set ℕ} {s : Machine} {v va pa f : ℕ} {r : Bool} {flags : Word}

theorem accessAt_table {m : ℕ → ℕ → Word} {p : ℕ} (h : accessAt m v p = some (f, r)) (hs : (m v (p / 1024)).pgsz = false) :
    (m v (p / 1024)).HasTable ∧ (pteAt m v p).present = true ∧ (pteAt m v p).pt = f ∧ (pteAt m v p).rw = r := by
  rw [accessAt_of_pte hs] at h
  split_ifs at h with hp
  cases h
  refine ⟨?_, hp, rfl, rfl⟩
  by_contra hno
  rw [pteAt_of_not_hasTable hno] at hp
  cases hp

theorem user_page (h : va < kernelStart) : va / 4096 < userPages := by
  have := slot_of_lt h
  unfold userPages
  omega

theorem setFlagsAt_rest : SameRest s (setFlagsAt s v va flags) := by
  unfold SysX.setFlagsAt
  dsimp only
  split_ifs <;> rfl

/-- `vmm_set_paddr` reaches the page at `va`. -/
theorem Tables.within_setPaddrAt (h : Tables D L s) (hc : s.cr3 ∈ L) (hv : v ∈ L) (hva : OffSlot va)
    (hside : v = s.cr3 ∨ va < kernelStart) :
    Within D L (InPage s v (va / 4096)) s (SysX.setPaddrAt s v va pa) := by
  have hslot := va_slot va
  unfold SysX.setPaddrAt
  dsimp only
  split_ifs with hs hz
  · refine (h.within_pse hc hv hs (by rw [Word.setPsePa_pgsz, hs])).mono ?_
    rintro w p ⟨hw, hp⟩
    exact ⟨hw, .inr ⟨by rw [hslot]; exact hs, by rw [hslot]; exact hp⟩⟩
  · exact .refl D L _ s
  · have ht : (s.mem v (va / 4096 / 1024)).HasTable := by
      by_contra hno
      exact hz (pteAt_of_not_hasTable hno)
    have hpage : v = s.cr3 ∨ va / 4096 < userPages := hside.imp_right user_page
    have hone := h.within_pte hc hv hva.page hpage ht ((pteAt s.mem v (va / 4096)).setPt (pa / 4096))
    rw [hslot] at hone
    refine hone.mono ?_
    rintro w p ⟨hw, hp⟩
    exact ⟨hw, .inl hp⟩

/-- The frame behind the page at `va` when its entry `e` is given the address `pa`. -/
def movedFrame (e : Word) (va pa : ℕ) : ℕ :=
  if e.pgsz then pa / 4194304 % 1024 * 1024 + va / 4096 % 1024 else pa / 4096 % 1048576

/-- The frame of the page is the one asked for. -/
theorem Tables.access_setPaddrAt (h : Tables D L s) (hv : v ∈ L) (hva : OffSlot va)
    (ha : accessAt s.mem v (va / 4096) = some (f, r)) :
    accessAt (SysX.setPaddrAt s v va pa).mem v (va / 4096) = some (movedFrame (s.mem v (va / 4194304)) va pa, r) := by
  have hslot := va_slot va
  cases hs : (s.mem v (va / 4194304)).pgsz with
  | true =>
    have hset : SysX.setPaddrAt s v va pa = s.set v (va / 4194304) ((s.mem v (va / 4194304)).setPsePa (pa / 4194304)) := by
      unfold SysX.setPaddrAt
      simp only [hs, if_true]
    have hentry : (SysX.setPaddrAt s v va pa).mem v (va / 4096 / 1024) =
        (s.mem v (va / 4194304)).setPsePa (pa / 4194304) := by
      rw [hslot, hset]
      exact s.set_mem_self _ _ _
    have hpgsz : ((s.mem v (va / 4194304)).setPsePa (pa / 4194304)).pgsz = true := by
      rw [Word.setPsePa_pgsz, hs]
    rw [accessAt_of_pgsz (by rw [hslot]; exact hs), hslot] at ha
    split_ifs at ha with hp
    cases ha
    rw [accessAt_of_pgsz (by rw [hentry]; exact hpgsz), hentry, Word.setPsePa_present, if_pos hp, Word.setPsePa_psePa,
      Word.setPsePa_rw, movedFrame, if_pos hs]
  | false =>
    obtain ⟨ht, hp, -, hrw⟩ := accessAt_table ha (by rw [hslot]; exact hs)
    have hz : pteAt s.mem v (va / 4096) ≠ 0#32 := Word.ne_zero_of_present hp
    have hset : SysX.setPaddrAt s v va pa = s.set (s.mem v (va / 4096 / 1024)).pt (va / 4096 % 1024)
        ((pteAt s.mem v (va / 4096)).setPt (pa / 4096)) := by
      unfold SysX.setPaddrAt
      simp only [hs, Bool.false_eq_true, if_false, if_neg hz, hslot]
    have hdir : (SysX.setPaddrAt s v va pa).mem v = s.mem v := by
      rw [hset]
      refine s.set_mem_of_ne _ _ _ (h.pt_ne hv (h.sub hv) ?_ hva.page.2 ht).symm
      rw [hslot]
      exact hva.lt
    rw [accessAt_of_pte (by rw [hdir, hslot]; exact hs), hset, h.pteAt_set hv hva.page ht _ hva.page, if_pos rfl,
      Word.setPt_present, Word.setPt_pt, Word.setPt_rw, if_pos hp, hrw, movedFrame, hs, if_neg Bool.false_ne_true]

/-- `vmm_set_flags` leaves the permissions of the other pages alone: in the entry that it mistakes for the one of the page
it only writes bits that the hardware ignores. -/
theorem Tables.within_setFlagsAt (h : Tables D L s) (hc : s.cr3 ∈ L) (hv : v ∈ L) (hva : va < kernelStart) :
    Within D L (InPage s v (va / 4096)) s (SysX.setFlagsAt s v va flags) := by
  have hoff := offSlot_of_lt hva
  have hslot := va_slot va
  have hi := slot_of_lt hva
  cases hs : (s.mem v (va / 4194304)).pgsz with
  | true =>
    have hset : SysX.setFlagsAt s v va flags =
        s.set v (va / 4194304) (((s.mem v (va / 4194304)).setFlags flags).setAvail flags) := by
      unfold SysX.setFlagsAt
      simp only [hs, if_true]
    rw [hset]
    refine (h.within_pse hc hv hs (by rw [Word.setAvail_pgsz, Word.setFlags_pgsz, hs])).mono ?_
    rintro w p ⟨hw, hp⟩
    exact ⟨hw, .inr ⟨by rw [hslot]; exact hs, by rw [hslot]; exact hp⟩⟩
  | false =>
    by_cases hz : pteAt s.mem v (va / 4096) = 0#32
    · have hset : SysX.setFlagsAt s v va flags = s := by
        unfold SysX.setFlagsAt
        simp only [hs, Bool.false_eq_true, if_false, if_pos hz]
      rw [hset]
      exact .refl D L _ s
    · have ht : (s.mem v (va / 4194304)).HasTable := by
        by_contra hno
        exact hz (pteAt_of_not_hasTable (by rw [hslot]; exact hno))
      generalize hs' : s.set (s.mem v (va / 4194304)).pt (va / 4096 % 1024)
        ((pteAt s.mem v (va / 4096)).setFlags flags) = s'
      have hset : SysX.setFlagsAt s v va flags = s'.set (s.mem v (va / 4194304)).pt (va / 4194304)
          ((s'.mem (s.mem v (va / 4194304)).pt (va / 4194304)).setAvail flags) := by
        rw [← hs']
        unfold SysX.setFlagsAt
        simp only [hs, Bool.false_eq_true, if_false, if_neg hz]
      obtain ⟨hqpage, hqslot, hqmod⟩ := diagonal_page (i := va / 4194304) (by omega)
      generalize hq : va / 4194304 * 1024 + va / 4194304 = q at hqpage hqslot hqmod
      have hquser : q < userPages := by
        unfold userPages
        omega
      have hqreg : Regular q := Windowed.regular_of_user hquser
      have hnot := h.notDir v hv _ hoff.lt hoff.2 ht
      have hs't : Tables D L s' := hs' ▸ h.set hnot _ _
      have hdir : s'.mem v = s.mem v := by
        rw [← hs']
        exact s.set_mem_of_ne _ _ _ (h.pt_ne hv (h.sub hv) hoff.lt hoff.2 ht).symm
      have hqt : (s'.mem v (q / 1024)).HasTable := by
        rw [hdir, hqslot]
        exact ht
      have hfirst : Within D L (fun w p => w = v ∧ p = va / 4096) s s' := by
        have hone := h.within_pte hc hv hoff.page (.inr (user_page hva)) (by rw [hslot]; exact ht)
          ((pteAt s.mem v (va / 4096)).setFlags flags)
        rw [hslot, hs'] at hone
        exact hone
      have hcur : s'.cr3 = s.cr3 := hfirst.cr3
      have hentry : pteAt s'.mem v q = s'.mem (s.mem v (va / 4194304)).pt (va / 4194304) := by
        rw [pteAt_of_hasTable hqt, hdir, hqslot, hqmod]
      have hsecond : Within D L (fun w p => w = v ∧ p = q) s' (SysX.setFlagsAt s v va flags) := by
        have hone := hs't.within_pte (by rw [hcur]; exact hc) hv hqreg (.inr hquser) hqt
          ((pteAt s'.mem v q).setAvail flags)
        rw [hentry, hdir, hqslot, hqmod, ← hset] at hone
        exact hone
      have hsame : accessAt (SysX.setFlagsAt s v va flags).mem v q = accessAt s'.mem v q := by
        have hsmall : (s'.mem v (q / 1024)).pgsz = false := hqt.2
        have hdir' : (SysX.setFlagsAt s v va flags).mem v = s'.mem v := by
          rw [hset]
          refine s'.set_mem_of_ne _ _ _ ?_
          rw [← hqslot, ← hdir]
          refine (hs't.pt_ne hv (hs't.sub hv) ?_ ?_ hqt).symm
          · omega
          · omega
        have hpte := hs't.pteAt_set hv hqreg hqt ((pteAt s'.mem v q).setAvail flags) hqreg
        rw [if_pos rfl, hentry, hdir, hqslot, hqmod, ← hset] at hpte
        rw [accessAt_of_pte (by rw [hdir']; exact hsmall), accessAt_of_pte hsmall, hpte, hentry, Word.setAvail_present,
          Word.setAvail_pt, Word.setAvail_rw]
      have hboth := hfirst.next hsecond
      refine ⟨hboth.vmmCurrent, ?_, ?_, hboth.pgsz, hboth.content, hboth.used, hboth.spare⟩
      · intro w hw p hp hside hno
        have hnot' : ¬ (w = v ∧ p = va / 4096) := fun he => hno ⟨he.1, .inl he.2⟩
        by_cases hwq : w = v ∧ p = q
        · rw [hwq.1, hwq.2, hsame, ← hwq.1, ← hwq.2]
          exact hfirst.access w hw p hp hside hnot'
        · exact hboth.access w hw p hp hside fun hin => hin.elim hnot' hwq
      · intro p hp hk hno
        refine hboth.vacant p hp hk ?_
        rintro (⟨hw, he⟩ | ⟨-, he⟩)
        · exact hno ⟨hw, .inl he⟩
        · omega

/-- The page is as writable as asked for. -/
theorem Tables.access_setFlagsAt (h : Tables D L s) (hv : v ∈ L) (hva : OffSlot va)
    (ha : accessAt s.mem v (va / 4096) = some (f, r)) (hp : flags.getLsbD 0 = true) :
    accessAt (SysX.setFlagsAt s v va flags).mem v (va / 4096) = some (f, flags.getLsbD 1) := by
  have hslot := va_slot va
  cases hs : (s.mem v (va / 4194304)).pgsz with
  | true =>
    have hset : SysX.setFlagsAt s v va flags =
        s.set v (va / 4194304) (((s.mem v (va / 4194304)).setFlags flags).setAvail flags) := by
      unfold SysX.setFlagsAt
      simp only [hs, if_true]
    rw [accessAt_of_pgsz (by rw [hslot]; exact hs), hslot] at ha
    split_ifs at ha with hpres
    cases ha
    have hentry : (SysX.setFlagsAt s v va flags).mem v (va / 4194304) =
        ((s.mem v (va / 4194304)).setFlags flags).setAvail flags := by
      rw [hset]
      exact s.set_mem_self _ _ _
    have hpgsz : ((SysX.setFlagsAt s v va flags).mem v (va / 4194304)).pgsz = true := by
      rw [hentry, Word.setAvail_pgsz, Word.setFlags_pgsz, hs]
    rw [accessAt_of_pgsz (by rw [hslot]; exact hpgsz), hslot, hentry, Word.setAvail_present, Word.setFlags_present, if_pos hp,
      Word.setAvail_psePa, Word.setFlags_psePa, Word.setAvail_rw, Word.setFlags_rw]
  | false =>
    obtain ⟨ht, hpres, hpt, -⟩ := accessAt_table ha (by rw [hslot]; exact hs)
    have hz := Word.ne_zero_of_present hpres
    rw [pteAt_of_hasTable ht, hslot] at hz hpt
    rw [hslot] at ht
    obtain ⟨hdir, htable, -⟩ := @Tables.setFlagsAt_small D L s v va flags h hv hva ht hz
    have hdirslot : (SysX.setFlagsAt s v va flags).mem v (va / 4096 / 1024) = s.mem v (va / 4194304) := by
      rw [hdir, hslot]
    rw [accessAt_of_pte (by rw [hdirslot]; exact hs), pteAt_of_hasTable (by rw [hdirslot]; exact ht), hdirslot, htable]
    dsimp only
    rw [if_pos rfl]
    by_cases hdiag : va / 4096 % 1024 = va / 4194304
    · rw [if_pos hdiag, Word.setAvail_present, Word.setFlags_present, if_pos hp, Word.setAvail_pt, Word.setFlags_pt,
        Word.setAvail_rw, Word.setFlags_rw, hpt]
    · rw [if_neg hdiag, Word.setFlags_present, if_pos hp, Word.setFlags_pt, Word.setFlags_rw, hpt]

end Updates

/-- What a call may rely on when the windows of the ones before it are closed. `n` frames are free where `ok` excludes a
fault. -/
structure Settled (ok : Prop) (D L : Set ℕ) (n : ℕ) (s : Machine) : Prop where
  tables : Tables D L s
  cur : s.cr3 ∈ L
  aligned : s.vmmCurrent = s.cr3 * 4096
  guard : Guard ok s s n
  spread : Propagates True D s
  kernel : ∀ k, kernelVmm s = some k → k / 4096 ∈ L

/-- The tables of a VMM can be reached: it is the current one, or there are free pages for its windows. -/
def Reach (s : Machine) (v va : ℕ) : Prop :=
  v = s.cr3 ∨ Room s (fun _ => 0#32) 0 (walkWindows (s.mem v (va / 4194304)))

section Guarded

variable {ok : Prop} {D L : Set ℕ} {s t σ : Machine} {m n v va pa f : ℕ} {flags : Word}

theorem NullGuard.setPaddrAt (hn : NullGuard s) (h : Tables D L s) (hc : s.cr3 ∈ L) (hva : OffSlot va) :
    NullGuard (SysX.setPaddrAt s s.cr3 va pa) := by
  have hslot := va_slot va
  have hzero : Regular 0 := ⟨by decide, by decide⟩
  unfold SysX.setPaddrAt
  dsimp only
  split_ifs with hs hz
  · refine hn.set _ (fun _ hi => ?_) fun he => h.pt_ne hc (h.sub hc) (by decide) (by decide) hn.table he.symm
    rw [hi] at hs
    exact hn.table.not_pgsz hs
  · exact hn
  · have ht : (s.mem s.cr3 (va / 4096 / 1024)).HasTable := by
      by_contra hno
      exact hz (pteAt_of_not_hasTable hno)
    have hset := h.pteAt_set hc hva.page ht ((pteAt s.mem s.cr3 (va / 4096)).setPt (pa / 4096)) hzero
    have hdir : (s.set (s.mem s.cr3 (va / 4096 / 1024)).pt (va / 4096 % 1024)
        ((pteAt s.mem s.cr3 (va / 4096)).setPt (pa / 4096))).mem s.cr3 = s.mem s.cr3 := by
      refine s.set_mem_of_ne _ _ _ (h.pt_ne hc (h.sub hc) ?_ hva.page.2 ht).symm
      rw [hslot]
      exact hva.lt
    rw [hslot] at hset hdir
    refine ⟨?_, ?_⟩
    · exact (congrArg Word.HasTable (congrFun hdir 0)).mpr hn.table
    · refine hset.trans ?_
      rw [if_neg, hn.pte]
      intro he
      rw [← he] at hz
      exact hz hn.pte

/-- An update above the first 4 MiB. -/
theorem NullGuard.setFlagsAt (hn : NullGuard s) (h : Tables D L s) (hc : s.cr3 ∈ L) (hva : OffSlot va)
    (hlow : 4194304 ≤ va) : NullGuard (SysX.setFlagsAt s s.cr3 va flags) := by
  have hi : va / 4194304 ≠ 0 := by omega
  have hpt : (s.mem s.cr3 (va / 4194304)).HasTable → (s.mem s.cr3 (va / 4194304)).pt ≠ (s.mem s.cr3 0).pt := by
    intro ht he
    exact hi (h.sep _ hc _ hc _ hva.lt 0 (by decide) hva.2 (by decide) ht hn.table he).1
  unfold SysX.setFlagsAt
  dsimp only
  split_ifs with hs hz
  · exact hn.set _ (fun _ => hi) fun he => h.pt_ne hc (h.sub hc) (by decide) (by decide) hn.table he.symm
  · exact hn
  · have ht : (s.mem s.cr3 (va / 4194304)).HasTable := by
      by_contra hno
      exact hz (pteAt_of_not_hasTable (by rw [va_slot]; exact hno))
    have hcf : (s.mem s.cr3 (va / 4194304)).pt ≠ s.cr3 := h.pt_ne hc (h.sub hc) hva.lt hva.2 ht
    have hfirst := hn.set (i := va / 4096 % 1024) ((pteAt s.mem s.cr3 (va / 4096)).setFlags flags)
      (fun he => absurd he hcf) (hpt ht)
    refine hfirst.set _ (fun he => absurd he hcf) fun he => hpt ht ?_
    refine he.trans (congrArg Word.pt (congrFun (s.set_mem_of_ne _ _ _ hcf.symm) 0))

theorem FreeFrames.congr (h : FreeFrames s n) (hb : t.pmmBitmap = s.pmmBitmap) (hf : t.pmmFrames = s.pmmFrames) :
    FreeFrames t n := by
  unfold FreeFrames used at h ⊢
  rw [hb, hf]
  exact h

theorem setPaddrAt_bitmap : (setPaddrAt s v va pa).pmmBitmap = s.pmmBitmap := by
  unfold SysX.setPaddrAt
  dsimp only
  split_ifs <;> rfl

theorem setFlagsAt_bitmap : (setFlagsAt s v va flags).pmmBitmap = s.pmmBitmap := by
  unfold SysX.setFlagsAt
  dsimp only
  split_ifs <;> rfl

theorem SameRest.kernelVmm_eq (h : SameRest s t) : kernelVmm t = kernelVmm s := by
  rw [h]
  rfl

/-- Windows that are closed again leave a state that the next call may start from. -/
theorem Settled.windowed {W : ℕ → Word} (h : Settled ok D L m s) (hrest : SameRest s σ) (hw : Windowed D L σ t W)
    (hg : Guard ok σ t n) : Settled ok D L n t where
  tables := hw.actual
  cur := by
    rw [hw.cr3_eq]
    exact hw.cur
  aligned := by
    rw [hw.cr3_eq, hw.vmmCurrent_eq, hrest.vmmCurrent_eq, hrest.cr3_eq]
    exact h.aligned
  guard := ⟨hg.frames, fun hno => hw.nullGuard (hg.null hno)⟩
  spread := by
    have hst : SameRest s t := hrest.trans hw.rest
    refine h.spread.congr hst.kernelVmm_eq ?_
    rw [hst]
  kernel := by
    have hst : SameRest s t := hrest.trans hw.rest
    rw [hst.kernelVmm_eq]
    exact h.kernel

theorem Settled.le (h : Settled ok D L n s) (hm : m ≤ n) : Settled ok D L m s :=
  ⟨h.tables, h.cur, h.aligned, h.guard.mono hm, h.spread, h.kernel⟩

theorem SameRest.refl (s : Machine) : SameRest s s := rfl

theorem Settled.refl (h : Settled ok D L n s) : Windowed D L s s fun _ => 0#32 := .refl h.tables h.cur

theorem Settled.foreign (h : Settled ok D L n s) (hvc : v ≠ s.cr3) : v * 4096 ≠ s.vmmCurrent := by
  rw [h.aligned]
  omega

theorem Settled.own (h : Settled ok D L n s) (hvc : v = s.cr3) : v * 4096 = s.vmmCurrent := by
  rw [h.aligned, hvc]

variable {K : Callees}

theorem Settled.getPaddr (h : Settled ok D L (n + 2) s) (hK : K.Closed) (hv : v ∈ L) (hva : OffSlot va) :
    Comp.Wp ok (vmmGetPaddr K (v * 4096) va) (fun r t => (Reach s v va → r = paddrAt s.mem v va) ∧
      (¬ Reach s v va → r = 0) ∧ Windowed D L s t (fun _ => 0#32) ∧ Settled ok D L n t) s := by
  by_cases hvc : v = s.cr3
  · rw [h.own hvc]
    refine .of_eq (vmmGetPaddr_cur h.tables h.cur hva) ⟨fun _ => by rw [hvc], fun hno => absurd (.inl hvc) hno, h.refl, ?_⟩
    exact h.le (by omega)
  · by_cases hroom : Room s (fun _ => 0#32) 0 (walkWindows (s.mem v (va / 4194304)))
    · refine (h.refl.vmmGetPaddr_foreign hK hv hvc hva h.guard hroom).mono ?_
      rintro r t ⟨hr, hw, hg⟩
      exact ⟨fun _ => hr, fun hno => absurd (.inr hroom) hno, hw, h.windowed (.refl s) hw hg⟩
    · have hno : ¬ Reach s v va := fun hin => hin.elim hvc hroom
      unfold vmmGetPaddr
      refine h.refl.foreign_walk_blocked windowFlags_read windowFlags_read hK hv hvc hva.lt h.guard hroom
        ⟨fun hin => absurd hin hno, fun _ => rfl, h.refl, h.le (by omega)⟩ fun p t hd => ?_
      refine .bind (hd.close windowFlags_read hK (h.foreign hvc)) fun _ u hu => .pure ?_
      exact ⟨fun hin => absurd hin hno, fun _ => rfl, hu.1, h.windowed (.refl s) hu.1 (hu.2.mono (by omega))⟩

theorem Settled.getFlags (h : Settled ok D L (n + 2) s) (hK : K.Closed) (hv : v ∈ L) (hva : OffSlot va) :
    Comp.Wp ok (vmmGetFlags K (v * 4096) va) (fun r t => (Reach s v va → r = flagsAt s.mem v (va / 4096)) ∧
      Windowed D L s t (fun _ => 0#32) ∧ Settled ok D L n t) s := by
  by_cases hvc : v = s.cr3
  · rw [h.own hvc]
    exact .of_eq (vmmGetFlags_cur h.tables h.cur hva) ⟨fun _ => by rw [hvc], h.refl, h.le (by omega)⟩
  · by_cases hroom : Room s (fun _ => 0#32) 0 (walkWindows (s.mem v (va / 4194304)))
    · refine (h.refl.vmmGetFlags_foreign hK hv hvc hva h.guard hroom).mono ?_
      rintro r t ⟨hr, hw, hg⟩
      exact ⟨fun _ => hr, hw, h.windowed (.refl s) hw hg⟩
    · have hno : ¬ Reach s v va := fun hin => hin.elim hvc hroom
      unfold vmmGetFlags
      refine h.refl.foreign_walk_blocked windowFlags_read windowFlags_read hK hv hvc hva.lt h.guard hroom
        ⟨fun hin => absurd hin hno, h.refl, h.le (by omega)⟩ fun p t hd => ?_
      refine .bind (hd.close windowFlags_read hK (h.foreign hvc)) fun _ u hu => .pure ?_
      exact ⟨fun hin => absurd hin hno, hu.1, h.windowed (.refl s) hu.1 (hu.2.mono (by omega))⟩

theorem Settled.setPaddr (h : Settled ok D L (n + 2) s) (hK : K.Closed) (hv : v ∈ L) (hva : OffSlot va) (pa : ℕ) :
    Comp.Wp ok (vmmSetPaddr K (v * 4096) va pa) (fun _ t => ∃ σ, (Reach s v va → σ = setPaddrAt s v va pa) ∧
      (¬ Reach s v va → σ = s) ∧ Windowed D L σ t (fun _ => 0#32) ∧ Settled ok D L n t) s := by
  by_cases hvc : v = s.cr3
  · rw [h.own hvc]
    have hrest : SameRest s (setPaddrAt s s.cr3 va pa) := setPaddrAt_rest
    have htables : Tables D L (SysX.setPaddrAt s s.cr3 va pa) := h.tables.setPaddrAt h.cur hva
    have hw : Windowed D L (setPaddrAt s s.cr3 va pa) (setPaddrAt s s.cr3 va pa) fun _ => 0#32 :=
      .refl htables (by rw [hrest.cr3_eq]; exact h.cur)
    refine .of_eq (vmmSetPaddr_cur h.tables h.cur hva pa) ⟨_, fun _ => by rw [hvc], fun hno => absurd (.inl hvc) hno, hw, ?_⟩
    refine h.windowed hrest hw ⟨fun hok => ?_, fun hno => (h.guard.null hno).setPaddrAt h.tables h.cur hva⟩
    refine ((h.le (show n ≤ n + 2 by omega)).guard.frames hok).congr setPaddrAt_bitmap ?_
    rw [hrest]
  · by_cases hroom : Room s (fun _ => 0#32) 0 (walkWindows (s.mem v (va / 4194304)))
    · refine (h.refl.vmmSetPaddr_foreign hK hv hvc hva pa h.guard hroom).mono ?_
      rintro r t ⟨hw, hg⟩
      exact ⟨_, fun _ => rfl, fun hno => absurd (.inr hroom) hno, hw, h.windowed setPaddrAt_rest hw hg⟩
    · have hno : ¬ Reach s v va := fun hin => hin.elim hvc hroom
      unfold vmmSetPaddr
      refine h.refl.foreign_walk_blocked windowFlags_write windowFlags_write hK hv hvc hva.lt h.guard hroom
        ⟨s, fun hin => absurd hin hno, fun _ => rfl, h.refl, h.le (by omega)⟩ fun p t hd => ?_
      refine (hd.close windowFlags_write hK (h.foreign hvc)).mono fun _ u hu => ?_
      exact ⟨s, fun hin => absurd hin hno, fun _ => rfl, hu.1, h.windowed (.refl s) hu.1 (hu.2.mono (by omega))⟩

/-- A 4 MiB page of another VMM is not updated: the window on its directory is read-only. -/
theorem Settled.setFlags (h : Settled ok D L (n + 2) s) (hK : K.Closed) (hv : v ∈ L) (hva : va < kernelStart)
    (hsmall : ok → v ≠ s.cr3 → (s.mem v (va / 4194304)).pgsz = false) (hlow : ¬ ok → v = s.cr3 → 4194304 ≤ va)
    (flags : Word) :
    Comp.Wp ok (vmmSetFlags K (v * 4096) va flags) (fun _ t => ∃ σ, (Reach s v va → σ = setFlagsAt s v va flags) ∧
      (¬ Reach s v va → σ = s) ∧ Windowed D L σ t (fun _ => 0#32) ∧ Settled ok D L n t) s := by
  have hoff := offSlot_of_lt hva
  by_cases hvc : v = s.cr3
  · rw [h.own hvc]
    have hrest : SameRest s (setFlagsAt s s.cr3 va flags) := setFlagsAt_rest
    have htables : Tables D L (SysX.setFlagsAt s s.cr3 va flags) := h.tables.setFlagsAt h.cur hoff
    have hw : Windowed D L (setFlagsAt s s.cr3 va flags) (setFlagsAt s s.cr3 va flags) fun _ => 0#32 :=
      .refl htables (by rw [hrest.cr3_eq]; exact h.cur)
    refine .of_eq (vmmSetFlags_cur h.tables h.cur hoff flags)
      ⟨_, fun _ => by rw [hvc], fun hno => absurd (.inl hvc) hno, hw, ?_⟩
    refine h.windowed hrest hw ⟨fun hok => ?_, fun hno => ?_⟩
    · refine ((h.le (show n ≤ n + 2 by omega)).guard.frames hok).congr setFlagsAt_bitmap ?_
      rw [hrest]
    · exact (h.guard.null hno).setFlagsAt h.tables h.cur hoff (hlow hno hvc)
  · by_cases hroom : Room s (fun _ => 0#32) 0 (walkWindows (s.mem v (va / 4194304)))
    · refine (h.refl.vmmSetFlags_foreign hK hv hvc hoff flags id (fun hok => hsmall hok hvc) h.guard hroom).mono ?_
      rintro r t ⟨-, hw, hg⟩
      exact ⟨_, fun _ => rfl, fun hno => absurd (.inr hroom) hno, hw, h.windowed setFlagsAt_rest hw hg⟩
    · have hno : ¬ Reach s v va := fun hin => hin.elim hvc hroom
      unfold vmmSetFlags
      refine h.refl.foreign_walk_blocked windowFlags_read windowFlags_write hK hv hvc hoff.lt h.guard hroom
        ⟨s, fun hin => absurd hin hno, fun _ => rfl, h.refl, h.le (by omega)⟩ fun p t hd => ?_
      refine (hd.close windowFlags_read hK (h.foreign hvc)).mono fun _ u hu => ?_
      exact ⟨s, fun hin => absurd hin hno, fun _ => rfl, hu.1, h.windowed (.refl s) hu.1 (hu.2.mono (by omega))⟩

/-- The tables that could be reached still can. -/
def KeepsReach (L : Set ℕ) (s t : Machine) : Prop := ∀ v ∈ L, ∀ va < kernelStart, (Reach s v va ↔ Reach t v va)

theorem KeepsReach.trans {u : Machine} (h : KeepsReach L s t) (h' : KeepsReach L t u) : KeepsReach L s u :=
  fun v hv va hva => (h v hv va hva).trans (h' v hv va hva)

theorem Reach.of_views (hc : t.cr3 = s.cr3) (hview : ∀ p < userPages, view t.mem s.cr3 p = view s.mem s.cr3 p)
    (hdir : v ≠ s.cr3 → t.mem v (va / 4194304) = s.mem v (va / 4194304)) (hr : Reach s v va) : Reach t v va := by
  by_cases hvc : v = s.cr3
  · exact .inl (hvc.trans hc.symm)
  · refine .inr ?_
    rw [hdir hvc]
    refine (hr.resolve_left hvc).congr fun p hp => ?_
    rw [hc]
    exact hview p hp

theorem KeepsReach.of_views (hc : t.cr3 = s.cr3) (hview : ∀ p < userPages, view t.mem s.cr3 p = view s.mem s.cr3 p)
    (hdir : ∀ v ∈ L, v ≠ s.cr3 → ∀ i < 767, t.mem v i = s.mem v i) : KeepsReach L s t := by
  intro v hv va hva
  have hslot : v ≠ s.cr3 → t.mem v (va / 4194304) = s.mem v (va / 4194304) := fun hvc => hdir v hv hvc _ (slot_of_lt hva)
  constructor
  · exact Reach.of_views hc hview hslot
  · refine Reach.of_views hc.symm (fun p hp => ?_) fun hvc => (hslot (hc ▸ hvc)).symm
    rw [hc]
    exact (hview p hp).symm

theorem KeepsReach.windowed (h : Windowed D L s t fun _ => 0#32) : KeepsReach L s t :=
  .of_views h.cr3_eq (fun _ hp => h.view_cur (Windowed.regular_of_user hp) rfl) fun v hv hvc i _ => by
    rw [h.mem_dir (h.logical.sub hv) hvc]

/-- A page of the kernel half moves to another frame. -/
theorem KeepsReach.setPaddrAt (h : Tables D L s) (hc : s.cr3 ∈ L) (hva : OffSlot va) (hk : kernelStart ≤ va) :
    KeepsReach L s (SysX.setPaddrAt s s.cr3 va pa) := by
  have hrest : SameRest s (SysX.setPaddrAt s s.cr3 va pa) := setPaddrAt_rest
  have hslot : 768 ≤ va / 4194304 := by
    have := hva.2
    unfold kernelStart rmapStart at hk
    omega
  refine .of_views hrest.cr3_eq (fun p hp => ?_) fun v hv hvc i _ => ?_
  · have hpslot := userPages_slot hp
    have hreg := Windowed.regular_of_user hp
    unfold SysX.setPaddrAt
    dsimp only
    split_ifs with hs hz
    · have hdir : (s.set s.cr3 (va / 4194304) ((s.mem s.cr3 (va / 4194304)).setPsePa (pa / 4194304))).mem s.cr3 (p / 1024) =
          s.mem s.cr3 (p / 1024) := s.set_mem_of_ne_index _ _ _ _ (by omega)
      refine view_congr hdir fun ht => ?_
      rw [hdir] at ht ⊢
      rw [s.set_mem_of_ne _ _ _ (h.pt_ne hc (h.sub hc) (by omega) hreg.2 ht)]
    · rfl
    · have ht : (s.mem s.cr3 (va / 4096 / 1024)).HasTable := by
        by_contra hno
        exact hz (pteAt_of_not_hasTable hno)
      have hview := h.view_pte hc hva.page (.inl rfl) ht ((pteAt s.mem s.cr3 (va / 4096)).setPt (pa / 4096)) hc hreg (.inl rfl)
        fun he => by
          have := he.2
          omega
      rw [va_slot] at hview
      exact hview
  · unfold SysX.setPaddrAt
    dsimp only
    split_ifs with hs hz
    · rw [s.set_mem_of_ne _ _ _ hvc]
    · rfl
    · have ht : (s.mem s.cr3 (va / 4194304)).HasTable := by
        by_contra hno
        exact hz (pteAt_of_not_hasTable (by rw [va_slot]; exact hno))
      rw [s.set_mem_of_ne _ _ _ (h.pt_ne hc (h.sub hv) hva.lt hva.2 ht).symm]

theorem walkWindows_setPaddrAt (h : Tables D L s) (hv : v ∈ L) (hva : OffSlot va) :
    walkWindows ((SysX.setPaddrAt s v va pa).mem v (va / 4194304)) = walkWindows (s.mem v (va / 4194304)) := by
  unfold SysX.setPaddrAt
  dsimp only
  split_ifs with hs hz
  · have hpgsz : ((s.mem v (va / 4194304)).setPsePa (pa / 4194304)).pgsz = true := by
      rw [Word.setPsePa_pgsz, hs]
    rw [s.set_mem_self, walkWindows, walkWindows, if_neg fun ht => ht.not_pgsz hpgsz, if_neg fun ht => ht.not_pgsz hs]
  · rfl
  · have ht : (s.mem v (va / 4194304)).HasTable := by
      by_contra hno
      exact hz (pteAt_of_not_hasTable (by rw [va_slot]; exact hno))
    rw [s.set_mem_of_ne _ _ _ (h.pt_ne hv (h.sub hv) hva.lt hva.2 ht).symm]

theorem Reach.moved (h : Tables D L s) (hc : s.cr3 ∈ L) (hv : v ∈ L) (hva : va < kernelStart) (hr : Reach s v va) :
    Reach (SysX.setPaddrAt s v va pa) v va := by
  have hrest : SameRest s (SysX.setPaddrAt s v va pa) := setPaddrAt_rest
  by_cases hvc : v = s.cr3
  · exact .inl (hvc.trans hrest.cr3_eq.symm)
  · refine .inr ?_
    rw [walkWindows_setPaddrAt h hv (offSlot_of_lt hva)]
    exact (h.apart_setPaddrAt hv hva).room hc hvc (hr.resolve_left hvc)

/-- What `vmm_set_paddr` comes to. -/
theorem Settled.movePage (h : Settled ok D L (n + 2) s) (hK : K.Closed) (hv : v ∈ L) (hva : OffSlot va)
    (hside : v = s.cr3 ∨ va < kernelStart) (pa : ℕ) :
    Comp.Wp ok (vmmSetPaddr K (v * 4096) va pa) (fun _ t => Settled ok D L n t ∧ SameRest s t ∧
      Within D L (InPage s v (va / 4096)) s t ∧ (¬ Reach s v va → KeepsReach L s t ∧ ∀ C, Within D L C s t) ∧
      (Reach s v va → Reach t v va ∧ ∀ f r, accessAt s.mem v (va / 4096) = some (f, r) →
        accessAt t.mem v (va / 4096) = some (movedFrame (s.mem v (va / 4194304)) va pa, r)) ∧
      (v = s.cr3 → kernelStart ≤ va → KeepsReach L s t)) s := by
  refine (h.setPaddr hK hv hva pa).mono ?_
  rintro _ t ⟨σ, hreach, hblocked, hw, hset⟩
  have hrest : SameRest s σ := by
    by_cases hr : Reach s v va
    · rw [hreach hr]
      exact setPaddrAt_rest
    · rw [hblocked hr]
      exact .refl s
  refine ⟨hset, hrest.trans hw.rest, ?_, fun hr => ⟨?_, fun C => ?_⟩, fun hr => ⟨?_, fun f r ha => ?_⟩, fun hvc hk => ?_⟩
  · by_cases hr : Reach s v va
    · have hσ : Within D L (InPage s v (va / 4096)) s (SysX.setPaddrAt s v va pa) := h.tables.within_setPaddrAt h.cur hv hva hside
      rw [← hreach hr] at hσ
      exact hσ.trans (hw.within_closed _)
    · rw [hblocked hr] at hw
      exact hw.within_closed _
  · rw [hblocked hr] at hw
    exact .windowed hw
  · rw [hblocked hr] at hw
    exact hw.within_closed C
  · by_cases hvc : v = s.cr3
    · exact .inl (hvc.trans (hrest.trans hw.rest).cr3_eq.symm)
    have hσ : Reach (SysX.setPaddrAt s v va pa) v va := hr.moved h.tables h.cur hv (hside.resolve_left hvc)
    rw [← hreach hr] at hσ
    exact (KeepsReach.windowed hw v hv va (hside.resolve_left hvc)).mp hσ
  · have hσ : accessAt (SysX.setPaddrAt s v va pa).mem v (va / 4096) =
        some (movedFrame (s.mem v (va / 4194304)) va pa, r) := h.tables.access_setPaddrAt hv hva ha
    rw [← hreach hr] at hσ
    exact (accessAt_congr (hw.views_closed hv hva.page)).trans hσ
  · subst hvc
    have hσ : KeepsReach L s (SysX.setPaddrAt s s.cr3 va pa) := KeepsReach.setPaddrAt h.tables h.cur hva hk
    rw [← hreach (.inl rfl)] at hσ
    exact hσ.trans (.windowed hw)

/-- What `vmm_set_flags` comes to. -/
theorem Settled.grantPage (h : Settled ok D L (n + 2) s) (hK : K.Closed) (hv : v ∈ L) (hva : va < kernelStart)
    (hsmall : ok → v ≠ s.cr3 → (s.mem v (va / 4194304)).pgsz = false) (hlow : ¬ ok → v = s.cr3 → 4194304 ≤ va)
    (flags : Word) :
    Comp.Wp ok (vmmSetFlags K (v * 4096) va flags) (fun _ t => Settled ok D L n t ∧ SameRest s t ∧
      Within D L (InPage s v (va / 4096)) s t ∧ (¬ Reach s v va → ∀ C, Within D L C s t) ∧
      (Reach s v va → flags.getLsbD 0 = true → ∀ f r, accessAt s.mem v (va / 4096) = some (f, r) →
        accessAt t.mem v (va / 4096) = some (f, flags.getLsbD 1))) s := by
  have hoff := offSlot_of_lt hva
  refine (h.setFlags hK hv hva hsmall hlow flags).mono ?_
  rintro _ t ⟨σ, hreach, hblocked, hw, hset⟩
  have hrest : SameRest s σ := by
    by_cases hr : Reach s v va
    · rw [hreach hr]
      exact setFlagsAt_rest
    · rw [hblocked hr]
      exact .refl s
  refine ⟨hset, hrest.trans hw.rest, ?_, fun hr C => ?_, fun hr hp f r ha => ?_⟩
  · by_cases hr : Reach s v va
    · have hσ : Within D L (InPage s v (va / 4096)) s (SysX.setFlagsAt s v va flags) := h.tables.within_setFlagsAt h.cur hv hva
      rw [← hreach hr] at hσ
      exact hσ.trans (hw.within_closed _)
    · rw [hblocked hr] at hw
      exact hw.within_closed _
  · rw [hblocked hr] at hw
    exact hw.within_closed C
  · have hσ := h.tables.access_setFlagsAt hv hoff ha hp
    rw [← hreach hr] at hσ
    exact (accessAt_congr (hw.views_closed hv hoff.page)).trans hσ

end Guarded

section Kernel

variable {ok : Prop} {D L : Set ℕ} {s t σ : Machine} {n pa va g j p : ℕ} {flags : Word} {K : Callees}

theorem ne_of_used (h : used s g) (f : ℕ) (hf : ¬ used s f) (_ : used σ f) : g ≠ f := fun he => hf (he ▸ h)

/-- Mapping a page of the current VMM writes its directory, the directory of the kernel process and one page table. -/
theorem PgmapOwn.mem_other (hm : PgmapOwn s pa va flags σ) (hg : g ≠ s.cr3)
    (hold : ∀ f, ¬ SysX.used s f → SysX.used σ f → g ≠ f)
    (hpt : (s.mem s.cr3 (va / 4194304)).HasTable → g ≠ (s.mem s.cr3 (va / 4194304)).pt)
    (hslot : ∀ k, kernelVmm s = some k → k / 4096 = g → j ≠ va / 4194304) : σ.mem g j = s.mem g j := by
  rcases hm.cases with ⟨he, rfl⟩ | ⟨-, f, -, hfree, s₂, hs, -, rfl⟩
  · exact congrFun (pgmapEntryAt_mem hg (hpt he)) j
  · have hgf : g ≠ f := by
      refine hold f hfree ?_
      show pmmBit s₂.pmmBitmap f = true
      rw [hs.pmmBitmap_eq]
      exact (used_alloc s f f).mpr (.inl rfl)
    have hnew : (newTableAt s s.cr3 (va / 4194304) f).mem g = s.mem g := by
      rw [newTableAt, Machine.setFrame_mem_of_ne _ _ hgf, Machine.set_mem_of_ne _ _ _ _ hg]
      rfl
    have hsame : s₂.mem g j = (newTableAt s s.cr3 (va / 4194304) f).mem g j := by
      rcases hs with rfl | rfl
      · rfl
      · have hk : kernelVmm (newTableAt s s.cr3 (va / 4194304) f) = kernelVmm s := rfl
        unfold propagateAt
        rw [hk]
        cases hkv : kernelVmm s with
        | none => rfl
        | some k =>
          dsimp only
          split_ifs
          · rfl
          · rw [Machine.set_mem, if_neg]
            rintro ⟨hgk, hj⟩
            exact hslot k hkv hgk.symm hj
    refine (congrFun (pgmapEntryAt_mem hg hgf) j).trans ?_
    rw [Machine.setFrame_mem_of_ne _ _ hgf, hsame, hnew]

/-- The pages around a page that was free stay as they are. -/
theorem PgmapOwn.view_other (hm : PgmapOwn s pa va flags σ) (h : Tables D L s) (hc : s.cr3 ∈ L) (hva : OffSlot va)
    (hpr : Propagates True D s) (hfree : view s.mem s.cr3 (va / 4096) = none) (hp : Regular p) (hne : p ≠ va / 4096) :
    view σ.mem s.cr3 p = view s.mem s.cr3 p := by
  have hpages := hm.pageMapped h hc hva fun _ => hpr
  have hslot := va_slot va
  by_cases he : (s.mem s.cr3 (va / 4194304)).HasTable
  · obtain rfl : σ = pgmapEntryAt s s.cr3 (s.mem s.cr3 (va / 4194304)).pt pa va flags := by
      rcases hm.cases with ⟨-, hσ⟩ | ⟨hno, -⟩
      · exact hσ
      · exact absurd he hno
    have hcf : s.cr3 ≠ (s.mem s.cr3 (va / 4194304)).pt := (h.pt_ne hc (h.sub hc) hva.lt hva.2 he).symm
    by_cases hpi : p / 1024 = va / 4194304
    · rw [view_pgmapEntry pa flags hcf (h.present _ hc _ hva.lt hva.2 he) he.2 rfl hpi, if_neg hne,
        view_eq_pte (by rw [hpi]; exact he), hpi]
    · refine h.view_elsewhere hc (f := (s.mem s.cr3 (va / 4194304)).pt) (fun j hj => ?_) (fun g hg hgf => ?_)
        (fun j hj hne hji ht heq => ?_) hp hpi
      · exact hm.slot_of_ne h hc hva (fun _ => hpr) hj
      · exact pgmapEntryAt_mem (fun e => hg (e ▸ h.sub hc)) hgf
      · exact hji (h.sep _ hc _ hc j hj _ hva.lt hne hva.2 ht he heq).1
  · have hpse : (s.mem s.cr3 (va / 4194304)).pgsz = false := by
      rw [← hslot]
      exact (view_eq_none.mp hfree).1
    have hzero : s.mem s.cr3 (va / 4194304) = 0#32 := by
      by_contra hne0
      exact he ⟨hne0, hpse⟩
    by_cases hpi : p / 1024 = va / 4194304
    · have hnone : view s.mem s.cr3 p = none := view_of_slot_zero (by rw [hpi]; exact hzero)
      rcases hpages.other p hp hne with hsame | ⟨hgone, -⟩
      · exact hsame
      · rw [hgone, hnone]
    · have hlt : p / 1024 < 1024 := by have := hp.1; omega
      have hdir : σ.mem s.cr3 (p / 1024) = s.mem s.cr3 (p / 1024) := hm.slot_of_ne h hc hva (fun _ => hpr) hpi
      refine view_congr hdir fun htp => ?_
      rw [hdir] at htp ⊢
      refine hm.mem_other (h.pt_ne hc (h.sub hc) hlt hp.2 htp) (ne_of_used (h.used _ hc _ hlt hp.2 htp)) (fun hno => absurd hno he) ?_
      intro k hk hkg
      exact absurd hkg.symm (h.pt_ne hc (hpr.dir k hk).1 hlt hp.2 htp)

/-- A free page of the kernel half is mapped. -/
theorem Settled.mapKernel (h : Settled ok D L (n + 2) s) (hK : K.Closed) (hk : 786432 ≤ p) (hp : p < 1048576)
    (hfree : view s.mem s.cr3 p = none) (pa : ℕ) (flags : Word) :
    Comp.Wp ok (vmmPgmap K s.vmmCurrent pa (p * 4096) 0 flags) (fun _ t => Settled ok D L n t ∧ SameRest s t ∧
      Within D L (fun w q => w = s.cr3 ∧ q = p) s t ∧
      (∀ q, Regular q → q ≠ p → view t.mem s.cr3 q = view s.mem s.cr3 q) ∧ KeepsReach L s t ∧
      ∃ e, view t.mem s.cr3 p = viewPte (Word.fillPte e flags pa)) s := by
  have hreg : Regular p := ⟨hp, by omega⟩
  have hoff := hreg.offSlot
  have hslot := page_slot p
  have hcall : vmmPgmap K s.vmmCurrent pa (p * 4096) 0 flags = vmmPgmapSmall K s.vmmCurrent pa (p * 4096) flags :=
    if_neg hoff.not_rmap
  rw [hcall]
  refine (h.refl.vmmPgmapSmall_kernel hK h.aligned hoff (by omega) ⟨h.spread.dir, fun _ => h.spread.run trivial⟩ h.guard).mono ?_
  rintro _ t ⟨σ, hm, hw, hg⟩
  have hσ : σ.cr3 = s.cr3 := hm.rest.cr3_eq
  have hviews : ∀ w ∈ L, ∀ q, Regular q → view t.mem w q = view σ.mem w q := fun w hwL q hq => hw.views_closed hwL hq
  have hother : ∀ q, Regular q → q ≠ p → view t.mem s.cr3 q = view s.mem s.cr3 q := by
    intro q hq hne
    rw [hviews _ h.cur q hq]
    exact hm.view_other h.tables h.cur hoff h.spread (by rw [page_div]; exact hfree) hq (by rw [page_div]; exact hne)
  have hmem : ∀ w ∈ L, w ≠ s.cr3 → ∀ j < 767, σ.mem w j = s.mem w j := by
    intro w hwL hwc j hj
    refine hm.mem_other hwc (ne_of_used (h.tables.dir w (h.tables.sub hwL)).1) (fun ht => ?_) fun _ _ _ => by omega
    exact (h.tables.pt_ne h.cur (h.tables.sub hwL) hoff.lt hoff.2 ht).symm
  refine ⟨h.windowed hm.rest hw hg, hm.rest.trans hw.rest, ?_, hother, ?_, ?_⟩
  · refine .of_view h.cur (hw.vmmCurrent_eq.trans hm.rest.vmmCurrent_eq) ?_ ?_ ?_ (fun f hf => hw.used f (hm.used hf))
      fun f hf => ?_
    · intro w hwL q hq hside hno
      by_cases hwc : w = s.cr3
      · rw [hwc]
        exact hother q hq fun he => hno ⟨hwc, he⟩
      · have hlt := userPages_slot (hside.resolve_left hwc)
        rw [hviews w hwL q hq]
        have hdir := hmem w hwL hwc _ hlt
        refine view_congr hdir fun ht => ?_
        rw [hdir] at ht ⊢
        have hnot := h.tables.notDir w hwL _ (by omega) hq.2 ht
        refine hm.mem_other (fun he => hnot (he ▸ h.tables.sub h.cur))
          (ne_of_used (h.tables.used w hwL _ (by omega) hq.2 ht)) (fun ht' he => ?_) fun k hk hkg => ?_
        · have hsep := h.tables.sep w hwL _ h.cur _ (by omega) _ hoff.lt hq.2 hoff.2 ht ht' he
          omega
        · exact absurd hkg.symm (h.tables.pt_ne hwL (h.spread.dir k hk).1 (by omega) hq.2 ht)
    · intro w hwL i hi
      by_cases hwc : w = s.cr3
      · rw [hwc, ← hσ, hw.pgsz_eq i, hσ]
        by_cases hip : i = p * 4096 / 4194304
        · have hslotσ := hm.slot h.tables h.cur hoff fun _ => h.spread
          rw [hip, hslotσ.2, hslot]
          exact (view_eq_none.mp hfree).1.symm
        · rw [hm.slot_of_ne h.tables h.cur hoff (fun _ => h.spread) hip]
      · have htσ : t.mem w = σ.mem w := hw.mem_dir (h.tables.sub hwL) (by rw [hσ]; exact hwc)
        rw [htσ, hmem w hwL hwc i (hi.resolve_left hwc)]
    · intro f hf hL
      have hfc : f ≠ s.cr3 := fun he => hL (he ▸ h.cur)
      rw [hw.mem_dir hf (by rw [hσ]; exact hfc)]
      funext j
      refine hm.mem_other hfc (ne_of_used (h.tables.dir f hf).1) (fun ht => ?_) fun k hk hkf => ?_
      · exact (h.tables.pt_ne h.cur hf hoff.lt hoff.2 ht).symm
      · exact absurd (hkf ▸ h.kernel k hk) hL
    · have hσf : ¬ SysX.used σ f := fun hu => hf (hw.used f hu)
      have hsf : ¬ SysX.used s f := fun hu => hσf (hm.used hu)
      refine ((hw.within_closed fun _ _ => False).spare f hf).trans ?_
      funext j
      refine hm.mem_other (fun he => hsf (he ▸ (h.tables.dir _ (h.tables.sub h.cur)).1)) (fun g _ hu he => hσf (he ▸ hu))
        (fun ht he => hsf (he ▸ h.tables.used _ h.cur _ hoff.lt hoff.2 ht)) fun k hk hkf => ?_
      exact absurd (hkf ▸ (h.tables.dir _ (h.spread.dir k hk).1).1) hsf
  · refine .of_views (hw.cr3_eq.trans hσ) (fun q hq => hother q (Windowed.regular_of_user hq) ?_) fun w hwL hwc i hi => ?_
    · unfold userPages at hq
      omega
    · rw [hw.mem_dir (h.tables.sub hwL) (by rw [hσ]; exact hwc)]
      exact hmem w hwL hwc i hi
  · obtain ⟨e, he⟩ := (hm.pageMapped h.tables h.cur hoff fun _ => h.spread).own
    rw [page_div] at he
    exact ⟨e, (hviews _ h.cur p hreg).trans he⟩

end Kernel

end SysX
