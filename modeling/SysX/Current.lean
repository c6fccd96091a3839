import SysX.Cow
import SysX.Tables

/-!
The primitives on the current VMM, whose tables are reached through the recursive slot: each is a
known function of the state.
-/
namespace SysX

/-- The size index of the page at `p`. -/
def pgszAt (m : ℕ → ℕ → Word) (pd p : ℕ) : Option ℕ :=
  if (m pd (p / 1024)).pgsz then some 1 else if pteAt m pd p = 0#32 then none else some 0

/-- The physical address that `va` is mapped to, zero for none. -/
def paddrAt (m : ℕ → ℕ → Word) (pd va : ℕ) : ℕ :=
  match view m pd (va / 4096) with
  | none => 0
  | some (f, _) => f * 4096 + va % 4096

def flagsAt (m : ℕ → ℕ → Word) (pd p : ℕ) : Word :=
  match view m pd p with
  | none => 0#32
  | some (_, flags) => flags

theorem pgszAt_eq_none {m : ℕ → ℕ → Word} {pd p : ℕ} : pgszAt m pd p = none ↔ view m pd p = none := by
  rw [view_eq_none, pgszAt]
  cases (m pd (p / 1024)).pgsz <;> simp

/-- An address lies outside the recursive slot. -/
def OffSlot (va : ℕ) : Prop := va < 4294967296 ∧ va / 4194304 ≠ 767

theorem OffSlot.lt {va : ℕ} (h : OffSlot va) : va / 4194304 < 1024 := by
  have := h.1
  omega

/-- `vmm_pgmap` and `vmm_pgunmap` leave the recursive slot alone. -/
theorem OffSlot.not_rmap {va : ℕ} (h : OffSlot va) : ¬ (rmapStart ≤ va ∧ va < rmapEnd) := by
  have := h.2
  unfold rmapStart rmapEnd
  omega

theorem Regular.offSlot {q : ℕ} (h : Regular q) : OffSlot (q * 4096) := by
  obtain ⟨hlt, hslot⟩ := h
  refine ⟨by omega, ?_⟩
  rw [page_slot]
  exact hslot

theorem OffSlot.page {a : ℕ} (h : OffSlot a) : Regular (a / 4096) := ⟨by have := h.1; omega, by have := h.2; omega⟩

section Windows

variable {K : Callees} {s : Machine} {vmm : ℕ}

theorem openPd_cur (h : vmm = s.vmmCurrent) (flags : Word) :
    openPd K vmm flags s = some (vmmPd rmapStart, s) := by
  rw [openPd, Comp.read_bind, if_neg (not_not.mpr h)]
  rfl

theorem openPt_cur (h : vmm = s.vmmCurrent) (pd pde : ℕ) (flags : Word) :
    openPt K vmm pd pde flags s = some (vmmPt rmapStart pde, s) := by
  rw [openPt, Comp.read_bind, if_neg (not_not.mpr h)]
  rfl

theorem closeWin_cur (h : vmm = s.vmmCurrent) (va : ℕ) : closeWin K vmm va s = some ((), s) := by
  rw [closeWin, Comp.read_bind, Comp.when_false (not_not.mpr h)]
  rfl

theorem closeWins_cur (h : vmm = s.vmmCurrent) (a b : ℕ) :
    (do closeWin K vmm a; closeWin K vmm b) s = some ((), s) := by
  rw [Comp.bind_of_eq (closeWin_cur h a), closeWin_cur h]

theorem vmmPd_ne_zero : vmmPd rmapStart ≠ 0 := by decide

theorem vmmPt_ne_zero (pde : ℕ) : vmmPt rmapStart pde ≠ 0 := by
  unfold vmmPt rmapStart
  omega

end Windows

section Observers

variable {D L : Set ℕ} {K : Callees} {s : Machine} {va : ℕ}

/-- The tables of the current VMM can be walked: the directory maps itself and its page tables are
present. -/
structure Walkable (s : Machine) : Prop where
  self : SelfMapped s.mem s.cr3
  present : ∀ i < 1024, (s.mem s.cr3 i).HasTable → (s.mem s.cr3 i).present = true

theorem Tables.walkable (ht : Tables D L s) (hc : s.cr3 ∈ L) : Walkable s := by
  refine ⟨ht.self _ hc, fun i hi he => ?_⟩
  by_cases h767 : i = 767
  · rw [h767]
    exact (ht.self _ hc).present
  · exact ht.present _ hc i hi h767 he

/-- Every page is looked up, those of the recursive slot, too. -/
theorem Walkable.vmmGetPgsz (hw : Walkable s) (hva : va < 4294967296) :
    vmmGetPgsz K s.vmmCurrent va s = some (pgszAt s.mem s.cr3 (va / 4096), s) := by
  have hi := va_slot va
  have hlt : va / 4194304 < 1024 := by omega
  rw [SysX.vmmGetPgsz]
  rw [Comp.bind_of_eq (openPd_cur rfl _), if_neg vmmPd_ne_zero,
    Comp.bind_of_eq ((hw.self.pageAt_pd false).load hlt), pgszAt, hi]
  by_cases h0 : s.mem s.cr3 (va / 4194304) = 0#32
  · rw [if_pos h0, Comp.bind_of_eq (closeWin_cur rfl _), h0,
      pteAt_of_not_hasTable (by rw [hi, h0]; exact Word.not_hasTable_zero)]
    rfl
  rw [if_neg h0]
  cases hs : (s.mem s.cr3 (va / 4194304)).pgsz with
  | true =>
    rw [if_pos rfl, if_pos rfl, Comp.bind_of_eq (closeWin_cur rfl _)]
    rfl
  | false =>
    have hpt := hw.self.pageAt_pt false hlt (hw.present _ hlt ⟨h0, hs⟩) nofun
    rw [if_neg Bool.false_ne_true, if_neg Bool.false_ne_true,
      pteAt_of_hasTable (by rw [hi]; exact ⟨h0, hs⟩), hi,
      Comp.bind_of_eq (openPt_cur rfl _ _ _), if_neg (vmmPt_ne_zero _),
      Comp.bind_of_eq (hpt.load (Nat.mod_lt _ (by decide))),
      Comp.bind_of_eq (closeWin_cur rfl _), Comp.pure_apply]

theorem vmmGetPgsz_cur (ht : Tables D L s) (hc : s.cr3 ∈ L) (hva : OffSlot va) :
    vmmGetPgsz K s.vmmCurrent va s = some (pgszAt s.mem s.cr3 (va / 4096), s) :=
  (ht.walkable hc).vmmGetPgsz hva.1

theorem vmmGetPaddr_cur (ht : Tables D L s) (hc : s.cr3 ∈ L) (hva : OffSlot va) :
    vmmGetPaddr K s.vmmCurrent va s = some (paddrAt s.mem s.cr3 va, s) := by
  have hi := va_slot va
  rw [vmmGetPaddr]
  rw [Comp.bind_of_eq (openPd_cur rfl _), if_neg vmmPd_ne_zero,
    Comp.bind_of_eq ((ht.pageAt_pd hc false).load hva.lt), paddrAt]
  by_cases h0 : s.mem s.cr3 (va / 4194304) = 0#32
  · rw [if_pos h0, Comp.bind_of_eq (closeWin_cur rfl _), view_of_slot_zero (by rw [hi, h0])]
    rfl
  rw [if_neg h0]
  cases hs : (s.mem s.cr3 (va / 4194304)).pgsz with
  | true =>
    rw [if_pos rfl, Comp.bind_of_eq (closeWin_cur rfl _), view_of_pgsz (by rw [hi, hs]), hi,
      Comp.pure_apply]
    have hpa : (s.mem s.cr3 (va / 4194304)).psePa * 4194304 + va % 4194304 =
        ((s.mem s.cr3 (va / 4194304)).psePa * 1024 + va / 4096 % 1024) * 4096 + va % 4096 := by
      omega
    rw [hpa]
  | false =>
    rw [if_neg Bool.false_ne_true, Comp.bind_of_eq (openPt_cur rfl _ _ _), if_neg (vmmPt_ne_zero _),
      Comp.bind_of_eq ((ht.pageAt_pt hc hva.lt hva.2 ⟨h0, hs⟩ false).load
        (Nat.mod_lt _ (by decide))), Comp.bind_of_eq (closeWin_cur rfl _),
      Comp.bind_of_eq (closeWin_cur rfl _), view_of_not_pgsz (by rw [hi, hs]),
      pteAt_of_hasTable (by rw [hi]; exact ⟨h0, hs⟩), hi, Comp.pure_apply, viewPte]
    split_ifs <;> rfl

theorem vmmGetFlags_cur (ht : Tables D L s) (hc : s.cr3 ∈ L) (hva : OffSlot va) :
    vmmGetFlags K s.vmmCurrent va s = some (flagsAt s.mem s.cr3 (va / 4096), s) := by
  have hi := va_slot va
  rw [vmmGetFlags]
  rw [Comp.bind_of_eq (openPd_cur rfl _), if_neg vmmPd_ne_zero,
    Comp.bind_of_eq ((ht.pageAt_pd hc false).load hva.lt), flagsAt]
  by_cases h0 : s.mem s.cr3 (va / 4194304) = 0#32
  · rw [if_pos h0, Comp.bind_of_eq (closeWin_cur rfl _), view_of_slot_zero (by rw [hi, h0])]
    rfl
  rw [if_neg h0]
  cases hs : (s.mem s.cr3 (va / 4194304)).pgsz with
  | true =>
    rw [if_pos rfl, Comp.bind_of_eq (closeWin_cur rfl _), view_of_pgsz (by rw [hi, hs]), hi]
    rfl
  | false =>
    rw [if_neg Bool.false_ne_true, Comp.bind_of_eq (openPt_cur rfl _ _ _), if_neg (vmmPt_ne_zero _),
      Comp.bind_of_eq ((ht.pageAt_pt hc hva.lt hva.2 ⟨h0, hs⟩ false).load
        (Nat.mod_lt _ (by decide))), Comp.bind_of_eq (closeWin_cur rfl _),
      Comp.bind_of_eq (closeWin_cur rfl _), view_of_not_pgsz (by rw [hi, hs]),
      pteAt_of_hasTable (by rw [hi]; exact ⟨h0, hs⟩), hi, Comp.pure_apply, viewPte]
    split_ifs <;> rfl

end Observers

/-! Updates. -/

/-- `vmm_set_paddr` on the tables of a directory. -/
def setPaddrAt (s : Machine) (pd va pa : ℕ) : Machine :=
  let i := va / 4194304
  let e := s.mem pd i
  if e.pgsz then s.set pd i (e.setPsePa (pa / 4194304))
  else
    let t := pteAt s.mem pd (va / 4096)
    if t = 0#32 then s else s.set e.pt (va / 4096 % 1024) (t.setPt (pa / 4096))

/-- `vmm_set_flags` on the tables of a directory, with the trap flag of the wrong entry. -/
def setFlagsAt (s : Machine) (pd va : ℕ) (flags : Word) : Machine :=
  let i := va / 4194304
  let j := va / 4096 % 1024
  let e := s.mem pd i
  if e.pgsz then s.set pd i ((e.setFlags flags).setAvail flags)
  else
    let t := pteAt s.mem pd (va / 4096)
    if t = 0#32 then s
    else
      let s' := s.set e.pt j (t.setFlags flags)
      s'.set e.pt i ((s'.mem e.pt i).setAvail flags)

section Updates

variable {D L : Set ℕ} {K : Callees} {s : Machine} {va : ℕ}

theorem vmmSetPaddr_cur (ht : Tables D L s) (hc : s.cr3 ∈ L) (hva : OffSlot va) (pa : ℕ) :
    vmmSetPaddr K s.vmmCurrent va pa s = some ((), setPaddrAt s s.cr3 va pa) := by
  have hi := va_slot va
  have hpd := ht.pageAt_pd hc true
  rw [vmmSetPaddr]
  rw [Comp.bind_of_eq (openPd_cur rfl _), if_neg vmmPd_ne_zero,
    Comp.bind_of_eq (hpd.load hva.lt), setPaddrAt]
  by_cases h0 : s.mem s.cr3 (va / 4194304) = 0#32
  · have hpte : pteAt s.mem s.cr3 (va / 4096) = 0#32 :=
      pteAt_of_not_hasTable (by rw [hi, h0]; exact Word.not_hasTable_zero)
    rw [if_pos h0, closeWin_cur rfl]
    simp only [h0, hpte, if_true]
    rfl
  rw [if_neg h0]
  cases hs : (s.mem s.cr3 (va / 4194304)).pgsz with
  | true =>
    simp only [if_true]
    rw [Comp.bind_of_eq (hpd.update hva.lt _)]
    exact closeWin_cur rfl _
  | false =>
    have hj : va / 4096 % 1024 < 1024 := Nat.mod_lt _ (by decide)
    have hpt := ht.pageAt_pt hc hva.lt hva.2 ⟨h0, hs⟩ true
    simp only [Bool.false_eq_true, if_false]
    rw [Comp.bind_of_eq (openPt_cur rfl _ _ _), if_neg (vmmPt_ne_zero _),
      Comp.bind_of_eq (hpt.load hj), pteAt_of_hasTable (by rw [hi]; exact ⟨h0, hs⟩), hi]
    by_cases hz : s.mem (s.mem s.cr3 (va / 4194304)).pt (va / 4096 % 1024) = 0#32
    · rw [Comp.when_false (not_not.mpr hz), if_pos hz, Comp.pure_bind_apply, closeWins_cur rfl]
    · rw [Comp.when_true hz, if_neg hz, Comp.bind_of_eq (hpt.update hj _)]
      exact closeWins_cur rfl _ _

theorem vmmSetFlags_cur (ht : Tables D L s) (hc : s.cr3 ∈ L) (hva : OffSlot va) (flags : Word) :
    vmmSetFlags K s.vmmCurrent va flags s = some ((), setFlagsAt s s.cr3 va flags) := by
  have hi := va_slot va
  have hpd := ht.pageAt_pd hc true
  rw [vmmSetFlags]
  rw [Comp.bind_of_eq (openPd_cur rfl _), if_neg vmmPd_ne_zero,
    Comp.bind_of_eq (hpd.load hva.lt), setFlagsAt]
  by_cases h0 : s.mem s.cr3 (va / 4194304) = 0#32
  · have hpte : pteAt s.mem s.cr3 (va / 4096) = 0#32 :=
      pteAt_of_not_hasTable (by rw [hi, h0]; exact Word.not_hasTable_zero)
    rw [if_pos h0, closeWin_cur rfl]
    simp only [h0, hpte, if_true]
    rfl
  rw [if_neg h0]
  cases hs : (s.mem s.cr3 (va / 4194304)).pgsz with
  | true =>
    simp only [if_true]
    rw [Comp.bind_of_eq (hpd.update hva.lt _)]
    exact closeWin_cur rfl _
  | false =>
    have hj : va / 4096 % 1024 < 1024 := Nat.mod_lt _ (by decide)
    have hpt := ht.pageAt_pt hc hva.lt hva.2 ⟨h0, hs⟩ true
    simp only [Bool.false_eq_true, if_false]
    rw [Comp.bind_of_eq (openPt_cur rfl _ _ _), if_neg (vmmPt_ne_zero _),
      Comp.bind_of_eq (hpt.load hj), pteAt_of_hasTable (by rw [hi]; exact ⟨h0, hs⟩), hi]
    by_cases hz : s.mem (s.mem s.cr3 (va / 4194304)).pt (va / 4096 % 1024) = 0#32
    · rw [Comp.when_false (not_not.mpr hz), if_pos hz, Comp.pure_bind_apply, closeWins_cur rfl]
    · have hf := ht.notDir _ hc _ hva.lt hva.2 ⟨h0, hs⟩
      have hpt' : ∀ d, PageAt (s.set (s.mem s.cr3 (va / 4194304)).pt (va / 4096 % 1024) d) true
          (vmmPt rmapStart (va / 4194304)) (s.mem s.cr3 (va / 4194304)).pt := by
        intro d
        have hm := s.set_mem_of_ne _ (va / 4096 % 1024) d
          (ht.pt_ne hc (ht.sub hc) hva.lt hva.2 ⟨h0, hs⟩).symm
        have h := (ht.set hf (va / 4096 % 1024) d).pageAt_pt hc hva.lt hva.2
          (by rw [Machine.set_cr3, hm]; exact ⟨h0, hs⟩) true
        rwa [Machine.set_cr3, hm] at h
      rw [Comp.when_true hz, if_neg hz, Comp.bind_assoc, Comp.bind_of_eq (hpt.update hj _),
        Comp.bind_of_eq ((hpt' _).update hva.lt _)]
      exact closeWins_cur rfl _ _

end Updates

/-! Mapping a small page. -/

/-- The directory entry of a new page table in the frame `f`, before the flags are added. -/
def newTableEntry (orig : Word) (f : ℕ) : Word :=
  if (orig.present && orig.pgsz) = true then
    BitField.setBit (Word.tableEntry f) 2 ((Word.tableEntry f).user || orig.user)
  else Word.tableEntry f

/-- The new page table after "remap any PSE pages". -/
def splitFrame (orig : Word) (j : ℕ) : ℕ → Word := fun k =>
  if (orig.present && orig.pgsz) = true ∧ k < 1024 ∧ k ≠ j then
    Word.splitPte 0#32 orig (orig.psePa * 1024 + k)
  else 0#32

theorem splitFrame_of_pse {orig : Word} (h : (orig.present && orig.pgsz) = true) (j : ℕ) :
    splitFrame orig j = fun k => if k < 1024 ∧ k ≠ j then
      Word.splitPte 0#32 orig (orig.psePa * 1024 + k) else 0#32 := by
  funext k
  simp only [splitFrame, h, true_and]

theorem splitFrame_of_not_pse {orig : Word} (h : (orig.present && orig.pgsz) = false) (j : ℕ) :
    splitFrame orig j = fun _ => 0#32 := by
  funext k
  simp only [splitFrame, h, Bool.false_eq_true, false_and, if_false]

/-- A new page table in the frame `f`, cleared, for the entry `i` of the directory `v`. -/
def newTableAt (s : Machine) (v i f : ℕ) : Machine :=
  ((s.setBitmap f true).set v i (newTableEntry (s.mem v i) f)).setFrame f fun _ => 0#32

/-- The end of `vmm_pgmap_small` on the directory `v` with the page table in the frame `f`. -/
def pgmapEntryAt (s : Machine) (v f pa va : ℕ) (flags : Word) : Machine :=
  let s' := s.set v (va / 4194304) ((s.mem v (va / 4194304)).orFlags flags)
  s'.set f (va / 4096 % 1024) ((s'.mem f (va / 4096 % 1024)).fillPte flags pa)

section NewTable

variable (orig : Word) (f : ℕ)

theorem getLsbD_newTableEntry (k : ℕ) : (newTableEntry orig f).getLsbD k =
    if k = 2 then orig.present && orig.pgsz && orig.user else (Word.tableEntry f).getLsbD k := by
  unfold newTableEntry
  cases h : orig.present && orig.pgsz with
  | true =>
    rw [if_pos rfl, BitField.getLsbD_setBit _ (by decide), Word.tableEntry_user]
    rfl
  | false =>
    rw [if_neg Bool.false_ne_true]
    split_ifs with hk
    · rw [hk]
      exact Word.tableEntry_user f
    · rfl

@[simp] theorem newTableEntry_present : (newTableEntry orig f).present = true := by
  rw [Word.present, getLsbD_newTableEntry]
  exact Word.tableEntry_present f

@[simp] theorem newTableEntry_rw : (newTableEntry orig f).rw = true := by
  rw [Word.rw, getLsbD_newTableEntry]
  exact Word.tableEntry_rw f

@[simp] theorem newTableEntry_user :
    (newTableEntry orig f).user = (orig.present && orig.pgsz && orig.user) := by
  rw [Word.user, getLsbD_newTableEntry]
  rfl

@[simp] theorem newTableEntry_pgsz : (newTableEntry orig f).pgsz = false := by
  rw [Word.pgsz, getLsbD_newTableEntry]
  exact Word.tableEntry_pgsz f

theorem newTableEntry_pt {f : ℕ} (hf : f < 1048576) : (newTableEntry orig f).pt = f := by
  rw [← Word.tableEntry_pt hf]
  apply BitField.getField_congr
  intro k hlo hhi
  rw [getLsbD_newTableEntry, if_neg (by omega), Word.tableEntry_pt hf]

theorem newTableEntry_hasTable : (newTableEntry orig f).HasTable :=
  Word.HasTable.of_present (newTableEntry_present orig f) (newTableEntry_pgsz orig f)

end NewTable

/-- The end of `vmm_pgmap_small`, wherever directory and page table are reached. -/
theorem pgmapSmallEntry_run {K : Callees} {s : Machine} {vmm pd pt v f pa va : ℕ} {flags : Word}
    (hva : va / 4194304 < 1024) (hpd : PageAt s true pd v)
    (hpt : PageAt (s.set v (va / 4194304) ((s.mem v (va / 4194304)).orFlags flags)) true pt f) :
    pgmapSmallEntry K vmm pd pt pa va flags s =
      (do closeWin K vmm pd; closeWin K vmm pt) (pgmapEntryAt s v f pa va flags) := by
  rw [pgmapSmallEntry, Comp.bind_of_eq (hpd.update hva _),
    Comp.bind_of_eq (hpt.update (Nat.mod_lt _ (by decide)) _)]
  rfl

/-- The split loop writes one frame, as long as that frame stays within reach. -/
theorem remapPse_run {s : Machine} {a f j : ℕ} (orig : Word)
    (h : ∀ g, PageAt (s.setFrame f g) true a f) :
    remapPse a j orig s = some ((), s.setFrame f fun k =>
      if k < 1024 ∧ k ≠ j then (s.mem f k).splitPte orig (orig.psePa * 1024 + k) else s.mem f k) := by
  let g : ℕ → ℕ → Word := fun n k =>
    if k < n ∧ k ≠ j then (s.mem f k).splitPte orig (orig.psePa * 1024 + k) else s.mem f k
  have loop := @Comp.forRange_total Machine (fun n t => t = s.setFrame f (g n))
    (fun i => Comp.when (i ≠ j)
      (update (a + 4 * i) fun e => e.splitPte orig (orig.psePa * 1024 + i))) 1024 0 ?_ s ?_
  · obtain ⟨t, hrun, ht⟩ := loop
    rw [remapPse, hrun, ht]
  · rintro i - hi t rfl
    have hg : g (i + 1) = if i ≠ j then
        Function.update (g i) i ((g i i).splitPte orig (orig.psePa * 1024 + i)) else g i := by
      funext k
      by_cases hij : i = j
      · have : (k < i + 1 ∧ k ≠ j) ↔ k < i ∧ k ≠ j := by omega
        simp only [g, hij, not_true, if_false, ne_eq]
        simp only [hij, ne_eq] at this
        simp only [this]
      · by_cases hk : k = i
        · simp [g, hij, hk]
        · have : (k < i + 1 ∧ k ≠ j) ↔ k < i ∧ k ≠ j := by omega
          simp only [g, hij, not_false_iff, if_true, ne_eq, Function.update_of_ne hk]
          simp only [ne_eq] at this
          simp only [this]
    refine ⟨_, ?_, rfl⟩
    by_cases hij : i = j
    · rw [Comp.when_false (not_not.mpr hij), hg, if_neg (not_not.mpr hij)]
      rfl
    · rw [Comp.when_true hij, (h (g i)).update (by omega), hg, if_pos hij,
        Machine.setFrame_set, Machine.setFrame_mem_self]
  · have : g 0 = s.mem f := by
      funext k
      simp [g]
    rw [this, Machine.setFrame_eq_self]

/-- The new page table and its directory entry, in a frame fresh from the allocator. -/
theorem Tables.newTableAt {D L : Set ℕ} {s : Machine} (ht : Tables D L s) {v i f : ℕ} (hi : i ≠ 767)
    (hf : f < s.pmmFrames) (hfree : ¬ SysX.used s f) : Tables D L (newTableAt s v i f) := by
  have hf' : f < 1048576 := Nat.lt_of_lt_of_le hf ht.frames
  refine Tables.setFrame (Tables.setPde (ht.alloc f) hi ?_) (ht.fresh hfree).1 _
  exact ht.fits_fresh hfree (newTableEntry_pt _ hf') (newTableEntry_present _ f)
    (newTableEntry_rw _ f) v i

section PgmapSmall

variable {D L : Set ℕ} (K : Callees) {s : Machine} (pa : ℕ) {va f : ℕ} (flags : Word)

/-- Directory and page table are reached through the recursive slot. -/
theorem pgmapSmallEntry_cur (ht : Tables D L s) (hc : s.cr3 ∈ L) (hva : OffSlot va)
    (he : (s.mem s.cr3 (va / 4194304)).HasTable) :
    pgmapSmallEntry K s.vmmCurrent (vmmPd rmapStart) (vmmPt rmapStart (va / 4194304)) pa va flags s =
      some ((), pgmapEntryAt s s.cr3 (s.mem s.cr3 (va / 4194304)).pt pa va flags) := by
  let t := s.set s.cr3 (va / 4194304) ((s.mem s.cr3 (va / 4194304)).orFlags flags)
  have ht' : Tables D L t := ht.setPde hva.2 (ht.fits_orFlags hc hva.lt hva.2 he flags)
  have hm : t.mem t.cr3 (va / 4194304) = (s.mem s.cr3 (va / 4194304)).orFlags flags :=
    s.set_mem_self _ _ _
  have hp : ((s.mem s.cr3 (va / 4194304)).orFlags flags).present = true := by
    simp [ht.present _ hc _ hva.lt hva.2 he]
  have hz : ((s.mem s.cr3 (va / 4194304)).orFlags flags).pgsz = false := by simp [he.2]
  have hpt := ht'.pageAt_pt hc hva.lt hva.2 (by rw [hm]; exact .of_present hp hz) true
  rw [hm, Word.orFlags_pt] at hpt
  rw [pgmapSmallEntry_run hva.lt (ht.pageAt_pd hc true) hpt]
  exact closeWins_cur rfl _ _

theorem vmmPgmapSmall_cur_table (ht : Tables D L s) (hc : s.cr3 ∈ L) (hva : OffSlot va)
    (he : (s.mem s.cr3 (va / 4194304)).HasTable) :
    vmmPgmapSmall K s.vmmCurrent pa va flags s =
      some ((), pgmapEntryAt s s.cr3 (s.mem s.cr3 (va / 4194304)).pt pa va flags) := by
  have he' : s.mem s.cr3 (va / 4194304) ≠ 0#32 ∧ (s.mem s.cr3 (va / 4194304)).pgsz = false := he
  rw [vmmPgmapSmall, Comp.bind_of_eq (openPd_cur rfl _), if_neg vmmPd_ne_zero,
    Comp.bind_of_eq ((ht.pageAt_pd hc false).load hva.lt), if_pos he',
    Comp.bind_of_eq (openPt_cur rfl _ _ _), if_neg (vmmPt_ne_zero _),
    pgmapSmallEntry_cur K pa flags ht hc hva he]

/-- Up to the propagation of the new entry. -/
theorem vmmPgmapSmall_cur_new (ht : Tables D L s) (hc : s.cr3 ∈ L) (hva : OffSlot va)
    (he : ¬ (s.mem s.cr3 (va / 4194304)).HasTable) (hf : f < s.pmmFrames) (hfree : ¬ used s f)
    (ha : pmmAllocFree 1 s = some (some f, s.setBitmap f true)) :
    vmmPgmapSmall K s.vmmCurrent pa va flags s =
      (do
        let orig := s.mem s.cr3 (va / 4194304)
        Comp.when (propagates s va) (propagatePde K s.vmmCurrent 0
          (vmmPd rmapStart + 4 * (va / 4194304)) (va / 4194304))
        Comp.when (orig.present && orig.pgsz)
          (remapPse (vmmPt rmapStart (va / 4194304)) (va / 4096 % 1024) orig)
        pgmapSmallEntry K s.vmmCurrent (vmmPd rmapStart) (vmmPt rmapStart (va / 4194304)) pa va flags)
      (newTableAt s s.cr3 (va / 4194304) f) := by
  have hf' : f < 1048576 := Nat.lt_of_lt_of_le hf ht.frames
  let orig := s.mem s.cr3 (va / 4194304)
  let u := (s.setBitmap f true).set s.cr3 (va / 4194304) (newTableEntry orig f)
  have hu : Tables D L u := (ht.alloc f).setPde hva.2 (ht.fits_fresh hfree (newTableEntry_pt _ hf')
    (newTableEntry_present _ f) (newTableEntry_rw _ f) _ _)
  have hm : u.mem u.cr3 (va / 4194304) = newTableEntry orig f := Machine.set_mem_self _ _ _ _
  have hpt := hu.pageAt_pt hc hva.lt hva.2 (by rw [hm]; exact newTableEntry_hasTable orig f) true
  rw [hm, newTableEntry_pt _ hf'] at hpt
  have hpd : PageAt (s.setBitmap f true) true (vmmPd rmapStart) s.cr3 :=
    (ht.alloc f).pageAt_pd hc true
  have hstore : ∀ d, (do
      store (vmmPd rmapStart + 4 * (va / 4194304)) (Word.tableEntry f)
      Comp.when (orig.present && orig.pgsz) (update (vmmPd rmapStart + 4 * (va / 4194304))
        fun e => BitField.setBit e 2 (Word.user e || orig.user))
      d : Kernel Unit) (s.setBitmap f true) = d u := by
    intro d
    have hpd' : PageAt ((s.setBitmap f true).set s.cr3 (va / 4194304) (Word.tableEntry f)) true
        (vmmPd rmapStart) s.cr3 :=
      ((ht.alloc f).setPde hva.2 (ht.fits_fresh hfree (Word.tableEntry_pt hf')
        (Word.tableEntry_present f) (Word.tableEntry_rw f) _ _)).pageAt_pd hc true
    rw [Comp.bind_of_eq (hpd.store hva.lt _)]
    cases hp : orig.present && orig.pgsz with
    | true =>
      rw [Comp.when_true rfl, Comp.bind_of_eq (hpd'.update hva.lt _), Machine.set_set,
        Machine.set_mem_self]
      simp only [u, newTableEntry, hp, if_true]
    | false =>
      rw [Comp.when_false Bool.false_ne_true, Comp.pure_bind_apply]
      simp only [u, newTableEntry, hp, Bool.false_eq_true, if_false]
  have he' : ¬ (s.mem s.cr3 (va / 4194304) ≠ 0#32 ∧
      (s.mem s.cr3 (va / 4194304)).pgsz = false) := he
  rw [vmmPgmapSmall, Comp.bind_of_eq (openPd_cur rfl _), if_neg vmmPd_ne_zero,
    Comp.bind_of_eq ((ht.pageAt_pd hc false).load hva.lt), if_neg he', Comp.bind_of_eq ha]
  simp only [pgmapNewTable]
  have hopen : openPt K s.vmmCurrent (vmmPd rmapStart) (va / 4194304) (flagPresent ||| flagRw) u =
      some (vmmPt rmapStart (va / 4194304), u) := openPt_cur rfl _ _ _
  have hlo : (if s.vmmCurrent ≠ (u.setFrame f fun _ => 0).vmmCurrent then
      w32 (vmmPt rmapStart (va / 4194304) + 4096) else 0) = 0 := if_neg fun h => h rfl
  rw [hstore, Comp.bind_of_eq hopen, if_neg (vmmPt_ne_zero _), Comp.bind_of_eq hpt.memsetPage,
    Comp.read_bind, Comp.read_bind, hlo]
  rfl

/-- The rest of it, from a state in which the new page table is still clear. -/
theorem pgmapSmall_cur_tail (ht : Tables D L s) (hc : s.cr3 ∈ L) (hva : OffSlot va)
    (he : (s.mem s.cr3 (va / 4194304)).HasTable) (hf : (s.mem s.cr3 (va / 4194304)).pt = f)
    (hz : s.mem f = fun _ => 0#32) (orig : Word) :
    (do
      Comp.when (orig.present && orig.pgsz)
        (remapPse (vmmPt rmapStart (va / 4194304)) (va / 4096 % 1024) orig)
      pgmapSmallEntry K s.vmmCurrent (vmmPd rmapStart) (vmmPt rmapStart (va / 4194304)) pa va flags)
      s = some ((), pgmapEntryAt (s.setFrame f (splitFrame orig (va / 4096 % 1024))) s.cr3 f pa va
        flags) := by
  have hD := hf ▸ ht.notDir _ hc _ hva.lt hva.2 he
  have hcf : s.cr3 ≠ f := fun e => hD (e ▸ ht.sub hc)
  have hstay : ∀ g, PageAt (s.setFrame f g) true (vmmPt rmapStart (va / 4194304)) f := by
    intro g
    have hm := s.setFrame_mem_of_ne f hcf (c := g)
    have h := (ht.setFrame hD g).pageAt_pt hc hva.lt hva.2
      (by rw [show (s.setFrame f g).cr3 = s.cr3 from rfl, hm]; exact he) true
    rwa [show (s.setFrame f g).cr3 = s.cr3 from rfl, hm, hf] at h
  have hremap : Comp.when (orig.present && orig.pgsz)
      (remapPse (vmmPt rmapStart (va / 4194304)) (va / 4096 % 1024) orig) s =
      some ((), s.setFrame f (splitFrame orig (va / 4096 % 1024))) := by
    cases hp : orig.present && orig.pgsz with
    | true =>
      rw [Comp.when_true rfl, remapPse_run orig hstay, hz, splitFrame_of_pse hp]
    | false =>
      rw [Comp.when_false Bool.false_ne_true, splitFrame_of_not_pse hp, ← hz,
        Machine.setFrame_eq_self]
      rfl
  have hm := s.setFrame_mem_of_ne f hcf (c := splitFrame orig (va / 4096 % 1024))
  have hrun := pgmapSmallEntry_cur K pa flags
    (ht.setFrame hD (splitFrame orig (va / 4096 % 1024))) hc hva
    (by rw [show (s.setFrame f _).cr3 = s.cr3 from rfl, hm]; exact he)
  rw [show (s.setFrame f (splitFrame orig (va / 4096 % 1024))).cr3 = s.cr3 from rfl, hm, hf] at hrun
  rw [Comp.bind_of_eq hremap]
  exact hrun

/-- A new page table on the current VMM, when nothing is propagated. -/
theorem vmmPgmapSmall_cur_alone (ht : Tables D L s) (hc : s.cr3 ∈ L) (hva : OffSlot va)
    (he : ¬ (s.mem s.cr3 (va / 4194304)).HasTable) (hf : f < s.pmmFrames) (hfree : ¬ used s f)
    (ha : pmmAllocFree 1 s = some (some f, s.setBitmap f true)) (hp : propagates s va = false) :
    vmmPgmapSmall K s.vmmCurrent pa va flags s = some ((), pgmapEntryAt
      ((newTableAt s s.cr3 (va / 4194304) f).setFrame f
        (splitFrame (s.mem s.cr3 (va / 4194304)) (va / 4096 % 1024))) s.cr3 f pa va flags) := by
  have hf' : f < 1048576 := Nat.lt_of_lt_of_le hf ht.frames
  have hcf : s.cr3 ≠ f := fun e => hfree (e ▸ (ht.dir _ (ht.sub hc)).1)
  have hm : (newTableAt s s.cr3 (va / 4194304) f).mem s.cr3 (va / 4194304) =
      newTableEntry (s.mem s.cr3 (va / 4194304)) f := by
    rw [newTableAt, Machine.setFrame_mem_of_ne _ _ hcf]
    exact Machine.set_mem_self _ _ _ _
  rw [vmmPgmapSmall_cur_new K pa flags ht hc hva he hf hfree ha, hp, Comp.when_false Bool.false_ne_true,
    Comp.pure_bind_apply]
  exact pgmapSmall_cur_tail K pa flags (ht.newTableAt hva.2 hf hfree) hc hva
    (hm ▸ newTableEntry_hasTable _ f) ((congrArg Word.pt hm).trans (newTableEntry_pt _ hf'))
    (Machine.setFrame_mem_self _ _ _) _

theorem vmmPgunmapSmall_cur_table (ht : Tables D L s) (hc : s.cr3 ∈ L) (hva : OffSlot va)
    (he : (s.mem s.cr3 (va / 4194304)).HasTable)
    (hu : (pteAt s.mem s.cr3 (va / 4096)).trapped = false) :
    vmmPgunmapSmall K s.vmmCurrent va s = some ((),
      s.set (s.mem s.cr3 (va / 4194304)).pt (va / 4096 % 1024) 0#32) := by
  have hi := va_slot va
  have hj : va / 4096 % 1024 < 1024 := Nat.mod_lt _ (by decide)
  have hpt := ht.pageAt_pt hc hva.lt hva.2 he true
  rw [pteAt_of_hasTable (by rw [hi]; exact he), hi] at hu
  rw [vmmPgunmapSmall, Comp.bind_of_eq (openPd_cur rfl _), if_neg vmmPd_ne_zero,
    Comp.bind_of_eq ((ht.pageAt_pd hc false).load hva.lt), if_neg he.1, if_pos he.2,
    Comp.bind_of_eq (openPt_cur rfl _ _ _), if_neg (vmmPt_ne_zero _), Comp.bind_of_eq (hpt.load hj),
    hu, Comp.when_false Bool.false_ne_true, Comp.pure_bind_apply, Comp.bind_of_eq (hpt.store hj _)]
  exact closeWins_cur rfl _ _

end PgmapSmall

/-! Out of memory: `pt` is NULL, and page 0 is left unmapped. -/

/-- Page 0 has a page table but no page: what the kernel writes through a null `pt` faults. -/
structure NullGuard (s : Machine) : Prop where
  table : (s.mem s.cr3 0).HasTable
  pte : pteAt s.mem s.cr3 0 = 0#32

theorem NullGuard.load {s : Machine} (h : NullGuard s) {j : ℕ} (hj : j < 1024) :
    load (0 + 4 * j) s = none := by
  have h1 : (0 + 4 * j) / 4194304 = 0 := by omega
  have h2 : (0 + 4 * j) / 4096 % 1024 = 0 := by omega
  have hp : s.mem (s.mem s.cr3 0).pt 0 = 0#32 := by
    have := h.pte
    rwa [pteAt_of_hasTable h.table] at this
  have hm : mmu s.mem s.cr3 false (0 + 4 * j) = none := by
    unfold mmu
    simp only [h1, h2, hp, h.table.2, Bool.false_eq_true, if_false]
    split_ifs with hpr hpt
    · rfl
    · rfl
    · exact absurd (.inl (by decide)) hpt
  rw [SysX.load, Comp.bind_apply, frameAt, Comp.readOr_apply, hm]
  rfl

theorem NullGuard.update {s : Machine} (h : NullGuard s) {j : ℕ} (hj : j < 1024)
    (g : Word → Word) : update (0 + 4 * j) g s = none := by
  rw [SysX.update, Comp.bind_apply, h.load hj]
  rfl

theorem NullGuard.remapPse {s : Machine} (h : NullGuard s) (j : ℕ) (orig : Word) :
    remapPse 0 j orig s = none := by
  rw [SysX.remapPse, show 1024 = 1022 + 1 + 1 from rfl, Comp.forRange_succ]
  by_cases hj : 0 = j
  · rw [Comp.when_false (not_not.mpr hj), Comp.pure_bind_apply, Comp.forRange_succ,
      Comp.when_true (by omega), Comp.bind_apply, h.update (by decide)]
    rfl
  · rw [Comp.when_true hj, Comp.bind_apply, h.update (by decide)]
    rfl

theorem NullGuard.pgmapSmallEntry {K : Callees} {s : Machine} {vmm pd v pa va : ℕ} {flags : Word}
    (hva : va / 4194304 < 1024) (hpd : PageAt s true pd v)
    (h : NullGuard (s.set v (va / 4194304) ((s.mem v (va / 4194304)).orFlags flags))) :
    pgmapSmallEntry K vmm pd 0 pa va flags s = none := by
  rw [SysX.pgmapSmallEntry, Comp.bind_of_eq (hpd.update hva _), Comp.bind_apply,
    h.update (Nat.mod_lt _ (by decide))]
  rfl

/-- A write that leaves slot 0 and its page table alone. -/
theorem NullGuard.set {s : Machine} (h : NullGuard s) {f i : ℕ} (d : Word)
    (hc : f = s.cr3 → i ≠ 0) (hp : f ≠ (s.mem s.cr3 0).pt) : NullGuard (s.set f i d) := by
  have hm : (s.set f i d).mem s.cr3 0 = s.mem s.cr3 0 := by
    rw [Machine.set_mem, if_neg fun e => hc e.1.symm e.2.symm]
  refine ⟨by rw [Machine.set_cr3, hm]; exact h.table, ?_⟩
  have := h.pte
  rw [pteAt_of_hasTable h.table] at this
  rw [pteAt_of_hasTable (by rw [Machine.set_cr3]; exact hm ▸ h.table), Machine.set_cr3, hm,
    Machine.set_mem_of_ne _ _ _ _ hp.symm]
  exact this

theorem vmmPgmapSmall_cur_oom {D L : Set ℕ} {K : Callees} {s : Machine} {pa va : ℕ} {flags : Word}
    (ht : Tables D L s) (hc : s.cr3 ∈ L) (hva : OffSlot va)
    (he : ¬ (s.mem s.cr3 (va / 4194304)).HasTable) (hn : NullGuard s)
    (ha : pmmAllocFree 1 s = some (none, s)) :
    vmmPgmapSmall K s.vmmCurrent pa va flags s = none := by
  have he' : ¬ (s.mem s.cr3 (va / 4194304) ≠ 0#32 ∧
      (s.mem s.cr3 (va / 4194304)).pgsz = false) := he
  have hi : va / 4194304 ≠ 0 := fun h0 => he (h0 ▸ hn.table)
  have hn' := hn.set (f := s.cr3) ((s.mem s.cr3 (va / 4194304)).orFlags flags) (fun _ => hi)
    (ht.pt_ne hc (ht.sub hc) (by decide) (by decide) hn.table).symm
  rw [vmmPgmapSmall, Comp.bind_of_eq (openPd_cur rfl _), if_neg vmmPd_ne_zero,
    Comp.bind_of_eq ((ht.pageAt_pd hc false).load hva.lt), if_neg he', Comp.bind_of_eq ha]
  cases hp : (s.mem s.cr3 (va / 4194304)).present && (s.mem s.cr3 (va / 4194304)).pgsz with
  | true =>
    simp only
    rw [Comp.when_true rfl, Comp.bind_apply, hn.remapPse]
    rfl
  | false =>
    simp only
    rw [Comp.when_false Bool.false_ne_true, Comp.pure_bind_apply,
      hn'.pgmapSmallEntry hva.lt (ht.pageAt_pd hc true)]

end SysX
