import SysX.ForeignFrame

/-!
What `vmm_set_flags` changes. On a small page it writes the trap flag to the entry of the page table that has the
number of the directory entry.
-/
namespace SysX

/-- A run of the observer returns `x`. -/
def Reads {α : Type} (c : Kernel α) (s : Machine) (x : α) : Prop := ∃ t, c s = some (x, t)

theorem Reads.unique {α : Type} {c : Kernel α} {s : Machine} {x y : α} (h : Reads c s x)
    (h' : Reads c s y) : x = y := by
  obtain ⟨t, ht⟩ := h
  obtain ⟨u, hu⟩ := h'
  cases ht.symm.trans hu
  rfl

/-- Two addresses lie in one page, which may be a page of 4 MiB. -/
def SharesPage (m : ℕ → ℕ → Word) (v va va' : ℕ) : Prop :=
  va' / 4096 = va / 4096 ∨ (m v (va / 4194304)).pgsz = true ∧ va' / 4194304 = va / 4194304

/-! The tables after the update. -/

section Tables

variable {D L : Set ℕ} {s : Machine} {v va : ℕ} {flags : Word}

theorem flagsAt_eq_pte {m : ℕ → ℕ → Word} {pd p : ℕ} (ht : (m pd (p / 1024)).HasTable) :
    flagsAt m pd p = if m (m pd (p / 1024)).pt (p % 1024) = 0#32 then 0#32
      else (m (m pd (p / 1024)).pt (p % 1024)).getFlags := by
  rw [flagsAt, view_eq_pte ht, viewPte]
  split_ifs <;> rfl

theorem flagsAt_congr {m m' : ℕ → ℕ → Word} {pd p : ℕ} (h : view m' pd p = view m pd p) :
    flagsAt m' pd p = flagsAt m pd p := by
  unfold flagsAt
  rw [h]

/-- The 4 MiB page of the address gets the flags, and every other page stays as it is. -/
theorem Tables.setFlagsAt_huge (h : Tables D L s) (hv : v ∈ L) (hs : (s.mem v (va / 4194304)).pgsz = true) :
    (∀ q, q / 1024 = va / 4194304 → view (setFlagsAt s v va flags).mem v q =
      some ((s.mem v (va / 4194304)).psePa * 1024 + q % 1024, flags.canonFlags)) ∧
    ∀ q, Regular q → q / 1024 ≠ va / 4194304 →
      view (setFlagsAt s v va flags).mem v q = view s.mem v q := by
  have hset : setFlagsAt s v va flags = s.set v (va / 4194304)
      (((s.mem v (va / 4194304)).setFlags flags).setAvail flags) := by
    unfold setFlagsAt
    simp only [hs, if_true]
  rw [hset]
  refine ⟨fun q hq => ?_, fun q hreg hq => ?_⟩
  · have hm := s.set_mem_self v (va / 4194304) (((s.mem v (va / 4194304)).setFlags flags).setAvail flags)
    rw [← hq] at hm hs ⊢
    rw [view_of_pgsz (by rw [hm]; simpa using hs), hm, Word.getFlags_setAvail_setFlags]
    simp
  · have hm := s.set_mem_of_ne_index v (va / 4194304)
      (((s.mem v (va / 4194304)).setFlags flags).setAvail flags) v hq
    refine view_congr hm fun ht => ?_
    rw [hm] at ht ⊢
    rw [s.set_mem_of_ne _ _ _ (h.pt_ne hv (h.sub hv) (by have := hreg.1; omega) hreg.2 ht)]

/-- The entries of a page table after the update: `setFlags` at the page, `setAvail` at the entry that has the
number of the directory entry. -/
theorem Tables.setFlagsAt_small (h : Tables D L s) (hv : v ∈ L) (hva : OffSlot va)
    (he : (s.mem v (va / 4194304)).HasTable)
    (hz : s.mem (s.mem v (va / 4194304)).pt (va / 4096 % 1024) ≠ 0#32) :
    (setFlagsAt s v va flags).mem v = s.mem v ∧
    (∀ k, (setFlagsAt s v va flags).mem (s.mem v (va / 4194304)).pt k =
      let t := if k = va / 4096 % 1024 then (s.mem (s.mem v (va / 4194304)).pt k).setFlags flags
        else s.mem (s.mem v (va / 4194304)).pt k
      if k = va / 4194304 then t.setAvail flags else t) ∧
    ∀ g, g ≠ (s.mem v (va / 4194304)).pt → (setFlagsAt s v va flags).mem g = s.mem g := by
  have hi := va_slot va
  have hpte : pteAt s.mem v (va / 4096) = s.mem (s.mem v (va / 4194304)).pt (va / 4096 % 1024) := by
    rw [pteAt_of_hasTable (by rw [hi]; exact he), hi]
  have hne := h.pt_ne hv (h.sub hv) hva.lt hva.2 he
  have hset : setFlagsAt s v va flags = (s.set (s.mem v (va / 4194304)).pt (va / 4096 % 1024)
      ((s.mem (s.mem v (va / 4194304)).pt (va / 4096 % 1024)).setFlags flags)).set
      (s.mem v (va / 4194304)).pt (va / 4194304)
      (((s.set (s.mem v (va / 4194304)).pt (va / 4096 % 1024)
        ((s.mem (s.mem v (va / 4194304)).pt (va / 4096 % 1024)).setFlags flags)).mem
        (s.mem v (va / 4194304)).pt (va / 4194304)).setAvail flags) := by
    unfold setFlagsAt
    simp only [he.2, Bool.false_eq_true, if_false, hpte, if_neg hz]
  rw [hset]
  refine ⟨?_, fun k => ?_, fun g hg => ?_⟩
  · rw [Machine.set_mem_of_ne _ _ _ _ hne.symm, s.set_mem_of_ne _ _ _ hne.symm]
  · simp only [Machine.set_mem, true_and]
    by_cases hk : k = va / 4194304
    · subst hk
      rw [if_pos rfl, if_pos rfl]
      by_cases hj : va / 4194304 = va / 4096 % 1024
      · rw [if_pos hj, if_pos hj, ← hj]
      · rw [if_neg hj, if_neg hj]
    · rw [if_neg hk, if_neg hk]
      by_cases hj : k = va / 4096 % 1024
      · rw [if_pos hj, if_pos hj, hj]
      · rw [if_neg hj, if_neg hj]
  · rw [Machine.set_mem_of_ne _ _ _ _ hg, s.set_mem_of_ne _ _ _ hg]

/-- An entry keeps its flags when its trap bits are rewritten, if the trap flag is the same and it does not become
empty. -/
theorem flags_setAvail_iff (t flags : Word) :
    (if t.setAvail flags = 0#32 then 0#32 else (t.setAvail flags).getFlags) =
      (if t = 0#32 then 0#32 else t.getFlags) ↔
    t.trapped = flags.getLsbD 6 ∧ (t.setAvail flags = 0#32 → t = 0#32) := by
  have hzero : ∀ u : Word, u = 0#32 → u.ncache = false := fun u hu => by rw [hu]; decide
  by_cases ht : t = 0#32
  · rw [if_pos ht]
    by_cases hs : t.setAvail flags = 0#32
    · rw [if_pos hs]
      refine ⟨fun _ => ⟨?_, fun _ => ht⟩, fun _ => rfl⟩
      have htrap : (t.setAvail flags).trapped = flags.getLsbD 6 := Word.setAvail_trapped t flags
      rw [hs, Word.zero_trapped] at htrap
      rw [ht, Word.zero_trapped, htrap]
    · rw [if_neg hs]
      have hn : (t.setAvail flags).ncache = false := by rw [Word.setAvail_ncache]; exact hzero t ht
      refine ⟨fun h => absurd h (Word.getFlags_ne_zero hn), fun ⟨h, _⟩ => absurd ?_ hs⟩
      rw [ht, Word.zero_trapped] at h
      apply BitVec.eq_of_getLsbD_eq
      intro i _
      rw [ht, Word.getLsbD_setAvail, ← h]
      simp
  · rw [if_neg ht]
    by_cases hs : t.setAvail flags = 0#32
    · rw [if_pos hs]
      have hn : t.ncache = false := by rw [← Word.setAvail_ncache t flags]; exact hzero _ hs
      exact ⟨fun h => absurd h.symm (Word.getFlags_ne_zero hn), fun ⟨_, h⟩ => absurd (h hs) ht⟩
    · rw [if_neg hs]
      exact (Word.getFlags_setAvail t flags).trans ⟨fun h => ⟨h, fun h0 => absurd h0 hs⟩, fun h => h.1⟩

end Tables

/-- The trap flags that the update of a small page needs: directory entry and page table entry have the same number, or
neither the page's own trap flag nor that of the other entry is to change. -/
def TrapsStay (s : Machine) (v va : ℕ) (flags : Word) : Prop :=
  let i := va / 4194304
  let j := va / 4096 % 1024
  let pt := s.mem (s.mem v i).pt
  i = j ∨ (pt j).trapped = flags.getLsbD 6 ∧ (pt i).trapped = flags.getLsbD 6 ∧
    ((pt i).setAvail flags = 0#32 → pt i = 0#32)

/-- What the tables say about the flags once they are updated. -/
structure FlagsChanged (s t : Machine) (v va : ℕ) (flags : Word) : Prop where
  own : flagsAt t.mem v (va / 4096) = flags.canonFlags
  frame : paddrAt t.mem v va = paddrAt s.mem v va
  other : ∀ va', OffSlot va' → ¬ SharesPage s.mem v va va' →
    flagsAt t.mem v (va' / 4096) = flagsAt s.mem v (va' / 4096)

section Change

variable {D L : Set ℕ} {s : Machine} {v va : ℕ} {flags : Word}

theorem Tables.flagsChanged_huge (h : Tables D L s) (hv : v ∈ L) (hs : (s.mem v (va / 4194304)).pgsz = true) :
    FlagsChanged s (setFlagsAt s v va flags) v va flags := by
  have hi := va_slot va
  obtain ⟨hown, hother⟩ := @Tables.setFlagsAt_huge D L s v va flags h hv hs
  refine ⟨?_, ?_, fun va' hva' hne => ?_⟩
  · rw [flagsAt, hown _ hi]
  · rw [paddrAt, hown _ hi, paddrAt, view_of_pgsz (by rw [hi]; exact hs), hi]
  · have hslot : va' / 4096 / 1024 ≠ va / 4194304 := fun hc => hne (.inr ⟨hs, by rw [← hc]; omega⟩)
    exact flagsAt_congr (hother _ ⟨by have := hva'.1; omega, by have := hva'.2; omega⟩ hslot)

/-- The page whose directory entry and page table entry both have the number `i`. -/
theorem diagonal_page {i : ℕ} (hi : i < 1024) : (i * 1024 + i) * 4096 / 4096 = i * 1024 + i ∧
    (i * 1024 + i) / 1024 = i ∧ (i * 1024 + i) % 1024 = i := by
  refine ⟨page_div _, by omega, by omega⟩

theorem Tables.flagsChanged_small (h : Tables D L s) (hv : v ∈ L) (hva : OffSlot va)
    (he : (s.mem v (va / 4194304)).HasTable)
    (hz : s.mem (s.mem v (va / 4194304)).pt (va / 4096 % 1024) ≠ 0#32) (hp : flags.getLsbD 0 = true) :
    FlagsChanged s (setFlagsAt s v va flags) v va flags ↔ TrapsStay s v va flags := by
  obtain ⟨hdir, htable, hrest⟩ := @Tables.setFlagsAt_small D L s v va flags h hv hva he hz
  have hi : va / 4096 / 1024 = va / 4194304 := va_slot va
  have hj : va / 4096 % 1024 < 1024 := Nat.mod_lt _ (by decide)
  unfold TrapsStay
  dsimp only
  generalize hs' : setFlagsAt s v va flags = s' at *
  generalize hf : (s.mem v (va / 4194304)).pt = f at *
  generalize hid : va / 4194304 = i at *
  generalize hjd : va / 4096 % 1024 = j at *
  have hin : ∀ q, q / 1024 = i → (s'.mem v (q / 1024)).HasTable ∧ (s'.mem v (q / 1024)).pt = f := by
    intro q hq
    rw [hdir, hq]
    exact ⟨he, hf⟩
  have flags_in : ∀ q, q / 1024 = i → flagsAt s'.mem v q =
      if s'.mem f (q % 1024) = 0#32 then 0#32 else (s'.mem f (q % 1024)).getFlags := by
    intro q hq
    obtain ⟨ht, hpt⟩ := hin q hq
    rw [flagsAt_eq_pte ht, hpt]
  have flags_old : ∀ q, q / 1024 = i → flagsAt s.mem v q =
      if s.mem f (q % 1024) = 0#32 then 0#32 else (s.mem f (q % 1024)).getFlags := by
    intro q hq
    rw [flagsAt_eq_pte (by rw [hq]; exact he), hq, hf]
  have flags_out : ∀ q, Regular q → q / 1024 ≠ i → flagsAt s'.mem v q = flagsAt s.mem v q := by
    intro q hreg hq
    have hlt : q / 1024 < 1024 := by have := hreg.1; omega
    refine flagsAt_congr (view_congr (by rw [hdir]) fun ht => ?_)
    rw [hdir] at ht ⊢
    rw [hrest _ fun heq => hq ?_]
    exact (h.sep v hv v hv _ hlt _ (hid ▸ hva.lt) hreg.2 (hid ▸ hva.2) ht he (heq.trans hf.symm)).1
  -- the entry of the page itself
  have hpres : (s'.mem f j).present = true := by
    rw [htable j]
    simp only [if_true]
    split_ifs <;> simp [hp]
  have hpt : (s'.mem f j).pt = (s.mem f j).pt := by
    rw [htable j]
    simp only [if_true]
    split_ifs <;> simp
  have hne := Word.ne_zero_of_present hpres
  have hown : flagsAt s'.mem v (va / 4096) = (s'.mem f j).getFlags := by
    rw [flags_in _ hi, hjd, if_neg hne]
  have hframe : paddrAt s'.mem v va = paddrAt s.mem v va := by
    obtain ⟨ht, hptf⟩ := hin _ hi
    rw [paddrAt, view_eq_pte ht, hptf, paddrAt, view_eq_pte (by rw [hi]; exact he), hi, hf, hjd, viewPte,
      viewPte, if_neg hne, if_neg hz, hpt]
  by_cases hij : i = j
  · refine ⟨fun _ => .inl hij, fun _ => ⟨?_, hframe, fun va' hva' hsame => ?_⟩⟩
    · rw [hown, htable j, if_pos hij.symm]
      simp only [if_true]
      exact Word.getFlags_setAvail_setFlags _ _
    · by_cases hq : va' / 4096 / 1024 = i
      · have hk : va' / 4096 % 1024 ≠ j := fun hk => hsame (.inl (by omega))
        have hki : va' / 4096 % 1024 ≠ i := fun hk' => hk (hk'.trans hij)
        rw [flags_in _ hq, flags_old _ hq, htable]
        simp only [if_neg hk, if_neg hki]
      · exact flags_out _ ⟨by have := hva'.1; omega, by have := hva'.2; omega⟩ hq
  · have hownEntry : s'.mem f j = (s.mem f j).setFlags flags := by
      rw [htable j]
      simp only [if_true, if_neg (Ne.symm hij)]
    have hotherEntry : s'.mem f i = (s.mem f i).setAvail flags := by
      rw [htable i]
      simp only [if_true, if_neg hij]
    have hilt : i < 1024 := hid ▸ hva.lt
    constructor
    · intro hch
      have hflag := hch.own
      rw [hown, hownEntry] at hflag
      obtain ⟨hpage, hslot, hidx⟩ := diagonal_page hilt
      have hne767 : i ≠ 767 := hid ▸ hva.2
      have hoff : OffSlot ((i * 1024 + i) * 4096) := by
        constructor
        · omega
        · rw [page_slot, hslot]
          exact hne767
      have hsame : ¬ SharesPage s.mem v va ((i * 1024 + i) * 4096) := by
        rintro (hsame | ⟨hps, -⟩)
        · omega
        · rw [hid] at hps
          exact he.not_pgsz hps
      have hother := hch.other _ hoff hsame
      rw [hpage, flags_in _ hslot, flags_old _ hslot, hidx, hotherEntry] at hother
      exact .inr ⟨(Word.getFlags_setFlags _ _).mp hflag, (flags_setAvail_iff _ _).mp hother⟩
    · rintro (hc | ⟨hown', hother'⟩)
      · exact absurd hc hij
      · refine ⟨?_, hframe, fun va' hva' hsame => ?_⟩
        · rw [hown, hownEntry]
          exact (Word.getFlags_setFlags _ _).mpr hown'
        · by_cases hq : va' / 4096 / 1024 = i
          · have hk : va' / 4096 % 1024 ≠ j := fun hk => hsame (.inl (by omega))
            rw [flags_in _ hq, flags_old _ hq]
            by_cases hki : va' / 4096 % 1024 = i
            · rw [hki, hotherEntry]
              exact (flags_setAvail_iff _ _).mpr hother'
            · rw [htable]
              simp only [if_neg hk, if_neg hki]
          · exact flags_out _ ⟨by have := hva'.1; omega, by have := hva'.2; omega⟩ hq

end Change

/-! The calls. -/

/-- After `vmm_set_flags` on the page of `va`, `vmm_get_flags` returns the flags in canonical form; the frame and the
flags of every other page are read as before. -/
def UpdatesFlags (K : Callees) (s : Machine) (v va : ℕ) (flags : Word) : Prop :=
  ∃ t, vmmSetFlags K (v * 4096) va flags s = some ((), t) ∧
    Reads (vmmGetFlags K (v * 4096) va) t flags.canonFlags ∧
    (∀ a, Reads (vmmGetPaddr K (v * 4096) va) s a → Reads (vmmGetPaddr K (v * 4096) va) t a) ∧
    ∀ va', OffSlot va' → ¬ SharesPage s.mem v va va' → ∀ x,
      Reads (vmmGetFlags K (v * 4096) va') s x → Reads (vmmGetFlags K (v * 4096) va') t x

/-- Both states show the tables as they are. -/
structure Observed (K : Callees) (m : ℕ → ℕ → Word) (v : ℕ) (t : Machine) : Prop where
  flags : ∀ va, OffSlot va → Reads (vmmGetFlags K (v * 4096) va) t (flagsAt m v (va / 4096))
  paddr : ∀ va, OffSlot va → Reads (vmmGetPaddr K (v * 4096) va) t (paddrAt m v va)

section Calls

variable {D L : Set ℕ} {s t : Machine} {K : Callees} {v va : ℕ} {flags : Word}

/-- What the calls read is what the tables say. -/
theorem updatesFlags_iff (hva : OffSlot va) (hrun : vmmSetFlags K (v * 4096) va flags s = some ((), t))
    (hs : Observed K s.mem v s) (ht : Observed K (setFlagsAt s v va flags).mem v t) :
    UpdatesFlags K s v va flags ↔ FlagsChanged s (setFlagsAt s v va flags) v va flags := by
  constructor
  · intro ⟨u, hrun', hown, hframe, hother⟩
    cases hrun.symm.trans hrun'
    refine ⟨(ht.flags va hva).unique hown, (ht.paddr va hva).unique (hframe _ (hs.paddr va hva)),
      fun va' hva' hne => ?_⟩
    exact (ht.flags va' hva').unique (hother va' hva' hne _ (hs.flags va' hva'))
  · intro hch
    refine ⟨t, hrun, hch.own ▸ ht.flags va hva, fun a ha => ?_, fun va' hva' hne x hx => ?_⟩
    · rw [ha.unique (hs.paddr va hva), ← hch.frame]
      exact ht.paddr va hva
    · rw [hx.unique (hs.flags va' hva'), ← hch.other va' hva' hne]
      exact ht.flags va' hva'

theorem Tables.observed (h : Tables D L s) (hc : s.cr3 ∈ L) (hal : s.vmmCurrent = s.cr3 * 4096) :
    Observed K s.mem s.cr3 s := by
  constructor
  · intro va hva
    exact ⟨s, hal ▸ vmmGetFlags_cur h hc hva⟩
  · intro va hva
    exact ⟨s, hal ▸ vmmGetPaddr_cur h hc hva⟩

theorem Tables.setFlagsAt (h : Tables D L s) (hv : v ∈ L) (hva : OffSlot va) :
    Tables D L (setFlagsAt s v va flags) := by
  unfold SysX.setFlagsAt
  dsimp only
  split_ifs with hs hz
  · exact h.setPde hva.2 (.of_not_hasTable fun ht => ht.not_pgsz (by simpa using hs))
  · exact h
  · have he : (s.mem v (va / 4194304)).HasTable := by
      by_contra hno
      exact hz (pteAt_of_not_hasTable (by rw [va_slot]; exact hno))
    have hf := h.notDir v hv _ hva.lt hva.2 he
    exact (h.set hf _ _).set hf _ _

@[simp] theorem setFlagsAt_vmmCurrent : (SysX.setFlagsAt s v va flags).vmmCurrent = s.vmmCurrent := by
  unfold SysX.setFlagsAt
  dsimp only
  split_ifs <;> rfl

theorem updatesFlags_cur (h : Tables D L s) (hc : s.cr3 ∈ L) (hal : s.vmmCurrent = s.cr3 * 4096)
    (hva : OffSlot va) : UpdatesFlags K s s.cr3 va flags ↔
      FlagsChanged s (SysX.setFlagsAt s s.cr3 va flags) s.cr3 va flags := by
  have ht : Tables D L (SysX.setFlagsAt s s.cr3 va flags) := h.setFlagsAt hc hva
  have hcr : (SysX.setFlagsAt s s.cr3 va flags).cr3 = s.cr3 := by
    rw [Machine.cr3, setFlagsAt_vmmCurrent, Machine.cr3]
  have hobs := ht.observed (K := K) (hcr.symm ▸ hc) (by rw [setFlagsAt_vmmCurrent, hcr, hal])
  rw [hcr] at hobs
  exact updatesFlags_iff hva (hal ▸ vmmSetFlags_cur h hc hva flags) (h.observed hc hal) hobs

/-! On another VMM. -/

theorem Windowed.observed (h : Windowed D L s t fun _ => 0#32) (hK : K.Closed) (hv : v ∈ L)
    (hvc : v ≠ s.cr3) (hg : Guard True s t 2) (hroom : Room s (fun _ => 0#32) 0 2) :
    Observed K s.mem v t := by
  have hwalk : ∀ e, walkWindows e ≤ 2 := by
    intro e
    unfold walkWindows
    split_ifs <;> omega
  constructor
  · intro va hva
    obtain ⟨x, u, hu, rfl, -⟩ := (h.vmmGetFlags_foreign (n := 0) hK hv hvc hva hg
      (hroom.mono (hwalk _))).total trivial
    exact ⟨u, hu⟩
  · intro va hva
    obtain ⟨x, u, hu, rfl, -⟩ := (h.vmmGetPaddr_foreign (n := 0) hK hv hvc hva hg
      (hroom.mono (hwalk _))).total trivial
    exact ⟨u, hu⟩

/-- Only the directory and the page table behind the entry are written. -/
theorem setFlagsAt_mem_of_ne {g : ℕ} (hg : g ≠ v)
    (hpt : (s.mem v (va / 4194304)).HasTable → g ≠ (s.mem v (va / 4194304)).pt) :
    (SysX.setFlagsAt s v va flags).mem g = s.mem g := by
  unfold SysX.setFlagsAt
  dsimp only
  split_ifs with hs hz
  · exact s.set_mem_of_ne _ _ _ hg
  · rfl
  · have he : (s.mem v (va / 4194304)).HasTable := by
      by_contra hno
      exact hz (pteAt_of_not_hasTable (by rw [va_slot]; exact hno))
    rw [Machine.set_mem_of_ne _ _ _ _ (hpt he), s.set_mem_of_ne _ _ _ (hpt he)]

/-- The current VMM sees its user pages as before. -/
theorem Tables.view_setFlagsAt (h : Tables D L s) (hc : s.cr3 ∈ L) (hv : v ∈ L) (hvc : v ≠ s.cr3)
    (hva : OffSlot va) {p : ℕ} (hp : p < userPages) :
    view (SysX.setFlagsAt s v va flags).mem s.cr3 p = view s.mem s.cr3 p := by
  have hlt := userPages_slot hp
  have hm : (SysX.setFlagsAt s v va flags).mem s.cr3 = s.mem s.cr3 :=
    setFlagsAt_mem_of_ne hvc.symm fun he heq => h.pt_ne hv (h.sub hc) hva.lt hva.2 he heq.symm
  refine view_congr (congrFun hm _) fun ht => ?_
  rw [hm] at ht ⊢
  rw [setFlagsAt_mem_of_ne (h.pt_ne hc (h.sub hv) (by omega) (by omega) ht) fun he heq => ?_]
  obtain ⟨hslot, hwv⟩ := h.sep _ hc _ hv _ (by omega) _ hva.lt (by omega) hva.2 ht he heq
  rcases hwv with hwv | h768
  · exact hvc hwv.symm
  · omega

/-- With room for both windows the update reaches the entry of a small page. -/
theorem updatesFlags_foreign (h : Tables D L s) (hK : K.Closed) (hc : s.cr3 ∈ L) (hv : v ∈ L)
    (hvc : v ≠ s.cr3) (hva : OffSlot va) (hframes : FreeFrames s 4)
    (hroom : Room s (fun _ => 0#32) 0 2) (hs : (s.mem v (va / 4194304)).pgsz = false) :
    UpdatesFlags K s v va flags ↔ FlagsChanged s (SysX.setFlagsAt s v va flags) v va flags := by
  have hw : Windowed D L s s fun _ => 0#32 := .refl h hc
  have hg : Guard True s s (2 + 2) := ⟨fun _ => hframes, fun hno => absurd trivial hno⟩
  have hwalk : Room s (fun _ => 0#32) 0 (walkWindows (s.mem v (va / 4194304))) := by
    refine hroom.mono ?_
    unfold walkWindows
    split_ifs <;> omega
  obtain ⟨_, t, hrun, -, hwt, hgt⟩ :=
    (hw.vmmSetFlags_foreign hK hv hvc hva flags id (fun _ => hs) hg hwalk).total trivial
  have hcr : (SysX.setFlagsAt s v va flags).cr3 = s.cr3 := by
    rw [Machine.cr3, setFlagsAt_vmmCurrent, Machine.cr3]
  have hroom' : Room (SysX.setFlagsAt s v va flags) (fun _ => 0#32) 0 2 := hroom.congr fun p hp => by
    rw [hcr]
    exact h.view_setFlagsAt hc hv hvc hva hp
  have hobs := hw.observed hK hv hvc (hg.mono (by omega)) hroom
  have hobs' := hwt.observed hK hv (hcr.symm ▸ hvc) hgt hroom'
  exact updatesFlags_iff hva hrun hobs hobs'

/-- Without its windows the call does nothing, and `vmm_get_flags` returns 0. -/
theorem updatesFlags_blocked (h : Tables D L s) (hK : K.Closed) (hc : s.cr3 ∈ L) (hv : v ∈ L)
    (hvc : v ≠ s.cr3) (hva : OffSlot va) (hframes : FreeFrames s 4)
    (hroom : ¬ Room s (fun _ => 0#32) 0 (walkWindows (s.mem v (va / 4194304))))
    (hp : flags.getLsbD 0 = true) : ¬ UpdatesFlags K s v va flags := by
  intro ⟨t, hrun, ⟨u, hget⟩, _⟩
  have hw : Windowed D L s s fun _ => 0#32 := .refl h hc
  have hcur : v * 4096 ≠ s.vmmCurrent := fun e => hvc (by rw [Machine.cr3, ← e]; omega)
  have hg : Guard True s s (2 + 2) := ⟨fun _ => hframes, fun hno => absurd trivial hno⟩
  have hset : Comp.Wp True (vmmSetFlags K (v * 4096) va flags)
      (fun _ t => Windowed D L s t (fun _ => 0#32) ∧ Guard True s t 2) s := by
    unfold vmmSetFlags
    refine hw.foreign_walk_blocked windowFlags_read windowFlags_write hK hv hvc hva.lt hg hroom
      ⟨hw, hg.mono (by omega)⟩ fun p t hd => ?_
    exact (hd.close windowFlags_read hK hcur).mono fun _ u hu => ⟨hu.1, hu.2.mono (by omega)⟩
  obtain ⟨hwt, hgt⟩ := hset.2 () t hrun
  have hread : Comp.Wp True (vmmGetFlags K (v * 4096) va) (fun x _ => x = 0#32) t := by
    unfold vmmGetFlags
    refine hwt.foreign_walk_blocked windowFlags_read windowFlags_read hK hv hvc hva.lt hgt hroom rfl
      fun p t hd => ?_
    exact .bind (hd.close windowFlags_read hK hcur) fun _ u _ => .pure rfl
  have hzero := hread.2 _ u hget
  have hbit := Word.canonFlags_bit0 flags
  rw [hzero, hp] at hbit
  cases hbit

/-- A 4 MiB page of another VMM keeps its flags: the window on its directory is read-only. -/
theorem updatesFlags_foreign_huge (h : Tables D L s) (hK : K.Closed) (hc : s.cr3 ∈ L) (hv : v ∈ L)
    (hvc : v ≠ s.cr3) (hva : OffSlot va) (hframes : FreeFrames s 4)
    (hs : (s.mem v (va / 4194304)).pgsz = true) (hp : flags.getLsbD 0 = true) :
    ¬ UpdatesFlags K s v va flags := by
  by_cases hroom : Room s (fun _ => 0#32) 0 (walkWindows (s.mem v (va / 4194304)))
  · intro ⟨t, hrun, _⟩
    have hw : Windowed D L s s fun _ => 0#32 := .refl h hc
    have hg : Guard True s s (2 + 2) := ⟨fun _ => hframes, fun hno => absurd trivial hno⟩
    have hfault : Comp.Wp False (vmmSetFlags K (v * 4096) va flags) _ s :=
      hw.vmmSetFlags_foreign hK hv hvc hva flags False.elim False.elim hg hroom
    have hsmall : (s.mem v (va / 4194304)).pgsz = false := (hfault.2 () t hrun).1
    rw [hs] at hsmall
    cases hsmall
  · exact updatesFlags_blocked h hK hc hv hvc hva hframes hroom hp

/-- On the current VMM, `vmm_set_flags` is right for every 4 MiB page and, for a small page, exactly when no trap flag is to
change (or the page's numbers in directory and table agree). On another VMM it never is for a 4 MiB page, and the same holds
for a small one when there is room for its two windows. -/
theorem set_flags_iff (n : ℕ) (h : Tables D L s) (hc : s.cr3 ∈ L) (hal : s.vmmCurrent = s.cr3 * 4096)
    (hv : v ∈ L) (hva : OffSlot va) (hmap : view s.mem v (va / 4096) ≠ none) (hp : flags.getLsbD 0 = true)
    (hframes : v ≠ s.cr3 → FreeFrames s 4) :
    UpdatesFlags (callees (n + 1)) s v va flags ↔
      if (s.mem v (va / 4194304)).pgsz then v = s.cr3
      else TrapsStay s v va flags ∧ (v = s.cr3 ∨ Room s (fun _ => 0#32) 0 2) := by
  have hK := callees_closed n
  have small : (s.mem v (va / 4194304)).pgsz = false → (s.mem v (va / 4194304)).HasTable ∧
      (FlagsChanged s (SysX.setFlagsAt s v va flags) v va flags ↔ TrapsStay s v va flags) := by
    intro hs
    have hi := va_slot va
    have hpte : pteAt s.mem v (va / 4096) ≠ 0#32 := fun h0 => hmap (view_eq_none.mpr ⟨by rw [hi]; exact hs, h0⟩)
    have he : (s.mem v (va / 4194304)).HasTable := by
      by_contra hno
      exact hpte (pteAt_of_not_hasTable (by rw [hi]; exact hno))
    rw [pteAt_of_hasTable (by rw [hi]; exact he), hi] at hpte
    exact ⟨he, h.flagsChanged_small hv hva he hpte hp⟩
  by_cases hvc : v = s.cr3
  · subst hvc
    rw [updatesFlags_cur h hc hal hva]
    cases hs : (s.mem s.cr3 (va / 4194304)).pgsz with
    | true =>
      rw [if_pos rfl]
      exact ⟨fun _ => rfl, fun _ => h.flagsChanged_huge hc hs⟩
    | false =>
      rw [if_neg Bool.false_ne_true, (small hs).2]
      exact ⟨fun ht => ⟨ht, .inl rfl⟩, fun ht => ht.1⟩
  · have hframes' := hframes hvc
    cases hs : (s.mem v (va / 4194304)).pgsz with
    | true =>
      rw [if_pos rfl]
      exact ⟨fun hu => absurd hu (updatesFlags_foreign_huge h hK hc hv hvc hva hframes' hs hp),
        fun hu => absurd hu hvc⟩
    | false =>
      obtain ⟨he, htraps⟩ := small hs
      rw [if_neg Bool.false_ne_true]
      by_cases hroom : Room s (fun _ => 0#32) 0 2
      · rw [updatesFlags_foreign h hK hc hv hvc hva hframes' hroom hs, htraps]
        exact ⟨fun ht => ⟨ht, .inr hroom⟩, fun ht => ht.1⟩
      · have hwalk : ¬ Room s (fun _ => 0#32) 0 (walkWindows (s.mem v (va / 4194304))) := by
          rw [walkWindows, if_pos he]
          exact hroom
        exact ⟨fun hu => absurd hu (updatesFlags_blocked h hK hc hv hvc hva hframes' hwalk hp),
          fun hu => hu.2.elim (fun hu => absurd hu hvc) fun hu => absurd hu hroom⟩

end Calls

theorem foreignSample_frames : FreeFrames foreignSample 4 := by
  refine ⟨[12, 13, 14, 15], rfl, by decide, fun f hf => ?_⟩
  simp only [List.mem_cons, List.not_mem_nil, or_false] at hf
  rcases hf with rfl | rfl | rfl | rfl
  all_goals exact ⟨by decide, by decide⟩

/-- The page at 64 KiB of the sample's other VMM gets the present and read/write flags. -/
theorem set_flags_sample : UpdatesFlags (callees 2) foreignSample 3 0x10000 3#32 := by
  have hva : OffSlot 0x10000 := ⟨by decide, by decide⟩
  have hsmall : ¬ (foreignSample.mem 3 (0x10000 / 4194304)).pgsz = true := by decide
  have htraps : TrapsStay foreignSample 3 0x10000 3#32 := .inr ⟨by decide, by decide, by decide⟩
  refine (set_flags_iff 1 foreignSample_tables (.inl rfl) (by decide) (.inr rfl) hva (by decide) (by decide)
    fun _ => foreignSample_frames).mpr ?_
  rw [if_neg hsmall]
  exact ⟨htraps, .inr foreignSample_room⟩

/-- The same page does not get the trap flag: it goes to the entry 0 of the table. -/
theorem set_flags_trap_misplaced : ¬ ∀ (D L : Set ℕ) (s : Machine) (v va : ℕ) (flags : Word), Tables D L s →
    s.cr3 ∈ L → v ∈ L → OffSlot va → view s.mem v (va / 4096) ≠ none → flags.getLsbD 0 = true → FreeFrames s 4 →
    Room s (fun _ => 0#32) 0 2 → UpdatesFlags (callees 2) s v va flags := by
  intro h
  have hva : OffSlot 0x10000 := ⟨by decide, by decide⟩
  have hupd := h {1, 3} {1, 3} foreignSample 3 0x10000 0x43#32 foreignSample_tables (.inl rfl) (.inr rfl) hva
    (by decide) (by decide) foreignSample_frames foreignSample_room
  have hch := (updatesFlags_foreign foreignSample_tables (callees_closed 1) (.inl rfl) (.inr rfl) (by decide) hva
    foreignSample_frames foreignSample_room (by decide)).mp hupd
  have hentry : (foreignSample.mem 3 (0x10000 / 4194304)).HasTable := by decide
  have htraps := (foreignSample_tables.flagsChanged_small (.inr rfl) hva hentry (by decide) (by decide)).mp hch
  exact absurd htraps (by unfold TrapsStay; decide)

end SysX
