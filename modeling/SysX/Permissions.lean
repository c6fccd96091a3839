import SysX.FlagUpdate
import SysX.PageSteps

/-!
The permissions of small pages. The MMU takes the conjunction of the bits of the directory entry and of the page table
entry, `vmm_get_flags` reports those of the latter: the former has to be user and writable where the latter is.
-/
namespace SysX

/-- A small page for user mode lies behind a directory entry for user mode. -/
def UserBits (L : Set ℕ) (m : ℕ → ℕ → Word) : Prop :=
  ∀ v ∈ L, ∀ p < userPages, (pteAt m v p).user = true → (m v (p / 1024)).user = true

section Slot

variable {D L : Set ℕ} {s t : Machine} {v f i pa va : ℕ} {flags : Word}

/-- Only the pages of one slot are looked at again. -/
theorem UserBits.slot (hb : UserBits L s.mem) (h : Tables D L s) (hv : v ∈ L)
    (hdir : ∀ j ≠ i, t.mem v j = s.mem v j) (hmem : ∀ g, g ≠ v → g ≠ f → t.mem g = s.mem g)
    (hf : ∀ w ∈ L, w ≠ v → w ≠ f)
    (hpt : ∀ w ∈ L, ∀ j < 1024, j ≠ 767 → ¬ (w = v ∧ j = i) → (s.mem w j).HasTable → (s.mem w j).pt ≠ f)
    (hslot : ∀ p < userPages, p / 1024 = i → (pteAt t.mem v p).user = true → (t.mem v i).user = true) :
    UserBits L t.mem := by
  intro w hw p hp hu
  have hj := userPages_slot hp
  by_cases hwi : w = v ∧ p / 1024 = i
  · rw [hwi.1, hwi.2]
    rw [hwi.1] at hu
    exact hslot p hp hwi.2 hu
  have hm : t.mem w (p / 1024) = s.mem w (p / 1024) := by
    by_cases hwv : w = v
    · subst hwv
      exact hdir _ fun e => hwi ⟨rfl, e⟩
    · rw [hmem w hwv (hf w hw hwv)]
  rw [hm]
  refine hb w hw p hp ?_
  rw [← hu]
  unfold pteAt
  rw [hm]
  split_ifs with ht
  · rw [hmem _ (h.pt_ne hw (h.sub hv) (by omega) (by omega) ht)
      (hpt w hw _ (by omega) (by omega) hwi ht)]
  · rfl

/-- No other entry holds the page table of this one. -/
theorem Tables.only_slot (h : Tables D L s) (hv : v ∈ L) (hi : i < 767) (he : (s.mem v i).HasTable) :
    (∀ w ∈ L, w ≠ v → w ≠ (s.mem v i).pt) ∧
    ∀ w ∈ L, ∀ j < 1024, j ≠ 767 → ¬ (w = v ∧ j = i) → (s.mem w j).HasTable →
      (s.mem w j).pt ≠ (s.mem v i).pt := by
  refine ⟨fun w hw _ e => h.pt_ne hv (h.sub hw) (by omega) (by omega) he e.symm, ?_⟩
  intro w hw j hj hne hwj ht heq
  obtain ⟨hji, hwv⟩ := h.sep w hw v hv j hj i (by omega) hne (by omega) ht he heq
  rcases hwv with hwv | hk
  · exact hwj ⟨hwv, hji⟩
  · omega

/-- Only the entry itself is written. -/
theorem UserBits.pde (hb : UserBits L s.mem) (h : Tables D L s) (hv : v ∈ L) (hdir : ∀ j ≠ i, t.mem v j = s.mem v j)
    (hmem : ∀ g, g ≠ v → t.mem g = s.mem g) (hno : ¬ (t.mem v i).HasTable) : UserBits L t.mem := by
  refine hb.slot h hv hdir (fun g hg _ => hmem g hg) (fun w _ hwv => hwv)
    (fun w hw j hj hne _ ht => h.pt_ne hw (h.sub hv) hj hne ht) fun p _ hpi hu => ?_
  rw [pteAt_of_not_hasTable (by rw [hpi]; exact hno), Word.zero_user] at hu
  cases hu

theorem UserBits.releaseAt (hb : UserBits L s.mem) (h : Tables D L s) (hv : v ∈ L) {d : Word}
    (hd : ¬ d.HasTable) : UserBits L (releaseAt s v i d).mem := by
  have hm : (SysX.releaseAt s v i d).mem = (s.set v i d).mem := by
    unfold SysX.releaseAt
    split_ifs <;> rfl
  refine hb.pde h hv (i := i) (fun j hj => ?_) (fun g hg => ?_) ?_
  · rw [hm, s.set_mem_of_ne_index _ _ _ _ hj]
  · rw [hm, s.set_mem_of_ne _ _ _ hg]
  · rw [hm, s.set_mem_self]
    exact hd

/-- A page is mapped in a table whose pages' bits are those of the directory entry or were taken over with them. -/
theorem UserBits.pgmapEntry (hb : UserBits L s.mem) (h : Tables D L s) (hv : v ∈ L) {s₂ : Machine}
    (hdir : ∀ j ≠ va / 4194304, s₂.mem v j = s.mem v j) (hmem : ∀ g, g ≠ v → g ≠ f → s₂.mem g = s.mem g)
    (hf : ∀ w ∈ L, w ≠ v → w ≠ f)
    (hpt : ∀ w ∈ L, ∀ j < 1024, j ≠ 767 → ¬ (w = v ∧ j = va / 4194304) → (s.mem w j).HasTable → (s.mem w j).pt ≠ f)
    (hvf : v ≠ f) (he : (s₂.mem v (va / 4194304)).pt = f)
    (hbits : ∀ k < 1024, k ≠ va / 4096 % 1024 → (s₂.mem f k).user = true →
      (s₂.mem v (va / 4194304)).user = true) :
    UserBits L (pgmapEntryAt s₂ v f pa va flags).mem := by
  have hpde : (pgmapEntryAt s₂ v f pa va flags).mem v (va / 4194304) =
      (s₂.mem v (va / 4194304)).orFlags flags := by
    unfold pgmapEntryAt
    dsimp only
    rw [Machine.set_mem_of_ne _ _ _ _ hvf, Machine.set_mem_self]
  refine hb.slot h hv (i := va / 4194304) (fun j hj => ?_) (fun g hg hgf => ?_) hf hpt fun p _ hpi hu => ?_
  · unfold pgmapEntryAt
    dsimp only
    rw [Machine.set_mem_of_ne _ _ _ _ hvf, Machine.set_mem_of_ne_index _ _ _ _ _ hj, hdir j hj]
  · rw [pgmapEntryAt_mem hg hgf, hmem g hg hgf]
  · rw [hpde, Word.orFlags_user, Bool.or_eq_true]
    by_cases ht : ((pgmapEntryAt s₂ v f pa va flags).mem v (va / 4194304)).HasTable
    · rw [pteAt_of_hasTable (by rw [hpi]; exact ht), hpi, hpde, Word.orFlags_pt, he] at hu
      unfold pgmapEntryAt at hu
      dsimp only at hu
      rw [Machine.set_mem] at hu
      split_ifs at hu with hk
      · rw [Word.fillPte_user] at hu
        exact .inr hu
      · rw [Machine.set_mem_of_ne _ _ _ _ hvf.symm] at hu
        exact .inl (hbits _ (Nat.mod_lt _ (by decide)) (fun hkj => hk ⟨rfl, hkj⟩) hu)
    · rw [pteAt_of_not_hasTable (by rw [hpi]; exact ht), Word.zero_user] at hu
      cases hu

theorem UserBits.pgmapSmall (hb : UserBits L s.mem) (h : Tables D L s) (hv : v ∈ L) (hva : va < kernelStart)
    (hm : PgmapSmall s v pa va flags t) : UserBits L t.mem := by
  have hi := slot_of_lt hva
  unfold PgmapSmall at hm
  split_ifs at hm with he
  · rw [hm]
    obtain ⟨hf, hpt⟩ := h.only_slot hv hi he
    refine hb.pgmapEntry h hv (fun _ _ => rfl) (fun _ _ _ => rfl) hf hpt
      (h.pt_ne hv (h.sub hv) (by omega) (by omega) he).symm rfl fun k hk _ hu => ?_
    have hp : va / 4194304 * 1024 + k < userPages := by
      unfold userPages
      omega
    have hpk : (va / 4194304 * 1024 + k) / 1024 = va / 4194304 := by omega
    have hpm : (va / 4194304 * 1024 + k) % 1024 = k := by omega
    have := hb v hv _ hp
    rw [pteAt_of_hasTable (by rw [hpk]; exact he), hpk, hpm] at this
    exact this hu
  · obtain ⟨f, hf, hfree, rfl⟩ := hm
    obtain ⟨hfD, hfL⟩ := h.fresh hfree
    have hvf : v ≠ f := fun e => hfD (e ▸ h.sub hv)
    have hpde : ∀ c, ((newTableAt s v (va / 4194304) f).setFrame f c).mem v (va / 4194304) =
        newTableEntry (s.mem v (va / 4194304)) f := fun c => by
      rw [Machine.setFrame_mem_of_ne _ _ hvf]
      exact newTableAt_mem_pde hvf
    unfold pgmapNewAt
    dsimp only
    rw [propagates_of_lt hva, if_neg Bool.false_ne_true]
    refine hb.pgmapEntry h hv (fun j hj => ?_) (fun g hg hgf => ?_) (fun w hw _ e => hfD (e ▸ h.sub hw))
      (fun w hw j hj hne _ => hfL w hw j hj hne) hvf ?_ fun k _ _ hu => ?_
    · rw [Machine.setFrame_mem_of_ne _ _ hvf, newTableAt, Machine.setFrame_mem_of_ne _ _ hvf,
        Machine.set_mem_of_ne_index _ _ _ _ _ hj]
      rfl
    · rw [Machine.setFrame_mem_of_ne _ _ hgf, newTableAt, Machine.setFrame_mem_of_ne _ _ hgf,
        Machine.set_mem_of_ne _ _ _ _ hg]
      rfl
    · rw [hpde]
      exact newTableEntry_pt _ (Nat.lt_of_lt_of_le hf h.frames)
    · rw [hpde, newTableEntry_user]
      rw [Machine.setFrame_mem_self, splitFrame] at hu
      split_ifs at hu with hp
      · rw [Word.splitPte_user] at hu
        rw [hp.1, hu]
        rfl
      · rw [Word.zero_user] at hu
        cases hu

/-- The page table entries of a slot change, its directory entry does not. -/
theorem UserBits.entries (hb : UserBits L s.mem) (h : Tables D L s) (hv : v ∈ L) (hi : i < 767)
    (he : (s.mem v i).HasTable) (hmem : ∀ g, g ≠ (s.mem v i).pt → t.mem g = s.mem g)
    (hbits : ∀ k < 1024, (t.mem (s.mem v i).pt k).user = true →
      (s.mem (s.mem v i).pt k).user = true ∨ (s.mem v i).user = true) : UserBits L t.mem := by
  obtain ⟨hf, hpt⟩ := h.only_slot hv hi he
  have hdir : t.mem v = s.mem v := hmem v (h.pt_ne hv (h.sub hv) (by omega) (by omega) he).symm
  refine hb.slot h hv (fun j _ => by rw [hdir]) (fun g _ hg => hmem g hg) hf hpt fun p hp hpi hu => ?_
  have htab : (t.mem v (p / 1024)).HasTable := by rw [hdir, hpi]; exact he
  rw [pteAt_of_hasTable htab, hdir, hpi] at hu
  rw [hdir]
  rcases hbits _ (Nat.mod_lt _ (by decide)) hu with hu' | hu'
  · have := hb v hv p hp
    rw [pteAt_of_hasTable (by rw [hpi]; exact he), hpi] at this
    exact this hu'
  · exact hu'

theorem UserBits.setFlagsAt (hb : UserBits L s.mem) (h : Tables D L s) (hv : v ∈ L) (hva : va < kernelStart)
    (hgrant : (s.mem v (va / 4194304)).HasTable → pteAt s.mem v (va / 4096) ≠ 0#32 → flags.getLsbD 2 = true →
      (s.mem v (va / 4194304)).user = true) : UserBits L (setFlagsAt s v va flags).mem := by
  have hoff := offSlot_of_lt hva
  have hi := slot_of_lt hva
  by_cases hs : (s.mem v (va / 4194304)).pgsz = true
  · unfold SysX.setFlagsAt
    simp only [hs, if_true]
    refine hb.pde h hv (i := va / 4194304) (fun j hj => s.set_mem_of_ne_index _ _ _ _ hj)
      (fun g hg => s.set_mem_of_ne _ _ _ hg) ?_
    rw [s.set_mem_self]
    exact fun ht => ht.not_pgsz (by simpa using hs)
  by_cases hz : pteAt s.mem v (va / 4096) = 0#32
  · unfold SysX.setFlagsAt
    simp only [if_neg hs, hz, if_true]
    exact hb
  have he : (s.mem v (va / 4194304)).HasTable := by
    by_contra hno
    exact hz (pteAt_of_not_hasTable (by rw [va_slot]; exact hno))
  have huser := hgrant he hz
  rw [pteAt_of_hasTable (by rw [va_slot]; exact he), va_slot] at hz
  obtain ⟨-, htable, hrest⟩ := @Tables.setFlagsAt_small D L s v va flags h hv hoff he hz
  refine hb.entries h hv hi he hrest fun k _ hu => ?_
  rw [htable] at hu
  dsimp only at hu
  split_ifs at hu with hk hj hj
  · rw [Word.setAvail_user, Word.setFlags_user] at hu
    exact .inr (huser hu)
  · rw [Word.setAvail_user] at hu
    exact .inl hu
  · rw [Word.setFlags_user] at hu
    exact .inr (huser hu)
  · exact .inl hu

/-- Windows and their page tables are not for user mode. -/
theorem UserBits.windowed (hb : UserBits L s.mem) (hw : Windowed D L s t fun _ => 0#32) : UserBits L t.mem := by
  intro v hv p hp hu
  have hi := userPages_slot hp
  by_cases hvc : v = s.cr3
  · subst hvc
    have hpte := hw.pte p hp
    rw [if_pos rfl] at hpte
    rw [hpte] at hu
    have huser := hb _ hv p hp hu
    rcases hw.slot (p / 1024) with hslot | ⟨-, hz, -⟩
    · rwa [hslot]
    · rw [hz, Word.zero_user] at huser
      cases huser
  · have hdir := hw.mem_dir (hw.logical.sub hv) hvc
    rw [hdir]
    refine hb v hv p hp ?_
    rw [← hu]
    unfold pteAt
    rw [hdir]
    split_ifs with ht
    · rw [hw.mem_table hv (by omega) (by omega) (.inl hvc) ht]
    · rfl

/-- The other pages of a 4 MiB page are mapped again with its flags. -/
theorem UserBits.slotMapped (hb : UserBits L s.mem) (h : Tables D L s) (hv : v ∈ L) (hi : i < 767)
    (hm : Relation.ReflTransGen (SlotMapped v i flags) s t) : UserBits L t.mem ∧ Tables D L t ∧ SameRest s t := by
  induction hm with
  | refl => exact ⟨hb, h, rfl⟩
  | tail _ hstep ih =>
    obtain ⟨hb', h', hrest⟩ := ih
    obtain ⟨pa, va, hslot, hsmall⟩ := hstep
    have hva : va < kernelStart := by
      unfold kernelStart rmapStart
      omega
    have hp : ∀ u, propagates u va = false := fun _ => propagates_of_lt hva
    refine ⟨hb'.pgmapSmall h' hv hva hsmall, hsmall.tables h' hv (offSlot_of_lt hva) (hp _), hrest.trans (hsmall.rest (hp _))⟩

theorem UserBits.pgunmapSmall (hb : UserBits L s.mem) (h : Tables D L s) (hv : v ∈ L) (hva : va < kernelStart)
    (hm : PgunmapSmall s v va t) : UserBits L t.mem ∧ SameRest s t := by
  have hi := slot_of_lt hva
  unfold PgunmapSmall at hm
  dsimp only at hm
  by_cases he : (s.mem v (va / 4194304)).HasTable
  · rw [if_pos he] at hm
    rw [hm]
    refine ⟨hb.entries h hv hi he (fun g hg => s.set_mem_of_ne _ _ _ hg) fun k _ hu => .inl ?_, rfl⟩
    rw [Machine.set_mem] at hu
    split_ifs at hu
    · rw [Word.zero_user] at hu
      cases hu
    · exact hu
  rw [if_neg he] at hm
  split_ifs at hm
  · have hb₀ : UserBits L (s.set v (va / 4194304) 0#32).mem :=
      hb.pde h hv (i := va / 4194304) (fun j hj => s.set_mem_of_ne_index _ _ _ _ hj)
        (fun g hg => s.set_mem_of_ne _ _ _ hg) (by rw [s.set_mem_self]; exact Word.not_hasTable_zero)
    have h₀ := h.setPde (v := v) (i := va / 4194304) (by omega) (.of_not_hasTable Word.not_hasTable_zero)
    obtain ⟨hb', -, hrest⟩ := hb₀.slotMapped h₀ hv hi hm
    have hset : SameRest s (s.set v (va / 4194304) 0#32) := rfl
    exact ⟨hb', hset.trans hrest⟩
  · rw [hm]
    exact ⟨hb, rfl⟩

end Slot

/-! Runs of updates. -/

/-- The calls that change tables, on the VMM with the directory `v`. -/
inductive TableCall where
  | pgmap (v pa va pgszIdx : ℕ) (flags : Word)
  | pgunmap (v va pgszIdx : ℕ)
  | setFlags (v va : ℕ) (flags : Word)

namespace TableCall

def run (K : Callees) : TableCall → Kernel Unit
  | pgmap v pa va pgszIdx flags => vmmPgmap K (v * 4096) pa va pgszIdx flags
  | pgunmap v va pgszIdx => vmmPgunmap K (v * 4096) va pgszIdx
  | setFlags v va flags => vmmSetFlags K (v * 4096) va flags

def vmm : TableCall → ℕ
  | pgmap v .. => v
  | pgunmap v .. => v
  | setFlags v .. => v

def va : TableCall → ℕ
  | pgmap _ _ va .. => va
  | pgunmap _ va _ => va
  | setFlags _ va _ => va

/-- A mapped small page is given to user mode only where its directory entry is for user mode already. -/
def Grants (s : Machine) : TableCall → Prop
  | setFlags v va flags => (s.mem v (va / 4194304)).HasTable → pteAt s.mem v (va / 4096) ≠ 0#32 →
      flags.getLsbD 2 = true → (s.mem v (va / 4194304)).user = true
  | _ => True

end TableCall

/-- What the calls rely on: user addresses, frames for page tables (or an unmapped page 0, at which a call without frames
faults), and on another VMM pages for the windows. -/
structure CallReady (L : Set ℕ) (s : Machine) (c : TableCall) : Prop where
  vmm : c.vmm ∈ L
  user : c.va < kernelStart
  frames : FreeFrames s 4098 ∨ NullGuard s
  room : c.vmm ≠ s.cr3 → Room s (fun _ => 0#32) 0 3

structure EmptyStart (D L : Set ℕ) (s : Machine) : Prop where
  tables : Tables D L s
  cur : s.cr3 ∈ L
  aligned : s.vmmCurrent = s.cr3 * 4096
  noCow : ∀ v ∈ L, ∀ va, ¬ HasCow s (v * 4096) va
  empty : ∀ v ∈ L, ∀ i < 767, s.mem v i = 0#32

/-- The states reached from empty user tables by calls that meet `P`. -/
inductive TableRun (K : Callees) (D L : Set ℕ) (P : Machine → TableCall → Prop) : Machine → Prop
  | start {s : Machine} (h : EmptyStart D L s) : TableRun K D L P s
  | call {s t : Machine} (c : TableCall) (h : TableRun K D L P s) (ready : CallReady L s c) (cond : P s c)
      (run : c.run K s = some ((), t)) : TableRun K D L P t

structure PermissionInv (D L : Set ℕ) (s : Machine) : Prop where
  tables : Tables D L s
  cur : s.cr3 ∈ L
  aligned : s.vmmCurrent = s.cr3 * 4096
  noCow : ∀ v ∈ L, ∀ va, ¬ HasCow s (v * 4096) va
  bits : UserBits L s.mem

section Run

variable {D L : Set ℕ} {s t : Machine} {K : Callees}

theorem EmptyStart.inv (h : EmptyStart D L s) : PermissionInv D L s := by
  refine ⟨h.tables, h.cur, h.aligned, h.noCow, fun v hv p hp hu => ?_⟩
  have hz := h.empty v hv _ (userPages_slot hp)
  rw [pteAt_of_not_hasTable (by rw [hz]; exact Word.not_hasTable_zero), Word.zero_user] at hu
  cases hu

/-- The invariant holds again once the windows are closed. -/
theorem PermissionInv.windowed (h : PermissionInv D L s) {σ : Machine} (hrest : SameRest s σ)
    (hb : UserBits L σ.mem) (hw : Windowed D L σ t fun _ => 0#32) : PermissionInv D L t := by
  have hst : SameRest s t := hrest.trans hw.rest
  have hcur : t.vmmCurrent = s.vmmCurrent := by rw [hst]
  have hcr : t.cr3 = s.cr3 := by rw [Machine.cr3, hcur, Machine.cr3]
  refine ⟨hw.actual, hcr ▸ h.cur, by rw [hcur, hcr, h.aligned], fun v hv va hcow => ?_, hb.windowed hw⟩
  refine h.noCow v hv va ?_
  rw [hst] at hcow
  exact hcow

theorem PermissionInv.same (h : PermissionInv D L s) (hrest : SameRest s t) (ht : Tables D L t)
    (hb : UserBits L t.mem) : PermissionInv D L t := by
  have hcr : t.cr3 = s.cr3 := by rw [hrest]; rfl
  exact h.windowed hrest hb (.refl ht (hcr ▸ h.cur))

/-! One call. -/

variable {ok : Prop} {v pa va : ℕ} {flags : Word}

theorem PermissionInv.pgmapSmall (h : PermissionInv D L s) (hK : K.Closed) (hv : v ∈ L) (hva : va < kernelStart)
    (hg : Guard ok s s 4) (hroom : v ≠ s.cr3 → Room s (fun _ => 0#32) 0 2) :
    Comp.Wp ok (vmmPgmapSmall K (v * 4096) pa va flags) (fun _ t => PermissionInv D L t) s := by
  have hoff := offSlot_of_lt hva
  have hp := propagates_of_lt (s := s) hva
  have hspread : propagates s va = true → Propagates ok D s := fun hp' => Bool.noConfusion (hp'.symm.trans hp)
  have done : ∀ σ t, PgmapSmall s v pa va flags σ → Windowed D L σ t (fun _ => 0#32) → PermissionInv D L t :=
    fun σ t hm hwt => h.windowed (hm.rest hp) (h.bits.pgmapSmall h.tables hv hva hm) hwt
  by_cases hvc : v = s.cr3
  · subst hvc
    rw [← h.aligned]
    refine (vmmPgmapSmall_own h.tables h.cur h.aligned hK hoff hspread (n := 0)
      (fun ho => (hg.frames ho).mono (by unfold slotCost; split_ifs <;> omega))
      fun _ => hg.null).mono fun _ t ⟨σ, hm, hwt, _⟩ => ?_
    exact done σ t ((pgmapOwn_iff hp).mp hm) hwt
  · refine ((Windowed.refl h.tables h.cur).vmmPgmapSmall_foreign (n := 0) (m := 0) hK hv hvc hoff hspread hg
      (hroom hvc) fun hp' => ?_).mono fun _ t ⟨σ, hm, hwt, _⟩ => done σ t hm hwt
    cases hp'.symm.trans hp

theorem PermissionInv.pgmapHuge (h : PermissionInv D L s) (hK : K.Closed) (hv : v ∈ L) (hva : va < kernelStart)
    (hg : Guard ok s s 1) (hroom : v ≠ s.cr3 → Room s (fun _ => 0#32) 0 1) :
    Comp.Wp ok (vmmPgmapHuge K (v * 4096) pa va flags) (fun _ t => PermissionInv D L t) s := by
  have hoff := offSlot_of_lt hva
  have hi := slot_of_lt hva
  have hp := propagates_of_lt (s := s) hva
  have done : ∀ t, Windowed D L (releaseAt s v (va / 4194304) (Word.fillPse flags pa)) t (fun _ => 0#32) →
      PermissionInv D L t := fun t hwt =>
    h.windowed (releaseAt_rest ..) (h.bits.releaseAt h.tables hv (Word.fillPse_not_hasTable flags pa)) hwt
  have howned : Owned L s v (va / 4194304) := fun h768 => absurd h768 (by omega)
  by_cases hvc : v = s.cr3
  · subst hvc
    rw [← h.aligned]
    refine (vmmPgmapHuge_own h.tables h.cur h.aligned hK hoff howned
      (fun hp' => Bool.noConfusion (hp'.symm.trans hp)) (n := 0) hg).mono fun _ t ⟨σ, hm, hwt, _⟩ => done t ?_
    unfold PgmapHugeOwn at hm
    rw [hp, if_neg Bool.false_ne_true] at hm
    exact hm ▸ hwt
  · exact ((Windowed.refl h.tables h.cur).vmmPgmapHuge_foreign (n := 0) hK hv hvc hoff howned hp hg
      (hroom hvc)).mono fun _ t hwt => done t hwt.1

theorem PermissionInv.pgunmapSmall (h : PermissionInv D L s) (hK : K.Closed) (hv : v ∈ L) (hva : va < kernelStart)
    (hg : Guard ok s s 4098) (hroom : v ≠ s.cr3 → Room s (fun _ => 0#32) 0 3) :
    Comp.Wp False (vmmPgunmapSmall K (v * 4096) va) (fun _ t => PermissionInv D L t) s := by
  have hoff := offSlot_of_lt hva
  have hi := slot_of_lt hva
  have hres := h.noCow v hv
  have done : ∀ σ t, PgunmapSmall s v va σ → Windowed D L σ t (fun _ => 0#32) → PermissionInv D L t := by
    intro σ t hm hwt
    obtain ⟨hb, hrest⟩ := h.bits.pgunmapSmall h.tables hv hva hm
    exact h.windowed hrest hb hwt
  by_cases hvc : v = s.cr3
  · subst hvc
    rw [← h.aligned] at hres ⊢
    have none : ∀ e va', NoResolve False s e s.vmmCurrent va' := fun _ va' _ => ⟨hres va', False.elim⟩
    cases hs : (s.mem s.cr3 (va / 4194304)).pgsz with
    | false =>
      refine (vmmPgunmapSmall_own h.tables h.cur hoff hs (none _ _)).mono fun _ t ht => ?_
      have hm : PgunmapSmall s s.cr3 va t := by
        unfold PgunmapSmall
        dsimp only
        rw [hs, if_neg Bool.false_ne_true]
        split_ifs at ht ⊢ <;> exact ht
      obtain ⟨hb, hrest⟩ := h.bits.pgunmapSmall h.tables hv hva hm
      refine h.same hrest ?_ hb
      rw [ht]
      split_ifs with he
      · exact h.tables.set (h.tables.notDir _ hv _ hoff.lt hoff.2 he) _ _
      · exact h.tables
    | true =>
      refine vmmPgunmapSmall_split h.tables h.cur hoff hs ?_
      have hb₀ : UserBits L (s.set s.cr3 (va / 4194304) 0#32).mem :=
        h.bits.pde h.tables hv (i := va / 4194304) (fun j hj => s.set_mem_of_ne_index _ _ _ _ hj)
          (fun g hg => s.set_mem_of_ne _ _ _ hg) (by rw [s.set_mem_self]; exact Word.not_hasTable_zero)
      refine (pgunmapSplit_own (I := fun _ w => UserBits L w.mem) h.tables h.cur h.aligned hK hoff hs
        (fun hge => absurd hge (Nat.not_le_of_lt hva)) False.elim (none _ _) (hg.mono (show 0 + 2 ≤ 4098 by omega)) hb₀
        (fun _ _ _ hb => hb) fun k hk w σ t _ hb hwt hrest hm hσ => ?_).mono fun _ t ⟨hb, ht, hrest, _⟩ =>
          ⟨hrest, h.same hrest ht hb⟩
      have hvk : va - va % 4194304 + k * 4096 < kernelStart := by
        unfold kernelStart rmapStart at hva ⊢
        omega
      have hcr : w.cr3 = s.cr3 := by rw [hrest]; rfl
      have hsmall := (pgmapOwn_iff (propagates_of_lt hvk)).mp hm
      exact (hb.pgmapSmall hwt (hcr ▸ hv) hvk hsmall).windowed hσ
  · refine ((Windowed.refl h.tables h.cur).vmmPgunmapSmall_foreign (n := 0) hK hv hvc hva (fun _ => hres _)
      (fun _ _ => hres _) (hg.mono (by split_ifs <;> omega)) ((hroom hvc).mono ?_)).mono
      fun _ t ⟨σ, hm, _, hwt⟩ => done σ t hm hwt
    unfold unmapWindows walkWindows
    split_ifs <;> omega

theorem PermissionInv.pgunmapHuge (h : PermissionInv D L s) (hK : K.Closed) (hv : v ∈ L) (hva : va < kernelStart)
    (hg : Guard ok s s 4098) (hroom : v ≠ s.cr3 → Room s (fun _ => 0#32) 0 3) :
    Comp.Wp False (vmmPgunmapHuge K (v * 4096) va) (fun _ t => PermissionInv D L t) s := by
  have hoff := offSlot_of_lt hva
  have hi := slot_of_lt hva
  have hres := h.noCow v hv
  have done : ∀ t, Windowed D L (releaseAt s v (va / 4194304) 0#32) t (fun _ => 0#32) → PermissionInv D L t :=
    fun t hwt => h.windowed (releaseAt_rest ..) (h.bits.releaseAt h.tables hv Word.not_hasTable_zero) hwt
  by_cases hvc : v = s.cr3
  · subst hvc
    rw [← h.aligned] at hres ⊢
    have none : ∀ e va', NoResolve False s e s.vmmCurrent va' := fun _ va' _ => ⟨hres va', False.elim⟩
    refine (vmmPgunmapHuge_own h.tables h.cur hoff (fun _ _ _ => none _ _) fun _ => none _ _).mono fun _ t ht => ?_
    rw [ht]
    exact h.same (releaseAt_rest ..) (h.tables.release hv hoff.lt hoff.2 (fun h768 => absurd h768 (by omega))
      Word.not_hasTable_zero) (h.bits.releaseAt h.tables hv Word.not_hasTable_zero)
  · refine ((Windowed.refl h.tables h.cur).vmmPgunmapHuge_foreign (n := 0) hK hv hvc hva (fun _ _ _ _ => hres _)
      (fun _ _ => hres _) (hg.mono (by omega)) ((hroom hvc).mono ?_)).mono fun _ t hwt => done t hwt
    unfold walkWindows
    split_ifs <;> omega

/-- On the current VMM `vmm_set_flags` returns; on another one it may fault. -/
theorem PermissionInv.setFlags (h : PermissionInv D L s) (hK : K.Closed) (hv : v ∈ L) (hva : va < kernelStart)
    (hgrant : (s.mem v (va / 4194304)).HasTable → pteAt s.mem v (va / 4096) ≠ 0#32 → flags.getLsbD 2 = true →
      (s.mem v (va / 4194304)).user = true)
    (hg : Guard ok s s 2) (hroom : v ≠ s.cr3 → Room s (fun _ => 0#32) 0 2) :
    Comp.Wp False (vmmSetFlags K (v * 4096) va flags) (fun _ t => PermissionInv D L t) s := by
  have hoff := offSlot_of_lt hva
  have hrest : SameRest s (setFlagsAt s v va flags) := by
    unfold setFlagsAt
    dsimp only
    split_ifs <;> rfl
  have done : ∀ t, Windowed D L (setFlagsAt s v va flags) t (fun _ => 0#32) → PermissionInv D L t :=
    fun t hwt => h.windowed hrest (h.bits.setFlagsAt h.tables hv hva hgrant) hwt
  by_cases hvc : v = s.cr3
  · subst hvc
    rw [← h.aligned]
    refine .of_eq (vmmSetFlags_cur h.tables h.cur hoff flags) ?_
    exact h.same hrest (h.tables.setFlagsAt hv hoff) (h.bits.setFlagsAt h.tables hv hva hgrant)
  · refine ((Windowed.refl h.tables h.cur).vmmSetFlags_foreign (n := 0) hK hv hvc hoff flags False.elim False.elim hg
      ((hroom hvc).mono ?_)).mono fun _ t hwt => done t hwt.2.1
    unfold walkWindows
    split_ifs <;> omega

/-- The step lemma: a call that grants nothing to user mode behind the directory's back keeps the invariant. -/
theorem PermissionInv.call (h : PermissionInv D L s) (hK : K.Closed) (c : TableCall) (ready : CallReady L s c)
    (grants : c.Grants s) : Comp.Wp False (c.run K) (fun _ t => PermissionInv D L t) s := by
  obtain ⟨ok, hg⟩ : ∃ ok, Guard ok s s 4098 := by
    rcases ready.frames with hf | hn
    · exact ⟨True, fun _ => hf, fun hno => absurd trivial hno⟩
    · exact ⟨False, False.elim, fun _ => hn⟩
  have hroom : ∀ m ≤ 3, c.vmm ≠ s.cr3 → Room s (fun _ => 0#32) 0 m := fun m hm hvc => (ready.room hvc).mono hm
  have hslot : ¬ (rmapStart ≤ c.va ∧ c.va < rmapEnd) := fun hr => Nat.not_le_of_lt ready.user hr.1
  cases c with
  | pgmap v pa va pgszIdx flags =>
    have hskip : ¬ (rmapStart ≤ va ∧ va < rmapEnd) := hslot
    simp only [TableCall.run, vmmPgmap, if_neg hskip]
    rcases pgszIdx with _ | _ | k
    · exact (h.pgmapSmall hK ready.vmm ready.user (hg.mono (by omega)) (hroom 2 (by omega))).relax
    · exact (h.pgmapHuge hK ready.vmm ready.user (hg.mono (by omega)) (hroom 1 (by omega))).relax
    · exact .pure h
  | pgunmap v va pgszIdx =>
    have hskip : ¬ (rmapStart ≤ va ∧ va < rmapEnd) := hslot
    simp only [TableCall.run, vmmPgunmap, if_neg hskip]
    rcases pgszIdx with _ | _ | k
    · exact h.pgunmapSmall hK ready.vmm ready.user hg (hroom 3 (by omega))
    · exact h.pgunmapHuge hK ready.vmm ready.user hg (hroom 3 (by omega))
    · exact .pure h
  | setFlags v va flags =>
    exact h.setFlags hK ready.vmm ready.user grants (hg.mono (by omega)) (hroom 2 (by omega))

theorem TableRun.inv (hK : K.Closed) (h : TableRun K D L TableCall.Grants s) : PermissionInv D L s := by
  induction h with
  | start h => exact h.inv
  | call c _ ready grants run ih => exact (ih.call hK c ready grants).2 () _ run

end Run

/-- The MMU enforces on a small page what `vmm_get_flags` reports: the bits of directory entry and page table entry taken
together. -/
def PermissionsAgree (K : Callees) (s : Machine) (v va : ℕ) : Prop :=
  let e := s.mem v (va / 4194304)
  let t := pteAt s.mem v (va / 4096)
  e.HasTable → t ≠ 0#32 → ∃ flags, Reads (vmmGetFlags K (v * 4096) va) s flags ∧
    flags.getLsbD 1 = (e.rw && t.rw) ∧ flags.getLsbD 2 = (e.user && t.user)

/-- In a run whose updates of flags give no small page to user mode behind a directory entry that is not, the permissions
agree in every state, for a VMM whose flags can be read. -/
theorem permissions_agree (n : ℕ) {D L : Set ℕ} {s : Machine}
    (h : TableRun (callees (n + 1)) D L TableCall.Grants s) {v va : ℕ} (hv : v ∈ L) (hva : va < kernelStart)
    (hread : v ≠ s.cr3 → FreeFrames s 2 ∧ Room s (fun _ => 0#32) 0 2) :
    PermissionsAgree (callees (n + 1)) s v va := by
  have hinv := h.inv (callees_closed n)
  have hoff := offSlot_of_lt hva
  have hi := slot_of_lt hva
  intro he hne
  have hslot := va_slot va
  have hobs : Reads (vmmGetFlags (callees (n + 1)) (v * 4096) va) s (flagsAt s.mem v (va / 4096)) := by
    by_cases hvc : v = s.cr3
    · subst hvc
      exact (hinv.tables.observed hinv.cur hinv.aligned).flags va hoff
    · obtain ⟨hf, hroom⟩ := hread hvc
      have hg : Guard True s s 2 := ⟨fun _ => hf, fun hno => absurd trivial hno⟩
      exact ((Windowed.refl hinv.tables hinv.cur).observed (callees_closed n) hv hvc hg hroom).flags va hoff
  have hpte : pteAt s.mem v (va / 4096) = s.mem (s.mem v (va / 4194304)).pt (va / 4096 % 1024) := by
    rw [pteAt_of_hasTable (by rw [hslot]; exact he), hslot]
  have hflags : flagsAt s.mem v (va / 4096) = (pteAt s.mem v (va / 4096)).getFlags := by
    rw [flagsAt_eq_pte (by rw [hslot]; exact he), hslot, ← hpte, if_neg hne]
  have hrw := hinv.tables.rw v hv _ hoff.lt hoff.2 he
  have huser := hinv.bits v hv (va / 4096) (by unfold userPages; unfold kernelStart rmapStart at hva; omega)
  rw [hslot] at huser
  refine ⟨_, hobs, ?_, ?_⟩
  · rw [hflags, hrw, Bool.true_and]
    exact Word.getFlags_bit1 _
  · rw [hflags, Word.getFlags_bit2]
    cases hu : (pteAt s.mem v (va / 4096)).user with
    | true => rw [huser hu, Bool.and_true]
    | false => rw [Bool.and_false]

/-- A VMM with empty user tables. -/
def permissionSample : Machine := { (default : Machine) with
  mem := fun f i => if f = 1 ∧ i = 767 then 0x1003#32 else 0#32
  pmmBitmap := fun i => if i = 0 then 0xFFFFFFFF#32 else 0#32
  pmmFrames := 8192
  vmmCurrent := 0x1000 }

theorem permissionSample_slot {i : ℕ} (hi : i ≠ 767) : permissionSample.mem 1 i = 0#32 :=
  if_neg fun h => hi h.2

theorem permissionSample_start : EmptyStart {1} {1} permissionSample := by
  have none : ∀ i ≠ 767, ¬ (permissionSample.mem 1 i).HasTable := fun i hi => by
    rw [permissionSample_slot hi]
    exact Word.not_hasTable_zero
  constructor
  case tables =>
    constructor
    case frames => decide
    case sub => exact subset_rfl
    case dir =>
      intro v hv
      rw [hv]
      exact ⟨by decide, by decide⟩
    case self =>
      intro v hv
      rw [hv]
      exact ⟨by decide, by decide, by decide, by decide⟩
    case present => exact fun v hv i _ hi ht => absurd (hv ▸ ht) (none i hi)
    case rw => exact fun v hv i _ hi ht => absurd (hv ▸ ht) (none i hi)
    case used => exact fun v hv i _ hi ht => absurd (hv ▸ ht) (none i hi)
    case notDir => exact fun v hv i _ hi ht => absurd (hv ▸ ht) (none i hi)
    case sep => exact fun v hv w _ i _ j _ hi _ ht => absurd (hv ▸ ht) (none i hi)
  case cur => decide
  case aligned => decide
  case noCow =>
    intro v _ va ⟨t, ht, _⟩
    cases ht
  case empty =>
    intro v hv i hi
    rw [hv]
    exact permissionSample_slot (by omega)

theorem permissionSample_frames : FreeFrames permissionSample 4098 := by
  refine ⟨List.range' 32 4098, List.length_range', List.nodup_range', fun f hf => ?_⟩
  obtain ⟨hlo, hhi⟩ := List.mem_range'_1.mp hf
  have hword : permissionSample.pmmBitmap (f / 32) = 0#32 := if_neg (by omega)
  have hframes : permissionSample.pmmFrames = 8192 := rfl
  refine ⟨by omega, ?_⟩
  unfold used pmmBit
  rw [hword]
  simp

theorem permissionSample_ready (c : TableCall) (hv : c.vmm = 1) (hva : c.va < kernelStart) :
    CallReady {1} permissionSample c :=
  ⟨hv, hva, .inl permissionSample_frames, fun hne => absurd hv hne⟩

/-- A page mapped for the kernel, then read back. -/
theorem permissions_agree_sample : PermissionsAgree (callees 1)
    (Comp.after ((TableCall.pgmap 1 0x5000 0x1000 0 3#32).run (callees 1)) permissionSample) 1 0x1000 := by
  have hrun : ((TableCall.pgmap 1 0x5000 0x1000 0 3#32).run (callees 1) permissionSample).map Prod.fst = some () := by
    decide +kernel
  have hreach : TableRun (callees 1) {1} {1} TableCall.Grants
      (Comp.after ((TableCall.pgmap 1 0x5000 0x1000 0 3#32).run (callees 1)) permissionSample) :=
    .call (.pgmap 1 0x5000 0x1000 0 3#32) (.start permissionSample_start) (permissionSample_ready _ rfl (by decide))
      trivial (Comp.run_after hrun)
  have hcur : (Comp.after ((TableCall.pgmap 1 0x5000 0x1000 0 3#32).run (callees 1)) permissionSample).cr3 = 1 := by
    decide +kernel
  exact permissions_agree 0 hreach rfl (by decide) fun hne => absurd hcur.symm hne

/-- The same page given to user mode by `vmm_set_flags`: the MMU still keeps user mode out. -/
theorem user_flag_without_effect : ¬ ∀ (D L : Set ℕ) (s : Machine) (v va : ℕ),
    TableRun (callees 1) D L (fun _ _ => True) s → v ∈ L → va < kernelStart →
    (v ≠ s.cr3 → FreeFrames s 2 ∧ Room s (fun _ => 0#32) 0 2) → PermissionsAgree (callees 1) s v va := by
  intro h
  let mapped := Comp.after ((TableCall.pgmap 1 0x5000 0x1000 0 3#32).run (callees 1)) permissionSample
  let granted := Comp.after ((TableCall.setFlags 1 0x1000 5#32).run (callees 1)) mapped
  have hmap : ((TableCall.pgmap 1 0x5000 0x1000 0 3#32).run (callees 1) permissionSample).map Prod.fst = some () := by
    decide +kernel
  have hset : ((TableCall.setFlags 1 0x1000 5#32).run (callees 1) mapped).map Prod.fst = some () := by
    decide +kernel
  have hguard : NullGuard mapped := ⟨by decide +kernel, by decide +kernel⟩
  have hcur : mapped.cr3 = 1 := by decide +kernel
  have hreach : TableRun (callees 1) {1} {1} (fun _ _ => True) granted :=
    .call (.setFlags 1 0x1000 5#32) (.call (.pgmap 1 0x5000 0x1000 0 3#32) (.start permissionSample_start)
      (permissionSample_ready _ rfl (by decide)) trivial (Comp.run_after hmap))
      ⟨rfl, by decide, .inr hguard, fun hne => absurd hcur.symm hne⟩ trivial (Comp.run_after hset)
  have hcur' : granted.cr3 = 1 := by decide +kernel
  obtain ⟨flags, ⟨t, hread⟩, -, huser⟩ := h {1} {1} granted 1 0x1000 hreach rfl (by decide)
    (fun hne => absurd hcur'.symm hne) (by decide +kernel) (by decide +kernel)
  have hflags : (vmmGetFlags (callees 1) (1 * 4096) 0x1000 granted).map Prod.fst = some 0x5#32 := by decide +kernel
  rw [hread] at hflags
  have hpde : (granted.mem 1 (0x1000 / 4194304)).user = false := by decide +kernel
  have hval : flags = 0x5#32 := Option.some.inj hflags
  rw [hpde, hval] at huser
  exact absurd huser (by decide)

end SysX
