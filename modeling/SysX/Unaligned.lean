import SysX.AllocMap
import SysX.ForeignRange

/-!
`vmm_map` of addresses inside of a page. The offset of `va` is taken as `delta - va`, from an address that has been rounded
already, where the one of `pa` is what rounding took away: only in the first page are the two the same.
-/
namespace SysX

section Offset

variable {pa va sz : ℕ}

/-- The offset that `vmm_map` adds to the size and to its result. -/
def mapDelta (va : ℕ) : ℕ := if va < 4096 then va else 4294967296 + va % 4096 - (va - va % 4096)

theorem mapDelta_eq (heq : pa % 4096 = va % 4096) (hva : va % 4096 ≠ 0) (hlt : va < 4294967296) :
    (if va % 4096 ≠ 0 ∧ pa % 4096 < sub32 (pa % 4096) (va - va % 4096) then sub32 (pa % 4096) (va - va % 4096)
      else pa % 4096) = mapDelta va := by
  unfold mapDelta sub32 w32
  split_ifs <;> omega

/-- The number of pages that `vmm_map` makes of the size. -/
def mapPages (va sz : ℕ) : ℕ :=
  if va < 4096 then pages (sz + va) else (pages (sz + va % 4096) + 1048576 - va / 4096) % 1048576

theorem mapPages_eq (hsz : 0 < sz) (hend : va + sz ≤ 4294967296) (hfirst : va < 4096 → va + sz ≤ 4294963200) :
    (if w32 (sz + mapDelta va) % 4096 ≠ 0 then
        w32 (w32 (sz + mapDelta va) + (4096 - w32 (sz + mapDelta va) % 4096))
      else w32 (sz + mapDelta va)) = mapPages va sz * 4096 := by
  unfold mapDelta mapPages pages
  unfold w32
  by_cases h : va < 4096
  · rw [if_pos h, if_pos h]
    have := hfirst h
    split_ifs <;> omega
  · rw [if_neg h, if_neg h]
    split_ifs <;> omega

end Offset

section Result

variable {K : Callees} {vmm pa va vaEnd sz idx r : ℕ} {flags : Word} {s t : Machine}

theorem vmmMapPick_le {i : ℕ} (h : vmmMapPick pa va vaEnd idx = some i) : w32 (va + vmmPgsz i) ≤ vaEnd := by
  induction idx with
  | zero =>
    unfold vmmMapPick at h
    split_ifs at h with hno
    obtain rfl : 0 = i := Option.some.inj h
    omega
  | succ idx ih =>
    unfold vmmMapPick at h
    split_ifs at h with hno
    · exact ih h
    · obtain rfl : idx + 1 = i := Option.some.inj h
      omega

/-- The loop never steps over its end. -/
theorem vmmMapLoop_end (fuel : ℕ) : ∀ {pa va : ℕ} {s : Machine}, va ≤ vaEnd →
    vmmMapLoop K vmm idx flags vaEnd fuel pa va s = some (r, t) → r = vaEnd := by
  induction fuel with
  | zero =>
    intro pa va s _ hrun
    cases hrun
  | succ fuel ih =>
    intro pa va s hle hrun
    rw [vmmMapLoop] at hrun
    split_ifs at hrun with hlt
    · cases hpick : vmmMapPick pa va vaEnd idx with
      | none =>
        rw [hpick] at hrun
        cases hrun
      | some i =>
        rw [hpick] at hrun
        obtain ⟨_, u, -, hrest⟩ := Comp.bind_eq_some.mp hrun
        exact ih (vmmMapPick_le hpick) hrest
    · cases hrun
      omega

/-- Beyond the first page the result is never `va`. -/
theorem vmmMap_result_ne (heq : pa % 4096 = va % 4096) (hva : va % 4096 ≠ 0) (hpage : 4096 ≤ va) (hsz : 0 < sz)
    (hend : va + sz ≤ 4294967296) (hrun : vmmMap K vmm pa va sz idx flags s = some (r, t)) : r ≠ va := by
  obtain ⟨fuel, hfuel⟩ : ∃ N, N + 1 = loopFuel := ⟨4294967295, rfl⟩
  have hlow : ¬ va < 4096 := Nat.not_lt.mpr hpage
  have hlast : w32 (va - va % 4096 + mapPages va sz * 4096) = pages (sz + va % 4096) * 4096 := by
    unfold mapPages pages w32
    rw [if_neg hlow]
    omega
  rw [vmmMap_eq (mapDelta_eq heq hva (by omega)) (mapPages_eq hsz hend fun h => absurd h hlow), hlast] at hrun
  obtain ⟨v, u, hloop, hret⟩ := Comp.bind_eq_some.mp hrun
  cases hret
  have hv : v = pages (sz + va % 4096) * 4096 ∨ v = va - va % 4096 := by
    by_cases hle : va - va % 4096 ≤ pages (sz + va % 4096) * 4096
    · exact .inl (vmmMapLoop_end _ hle hloop)
    · rw [← hfuel, vmmMapLoop, if_neg (by omega)] at hloop
      cases hloop
      exact .inr rfl
  unfold mapPages mapDelta
  rw [if_neg hlow, if_neg hlow]
  rcases hv with rfl | rfl
  · unfold pages sub32 w32
    omega
  · unfold pages sub32 w32
    omega

end Result

section Unaligned

variable {D L : Set ℕ} {K : Callees} {s : Machine} {v pa va sz idx : ℕ} {flags : Word}

/-- The bytes of `[va, va + sz)` are mapped to those from `pa` on, the pages of the range and no others, and `va` is returned. -/
def MapsUnaligned (K : Callees) (s : Machine) (v pa va sz idx : ℕ) (flags : Word) : Prop :=
  ∃ t, vmmMap K (v * 4096) pa va sz idx flags s = some (va, t) ∧
    (∀ i < sz, translateIn t.mem v (va + i) = some (pa + i)) ∧
    ∀ p ∈ regular, p ∉ bytePages va sz → transAt t.mem v p = transAt s.mem v p

/-- The loop from page 0 on, in any VMM. -/
theorem mapLoop_first {e f : ℕ} (h : Tables D L s) (hc : s.cr3 ∈ L) (haligned : s.vmmCurrent = s.cr3 * 4096)
    (hpr : Propagates True D s) (hK : K.Closed) (hv : v ∈ L) (hidx : idx ≤ 1) (he : e ≤ userPages) (flags : Word)
    (hf : FreeFrames s 1538) (hroom : v ≠ s.cr3 → Room s (fun _ => 0#32) 0 2) :
    ∃ t, vmmMapLoop K (v * 4096) idx flags (e * 4096) loopFuel (w32 (f * 4096)) 0 s = some (e * 4096, t) ∧
      Override regular (transAt s.mem v) (transAt t.mem v) {p | 0 ≤ p ∧ p < e}
        fun p => pageOf flags ((f + (p - 0)) % 1048576) := by
  obtain ⟨fuel, hfuel⟩ : ∃ N, N = loopFuel := ⟨_, rfl⟩
  have hbound : e ≤ 785408 := he
  have hlt : e - 0 < fuel := by
    rw [hfuel]
    unfold loopFuel
    omega
  rw [← hfuel, ← Nat.zero_mul 4096]
  by_cases hvc : v = s.cr3
  · subst hvc
    have hown : OwnVmm D s := ⟨h.mono (Set.singleton_subset_iff.mpr hc), haligned, hpr⟩
    have hbudget := slotBudget_le (Nat.zero_le e) (slotCost_le s (0 * 4096))
    have hreg : RegularRange 0 e := fun p _ hp => ⟨by omega, by omega⟩
    obtain ⟨t, hrun, hmapped, -⟩ := hown.mapLoop (f := f) (m := 0) hK hidx (by omega) (Nat.zero_le e) hreg
      (fun _ _ => .inl (by omega)) flags (hf.mono (by unfold rangeSlots at hbudget; omega)) fuel hlt
    rw [haligned] at hrun
    exact ⟨t, hrun, hmapped.placed⟩
  · obtain ⟨σ, t, hrun, ht⟩ := mapLoop_foreign (f := f) h hc hK hv hvc hidx he (Nat.zero_le e) flags hf (hroom hvc) fuel hlt
    refine ⟨t, hrun, ht.placed.result fun p hp => ?_⟩
    have hcσ := ht.rest.cr3_eq
    rw [transAt, ht.windowed.view_other hv (hcσ.symm ▸ hvc) hp, transAt]

/-- In the first page the two offsets are the same. -/
theorem mapsUnaligned_first (h : Tables D L s) (hc : s.cr3 ∈ L) (haligned : s.vmmCurrent = s.cr3 * 4096)
    (hpr : Propagates True D s) (hK : K.Closed) (hv : v ∈ L) (heq : pa % 4096 = va % 4096) (hva : va % 4096 ≠ 0)
    (hpage : va < 4096) (hsz : 0 < sz) (hpend : pa + sz ≤ 4294967296) (hoff : OffSlotRange va sz)
    (hflags : flags.getLsbD 0 = true) (hf : FreeFrames s 1538) (hroom : v ≠ s.cr3 → Room s (fun _ => 0#32) 0 2)
    (idx : ℕ) : MapsUnaligned K s v pa va sz idx flags := by
  have hlast : va + sz ≤ 3217031168 := by
    unfold OffSlotRange rmapStart rmapEnd at hoff
    omega
  have hpages : mapPages va sz = pages (sz + va) := if_pos hpage
  have hdelta : mapDelta va = va := if_pos hpage
  have hle : pages (sz + va) ≤ userPages := by
    unfold pages userPages
    omega
  have hround : va - va % 4096 = 0 := by omega
  obtain ⟨t, hrun, hover⟩ := mapLoop_first (f := pa / 4096) h hc haligned hpr hK hv (mapIdx_le idx (pages (sz + va))) hle
    flags hf hroom
  have hpa : w32 (pa / 4096 * 4096) = pa - pa % 4096 := by
    unfold w32
    omega
  have hend : w32 (0 + pages (sz + va) * 4096) = pages (sz + va) * 4096 := by
    unfold pages w32
    omega
  have hret : w32 (sub32 (pages (sz + va) * 4096) (pages (sz + va) * 4096) + va) = va := by
    unfold sub32 w32
    omega
  have hcall : vmmMap K (v * 4096) pa va sz idx flags s = some (va, t) := by
    rw [vmmMap_eq (mapDelta_eq heq hva (by omega)) (mapPages_eq hsz (by omega) fun _ => by omega), hpages, hdelta, hround,
      hend, ← hpa, Comp.bind_of_eq hrun, hret]
    rfl
  have hbytes : ∀ p, p ∈ bytePages va sz ↔ p ∈ pagesOf 0 (sz + va) := by
    intro p
    rw [mem_bytePages hsz, hround, Nat.mod_eq_of_lt hpage]
  have hplaced : Override regular (transAt s.mem v) (transAt t.mem v) (pagesOf 0 (sz + va))
      fun p => pageOf flags (((pa - va) / 4096 + (p - 0 / 4096)) % 1048576) := by
    refine hover.congr (fun p _ => ?_) fun p _ _ => ?_
    · unfold pagesOf
      rw [Set.mem_ofPred_eq, Set.mem_ofPred_eq, Nat.zero_div, Nat.zero_add]
    · rw [show (pa - va) / 4096 = pa / 4096 by omega]
  have hreg : RegularRange (0 / 4096) (0 / 4096 + pages (sz + va)) := by
    unfold userPages at hle
    exact fun p _ hp => ⟨by omega, by omega⟩
  refine ⟨t, hcall, fun i hi => ?_, fun p hp hno => hplaced.outside p hp fun hin => hno ((hbytes p).mpr hin)⟩
  have htrans := hplaced.translate hflags (Nat.zero_mod 4096) (by omega) hreg hpend hi
  rw [Nat.zero_add] at htrans
  exact htrans

/-- `vmm_map` of unaligned addresses does what it should if and only if the range starts in the first page. -/
theorem unaligned_map_iff (n : ℕ) (h : Tables D L s) (hc : s.cr3 ∈ L) (haligned : s.vmmCurrent = s.cr3 * 4096)
    (hpr : Propagates True D s) (hv : v ∈ L) (heq : pa % 4096 = va % 4096) (hva : va % 4096 ≠ 0) (hsz : 0 < sz)
    (hend : va + sz ≤ 4294967296) (hpend : pa + sz ≤ 4294967296) (hoff : OffSlotRange va sz)
    (hflags : flags.getLsbD 0 = true) (hf : FreeFrames s 1538) (hroom : v ≠ s.cr3 → Room s (fun _ => 0#32) 0 2) :
    MapsUnaligned (callees (n + 1)) s v pa va sz idx flags ↔ va < 4096 := by
  have hK : (callees (n + 1)).Closed := ⟨callees n, rfl, rfl⟩
  constructor
  · rintro ⟨t, hrun, -⟩
    by_contra hpage
    exact vmmMap_result_ne heq hva (Nat.not_lt.mp hpage) hsz hend hrun rfl
  · exact fun hpage => mapsUnaligned_first h hc haligned hpr hK hv heq hva hpage hsz hpend hoff hflags hf hroom idx

end Unaligned

/-- A range in the first two pages. -/
theorem unaligned_map_sample :
    MapsUnaligned (callees 1) permissionSample 1 0x5123 0x123 0x1000 0 3#32 ↔ 0x123 < 4096 :=
  unaligned_map_iff 0 permissionSample_start.tables permissionSample_start.cur permissionSample_start.aligned
    permissionSample_own.spread rfl (by decide) (by decide) (by decide) (by decide) (by decide) (.inl (by decide)) (by decide)
    (permissionSample_frames.mono (by decide)) fun hne => absurd rfl hne

/-- The same bytes one page further up. -/
theorem second_page_unmapped : ¬ MapsUnaligned (callees 1) permissionSample 1 0x5123 0x1123 0x1000 0 3#32 := by
  rintro ⟨t, hrun, -⟩
  exact vmmMap_result_ne (by decide) (by decide) (by decide) (by decide) (by decide) hrun rfl

end SysX
