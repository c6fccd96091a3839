import SysX.HugePages

/-!
Ranges at the top of the address space. A range that ends at 4 GiB has the end address 0 and is passed over; inside of the
last 4 MiB the test for a 4 MiB page wraps around, and with it the loop.
-/
namespace SysX

section Diverges

variable {K : Callees} {vmm pa va vaEnd : ℕ} {flags : Word}

/-- Once the loop of `vmm_map` may use the last 4 MiB at once it never ends: behind them it goes on at address 0. -/
theorem vmmMapLoop_diverges (hend : 4290772992 < vaEnd) (fuel : ℕ) :
    ∀ {pa va : ℕ} (s : Machine), va % 4096 = 0 → va ≤ 4290772992 → pa % 4194304 = va % 4194304 →
      vmmMapLoop K vmm 1 flags vaEnd fuel pa va s = none := by
  induction fuel with
  | zero => exact fun _ _ _ _ => rfl
  | succ fuel ih =>
    intro pa va s hva hle hpa
    have next : ∀ i, vmmMapPick pa va vaEnd 1 = some i → w32 (va + vmmPgsz i) % 4096 = 0 →
        w32 (va + vmmPgsz i) ≤ 4290772992 → w32 (pa + vmmPgsz i) % 4194304 = w32 (va + vmmPgsz i) % 4194304 →
        vmmMapLoop K vmm 1 flags vaEnd (fuel + 1) pa va s = none := by
      intro i hpick hva' hle' hpa'
      rw [vmmMapLoop, if_pos (by omega), hpick]
      exact Comp.bind_none fun _ t => ih t hva' hle' hpa'
    have hpgsz₀ : vmmPgsz 0 = 4096 := rfl
    have hpgsz₁ : vmmPgsz (0 + 1) = 4194304 := rfl
    by_cases hbig : va % 4194304 = 0
    · refine next 1 ?_ ?_ ?_ ?_
      · rw [vmmMapPick, hpgsz₁, if_neg]
        unfold w32
        omega
      all_goals
        rw [hpgsz₁]
        unfold w32
        omega
    · refine next 0 ?_ ?_ ?_ ?_
      · rw [vmmMapPick, hpgsz₁, if_pos (.inr (.inr hbig)), vmmMapPick, hpgsz₀, if_neg]
        unfold w32
        omega
      all_goals
        rw [hpgsz₀]
        unfold w32
        omega

/-- The loop of `vmm_unmap` uses every other slot at once, and then the last one. -/
theorem vmmUnmapLoop_diverges (hend : 4290772992 < vaEnd) (hlt : vaEnd < 4294967296) (fuel : ℕ) :
    ∀ {va : ℕ} (s : Machine), va % 4096 = 0 → va ≤ 4290772992 → (va + 4194303) / 4194304 % 2 = 1 →
      vmmUnmapLoop K vmm vaEnd fuel va s = none := by
  induction fuel with
  | zero => exact fun _ _ _ _ => rfl
  | succ fuel ih =>
    intro va s hva hle hodd
    rw [vmmUnmapLoop, if_pos (by omega)]
    dsimp only
    refine Comp.bind_none fun _ t => Comp.bind_none fun _ u => ?_
    by_cases hbig : va % 4194304 = 0
    · have hhuge : ¬ (vaEnd < w32 (va + 4194304) ∨ va % 4194304 ≠ 0) := by
        unfold w32
        omega
      have hsmall : ¬ (vaEnd < w32 (w32 (va + 4194304) + 4096) ∨ w32 (va + 4194304) % 4096 ≠ 0) := by
        unfold w32
        omega
      rw [if_pos hhuge, if_pos hsmall]
      refine ih u ?_ ?_ ?_ <;> unfold w32 <;> omega
    · have hhuge : ¬ ¬ (vaEnd < w32 (va + 4194304) ∨ va % 4194304 ≠ 0) := not_not.mpr (.inr hbig)
      have hsmall : ¬ (vaEnd < w32 (va + 4096) ∨ va % 4096 ≠ 0) := by
        unfold w32
        omega
      rw [if_neg hhuge, if_pos hsmall]
      refine ih u ?_ ?_ ?_ <;> unfold w32 <;> omega

end Diverges

section Top

variable {D : Set ℕ} {s : Machine} {K : Callees} {pa va sz idx : ℕ} {flags : Word}

/-- `vmm_map` returns, with the pages of the range mapped and the others as they were. -/
def MapsExactly (K : Callees) (s : Machine) (pa va sz idx : ℕ) (flags : Word) : Prop :=
  ∃ r t, vmmMap K s.vmmCurrent pa va sz idx flags s = some (r, t) ∧
    Override regular (transAt s.mem s.cr3) (transAt t.mem s.cr3) (pagesOf va sz)
      fun p => pageOf flags ((pa / 4096 + (p - va / 4096)) % 1048576)

/-- `vmm_unmap` returns, with the pages of the range unmapped and the others as they were. -/
def UnmapsExactly (K : Callees) (s : Machine) (va sz : ℕ) : Prop :=
  ∃ t, vmmUnmap K s.vmmCurrent va sz s = some ((), t) ∧ (∀ p ∈ regular, p ∈ pagesOf va sz → view t.mem s.cr3 p = none) ∧
    ∀ p ∈ regular, p ∉ pagesOf va sz → transAt t.mem s.cr3 p = transAt s.mem s.cr3 p

/-- The first page behind a range. -/
def rangeEnd (va sz : ℕ) : ℕ := va / 4096 + pages sz

/-- What `vmm_map` needs: a range that reaches the end of the address space is mapped already. Otherwise, where 4 MiB pages
are used, the range leaves out the last 4 MiB or starts inside of them. -/
def MapMeets (s : Machine) (pa va sz idx : ℕ) (flags : Word) : Prop :=
  if rangeEnd va sz = 1048576 then
    ∀ p ∈ pagesOf va sz, transAt s.mem s.cr3 p = pageOf flags ((pa / 4096 + (p - va / 4096)) % 1048576)
  else idx ≠ 0 → 1024 ≤ pages sz → va / 4096 % 1024 = pa / 4096 % 1024 →
    rangeEnd va sz ≤ 1047552 ∨ 1047552 < va / 4096

/-- What `vmm_unmap` needs: a range that reaches the end of the address space is unmapped already. Otherwise, if the range goes
into the last 4 MiB, the first boundary of 4 MiB is the start of a slot with an even number. -/
def UnmapMeets (s : Machine) (va sz : ℕ) : Prop :=
  if rangeEnd va sz = 1048576 then ∀ p ∈ pagesOf va sz, view s.mem s.cr3 p = none
  else UnmapEnds (va / 4096) (rangeEnd va sz)

theorem vmmMap_top (hpa : pa % 4096 = 0) (hva : va % 4096 = 0) (hn : pages sz < 1048576)
    (he : rangeEnd va sz = 1048576) : ∃ r, vmmMap K s.vmmCurrent pa va sz idx flags s = some (r, s) := by
  obtain ⟨fuel, hfuel⟩ : ∃ N, N + 1 = loopFuel := ⟨4294967295, rfl⟩
  have hend : w32 (va + pages sz * 4096) = 0 := by
    unfold rangeEnd at he
    unfold w32
    omega
  rw [vmmMap_aligned hpa hva hn, hend, ← hfuel, vmmMapLoop, if_neg (Nat.not_lt_zero _)]
  exact ⟨_, rfl⟩

theorem vmmUnmap_top (hva : va % 4096 = 0) (hn : pages sz < 1048576) (he : rangeEnd va sz = 1048576) :
    vmmUnmap K s.vmmCurrent va sz s = some ((), s) := by
  obtain ⟨fuel, hfuel⟩ : ∃ N, N + 1 = loopFuel := ⟨4294967295, rfl⟩
  have hend : w32 (va + pages sz * 4096) = 0 := by
    unfold rangeEnd at he
    unfold w32
    omega
  rw [vmmUnmap_aligned hva hn, hend, ← hfuel, vmmUnmapLoop, if_neg (Nat.not_lt_zero _)]
  rfl

theorem mapsExactly_iff (h : OwnVmm D s) (hK : K.Closed) (hpa : pa % 4096 = 0) (hpa' : pa < 4294967296)
    (hva : va % 4096 = 0) (hsz : 0 < sz) (hend : va + sz ≤ 4294967296) (hoff : OffSlotRange va sz)
    (hf : FreeFrames s (2 * rangeSlots (va / 4096) (rangeEnd va sz))) :
    MapsExactly K s pa va sz idx flags ↔ MapMeets s pa va sz idx flags := by
  have he : rangeEnd va sz ≤ 1048576 := by
    unfold rangeEnd pages
    omega
  have hn : pages sz < 1048576 := by
    unfold OffSlotRange rmapStart rmapEnd at hoff
    unfold pages
    omega
  have hreg := hoff.regular hva he
  unfold MapsExactly MapMeets
  split_ifs with htop
  · obtain ⟨r, hrun⟩ : ∃ r, vmmMap K s.vmmCurrent pa va sz idx flags s = some (r, s) := vmmMap_top hpa hva hn htop
    rw [hrun]
    constructor
    · rintro ⟨r', t, ht, hover⟩ p hp
      cases ht
      exact hover.inside p (hreg p hp.1 hp.2) hp
    · exact fun hall => ⟨r, s, rfl, fun p _ hp => hall p hp, fun _ _ _ => rfl⟩
  · have hlt : rangeEnd va sz < 1048576 := by omega
    constructor
    · rintro ⟨r, t, hrun, -⟩ hidx hbig halign
      by_contra hbad
      have hmax : mapIdx idx (pages sz) = 1 := by
        unfold mapIdx
        rw [if_neg (by omega)]
      have hend' : w32 (va + pages sz * 4096) = va + pages sz * 4096 := by
        unfold rangeEnd at hlt
        exact w32_of_lt (by omega)
      unfold rangeEnd at hbad
      have hdiv : vmmMapLoop K s.vmmCurrent 1 flags (va + pages sz * 4096) loopFuel pa va s = none :=
        vmmMapLoop_diverges (by omega) loopFuel s hva (by omega) (by omega)
      rw [vmmMap_aligned hpa hva hn, hmax, hend', Comp.bind_apply, hdiv] at hrun
      cases hrun
    · intro hmeets
      have hwrap : mapIdx idx (pages sz) = 1 → va / 4096 % 1024 = pa / 4096 % 1024 →
          rangeEnd va sz ≤ 1047552 ∨ 1047552 < va / 4096 := by
        intro hmax halign
        unfold mapIdx at hmax
        split_ifs at hmax with hsmall
        exact hmeets (by omega) (by omega) halign
      obtain ⟨t, hrun, hmapped, -⟩ := h.map hK hpa hpa' hva hlt hoff idx hwrap flags (m := 0) hf
      exact ⟨va, t, hrun, hmapped.placed⟩

theorem unmapsExactly_iff (h : OwnVmm D s) (hK : K.Closed)
    (hs : UntrappedRange s (va / 4096) (rangeEnd va sz)) (hva : va % 4096 = 0) (hsz : 0 < sz)
    (hend : va + sz ≤ 4294967296) (hoff : OffSlotRange va sz)
    (hf : FreeFrames s (2 * rangeSlots (va / 4096) (rangeEnd va sz))) :
    UnmapsExactly K s va sz ↔ UnmapMeets s va sz := by
  have he : rangeEnd va sz ≤ 1048576 := by
    unfold rangeEnd pages
    omega
  have hn : pages sz < 1048576 := by
    unfold OffSlotRange rmapStart rmapEnd at hoff
    unfold pages
    omega
  have hreg := hoff.regular hva he
  unfold UnmapsExactly UnmapMeets
  split_ifs with htop
  · rw [vmmUnmap_top hva hn htop]
    constructor
    · rintro ⟨t, ht, hall, -⟩ p hp
      cases ht
      exact hall p (hreg p hp.1 hp.2) hp
    · exact fun hall => ⟨s, rfl, fun p _ hp => hall p hp, fun _ _ _ => rfl⟩
  · have hlt : rangeEnd va sz < 1048576 := by omega
    constructor
    · rintro ⟨t, hrun, -⟩
      by_contra hbad
      have hend' : w32 (va + pages sz * 4096) = va + pages sz * 4096 := by
        unfold rangeEnd at hlt
        exact w32_of_lt (by omega)
      unfold UnmapEnds at hbad
      unfold rangeEnd at hbad hlt
      have hdiv : vmmUnmapLoop K s.vmmCurrent (va + pages sz * 4096) loopFuel va s = none :=
        vmmUnmapLoop_diverges (by omega) (by omega) loopFuel s hva (by omega) (by omega)
      rw [vmmUnmap_aligned hva hn, hend', hdiv] at hrun
      cases hrun
    · intro hmeets
      obtain ⟨t, hrun, hunmapped, -⟩ := h.unmap hs hK hva hlt hoff hmeets (m := 0) hf
      exact ⟨t, hrun, hunmapped.here, hunmapped.others⟩

/-- At the top of the address space, `vmm_map` and `vmm_unmap` deal with exactly the pages of a range under the conditions
above, and otherwise pass them over or never return. -/
theorem top_of_memory_iff (n : ℕ) (h : OwnVmm D s) (hpa : pa % 4096 = 0) (hpa' : pa < 4294967296) (hva : va % 4096 = 0)
    (hsz : 0 < sz) (hend : va + sz ≤ 4294967296) (hoff : OffSlotRange va sz)
    (hs : UntrappedRange s (va / 4096) (rangeEnd va sz))
    (hf : FreeFrames s (2 * rangeSlots (va / 4096) (rangeEnd va sz))) :
    (∀ idx, MapsExactly (callees (n + 1)) s pa va sz idx flags ↔ MapMeets s pa va sz idx flags) ∧
      (UnmapsExactly (callees (n + 1)) s va sz ↔ UnmapMeets s va sz) := by
  have hK : (callees (n + 1)).Closed := ⟨callees n, rfl, rfl⟩
  exact ⟨fun _ => mapsExactly_iff h hK hpa hpa' hva hsz hend hoff hf,
    unmapsExactly_iff h hK hs hva hsz hend hoff hf⟩

end Top

/-- The last page but one. -/
theorem top_of_memory_sample :
    (∀ idx, MapsExactly (callees 1) permissionSample 0x5000 0xFFFFE000 0x1000 idx 3#32 ↔
      MapMeets permissionSample 0x5000 0xFFFFE000 0x1000 idx 3#32) ∧
    (UnmapsExactly (callees 1) permissionSample 0xFFFFE000 0x1000 ↔
      UnmapMeets permissionSample 0xFFFFE000 0x1000) :=
  top_of_memory_iff 0 permissionSample_own (by decide) (by decide) (by decide) (by decide) (by decide)
    (.inr (by decide)) (fun _ _ _ => permissionSample_untrapped _) (permissionSample_frames.mono (by decide))

/-- The last page is not mapped. -/
theorem last_page_passed_over : ¬ ∀ (D : Set ℕ) (s : Machine) (pa va sz idx : ℕ) (flags : Word), OwnVmm D s →
    pa % 4096 = 0 → pa < 4294967296 → va % 4096 = 0 → 0 < sz → va + sz ≤ 4294967296 → OffSlotRange va sz →
    UntrappedRange s (va / 4096) (rangeEnd va sz) → FreeFrames s (2 * rangeSlots (va / 4096) (rangeEnd va sz)) →
    MapsExactly (callees 1) s pa va sz idx flags ∧ UnmapsExactly (callees 1) s va sz := by
  intro h
  obtain ⟨⟨r, t, hrun, hover⟩, -⟩ := h {1} permissionSample 0x5000 0xFFFFF000 0x1000 0 3#32 permissionSample_own
    (by decide) (by decide) (by decide) (by decide) (by decide) (.inr (by decide))
    (fun _ _ _ => permissionSample_untrapped _) (permissionSample_frames.mono (by decide))
  obtain ⟨r', hsame⟩ := @vmmMap_top permissionSample (callees 1) 0x5000 0xFFFFF000 0x1000 0 3#32 (by decide) (by decide)
    (by decide) (by decide)
  rw [hsame] at hrun
  cases hrun
  have hreg : Regular 0xFFFFF := ⟨by decide, by decide⟩
  have hin := hover.inside 0xFFFFF hreg ⟨by decide, by decide⟩
  rw [show permissionSample.cr3 = 1 from rfl, transAt, permissionSample_view hreg] at hin
  exact absurd hin (by decide)

end SysX
