import SysX.OwnRange
import SysX.Permissions

/-!
4 MiB pages are an optimization of `vmm_map`: what is mapped with them can be told apart neither by its translation nor by
what `vmm_unmap` leaves of it.
-/
namespace SysX

section Transparent

variable {D : Set ℕ} {s : Machine} {pa va sz : ℕ} {flags : Word}

/-- `vmm_map` and `vmm_unmap` of the same range, for one of the page sizes. -/
theorem map_unmap {K : Callees} (h : OwnVmm D s) (hK : K.Closed) (hpa : pa % 4096 = 0) (hpa' : pa < 4294967296)
    (hva : va % 4096 = 0) (hend : va + sz + 4194304 ≤ 4294967296) (hoff : OffSlotRange va sz)
    (hs : UntrappedRange s (va / 4096) (va / 4096 + pages sz))
    (hflags : flags.getLsbD 6 = false)
    (hf : FreeFrames s (4 * rangeSlots (va / 4096) (va / 4096 + pages sz))) (idx : ℕ) :
    ∃ t u, vmmMap K s.vmmCurrent pa va sz idx flags s = some (va, t) ∧
      Mapped D s t flags (pagesOf va sz) (fun p => (pa / 4096 + (p - va / 4096)) % 1048576) ∧
      vmmUnmap K s.vmmCurrent va sz t = some ((), u) ∧ Unmapped D t u (pagesOf va sz) := by
  have he : va / 4096 + pages sz ≤ 1047552 := by
    unfold pages
    omega
  obtain ⟨t, hmap, hmapped, hft⟩ := h.map hK hpa hpa' hva (Nat.lt_of_le_of_lt he (by decide)) hoff idx
    (fun _ _ => .inl he) flags (m := 2 * rangeSlots (va / 4096) (va / 4096 + pages sz)) (hf.mono (by omega))
  obtain ⟨u, hunmap, hunmapped, -⟩ := hmapped.vmm.unmap (fun p hp hlt => hmapped.quiet hflags _ (hs p hp hlt)) hK hva
    (Nat.lt_of_le_of_lt he (by decide)) hoff (.inl he) (m := 0) hft
  rw [hmapped.rest.vmmCurrent_eq] at hunmap
  exact ⟨t, u, hmap, hmapped, hunmap, hunmapped⟩

/-- What is unmapped again after it was mapped: the range is empty, the other pages are as they were at first. -/
theorem Mapped.restored {t u : Machine} {P : Set ℕ} {frame : ℕ → ℕ} (h : Mapped D s t flags P frame)
    (hu : Unmapped D t u P) : (∀ p ∈ regular, p ∈ P → view u.mem s.cr3 p = none) ∧
    ∀ p ∈ regular, p ∉ P → transAt u.mem s.cr3 p = transAt s.mem s.cr3 p := by
  have hhere := hu.here
  have hothers := hu.others
  rw [h.rest.cr3_eq] at hhere hothers
  exact ⟨hhere, fun p hp hpP => (hothers p hp hpP).trans (h.placed.outside p hp hpP)⟩

/-- Mapped with 4 MiB pages or without them, a range has the same translation and is unmapped in the same way. -/
theorem huge_pages_transparent (n : ℕ) (h : OwnVmm D s) (hpa : pa % 4096 = 0) (hpa' : pa < 4294967296)
    (hva : va % 4096 = 0) (hend : va + sz + 4194304 ≤ 4294967296) (hpend : pa + sz ≤ 4294967296)
    (hoff : OffSlotRange va sz) (hs : UntrappedRange s (va / 4096) (va / 4096 + pages sz)) (hflags : flags.getLsbD 6 = false)
    (hf : FreeFrames s (4 * rangeSlots (va / 4096) (va / 4096 + pages sz))) :
    ∃ t₀ t₁ u₀ u₁, vmmMap (callees (n + 1)) s.vmmCurrent pa va sz 0 flags s = some (va, t₀) ∧
      vmmMap (callees (n + 1)) s.vmmCurrent pa va sz 1 flags s = some (va, t₁) ∧
      (∀ p ∈ regular, transAt t₁.mem s.cr3 p = transAt t₀.mem s.cr3 p) ∧
      (∀ p ∈ pagesOf va sz, transAt t₁.mem s.cr3 p = pageOf flags (pa / 4096 + (p - va / 4096))) ∧
      vmmUnmap (callees (n + 1)) s.vmmCurrent va sz t₀ = some ((), u₀) ∧
      vmmUnmap (callees (n + 1)) s.vmmCurrent va sz t₁ = some ((), u₁) ∧
      (∀ p ∈ pagesOf va sz, view u₀.mem s.cr3 p = none ∧ view u₁.mem s.cr3 p = none) ∧
      ∀ p ∈ regular, p ∉ pagesOf va sz → transAt u₀.mem s.cr3 p = transAt s.mem s.cr3 p ∧
        transAt u₁.mem s.cr3 p = transAt s.mem s.cr3 p := by
  have hK : (callees (n + 1)).Closed := ⟨callees n, rfl, rfl⟩
  obtain ⟨t₀, u₀, hmap₀, hmapped₀, hunmap₀, hunmapped₀⟩ := map_unmap h hK hpa hpa' hva hend hoff hs hflags hf 0
  obtain ⟨t₁, u₁, hmap₁, hmapped₁, hunmap₁, hunmapped₁⟩ := map_unmap h hK hpa hpa' hva hend hoff hs hflags hf 1
  have hreg : ∀ p ∈ pagesOf va sz, p ∈ regular := fun p hp =>
    hoff.regular hva (by unfold pages; omega) p hp.1 hp.2
  have hback₀ := hmapped₀.restored hunmapped₀
  have hback₁ := hmapped₁.restored hunmapped₁
  refine ⟨t₀, t₁, u₀, u₁, hmap₀, hmap₁, hmapped₁.placed.unique hmapped₀.placed, fun p hp => ?_, hunmap₀, hunmap₁,
    fun p hp => ⟨hback₀.1 p (hreg p hp) hp, hback₁.1 p (hreg p hp) hp⟩,
    fun p hp hpP => ⟨hback₀.2 p hp hpP, hback₁.2 p hp hpP⟩⟩
  rw [hmapped₁.placed.inside p (hreg p hp) hp, Nat.mod_eq_of_lt]
  unfold pagesOf pages at hp
  rw [Set.mem_ofPred_eq] at hp
  omega

end Transparent

theorem permissionSample_own : OwnVmm {1} permissionSample where
  tables := permissionSample_start.tables
  aligned := permissionSample_start.aligned
  spread := ⟨fun _ hk => absurd hk (Option.some_ne_none _).symm, fun _ hne => absurd rfl hne⟩

theorem permissionSample_view {p : ℕ} (hp : Regular p) : view permissionSample.mem 1 p = none :=
  view_of_slot_zero (permissionSample_slot hp.2)

theorem permissionSample_untrapped (j : ℕ) : Untrapped permissionSample j := by
  intro p hp _ x hx
  rw [show permissionSample.cr3 = 1 from rfl, permissionSample_view hp] at hx
  cases hx

/-- 8 MiB and a page, between two boundaries of 4 MiB. -/
theorem huge_pages_transparent_sample : ∃ t₀ t₁ u₀ u₁,
    vmmMap (callees 1) permissionSample.vmmCurrent 0x401000 0x801000 0x801000 0 3#32 permissionSample =
      some (0x801000, t₀) ∧
    vmmMap (callees 1) permissionSample.vmmCurrent 0x401000 0x801000 0x801000 1 3#32 permissionSample =
      some (0x801000, t₁) ∧
    (∀ p ∈ regular, transAt t₁.mem permissionSample.cr3 p = transAt t₀.mem permissionSample.cr3 p) ∧
    (∀ p ∈ pagesOf 0x801000 0x801000,
      transAt t₁.mem permissionSample.cr3 p = pageOf 3#32 (0x401000 / 4096 + (p - 0x801000 / 4096))) ∧
    vmmUnmap (callees 1) permissionSample.vmmCurrent 0x801000 0x801000 t₀ = some ((), u₀) ∧
    vmmUnmap (callees 1) permissionSample.vmmCurrent 0x801000 0x801000 t₁ = some ((), u₁) ∧
    (∀ p ∈ pagesOf 0x801000 0x801000,
      view u₀.mem permissionSample.cr3 p = none ∧ view u₁.mem permissionSample.cr3 p = none) ∧
    ∀ p ∈ regular, p ∉ pagesOf 0x801000 0x801000 →
      transAt u₀.mem permissionSample.cr3 p = transAt permissionSample.mem permissionSample.cr3 p ∧
      transAt u₁.mem permissionSample.cr3 p = transAt permissionSample.mem permissionSample.cr3 p :=
  huge_pages_transparent 0 permissionSample_own (by decide) (by decide) (by decide) (by decide) (by decide)
    (.inl (by decide)) (fun _ _ _ => permissionSample_untrapped _) (by decide) (permissionSample_frames.mono (by decide))

end SysX
