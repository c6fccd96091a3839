import SysX.HugePages

/-!
`vmm_alloc_map`: the free-space search and the mapping loop together. Addresses need not be page-aligned, and the bytes asked
for lie at the same offset in the page that is mapped.
-/
namespace SysX

/-- The pages of the bytes `[v, v + sz)`. -/
def bytePages (v sz : ℕ) : Set ℕ := {p | ∃ i < sz, (v + i) / 4096 = p}

theorem mem_bytePages {v sz p : ℕ} (hsz : 0 < sz) :
    p ∈ bytePages v sz ↔ p ∈ pagesOf (v - v % 4096) (sz + v % 4096) := by
  unfold bytePages pagesOf pages
  rw [Set.mem_ofPred_eq, Set.mem_ofPred_eq]
  constructor
  · rintro ⟨i, hi, rfl⟩
    omega
  · rintro ⟨hlo, hhi⟩
    by_cases hp : p = v / 4096
    · exact ⟨0, hsz, by omega⟩
    · exact ⟨p * 4096 - v, by omega, by omega⟩

/-- The physical address of an address of the VMM `pd`. -/
def translateIn (m : ℕ → ℕ → Word) (pd va : ℕ) : Option ℕ :=
  (transAt m pd (va / 4096)).map fun x => x.1 * 4096 + va % 4096

section AllocMap

variable {D : Set ℕ} {s t : Machine} {pa va sz vaStart vaEnd : ℕ} {flags : Word}

/-- A byte of a range whose pages were mapped. -/
theorem Override.translate {f : ℕ → Option (ℕ × Word)} {m : ℕ → ℕ → Word} {pd off i : ℕ}
    (h : Override regular f (transAt m pd) (pagesOf va (sz + off))
      fun p => pageOf flags (((pa - off) / 4096 + (p - va / 4096)) % 1048576)) (hflags : flags.getLsbD 0 = true)
    (hva : va % 4096 = 0) (hoff : pa % 4096 = off) (hreg : RegularRange (va / 4096) (va / 4096 + pages (sz + off)))
    (hpend : pa + sz ≤ 4294967296) (hi : i < sz) : translateIn m pd (va + off + i) = some (pa + i) := by
  have hp : (va + off + i) / 4096 ∈ pagesOf va (sz + off) := by
    unfold pagesOf pages
    rw [Set.mem_ofPred_eq]
    omega
  have hframe : ((pa - off) / 4096 + ((va + off + i) / 4096 - va / 4096)) % 1048576 * 4096 + (va + off + i) % 4096 =
      pa + i := by omega
  rw [translateIn, h.inside _ (hreg _ hp.1 hp.2) hp, pageOf, if_pos hflags, Option.map_some, hframe]

/-- A byte of a range that was mapped in the current VMM. -/
theorem Mapped.translate {off i : ℕ} (h : Mapped D s t flags (pagesOf va (sz + off))
      (fun p => ((pa - off) / 4096 + (p - va / 4096)) % 1048576)) (hflags : flags.getLsbD 0 = true)
    (hva : va % 4096 = 0) (hoff : pa % 4096 = off) (hreg : RegularRange (va / 4096) (va / 4096 + pages (sz + off)))
    (hpend : pa + sz ≤ 4294967296) (hi : i < sz) : t.translate (va + off + i) = some (pa + i) := by
  have hin := h.placed.translate hflags hva hoff hreg hpend hi
  rw [← h.rest.cr3_eq] at hin
  exact hin

/-- `vmm_alloc_map` on the current VMM, going up and with small pages only. -/
theorem alloc_map_places (n : ℕ) (h : OwnVmm D s) (hpa : pa < 4294967296) (hsz : 0 < sz)
    (hsz' : pa % 4096 + sz ≤ 4294963200) (hstart : vaStart ≤ 4294963200) (hend : vaEnd < 4294967296)
    (hrange : vaEnd ≤ rmapStart ∨ rmapEnd ≤ vaStart) (hflags : flags.getLsbD 0 = true)
    (hf : FreeFrames s (2 * (pages (sz + pa % 4096) / 1024 + 2))) :
    ∃ v t, vmmAllocMap (callees (n + 1)) s.vmmCurrent pa sz vaStart vaEnd 0 0 false flags s = some (v, t) ∧
      (v ≠ 0 → v % 4096 = pa % 4096 ∧ (pa + sz ≤ 4294967296 → ∀ i < sz, t.translate (v + i) = some (pa + i)) ∧
        (∀ p ∈ bytePages v sz, view s.mem s.cr3 p = none ∧ vaStart ≤ p * 4096 ∧ (p + 1) * 4096 ≤ vaEnd) ∧
        ∀ p ∈ regular, p ∉ bytePages v sz → transAt t.mem s.cr3 p = transAt s.mem s.cr3 p) ∧
      (v = 0 → t = s ∧ ∀ w, ¬ Vacant s vaStart vaEnd (sz + pa % 4096) w) := by
  obtain ⟨off, hoff⟩ : ∃ off, pa % 4096 = off := ⟨_, rfl⟩
  rw [hoff] at hsz' hf ⊢
  have hK : (callees (n + 1)).Closed := ⟨callees n, rfl, rfl⟩
  have hw : w32 (sz + off) = sz + off := w32_of_lt (by omega)
  obtain ⟨a, hfirst, hres⟩ := vmmFirstFree_up (K := callees (n + 1)) (h.tables.walkable rfl) hstart hend
    (show 0 < sz + off by omega) (show sz + off ≤ 4294963200 by omega)
  simp only [vmmAllocMap]
  rw [hoff, hw, Comp.bind_of_eq hfirst]
  rcases hres with ⟨rfl, hnone⟩ | ⟨hvacant, -⟩
  · exact ⟨0, s, rfl, fun h0 => absurd rfl h0, fun _ => ⟨rfl, hnone⟩⟩
  · have hvac : Vacant s vaStart vaEnd (sz + off) a := hvacant
    obtain ⟨hal, hlower, hupper, hunmapped⟩ := hvac
    have hle : sz + off ≤ pages (sz + off) * 4096 := by
      unfold pages
      omega
    have hoffr : OffSlotRange a (sz + off) := by
      unfold OffSlotRange
      omega
    have hidx : mapIdx 0 (pages (sz + off)) ≠ 1 := by
      rw [mapIdx, if_pos (.inl rfl)]
      exact Nat.zero_ne_one
    have hslots : rangeSlots (a / 4096) (a / 4096 + pages (sz + off)) ≤ pages (sz + off) / 1024 + 2 := by
      unfold rangeSlots
      omega
    have hreg : RegularRange (a / 4096) (a / 4096 + pages (sz + off)) := hoffr.regular hal (by omega)
    obtain ⟨t, hmap, hmapped, -⟩ := h.map hK (show (pa - off) % 4096 = 0 by omega) (by omega) hal (by omega) hoffr 0
      (fun h1 => absurd h1 hidx) flags (m := 0) (hf.mono (by omega))
    have hret : w32 (a + off) = a + off := w32_of_lt (by omega)
    have hbytes : ∀ p, p ∈ bytePages (a + off) sz ↔ p ∈ pagesOf a (sz + off) := by
      intro p
      rw [mem_bytePages hsz, show (a + off) % 4096 = off by omega, Nat.add_sub_cancel]
    rw [if_neg (by omega), Comp.bind_of_eq hmap, hret]
    refine ⟨a + off, t, rfl, fun _ => ⟨by omega, fun hpend i hi => ?_, fun p hp => ?_, fun p hp hno => ?_⟩,
      fun h0 => by omega⟩
    · exact hmapped.translate hflags hal hoff hreg hpend hi
    · obtain ⟨hlo, hhi⟩ := (hbytes p).mp hp
      have hfree := hunmapped (p - a / 4096) (by omega)
      rw [show a / 4096 + (p - a / 4096) = p by omega] at hfree
      exact ⟨hfree, by omega, by omega⟩
    · exact hmapped.placed.outside p hp fun hin => hno ((hbytes p).mpr hin)

end AllocMap

/-- Two pages and a bit, at an odd offset. -/
theorem alloc_map_places_sample : ∃ v t,
    vmmAllocMap (callees 1) permissionSample.vmmCurrent 0x5123 0x2000 0 0xC00000 0 0 false 3#32 permissionSample =
      some (v, t) ∧
    (v ≠ 0 → v % 4096 = 0x5123 % 4096 ∧
      (0x5123 + 0x2000 ≤ 4294967296 → ∀ i < 0x2000, t.translate (v + i) = some (0x5123 + i)) ∧
      (∀ p ∈ bytePages v 0x2000, view permissionSample.mem permissionSample.cr3 p = none ∧ 0 ≤ p * 4096 ∧
        (p + 1) * 4096 ≤ 0xC00000) ∧
      ∀ p ∈ regular, p ∉ bytePages v 0x2000 →
        transAt t.mem permissionSample.cr3 p = transAt permissionSample.mem permissionSample.cr3 p) ∧
    (v = 0 → t = permissionSample ∧ ∀ w, ¬ Vacant permissionSample 0 0xC00000 (0x2000 + 0x5123 % 4096) w) :=
  alloc_map_places 0 permissionSample_own (by decide) (by decide) (by decide) (by decide) (by decide)
    (.inl (by decide)) (by decide) (permissionSample_frames.mono (by decide))

end SysX
