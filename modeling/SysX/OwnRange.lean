import SysX.OwnPages
import SysX.FreeSpace

/-!
`vmm_map` and `vmm_unmap` on the current VMM. Both loops go through the range page by page or 4 MiB by 4 MiB.
-/
namespace SysX

section Loops

variable {D : Set ℕ} {s t : Machine} {K : Callees} {m q e f idx : ℕ} {flags : Word}

/-- The pages of a range, all outside of the recursive slot. -/
def RegularRange (q e : ℕ) : Prop := ∀ p, q ≤ p → p < e → Regular p

/-- Frames for the slots of `[q, e)`, where the slot of `q` takes `cost` unless it starts there. -/
def slotBudget (cost q e : ℕ) : ℕ := 2 * ((e + 1023) / 1024 - (q + 1023) / 1024) + if q % 1024 = 0 then 0 else cost

/-- The size of the next page. At the top of the address space a 4 MiB page would wrap around to address 0. -/
theorem vmmMapPick_page (hq : q < e) (he : e < 1048576) (hidx : idx ≤ 1)
    (hwrap : idx = 1 → q % 1024 = f % 1024 → e ≤ 1047552 ∨ 1047552 < q) :
    vmmMapPick (w32 (f * 4096)) (q * 4096) (e * 4096) idx =
      some (if idx = 1 ∧ q % 1024 = 0 ∧ f % 1024 = 0 ∧ q + 1024 ≤ e then 1 else 0) := by
  have hsmall : vmmMapPick (w32 (f * 4096)) (q * 4096) (e * 4096) 0 = some 0 := by
    rw [vmmMapPick, show vmmPgsz 0 = 4096 from rfl, if_neg]
    unfold w32
    omega
  rcases Nat.le_one_iff_eq_zero_or_eq_one.mp hidx with rfl | rfl
  · rw [hsmall, if_neg fun h => absurd h.1 Nat.zero_ne_one]
  · rw [vmmMapPick, hsmall]
    have hfit : ¬ (e * 4096 < w32 (q * 4096 + 4194304) ∨ w32 (f * 4096) % 4194304 ≠ 0 ∨
        q * 4096 % 4194304 ≠ 0) ↔ 1 = 1 ∧ q % 1024 = 0 ∧ f % 1024 = 0 ∧ q + 1024 ≤ e := by
      have hw := hwrap rfl
      unfold w32
      omega
    rw [show vmmPgsz (0 + 1) = 4194304 from rfl]
    by_cases hbig : 1 = 1 ∧ q % 1024 = 0 ∧ f % 1024 = 0 ∧ q + 1024 ≤ e
    · rw [if_neg (hfit.mpr hbig), if_pos hbig]
    · rw [if_pos (not_not.mp fun h => hbig (hfit.mp h)), if_neg hbig]

theorem slotCost_le (s : Machine) (va : ℕ) : slotCost s va ≤ 2 := by
  unfold slotCost
  split_ifs <;> omega

/-- A page that was dealt with leaves a page table, and nothing to pay for in its slot. -/
theorem slotBudget_next {cost cost' : ℕ} (hq : q < e) (hc : cost ≤ 2) (hc' : (q + 1) % 1024 ≠ 0 → cost' = 0) :
    slotBudget cost' (q + 1) e + cost ≤ slotBudget cost q e := by
  unfold slotBudget
  split_ifs with h h'
  · omega
  · omega
  · rw [hc' h]
    omega
  · rw [hc' h]
    omega

/-- The rule of the loop of `vmm_map`, whatever VMM the pages are mapped in: what holds at page `p` and is carried on by a
small page and, at a common boundary of both addresses, by a 4 MiB page, holds at the end. -/
theorem vmmMapLoop_rule {vmm : ℕ} {I : ℕ → Machine → Prop} (hidx : idx ≤ 1) (he : e < 1048576)
    (hwrap : idx = 1 → q % 1024 = f % 1024 → e ≤ 1047552 ∨ 1047552 < q)
    (small : ∀ p t, q ≤ p → p < e → I p t → ∃ u,
      vmmPgmap K vmm (w32 ((f + (p - q)) * 4096)) (p * 4096) 0 flags t = some ((), u) ∧ I (p + 1) u)
    (huge : ∀ p t, q ≤ p → p + 1024 ≤ e → p % 1024 = 0 → (f + (p - q)) % 1024 = 0 → I p t → ∃ u,
      vmmPgmap K vmm (w32 ((f + (p - q)) * 4096)) (p * 4096) 1 flags t = some ((), u) ∧ I (p + 1024) u) (k : ℕ) :
    ∀ {fuel p : ℕ} {t : Machine}, q ≤ p → p + k = e → k < fuel → I p t → ∃ u,
      vmmMapLoop K vmm idx flags (e * 4096) fuel (w32 ((f + (p - q)) * 4096)) (p * 4096) t = some (e * 4096, u) ∧
        I e u := by
  induction k using Nat.strong_induction_on with
  | _ k ih =>
    intro fuel p t hqp hpe hfuel hI
    obtain ⟨fuel, rfl⟩ : ∃ n, fuel = n + 1 := ⟨fuel - 1, by omega⟩
    by_cases hp : p < e
    · rw [vmmMapLoop, if_pos (by omega), vmmMapPick_page hp he hidx (by omega)]
      dsimp only
      split_ifs with hbig
      · obtain ⟨-, hp0, hf0, hfit⟩ := hbig
        obtain ⟨u, hrun, hu⟩ := huge p t hqp hfit hp0 hf0 hI
        have hpa : w32 (w32 ((f + (p - q)) * 4096) + 4194304) = w32 ((f + (p + 1024 - q)) * 4096) := by
          unfold w32
          omega
        have hva : w32 (p * 4096 + 4194304) = (p + 1024) * 4096 := by
          unfold w32
          omega
        rw [Comp.bind_of_eq hrun, show vmmPgsz 1 = 4194304 from rfl, hpa, hva]
        exact ih (k - 1024) (by omega) (by omega) (by omega) (by omega) hu
      · obtain ⟨u, hrun, hu⟩ := small p t hqp hp hI
        have hpa : w32 (w32 ((f + (p - q)) * 4096) + 4096) = w32 ((f + (p + 1 - q)) * 4096) := by
          unfold w32
          omega
        have hva : w32 (p * 4096 + 4096) = (p + 1) * 4096 := by
          unfold w32
          omega
        rw [Comp.bind_of_eq hrun, show vmmPgsz 0 = 4096 from rfl, hpa, hva]
        exact ih (k - 1) (by omega) (by omega) (by omega) (by omega) hu
    · obtain rfl : p = e := by omega
      rw [vmmMapLoop, if_neg (Nat.lt_irrefl _)]
      exact ⟨t, rfl, hI⟩

/-- The loop of `vmm_map` has come from page `q` to page `p`. -/
structure MapProgress (D : Set ℕ) (s : Machine) (flags : Word) (q f e m p : ℕ) (t : Machine) : Prop where
  mapped : Mapped D s t flags {x | q ≤ x ∧ x < p} fun x => (f + (x - q)) % 1048576
  frames : FreeFrames t (slotBudget (slotCost t (p * 4096)) p e + m)

section Progress

variable {u : Machine} {p n : ℕ} {P : Set ℕ} {frame : ℕ → ℕ}

/-- The pages mapped so far, together with the next ones. -/
theorem Mapped.grow (h : Mapped D s t flags {x | q ≤ x ∧ x < p} fun x => (f + (x - q)) % 1048576)
    (hu : Mapped D t u flags P frame) (hqp : q ≤ p) (hP : ∀ x ∈ regular, p ≤ x ∧ x < p + n ↔ x ∈ P)
    (hframe : ∀ x ∈ P, frame x = (f + (x - q)) % 1048576) :
    Mapped D s u flags {x | q ≤ x ∧ x < p + n} fun x => (f + (x - q)) % 1048576 := by
  refine (h.trans (hu.congr (fun x _ => Iff.rfl) hframe)).congr (fun x hx => ?_) fun _ _ => rfl
  rw [Set.mem_union, ← hP x hx, Set.mem_ofPred_eq, Set.mem_ofPred_eq]
  omega

theorem MapProgress.small (h : MapProgress D s flags q f e m p t) (hK : K.Closed) (hqp : q ≤ p) (hp : p < e)
    (hreg : RegularRange q e) : ∃ u,
      vmmPgmap K s.vmmCurrent (w32 ((f + (p - q)) * 4096)) (p * 4096) 0 flags t = some ((), u) ∧
      MapProgress D s flags q f e m (p + 1) u := by
  have hframes := h.frames
  have hbudget : slotBudget 0 (p + 1) e + slotCost t (p * 4096) ≤ slotBudget (slotCost t (p * 4096)) p e :=
    slotBudget_next hp (slotCost_le t (p * 4096)) fun _ => rfl
  obtain ⟨u, hrun, hmapped, hfu, hslot⟩ := h.mapped.vmm.pgmapSmall hK (hreg p hqp hp)
    (n := slotBudget (slotCost t (p * 4096)) p e - slotCost t (p * 4096) + m) (hframes.mono (by omega))
    (w32 ((f + (p - q)) * 4096)) flags
  have hcost : (p + 1) % 1024 ≠ 0 → slotCost u ((p + 1) * 4096) = 0 := by
    intro hne
    rw [slotCost, page_slot, show (p + 1) / 1024 = p / 1024 by omega, if_pos hslot]
  rw [h.mapped.rest.vmmCurrent_eq] at hrun
  refine ⟨u, hrun, h.mapped.grow hmapped hqp (fun x _ => ?_) fun x hx => ?_, hfu.mono ?_⟩
  · rw [Set.mem_singleton_iff]
    omega
  · rw [Set.mem_singleton_iff] at hx
    unfold w32
    omega
  · have := slotBudget_next hp (slotCost_le t (p * 4096)) hcost
    omega

theorem MapProgress.huge (h : MapProgress D s flags q f e m p t) (hK : K.Closed) (hqp : q ≤ p) (hfit : p + 1024 ≤ e)
    (hp : p % 1024 = 0) (hf : (f + (p - q)) % 1024 = 0) (hreg : RegularRange q e) : ∃ u,
      vmmPgmap K s.vmmCurrent (w32 ((f + (p - q)) * 4096)) (p * 4096) 1 flags t = some ((), u) ∧
      MapProgress D s flags q f e m (p + 1024) u := by
  have hframes := h.frames
  have hbudget : slotBudget (slotCost t (p * 4096)) p e = 2 * ((e + 1023) / 1024 - (p / 1024 + 1)) + 2 := by
    unfold slotBudget
    rw [if_pos hp]
    omega
  rw [hbudget] at hframes
  obtain ⟨u, hrun, hmapped, hfu⟩ := h.mapped.vmm.pgmapHuge hK (hreg p hqp (by omega))
    (hframes.mono (show 2 * ((e + 1023) / 1024 - (p / 1024 + 1)) + m + 1 ≤ _ by omega)) (w32 ((f + (p - q)) * 4096))
    flags
  rw [h.mapped.rest.vmmCurrent_eq] at hrun
  refine ⟨u, hrun, h.mapped.grow hmapped hqp (fun x _ => ?_) fun x hx => ?_, hfu.mono ?_⟩
  · rw [Set.mem_ofPred_eq]
    omega
  · rw [Set.mem_ofPred_eq] at hx
    unfold w32
    omega
  · unfold slotBudget
    rw [if_pos (by omega)]
    omega

end Progress

theorem OwnVmm.mapLoop (h : OwnVmm D s) (hK : K.Closed) (hidx : idx ≤ 1) (he : e < 1048576) (hqe : q ≤ e)
    (hreg : RegularRange q e) (hwrap : idx = 1 → q % 1024 = f % 1024 → e ≤ 1047552 ∨ 1047552 < q) (flags : Word)
    (hf : FreeFrames s (slotBudget (slotCost s (q * 4096)) q e + m)) (fuel : ℕ) (hfuel : e - q < fuel) :
    ∃ t, vmmMapLoop K s.vmmCurrent idx flags (e * 4096) fuel (w32 (f * 4096)) (q * 4096) s = some (e * 4096, t) ∧
      Mapped D s t flags {p | q ≤ p ∧ p < e} (fun p => (f + (p - q)) % 1048576) ∧ FreeFrames t m := by
  have hstart : MapProgress D s flags q f e m q s := by
    refine ⟨.empty h _ _ fun x _ hx => ?_, hf⟩
    rw [Set.mem_ofPred_eq] at hx
    omega
  obtain ⟨t, hrun, ht⟩ := vmmMapLoop_rule hidx he hwrap (fun p t hqp hp ht => ht.small hK hqp hp hreg)
    (fun p t hqp hfit hp hf ht => ht.huge hK hqp hfit hp hf hreg) (e - q) (Nat.le_refl q) (by omega) hfuel hstart
  rw [Nat.sub_self, Nat.add_zero] at hrun
  exact ⟨t, hrun, ht.mapped, ht.frames.mono (Nat.le_add_left _ _)⟩

/-- The pages of `sz` bytes from the page of `va` on. -/
def pagesOf (va sz : ℕ) : Set ℕ := {p | va / 4096 ≤ p ∧ p < va / 4096 + pages sz}

/-- The addresses `[va, va + sz)` are outside of the recursive slot. -/
def OffSlotRange (va sz : ℕ) : Prop := va + sz ≤ rmapStart ∨ rmapEnd ≤ va

theorem OffSlotRange.regular {va sz : ℕ} (h : OffSlotRange va sz) (hva : va % 4096 = 0)
    (he : va / 4096 + pages sz ≤ 1048576) : RegularRange (va / 4096) (va / 4096 + pages sz) := by
  unfold OffSlotRange rmapStart rmapEnd at h
  unfold pages at he ⊢
  exact fun p hp hlt => ⟨by omega, by omega⟩

/-- The largest page size that `vmm_map` uses for `n` pages. -/
def mapIdx (idx n : ℕ) : ℕ := if idx = 0 ∨ n < 1024 then 0 else 1

theorem mapIdx_le (idx n : ℕ) : mapIdx idx n ≤ 1 := by
  unfold mapIdx
  split_ifs <;> omega

theorem roundUp_pages {sz : ℕ} (hn : pages sz < 1048576) :
    (if w32 sz % 4096 ≠ 0 then w32 (w32 sz + (4096 - w32 sz % 4096)) else w32 sz) = pages sz * 4096 := by
  unfold pages at hn ⊢
  unfold w32
  split_ifs <;> omega

theorem mapIdx_eq (idx n : ℕ) :
    (if (if vmmPgszNum ≤ idx then vmmPgszNum - 1 else idx) ≠ 0 ∧
      n * 4096 < vmmPgsz (if vmmPgszNum ≤ idx then vmmPgszNum - 1 else idx) then
        (if vmmPgszNum ≤ idx then vmmPgszNum - 1 else idx) - 1
      else if vmmPgszNum ≤ idx then vmmPgszNum - 1 else idx) = mapIdx idx n := by
  have hone : (if vmmPgszNum ≤ idx then vmmPgszNum - 1 else idx) = if idx = 0 then 0 else 1 := by
    unfold vmmPgszNum
    split_ifs <;> omega
  rw [hone, mapIdx]
  by_cases h0 : idx = 0
  · rw [if_pos h0, if_neg fun h => h.1 rfl, if_pos (.inl h0)]
  · rw [if_neg h0, show vmmPgsz 1 = 4194304 from rfl]
    split_ifs <;> omega

/-- `vmm_map` once it has found its offset `delta` and the `n` pages. -/
theorem vmmMap_eq {vmm pa va sz delta n : ℕ}
    (hdelta : (if va % 4096 ≠ 0 ∧ pa % 4096 < sub32 (pa % 4096) (va - va % 4096) then
      sub32 (pa % 4096) (va - va % 4096) else pa % 4096) = delta)
    (hn : (if w32 (sz + delta) % 4096 ≠ 0 then w32 (w32 (sz + delta) + (4096 - w32 (sz + delta) % 4096))
      else w32 (sz + delta)) = n * 4096) :
    vmmMap K vmm pa va sz idx flags = (do
      let v ← vmmMapLoop K vmm (mapIdx idx n) flags (w32 (va - va % 4096 + n * 4096)) loopFuel (pa - pa % 4096)
        (va - va % 4096)
      pure (w32 (sub32 v (n * 4096) + delta))) := by
  simp only [vmmMap]
  rw [hdelta, hn, mapIdx_eq]

theorem vmmMap_aligned {vmm pa va sz : ℕ} (hpa : pa % 4096 = 0) (hva : va % 4096 = 0) (hn : pages sz < 1048576) :
    vmmMap K vmm pa va sz idx flags = (do
      let v ← vmmMapLoop K vmm (mapIdx idx (pages sz)) flags (w32 (va + pages sz * 4096)) loopFuel pa va
      pure (w32 (sub32 v (pages sz * 4096)))) := by
  have hdelta : (if va % 4096 ≠ 0 ∧ pa % 4096 < sub32 (pa % 4096) (va - va % 4096) then
      sub32 (pa % 4096) (va - va % 4096) else pa % 4096) = 0 := by
    rw [if_neg fun h => h.1 hva, hpa]
  have hround := roundUp_pages hn
  rw [vmmMap_eq hdelta hround, hpa, hva]
  rfl

/-- The number of slots of `[q, e)`. -/
def rangeSlots (q e : ℕ) : ℕ := (e + 1023) / 1024 - q / 1024

theorem slotBudget_le {cost : ℕ} (hq : q ≤ e) (hc : cost ≤ 2) : slotBudget cost q e ≤ 2 * rangeSlots q e := by
  unfold slotBudget rangeSlots
  split_ifs <;> omega

theorem OwnVmm.map {pa va sz : ℕ} (h : OwnVmm D s) (hK : K.Closed) (hpa : pa % 4096 = 0) (hpa' : pa < 4294967296)
    (hva : va % 4096 = 0) (he : va / 4096 + pages sz < 1048576) (hoff : OffSlotRange va sz) (idx : ℕ)
    (hwrap : mapIdx idx (pages sz) = 1 → va / 4096 % 1024 = pa / 4096 % 1024 →
      va / 4096 + pages sz ≤ 1047552 ∨ 1047552 < va / 4096) (flags : Word)
    (hf : FreeFrames s (2 * rangeSlots (va / 4096) (va / 4096 + pages sz) + m)) :
    ∃ t, vmmMap K s.vmmCurrent pa va sz idx flags s = some (va, t) ∧
      Mapped D s t flags (pagesOf va sz) (fun p => (pa / 4096 + (p - va / 4096)) % 1048576) ∧ FreeFrames t m := by
  obtain ⟨fuel, hfuel⟩ : ∃ N, N = loopFuel := ⟨_, rfl⟩
  have hlt : pages sz < fuel := by
    rw [hfuel]
    unfold loopFuel
    omega
  have hbudget := slotBudget_le (Nat.le_add_right (va / 4096) (pages sz)) (slotCost_le s (va / 4096 * 4096))
  obtain ⟨t, hrun, hmapped, hft⟩ := h.mapLoop hK (mapIdx_le idx _) he (Nat.le_add_right _ _)
    (hoff.regular hva (Nat.le_of_lt he)) hwrap flags (hf.mono (Nat.add_le_add_right hbudget m)) fuel (by omega)
  have hfirst : w32 (pa / 4096 * 4096) = pa := by
    unfold w32
    omega
  have hend : w32 (va + pages sz * 4096) = (va / 4096 + pages sz) * 4096 := by
    unfold w32
    omega
  have hret : w32 (sub32 ((va / 4096 + pages sz) * 4096) (pages sz * 4096)) = va := by
    unfold sub32 w32
    omega
  rw [hfirst, show va / 4096 * 4096 = va by omega] at hrun
  refine ⟨t, ?_, hmapped, hft⟩
  rw [vmmMap_aligned hpa hva (by omega), hend, ← hfuel, Comp.bind_of_eq hrun, hret]
  rfl

/-! Unmapping: the loop tries both sizes in each pass. -/

theorem splitCost_le (s : Machine) (q : ℕ) : splitCost s q ≤ 2 := by
  unfold splitCost
  split_ifs <;> omega

theorem OwnVmm.unmapSmall_next (h : OwnVmm D s) (hs : Untrapped s (q / 1024)) (hK : K.Closed) (hq : q < e)
    (hreg : RegularRange q e) (hf : FreeFrames s (slotBudget (splitCost s q) q e + m)) :
    ∃ t, vmmPgunmap K s.vmmCurrent (q * 4096) 0 s = some ((), t) ∧ Unmapped D s t {q} ∧
      FreeFrames t (slotBudget (splitCost t (q + 1)) (q + 1) e + m) := by
  have hbudget : slotBudget 0 (q + 1) e + splitCost s q ≤ slotBudget (splitCost s q) q e :=
    slotBudget_next hq (splitCost_le s q) fun _ => rfl
  obtain ⟨t, hrun, hunmapped, hft, hslot⟩ := h.pgunmapSmall hs hK (hreg q (Nat.le_refl _) hq)
    (n := slotBudget (splitCost s q) q e - splitCost s q + m) (hf.mono (by omega))
  refine ⟨t, hrun, hunmapped, hft.mono ?_⟩
  have hcost : (q + 1) % 1024 ≠ 0 → splitCost t (q + 1) = 0 := by
    intro hne
    rw [splitCost, show (q + 1) / 1024 = q / 1024 by omega, hslot, if_neg Bool.false_ne_true]
  have := slotBudget_next hq (splitCost_le s q) hcost
  omega

/-- No page in the slots of `[q, e)` is marked as trapped. -/
def UntrappedRange (s : Machine) (q e : ℕ) : Prop := ∀ p, q ≤ p → p < e → Untrapped s (p / 1024)

/-- The loop of `vmm_unmap` never uses the last 4 MiB at once: there the address would wrap around. -/
def UnmapEnds (q e : ℕ) : Prop := e ≤ 1047552 ∨ (q + 1023) / 1024 % 2 = 0

/-- One pass of the loop of `vmm_unmap`. -/
theorem OwnVmm.unmapPass (h : OwnVmm D s) (hs : UntrappedRange s q e) (hK : K.Closed) (hq : q < e) (he : e < 1048576)
    (hreg : RegularRange q e) (hends : UnmapEnds q e) (hf : FreeFrames s (slotBudget (splitCost s q) q e + m)) (fuel : ℕ) :
    ∃ n t, 0 < n ∧ q + n ≤ e ∧ vmmUnmapLoop K s.vmmCurrent (e * 4096) (fuel + 1) (q * 4096) s =
        vmmUnmapLoop K s.vmmCurrent (e * 4096) fuel ((q + n) * 4096) t ∧
      Unmapped D s t {p | q ≤ p ∧ p < q + n} ∧
      FreeFrames t (slotBudget (splitCost t (q + n)) (q + n) e + m) ∧ UnmapEnds (q + n) e := by
  unfold UnmapEnds at hends ⊢
  have hstep : ∀ p < e, w32 (p * 4096 + 4096) = (p + 1) * 4096 := by
    intro p hp
    unfold w32
    omega
  rw [vmmUnmapLoop, if_pos (by omega)]
  dsimp only
  by_cases hbig : ¬ (e * 4096 < w32 (q * 4096 + 4194304) ∨ q * 4096 % 4194304 ≠ 0)
  · have hfit : q % 1024 = 0 ∧ q + 1024 ≤ e := by
      unfold w32 at hbig
      omega
    obtain ⟨hq0, hfit⟩ := hfit
    obtain ⟨t, hrun, hunmapped, hft⟩ := h.pgunmapHuge (K := K) (hs q (Nat.le_refl _) hq) (hreg q (Nat.le_refl _) hq) hf
    have hnext : w32 (q * 4096 + 4194304) = (q + 1024) * 4096 := by
      unfold w32
      omega
    have hbudget : slotBudget (splitCost t (q + 1024)) (q + 1024) e ≤ slotBudget (splitCost s q) q e := by
      unfold slotBudget
      rw [if_pos hq0, if_pos (show (q + 1024) % 1024 = 0 by omega)]
      omega
    have hslot : Unmapped D s t {p | q ≤ p ∧ p < q + 1024} := by
      refine hunmapped.congr fun p _ => ?_
      rw [Set.mem_ofPred_eq, Set.mem_ofPred_eq]
      omega
    rw [Comp.when_true hbig, Comp.bind_of_eq hrun, if_pos hbig, hnext]
    by_cases hmore : q + 1024 < e
    · have hsmall : ¬ (e * 4096 < w32 ((q + 1024) * 4096 + 4096) ∨ (q + 1024) * 4096 % 4096 ≠ 0) := by
        rw [hstep _ hmore]
        omega
      have hcur := hunmapped.rest.vmmCurrent_eq
      obtain ⟨u, hrun', hunmapped', hfu⟩ := hunmapped.vmm.unmapSmall_next
        (hunmapped.quiet _ (hs _ (Nat.le_add_right q 1024) hmore)) hK hmore (fun p hp => hreg p (by omega)) (hft.mono (Nat.add_le_add_right hbudget m))
      rw [hcur] at hrun'
      refine ⟨1025, u, by decide, hmore, ?_, (hslot.trans hunmapped').congr fun p _ => ?_, hfu, by omega⟩
      · rw [Comp.when_true hsmall, Comp.bind_of_eq hrun', if_pos hsmall, hstep _ hmore]
      · rw [Set.mem_union, Set.mem_ofPred_eq, Set.mem_ofPred_eq, Set.mem_singleton_iff]
        omega
    · have hsmall : ¬ ¬ (e * 4096 < w32 ((q + 1024) * 4096 + 4096) ∨ (q + 1024) * 4096 % 4096 ≠ 0) := by
        refine not_not.mpr (.inl ?_)
        unfold w32
        omega
      refine ⟨1024, t, by decide, hfit, ?_, hslot, hft.mono (Nat.add_le_add_right hbudget m), by omega⟩
      rw [Comp.when_false hsmall, Comp.pure_bind, if_neg hsmall]
  · rw [Comp.when_false hbig, Comp.pure_bind, if_neg hbig]
    have hsmall : ¬ (e * 4096 < w32 (q * 4096 + 4096) ∨ q * 4096 % 4096 ≠ 0) := by
      rw [hstep q hq]
      omega
    obtain ⟨t, hrun, hunmapped, hft⟩ := h.unmapSmall_next (hs q (Nat.le_refl _) hq) hK hq hreg hf
    refine ⟨1, t, by decide, hq, ?_, hunmapped.congr fun p _ => ?_, hft, ?_⟩
    · rw [Comp.when_true hsmall, Comp.bind_of_eq hrun, if_pos hsmall, hstep q hq]
    · rw [Set.mem_ofPred_eq, Set.mem_singleton_iff]
      omega
    · unfold w32 at hbig
      omega

theorem OwnVmm.unmapLoop (hK : K.Closed) (he : e < 1048576) (k : ℕ) :
    ∀ {fuel q : ℕ} {s : Machine}, OwnVmm D s → UntrappedRange s q e → q + k = e → k < fuel → RegularRange q e → UnmapEnds q e →
      FreeFrames s (slotBudget (splitCost s q) q e + m) →
      ∃ t, vmmUnmapLoop K s.vmmCurrent (e * 4096) fuel (q * 4096) s = some ((), t) ∧
        Unmapped D s t {p | q ≤ p ∧ p < e} ∧ FreeFrames t m := by
  induction k using Nat.strong_induction_on with
  | _ k ih =>
    intro fuel q s h hs hqe hfuel hreg hends hf
    obtain ⟨fuel, rfl⟩ : ∃ n, fuel = n + 1 := ⟨fuel - 1, by omega⟩
    by_cases hq : q < e
    · obtain ⟨n, t, hn, hfit, hrun, hunmapped, hft, hends'⟩ := h.unmapPass hs hK hq he hreg hends hf fuel
      have hcur := hunmapped.rest.vmmCurrent_eq
      obtain ⟨u, hrun', hunmapped', hfu⟩ := ih (k - n) (by omega) hunmapped.vmm
        (fun p hp hlt => hunmapped.quiet _ (hs p (Nat.le_trans (Nat.le_add_right q n) hp) hlt))
        (show q + n + (k - n) = e by omega) (show k - n < fuel by omega)
        (fun p hp => hreg p (Nat.le_trans (Nat.le_add_right q n) hp)) hends' hft
      rw [hcur] at hrun'
      refine ⟨u, hrun.trans hrun', (hunmapped.trans hunmapped').congr fun p _ => ?_, hfu⟩
      rw [Set.mem_union, Set.mem_ofPred_eq, Set.mem_ofPred_eq, Set.mem_ofPred_eq]
      omega
    · obtain rfl : q = e := by omega
      rw [vmmUnmapLoop, if_neg (Nat.lt_irrefl _)]
      refine ⟨s, rfl, .empty h fun p _ hp => ?_, hf.mono (Nat.le_add_left _ _)⟩
      rw [Set.mem_ofPred_eq] at hp
      omega

theorem vmmUnmap_aligned {vmm va sz : ℕ} (hva : va % 4096 = 0) (hn : pages sz < 1048576) :
    vmmUnmap K vmm va sz = vmmUnmapLoop K vmm (w32 (va + pages sz * 4096)) loopFuel va := by
  simp only [vmmUnmap]
  rw [hva, Nat.add_zero, roundUp_pages hn, Nat.sub_zero]

theorem OwnVmm.unmap {va sz : ℕ} (h : OwnVmm D s) (hs : UntrappedRange s (va / 4096) (va / 4096 + pages sz))
    (hK : K.Closed) (hva : va % 4096 = 0)
    (he : va / 4096 + pages sz < 1048576) (hoff : OffSlotRange va sz)
    (hends : UnmapEnds (va / 4096) (va / 4096 + pages sz))
    (hf : FreeFrames s (2 * rangeSlots (va / 4096) (va / 4096 + pages sz) + m)) :
    ∃ t, vmmUnmap K s.vmmCurrent va sz s = some ((), t) ∧ Unmapped D s t (pagesOf va sz) ∧ FreeFrames t m := by
  obtain ⟨fuel, hfuel⟩ : ∃ N, N = loopFuel := ⟨_, rfl⟩
  have hlt : pages sz < fuel := by
    rw [hfuel]
    unfold loopFuel
    omega
  have hbudget := slotBudget_le (Nat.le_add_right (va / 4096) (pages sz)) (splitCost_le s (va / 4096))
  have hend : w32 (va + pages sz * 4096) = (va / 4096 + pages sz) * 4096 := by
    unfold w32
    omega
  have hloop := OwnVmm.unmapLoop hK he (pages sz) h hs rfl hlt (hoff.regular hva (Nat.le_of_lt he)) hends
    (hf.mono (Nat.add_le_add_right hbudget m))
  rw [show va / 4096 * 4096 = va by omega] at hloop
  rw [vmmUnmap_aligned hva (by omega), hend, ← hfuel]
  exact hloop

end Loops

end SysX
