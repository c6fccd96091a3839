import SysX.FreeSpace

/-!
What the free-space search misses: the downward search goes on below the first mapped page of a block as if
the whole block had to be left out, and an alignment is divided by the number of pages and applied to jumps
only.
-/
namespace SysX
open Loop GapSearch

section Down

variable {K : Callees} {s : Machine} {vaStart vaEnd sz align : ℕ} {reverse : Bool}

/-- The starts that the search comes to, given the pages that are mapped. -/
def SearchTries (s : Machine) (vaStart vaEnd sz align : ℕ) (reverse : Bool) : ℕ → Prop :=
  GapSearch.Tried (PageFree s) (SearchInside (searchFirst vaStart) (vaEnd / 4096) (pages sz))
    (searchNext (align / pages sz) reverse) (pages sz) (searchOrigin vaStart vaEnd sz reverse)

/-- The search ends at the start `r`: it passes the loop condition and its block is unmapped. -/
def SearchStops (s : Machine) (vaStart vaEnd sz r : ℕ) : Prop :=
  SearchInside (searchFirst vaStart) (vaEnd / 4096) (pages sz) r ∧ Gap (PageFree s) (pages sz) r

/-- A start that wrapped around stays among the large numbers, one that did not only goes down. -/
theorem searchNext_down {a n r k stop : ℕ} (ha : a * n ≤ 4294963200) (hk : k < n) (hn : n ≤ 1048576)
    (hstop : stop ≤ 1048576) (hr : r < 4294967296) (hin : w32 (r + n) ≤ stop) :
    (1048576 < searchNext a true r k ∧ (r ≤ 1048576 ∨ searchNext a true r k < r)) ∨
      (r ≤ 1048576 ∧ searchNext a true r k < r) := by
  have hhigh : r ≤ 1048576 ∨ 4294967296 ≤ r + n := by
    unfold w32 at hin
    omega
  have hsub : ∀ x y, y ≤ x → x < 4294967296 → sub32 x y = x - y := by
    intro x y hy hx
    unfold sub32 w32
    omega
  have hval : sub32 r (k + 1) < 4294967296 := Nat.mod_lt _ (by decide)
  have hcase : (k + 1 ≤ r ∧ sub32 r (k + 1) = r - (k + 1)) ∨
      (r < k + 1 ∧ sub32 r (k + 1) = r + 4294967296 - (k + 1)) := by
    unfold sub32 w32
    omega
  unfold searchNext
  simp only [if_true]
  generalize hx : sub32 r (k + 1) = x at hval hcase
  have hmod : a ≠ 0 → x % a < a := fun h => Nat.mod_lt _ (Nat.pos_of_ne_zero h)
  have hle : x % a ≤ x := Nat.mod_le _ _
  have hbig : a * 2 ≤ 4294963200 ∨ n = 1 ∧ a ≤ 4294963200 := by
    by_cases hn1 : n = 1
    · rw [hn1, Nat.mul_one] at ha
      exact .inr ⟨hn1, ha⟩
    · exact .inl ((Nat.mul_le_mul_left a (by omega)).trans ha)
  have hback : a ≤ x → x % a ≤ x - a := by
    intro hax
    rw [Nat.mod_eq_sub_mod hax]
    exact Nat.mod_le _ _
  split_ifs with hc
  · rw [hsub x (x % a) hle hval]
    have := hmod hc.1
    omega
  · omega

/-- The downward search comes to an end. -/
theorem firstFree_returns_down (hsz : 0 < sz) (hsz' : sz ≤ 4294963200) (hend : vaEnd < 4294967296)
    (halign : align ≤ 4294963200) :
    ∃ o, Returns (firstFreePass s vaStart vaEnd sz align true)
      (searchOrigin vaStart vaEnd sz true, 0) o := by
  have ha : align / pages sz * pages sz ≤ 4294963200 := (Nat.div_mul_le_self _ _).trans halign
  refine exists_returns (pages_pos hsz) (fun r => r < 4294967296)
    (fun r => if r ≤ 1048576 then r + 4294967296 else r) (fun r k hr hin hk _ => ?_) ?_
  · refine ⟨searchNext_lt r k, ?_⟩
    have hlt : searchNext (align / pages sz) true r k < 4294967296 := searchNext_lt r k
    have hstop : vaEnd / 4096 ≤ 1048576 := by omega
    have hdown := searchNext_down ha hk.lt (pages_lt hsz').le hstop hr hin.2
    split_ifs <;> omega
  · have horigin : searchOrigin vaStart vaEnd sz true = sub32 (vaEnd / 4096) (pages sz) := rfl
    rw [horigin]
    exact Nat.mod_lt _ (by decide)

/-- In both directions the search comes to an end, with the start that it stops at or with none. -/
theorem vmmFirstFree_stops (hw : Walkable s) (hsz : 0 < sz) (hsz' : sz ≤ 4294963200)
    (hend : vaEnd < 4294967296) (halign : align ≤ 4294963200) :
    ∃ o, vmmFirstFree K s.vmmCurrent vaStart vaEnd sz align reverse s = some (searchAddr o, s) ∧
      (∀ g, o = some g ↔ SearchTries s vaStart vaEnd sz align reverse g ∧
        SearchStops s vaStart vaEnd sz g) ∧
      (o = none ↔ ∀ g, SearchTries s vaStart vaEnd sz align reverse g →
        ¬ SearchStops s vaStart vaEnd sz g) := by
  have hn := pages_pos hsz
  obtain ⟨o, ho⟩ : ∃ o, Returns (firstFreePass s vaStart vaEnd sz align reverse)
      (searchOrigin vaStart vaEnd sz reverse, 0) o := by
    cases reverse with
    | false => exact firstFree_returns_up hsz hsz' hend halign
    | true => exact firstFree_returns_down hsz hsz' hend halign
  refine ⟨o, vmmFirstFree_of_returns hw hsz hsz' ho, fun g => returns_some_iff hn ho, ?_⟩
  refine (returns_none_iff hn ho).trans ⟨fun h g htry hstop => h g htry hstop.1 hstop.2, fun h g htry hin hgap =>
    h g htry ⟨hin, hgap⟩⟩

/-- A start at which the search stops is a page of the address space, or it has wrapped around; then the block
does not end below `va_end`. -/
theorem SearchStops.cases {g : ℕ} (h : SearchStops s vaStart vaEnd sz g) (hsz' : sz ≤ 4294963200)
    (hend : vaEnd < 4294967296) (hg : g < 4294967296) :
    (g + pages sz ≤ vaEnd / 4096 ∧ searchAddr (some g) = g * 4096) ∨
      (searchAddr (some g) ≠ 0 ∧ ¬ Vacant s vaStart vaEnd sz (searchAddr (some g))) := by
  have hn := pages_lt hsz'
  have hin := h.1.2
  by_cases hwrap : g + pages sz < 4294967296
  · rw [w32_of_lt hwrap] at hin
    exact .inl ⟨hin, w32_of_lt (by omega)⟩
  · have haddr : searchAddr (some g) = (g - 4293918720) * 4096 := by
      unfold searchAddr w32
      dsimp only
      omega
    refine .inr ⟨by rw [haddr]; omega, fun hv => ?_⟩
    have hupper := hv.upper
    rw [haddr] at hupper
    omega

theorem searchTries_lt {r : ℕ} (h : SearchTries s vaStart vaEnd sz align reverse r) :
    r < 4294967296 := by
  refine GapSearch.Tried.keeps (I := fun r => r < 4294967296) h ?_ fun r k _ _ _ => searchNext_lt r k
  have hfirst := searchFirst_lt vaStart
  have hsub : sub32 (vaEnd / 4096) (pages sz) < 4294967296 := Nat.mod_lt _ (by decide)
  unfold searchOrigin
  split_ifs
  · exact hsub
  · omega

/-! The downward search. -/

/-- The downward search finds the greatest vacant address, and returns 0 exactly when there is none. -/
def FindsGreatest (K : Callees) (s : Machine) (vaStart vaEnd sz : ℕ) : Prop :=
  ∃ a, vmmFirstFree K s.vmmCurrent vaStart vaEnd sz 0 true s = some (a, s) ∧
    (a = 0 ↔ ∀ v, ¬ Vacant s vaStart vaEnd sz v) ∧
    (a ≠ 0 → IsGreatest {v | Vacant s vaStart vaEnd sz v} a)

/-- It does so if and only if the greatest vacant address is among the starts that are tried or, where there is
none, no start that is tried, wrapped around or not, has a block of unmapped pages. -/
theorem first_free_greatest_iff (K : Callees) (hw : Walkable s) (hstart : vaStart ≤ 4294963200)
    (hend : vaEnd < 4294967296) (hsz : 0 < sz) (hsz' : sz ≤ 4294963200) :
    FindsGreatest K s vaStart vaEnd sz ↔
      (∃ r, SearchTries s vaStart vaEnd sz 0 true r ∧
        IsGreatest {v | Vacant s vaStart vaEnd sz v} (r * 4096)) ∨
      ((∀ v, ¬ Vacant s vaStart vaEnd sz v) ∧
        ∀ r, SearchTries s vaStart vaEnd sz 0 true r → ¬ SearchStops s vaStart vaEnd sz r) := by
  have hfirst := searchFirst_eq hstart
  have hn := pages_lt hsz'
  obtain ⟨o, hrun, hsome, hnone⟩ :=
    @vmmFirstFree_stops K s vaStart vaEnd sz 0 true hw hsz hsz' hend (by decide)
  constructor
  · intro ⟨a, hrun', hzero, hgreatest⟩
    cases hrun.symm.trans hrun'
    cases o with
    | none => exact .inr ⟨hzero.mp rfl, hnone.mp rfl⟩
    | some g =>
      obtain ⟨htry, hstop⟩ := (hsome g).mp rfl
      rcases hstop.cases hsz' hend (searchTries_lt htry) with ⟨-, haddr⟩ | ⟨hne, hnot⟩
      · have hpos : 0 < g := by
          have := hstop.1.1
          omega
        rw [haddr] at hgreatest
        exact .inl ⟨g, htry, hgreatest (by omega)⟩
      · exact absurd (hgreatest hne).1 hnot
  · rintro (⟨r, htry, hgreatest⟩ | ⟨hno, hstops⟩)
    · have hvacant : Vacant s vaStart vaEnd sz (r * 4096) := hgreatest.1
      obtain ⟨hpos, hlower, hupper, hgap⟩ := (vacant_mul_iff hend).mp hvacant
      have hin : SearchInside (searchFirst vaStart) (vaEnd / 4096) (pages sz) r := by
        refine ⟨by omega, ?_⟩
        rwa [w32_of_lt (by omega)]
      obtain rfl := (hsome r).mpr ⟨htry, hin, hgap⟩
      have haddr : searchAddr (some r) = r * 4096 := w32_of_lt (by omega)
      rw [haddr] at hrun
      refine ⟨_, hrun, ⟨fun h0 => by omega, fun hno => absurd hvacant (hno _)⟩, fun _ => hgreatest⟩
    · obtain rfl := hnone.mpr hstops
      exact ⟨_, hrun, ⟨fun _ => hno, fun _ => rfl⟩, fun h => absurd rfl h⟩

/-- Page 2 of the sample, the last of its range. -/
theorem first_free_greatest_sample : FindsGreatest (callees 0) freeSpaceSample 0 0x3000 0x1000 := by
  have horigin : searchOrigin 0 0x3000 0x1000 true = 2 := by decide
  have htry : SearchTries freeSpaceSample 0 0x3000 0x1000 0 true 2 := by
    unfold SearchTries
    rw [horigin]
    exact .first
  refine (first_free_greatest_iff (callees 0) freeSpaceSample_walkable (by decide) (by decide) (by decide)
    (by decide)).mpr (.inl ⟨2, htry, ⟨by decide, by decide, by decide, ?_⟩, fun v hv => ?_⟩)
  · intro k hk
    have hpages : pages 0x1000 = 1 := by decide
    obtain rfl : k = 0 := by omega
    decide
  · have hvacant : Vacant freeSpaceSample 0 0x3000 0x1000 v := hv
    have hupper : v + 1 * 4096 ≤ 12288 := hvacant.upper
    have hle : v ≤ 8192 := by omega
    exact hle

/-- Of the three pages below the mapped second 4 MiB, the downward search leaves out two. -/
theorem first_free_skips_gap : ¬ ∀ (s : Machine) (vaStart vaEnd sz : ℕ), Walkable s → vaStart ≤ 4294963200 →
    vaEnd < 4294967296 → 0 < sz → sz ≤ 4294963200 → FindsGreatest (callees 0) s vaStart vaEnd sz := by
  intro h
  obtain ⟨a, hrun, -, hgreatest⟩ := h freeSpaceSample 0 0x401000 0x3000 freeSpaceSample_walkable (by decide)
    (by decide) (by decide) (by decide)
  have hval : (vmmFirstFree (callees 0) freeSpaceSample.vmmCurrent 0 0x401000 0x3000 0 true
      freeSpaceSample).map Prod.fst = some 0x3FB000 := by decide +kernel
  rw [hrun] at hval
  obtain rfl : a = 0x3FB000 := Option.some.inj hval
  have hvacant : Vacant freeSpaceSample 0 0x401000 0x3000 0x3FD000 := by
    refine ⟨by decide, by decide, by decide, fun k hk => ?_⟩
    have hpages : pages 0x3000 = 3 := by decide
    obtain rfl | rfl | rfl : k = 0 ∨ k = 1 ∨ k = 2 := by omega
    all_goals decide
  have hle := (hgreatest (by decide)).2 hvacant
  omega

/-! An alignment. -/

/-- A result is vacant and a multiple of `align`, and there is a result where such an address exists. -/
def FindsAligned (K : Callees) (s : Machine) (vaStart vaEnd sz align : ℕ) (reverse : Bool) : Prop :=
  ∃ a, vmmFirstFree K s.vmmCurrent vaStart vaEnd sz align reverse s = some (a, s) ∧
    (a ≠ 0 → Vacant s vaStart vaEnd sz a ∧ align ∣ a) ∧
    ((∃ v, Vacant s vaStart vaEnd sz v ∧ align ∣ v) → a ≠ 0)

theorem vmmFirstFree_no_pages (hsz' : 4294963200 < sz) (hlt : sz < 4294967296) (t : Machine) :
    vmmFirstFree K s.vmmCurrent vaStart vaEnd sz align reverse t = none := by
  have hn : w32 (sz + 4095) / 4096 = 0 := by
    unfold w32
    omega
  unfold vmmFirstFree
  simp only [hn, if_true]
  rfl

end Down
end SysX
