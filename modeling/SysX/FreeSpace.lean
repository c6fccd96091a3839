import SysX.Current
import SysX.Lib.GapSearch
import Mathlib.Data.Finset.Prod
import Mathlib.Order.Bounds.Defs

/-!
The free-space search of `vmm_first_free` on the current VMM, as a search for gaps among its pages.
-/
namespace SysX
open Loop GapSearch

/-- The number of pages that `sz` bytes take. -/
def pages (sz : ℕ) : ℕ := (sz + 4095) / 4096

/-- The search probes the page number `q` modulo the number of pages. -/
def PageFree (s : Machine) (q : ℕ) : Prop := view s.mem s.cr3 (q % 1048576) = none

instance (s : Machine) : DecidablePred (PageFree s) := fun _ => inferInstanceAs (Decidable (_ = none))

/-- `result >= va_start && result + sz <= va_end` -/
def SearchInside (start stop n r : ℕ) : Prop := start ≤ r ∧ w32 (r + n) ≤ stop

instance (start stop n : ℕ) : DecidablePred (SearchInside start stop n) :=
  fun _ => inferInstanceAs (Decidable (_ ∧ _))

/-- Where the search goes on when the page `blk` of the block from `result` on is mapped. -/
def searchNext (align : ℕ) (reverse : Bool) (result blk : ℕ) : ℕ :=
  let result := if reverse then sub32 result (blk + 1) else w32 (result + (blk + 1))
  if align ≠ 0 ∧ result % align ≠ 0 then
    if reverse then sub32 result (result % align) else w32 (result + (align - result % align))
  else result

/-- `result * pgsz`, or 0 for no block. -/
def searchAddr : Option ℕ → ℕ
  | none => 0
  | some r => w32 (r * 4096)

/-- The passes of the search for `n` pages. -/
abbrev searchPass (s : Machine) (start stop n align : ℕ) (reverse : Bool) :
    ℕ × ℕ → (ℕ × ℕ) ⊕ Option ℕ :=
  step (PageFree s) (SearchInside start stop n) (searchNext align reverse) n

section Loop

variable {K : Callees} {s : Machine} {start stop n align : ℕ} {reverse : Bool}

theorem vmmFirstFreeLoop_eq_run (hw : Walkable s) (hn : n ≤ 1048576) (fuel : ℕ) :
    ∀ result blk, blk < n → vmmFirstFreeLoop K s.vmmCurrent start stop n align reverse fuel result blk s =
      (run (searchPass s start stop n align reverse) fuel (result, blk)).map fun o => (searchAddr o, s) := by
  induction fuel with
  | zero => exact fun _ _ _ => rfl
  | succ fuel ih =>
    intro result blk hblk
    have hpage : w32 (w32 (result + blk) * 4096) / 4096 = (result + blk) % 1048576 := by
      unfold w32
      omega
    have hlt : w32 (w32 (result + blk) * 4096) < 4294967296 := Nat.mod_lt _ (by decide)
    have hpg := hw.vmmGetPgsz (K := K) hlt
    have hblk' : w32 (blk + 1) = blk + 1 := w32_of_lt (by omega)
    rw [hpage] at hpg
    have hstep : searchPass s start stop n align reverse (result, blk) =
        if SearchInside start stop n result then
          if PageFree s (result + blk) then
            if blk + 1 = n then .inr (some result) else .inl (result, blk + 1)
          else .inl (searchNext align reverse result blk, 0)
        else .inr none := rfl
    rw [vmmFirstFreeLoop, run, hstep]
    by_cases hin : SearchInside start stop n result
    · have hcond : start ≤ result ∧ w32 (result + n) ≤ stop := hin
      rw [if_pos hcond, if_pos hin, Comp.bind_of_eq hpg, hblk']
      by_cases hfree : PageFree s (result + blk)
      · have hnone := pgszAt_eq_none.mpr hfree
        rw [if_neg (not_not.mpr hnone), if_pos hfree]
        by_cases hdone : blk + 1 = n
        · rw [if_pos hdone, if_pos hdone]
          rfl
        · rw [if_neg hdone, if_neg hdone]
          exact ih result (blk + 1) (by omega)
      · have hsome : pgszAt s.mem s.cr3 ((result + blk) % 1048576) ≠ none :=
          fun h => hfree (pgszAt_eq_none.mp h)
        rw [if_pos hsome, if_neg hfree]
        exact ih _ 0 (by omega)
    · have hcond : ¬ (start ≤ result ∧ w32 (result + n) ≤ stop) := hin
      rw [if_neg hcond, if_neg hin]
      rfl

theorem searchNext_lt (r k : ℕ) : searchNext align reverse r k < 4294967296 := by
  have hw : ∀ a, w32 a < 4294967296 := fun a => Nat.mod_lt a (by decide)
  unfold searchNext sub32
  dsimp only
  split_ifs <;> exact hw _

/-- All states of the search are pairs of 32-bit numbers. -/
theorem searchPass_bounded (hn : n < 4294967296) {x y : ℕ × ℕ} (hx : x.1 < 4294967296) (hk : x.2 < n)
    (h : Reaches (searchPass s start stop n align reverse) x y) :
    y.1 < 4294967296 ∧ y.2 < n := by
  induction h with
  | refl => exact ⟨hx, hk⟩
  | @tail y z _ hs ih =>
    unfold searchPass step at hs
    split_ifs at hs with hin hcell hlast
    · cases hs
      exact ⟨ih.1, by have := ih.2; dsimp only; omega⟩
    · cases hs
      exact ⟨searchNext_lt _ _, by dsimp only; omega⟩

/-- The fuel is enough for a search that comes to an end. -/
theorem vmmFirstFreeLoop_of_returns (hw : Walkable s) (hn : 0 < n) (hn' : n ≤ 1048576) {r : ℕ}
    (hr : r < 4294967296) {o : Option ℕ}
    (h : Returns (searchPass s start stop n align reverse) (r, 0) o) :
    vmmFirstFreeLoop K s.vmmCurrent start stop n align reverse (loopFuel * loopFuel) r 0 s =
      some (searchAddr o, s) := by
  obtain ⟨N, hN⟩ : ∃ N, N = loopFuel := ⟨_, rfl⟩
  have hfuel : 4294967296 ≤ N := by
    rw [hN]
    exact Nat.le_refl _
  have hrun := h.run_card (A := Finset.range N ×ˢ Finset.range N) fun y hy => by
    obtain ⟨h1, h2⟩ := searchPass_bounded (by omega) hr hn hy
    rw [Finset.mem_product, Finset.mem_range, Finset.mem_range]
    exact ⟨h1.trans_le hfuel, by omega⟩
  rw [Finset.card_product, Finset.card_range, hN] at hrun
  rw [vmmFirstFreeLoop_eq_run hw hn' _ r 0 hn, hrun]
  rfl

end Loop

/-- The first page of a search: page 0 is left out. -/
def searchFirst (vaStart : ℕ) : ℕ := if vaStart = 0 then 1 else w32 (vaStart + 4095) / 4096

/-- The start that is tried first. -/
def searchOrigin (vaStart vaEnd sz : ℕ) (reverse : Bool) : ℕ :=
  if reverse then sub32 (vaEnd / 4096) (pages sz) else searchFirst vaStart

/-- What the search of `vmm_first_free` goes through. -/
abbrev firstFreePass (s : Machine) (vaStart vaEnd sz align : ℕ) (reverse : Bool) :
    ℕ × ℕ → (ℕ × ℕ) ⊕ Option ℕ :=
  searchPass s (searchFirst vaStart) (vaEnd / 4096) (pages sz) (align / pages sz) reverse

section Search

variable {K : Callees} {s : Machine} {vaStart vaEnd sz align : ℕ} {reverse : Bool}

theorem pages_pos (h : 0 < sz) : 0 < pages sz := by
  unfold pages
  omega

theorem pages_lt (h : sz ≤ 4294963200) : pages sz < 1048576 := by
  unfold pages
  omega

theorem searchFirst_lt (vaStart : ℕ) : searchFirst vaStart < 1048576 := by
  unfold searchFirst w32
  split_ifs <;> omega

theorem vmmFirstFree_of_returns (hw : Walkable s) (hsz : 0 < sz) (hsz' : sz ≤ 4294963200) {o : Option ℕ}
    (h : Returns (firstFreePass s vaStart vaEnd sz align reverse)
      (searchOrigin vaStart vaEnd sz reverse, 0) o) :
    vmmFirstFree K s.vmmCurrent vaStart vaEnd sz align reverse s = some (searchAddr o, s) := by
  have hn : w32 (sz + 4095) / 4096 = pages sz := by
    rw [w32_of_lt (by omega)]
    rfl
  have horigin : searchOrigin vaStart vaEnd sz reverse < 4294967296 := by
    have := searchFirst_lt vaStart
    unfold searchOrigin sub32 w32
    split_ifs <;> omega
  have hrun := vmmFirstFreeLoop_of_returns (K := K) hw (pages_pos hsz) (pages_lt hsz').le horigin h
  have hn0 : pages sz ≠ 0 := Nat.ne_of_gt (pages_pos hsz)
  unfold vmmFirstFree
  simp only [hn, if_neg hn0]
  exact hrun

theorem searchNext_up {a n r k : ℕ} (ha : a * n ≤ 4294963200) (hr : r + n ≤ 1048576) (hk : k < n) :
    r < searchNext a false r k ∧ searchNext a false r k + n < 4294967296 := by
  have hr' : w32 (r + (k + 1)) = r + (k + 1) := w32_of_lt (by omega)
  unfold searchNext
  simp only [Bool.false_eq_true, if_false, hr']
  split_ifs with hc
  · have hmod : (r + (k + 1)) % a < a := Nat.mod_lt _ (Nat.pos_of_ne_zero hc.1)
    by_cases hn : n = 1
    · rw [hn, Nat.mul_one] at ha
      by_cases hlt : r + (k + 1) < a
      · rw [Nat.mod_eq_of_lt hlt, w32_of_lt (by omega)]
        omega
      · rw [w32_of_lt (by omega)]
        omega
    · have : a * 2 ≤ a * n := Nat.mul_le_mul_left a (by omega)
      rw [w32_of_lt (by omega)]
      omega
  · omega

/-- The forward search comes to an end. -/
theorem firstFree_returns_up (hsz : 0 < sz) (hsz' : sz ≤ 4294963200) (hend : vaEnd < 4294967296)
    (halign : align ≤ 4294963200) :
    ∃ o, Returns (firstFreePass s vaStart vaEnd sz align false)
      (searchOrigin vaStart vaEnd sz false, 0) o := by
  have hn' := pages_lt hsz'
  have ha : align / pages sz * pages sz ≤ 4294963200 := (Nat.div_mul_le_self _ _).trans halign
  refine exists_returns (pages_pos hsz) (fun r => r + pages sz < 4294967296) (fun r => 4294967296 - r)
    (fun r k hr hin hk _ => ?_) ?_
  · have hlow : r + pages sz ≤ vaEnd / 4096 := by
      have := hin.2
      rwa [w32_of_lt hr] at this
    have hlow' : r + pages sz ≤ 1048576 := by omega
    obtain ⟨hlt, hup⟩ := searchNext_up ha hlow' hk.lt
    exact ⟨hup, by omega⟩
  · have := searchFirst_lt vaStart
    unfold searchOrigin
    simp only [Bool.false_eq_true, if_false]
    omega

/-! Going up without an alignment. -/

/-- An address at which the caller may map `sz` bytes: not on page 0, with its pages unmapped and inside
the range. -/
structure Vacant (s : Machine) (vaStart vaEnd sz v : ℕ) : Prop where
  aligned : v % 4096 = 0
  lower : max 4096 ((vaStart + 4095) / 4096 * 4096) ≤ v
  upper : v + pages sz * 4096 ≤ vaEnd / 4096 * 4096
  unmapped : ∀ k < pages sz, view s.mem s.cr3 (v / 4096 + k) = none

theorem searchFirst_eq (h : vaStart ≤ 4294963200) :
    searchFirst vaStart * 4096 = max 4096 ((vaStart + 4095) / 4096 * 4096) := by
  unfold searchFirst
  split_ifs with h0
  · rw [h0]
    rfl
  · rw [w32_of_lt (by omega)]
    omega

theorem vacant_mul_iff (hend : vaEnd < 4294967296) {r : ℕ} :
    Vacant s vaStart vaEnd sz (r * 4096) ↔ 0 < r ∧ vaStart ≤ r * 4096 ∧ r + pages sz ≤ vaEnd / 4096 ∧
      Gap (PageFree s) (pages sz) r := by
  have hpage : ∀ k < pages sz, r + pages sz ≤ vaEnd / 4096 →
      (PageFree s (r + k) ↔ view s.mem s.cr3 (r * 4096 / 4096 + k) = none) := by
    intro k hk hr
    rw [PageFree, Nat.mod_eq_of_lt (by omega), page_div]
  constructor
  · intro h
    have hlower := h.lower
    have hupper := h.upper
    exact ⟨by omega, by omega, by omega, fun k hk => (hpage k hk (by omega)).mpr (h.unmapped k hk)⟩
  · intro ⟨hpos, hlower, hupper, hgap⟩
    exact ⟨by omega, by omega, by omega, fun k hk => (hpage k hk hupper).mp (hgap k hk)⟩

theorem Vacant.eq_mul {v : ℕ} (h : Vacant s vaStart vaEnd sz v) : v = v / 4096 * 4096 := by
  have := h.aligned
  omega

/-- A start inside the range whose block is a gap is the page of a vacant address. -/
theorem vacant_iff (hstart : vaStart ≤ 4294963200) (hend : vaEnd < 4294967296) {v : ℕ} :
    Vacant s vaStart vaEnd sz v ↔ ∃ r, v = r * 4096 ∧ searchFirst vaStart ≤ r ∧
      r + pages sz ≤ vaEnd / 4096 ∧ Gap (PageFree s) (pages sz) r := by
  have hfirst := searchFirst_eq hstart
  constructor
  · intro h
    have hv := h.eq_mul
    rw [hv] at h
    obtain ⟨hpos, hlower, hupper, hgap⟩ := (vacant_mul_iff hend).mp h
    exact ⟨v / 4096, hv, by omega, hupper, hgap⟩
  · rintro ⟨r, rfl, hlower, hupper, hgap⟩
    exact (vacant_mul_iff hend).mpr ⟨by omega, by omega, hupper, hgap⟩

/-- The starts that a forward search without an alignment tries do not wrap around. -/
theorem tried_up (hsz' : sz ≤ 4294963200) (hend : vaEnd < 4294967296) {r : ℕ}
    (h : GapSearch.Tried (PageFree s) (SearchInside (searchFirst vaStart) (vaEnd / 4096) (pages sz))
      (searchNext (0 / pages sz) false) (pages sz) (searchFirst vaStart) r) :
    r + pages sz < 4294967296 ∧ ∀ k, SearchInside (searchFirst vaStart) (vaEnd / 4096) (pages sz) r →
      k < pages sz → searchNext (0 / pages sz) false r k = r + (k + 1) := by
  have hn' := pages_lt hsz'
  have hnext : ∀ r k, r + pages sz < 4294967296 →
      SearchInside (searchFirst vaStart) (vaEnd / 4096) (pages sz) r → k < pages sz →
      searchNext (0 / pages sz) false r k = r + (k + 1) := by
    intro r k hr hin hk
    have hlow := hin.2
    rw [w32_of_lt hr] at hlow
    unfold searchNext
    simp only [Bool.false_eq_true, if_false, Nat.zero_div, ne_eq, not_true, false_and]
    exact w32_of_lt (by omega)
  have hr : r + pages sz < 4294967296 := by
    refine h.keeps (I := fun r => r + pages sz < 4294967296) ?_ fun r k hr hin hk => ?_
    · have := searchFirst_lt vaStart
      omega
    · have hlow := hin.2
      have hlt := hk.lt
      rw [w32_of_lt hr] at hlow
      rw [hnext r k hr hin hk.lt]
      omega
  exact ⟨hr, fun k => hnext r k hr⟩

/-- A start in the range at which a forward search ends is the least one. -/
theorem vmmFirstFree_up (hw : Walkable s) (hstart : vaStart ≤ 4294963200) (hend : vaEnd < 4294967296)
    (hsz : 0 < sz) (hsz' : sz ≤ 4294963200) :
    ∃ a, vmmFirstFree K s.vmmCurrent vaStart vaEnd sz 0 false s = some (a, s) ∧
      ((a = 0 ∧ ∀ v, ¬ Vacant s vaStart vaEnd sz v) ∨ IsLeast {v | Vacant s vaStart vaEnd sz v} a) := by
  have hn := pages_pos hsz
  have horigin : searchOrigin vaStart vaEnd sz false = searchFirst vaStart := rfl
  obtain ⟨o, ho⟩ : ∃ o, Returns (firstFreePass s vaStart vaEnd sz 0 false) (searchOrigin vaStart vaEnd sz false, 0) o :=
    firstFree_returns_up hsz hsz' hend (by decide)
  refine ⟨_, vmmFirstFree_of_returns hw hsz hsz' ho, ?_⟩
  rw [horigin] at ho
  have below : ∀ r, GapSearch.Tried (PageFree s) (SearchInside (searchFirst vaStart) (vaEnd / 4096) (pages sz))
      (searchNext (0 / pages sz) false) (pages sz) (searchFirst vaStart) r →
      searchFirst vaStart ≤ r ∧ ∀ m, searchFirst vaStart ≤ m → m < r → ¬ Gap (PageFree s) (pages sz) m :=
    fun r hr => hr.no_gap_below fun r k hr hin hk => (tried_up hsz' hend hr).2 k hin hk.lt
  cases o with
  | none =>
    obtain ⟨e, htry, hout⟩ := returns_none_outside hn ho
    have hwrap := (tried_up hsz' hend htry).1
    refine .inl ⟨rfl, fun v hv => ?_⟩
    obtain ⟨r, -, hlower, hupper, hgap⟩ := (vacant_iff hstart hend).mp hv
    refine (below e htry).2 r hlower ?_ hgap
    by_contra hge
    refine hout ⟨(below e htry).1, ?_⟩
    rw [w32_of_lt hwrap]
    omega
  | some g =>
    obtain ⟨htry, hin, hgap⟩ := (returns_some_iff hn ho).mp rfl
    have hwrap := (tried_up hsz' hend htry).1
    have hupper : g + pages sz ≤ vaEnd / 4096 := by
      have := hin.2
      rwa [w32_of_lt hwrap] at this
    have haddr : searchAddr (some g) = g * 4096 := w32_of_lt (by omega)
    rw [haddr]
    refine .inr ⟨(vacant_iff hstart hend).mpr ⟨g, rfl, hin.1, hupper, hgap⟩, fun v hv => ?_⟩
    obtain ⟨r, rfl, hlower, -, hr⟩ := (vacant_iff hstart hend).mp hv
    have hle : g ≤ r := by
      by_contra hlt
      exact (below g htry).2 r hlower (by omega) hr
    exact Nat.mul_le_mul_right 4096 hle

/-- The forward search finds the least vacant address, and returns 0 exactly when there is none. -/
theorem first_free_least (K : Callees) (hw : Walkable s) (hstart : vaStart ≤ 4294963200)
    (hend : vaEnd < 4294967296) (hsz : 0 < sz) (hsz' : sz ≤ 4294963200) :
    ∃ a, vmmFirstFree K s.vmmCurrent vaStart vaEnd sz 0 false s = some (a, s) ∧
      (a = 0 ↔ ∀ v, ¬ Vacant s vaStart vaEnd sz v) ∧
      (a ≠ 0 → IsLeast {v | Vacant s vaStart vaEnd sz v} a) := by
  obtain ⟨a, hrun, hres⟩ := vmmFirstFree_up (K := K) hw hstart hend hsz hsz'
  refine ⟨a, hrun, ?_⟩
  rcases hres with ⟨rfl, hnone⟩ | hleast
  · exact ⟨⟨fun _ => hnone, fun _ => rfl⟩, fun h => absurd rfl h⟩
  · have hpos : a ≠ 0 := by
      have hvacant : Vacant s vaStart vaEnd sz a := hleast.1
      have hlower := hvacant.lower
      omega
    exact ⟨⟨fun h => absurd h hpos, fun hnone => absurd hleast.1 (hnone a)⟩, fun _ => hleast⟩

end Search

/-- A VMM that maps page 1 and the second 4 MiB. -/
def freeSpaceSample : Machine := { (default : Machine) with
  mem := fun f i =>
    match f, i with
    | 1, 0 => 0x2003#32
    | 1, 1 => 0x400083#32
    | 1, 767 => 0x1003#32
    | 2, 1 => 0x5003#32
    | _, _ => 0#32
  vmmCurrent := 0x1000 }

theorem freeSpaceSample_walkable : Walkable freeSpaceSample := by
  refine ⟨⟨by decide, by decide, by decide, by decide⟩, fun i _ he => ?_⟩
  have hi : i = 0 ∨ i = 767 := by
    by_contra hne
    by_cases h1 : i = 1
    · subst h1
      exact absurd he (by decide)
    · have hz : freeSpaceSample.mem freeSpaceSample.cr3 i = 0#32 := by
        change freeSpaceSample.mem 1 i = 0#32
        simp only [freeSpaceSample]
        split <;> simp_all
      rw [hz] at he
      exact Word.not_hasTable_zero he
  rcases hi with rfl | rfl <;> decide

/-- Two pages between page 1 and the second 4 MiB of the sample. -/
theorem first_free_least_sample :
    ∃ a, vmmFirstFree (callees 0) freeSpaceSample.vmmCurrent 0 0xC00000 0x2000 0 false freeSpaceSample =
        some (a, freeSpaceSample) ∧
      (a = 0 ↔ ∀ v, ¬ Vacant freeSpaceSample 0 0xC00000 0x2000 v) ∧
      (a ≠ 0 → IsLeast {v | Vacant freeSpaceSample 0 0xC00000 0x2000 v} a) :=
  first_free_least (callees 0) freeSpaceSample_walkable (by decide) (by decide) (by decide) (by decide)

end SysX
