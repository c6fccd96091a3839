import SysX.Pmm
import SysX.Lib.Loop
import Mathlib.Tactic.IntervalCases

/-!
Which run of free frames `pmm_first_free` finds. After a failed probe the search goes on two frames behind the
one at which the probe failed, so that the frame in between is never tried.
-/
namespace SysX
open Loop

/-- The frames from `f` on are a run of `sz` free frames of the memory. -/
def RunFits (bm : ℕ → Word) (frames sz f : ℕ) : Prop :=
  f + sz ≤ frames ∧ ∀ k, f ≤ k → k < f + sz → pmmBit bm k = false

/-- The result that the search ought to have: the least run, or none if there is none. -/
def IsFirstFit (bm : ℕ → Word) (frames sz : ℕ) : Option ℕ → Prop
  | some f => RunFits bm frames sz f ∧ ∀ g < f, ¬ RunFits bm frames sz g
  | none => ∀ f, ¬ RunFits bm frames sz f

/-- Frame `f` is passed over by a search that started at frame `s`: the frame before it is in use and ends a
run of free frames, some frame of which was tried. -/
def Skipped (bm : ℕ → Word) (s : ℕ) : ℕ → Prop
  | 0 => False
  | 1 => False
  | f + 2 => s ≤ f ∧ pmmBit bm (f + 1) = true ∧ pmmBit bm f = false ∧ ¬ Skipped bm s f

/-- No frame in use is met from `g` on, up to the end of the run or of the numbers that a frame can have. -/
def Stops (bm : ℕ → Word) (frames sz g : ℕ) : Prop :=
  g < frames ∧ pmmBit bm g = false ∧
    ∀ k, g ≤ k → k < g + sz → k < 4294967294 → pmmBit bm k = false

/-- The first frame at which a search from `s` on stops, or `none` where it comes to the end. -/
def FirstStop (bm : ℕ → Word) (frames sz s : ℕ) : Option ℕ → Prop
  | some g => s ≤ g ∧ Stops bm frames sz g ∧ ¬ Skipped bm s g ∧
      ∀ h, s ≤ h → h < g → Stops bm frames sz h → Skipped bm s h
  | none => ∀ h, s ≤ h → Stops bm frames sz h → Skipped bm s h

/-- A run from `g` on passes the largest frame number and meets the first frame in use, `u`. -/
def WrapsTo (bm : ℕ → Word) (sz g u : ℕ) : Prop :=
  (∀ k, g ≤ k → k < 4294967296 → pmmBit bm k = false) ∧ pmmBit bm u = true ∧
    (∀ k < u, pmmBit bm k = false) ∧ u < g ∧ u + 4294967296 < g + sz

/-- The least run is the first one at which the search stops, from frame 0 on or, where a run has wrapped
around, from two frames behind the first frame in use. -/
def SearchFinds (bm : ℕ → Word) (frames sz : ℕ) : Prop :=
  (∃ r, IsFirstFit bm frames sz r ∧ FirstStop bm frames sz 0 r) ∨
    ∃ g u, FirstStop bm frames sz 0 (some g) ∧ WrapsTo bm sz g u ∧
      ∃ r, IsFirstFit bm frames sz r ∧ FirstStop bm frames sz (u + 2) r

/-- One pass of the search loop. -/
def searchStep (bm : ℕ → Word) (frames sz frame : ℕ) : ℕ ⊕ Option ℕ :=
  if frame < frames then
    if bm (frame / 32) = BitVec.allOnes 32 then .inl (w32 (frame + 1))
    else if pmmBit bm frame = false then
      let fail := pmmProbe bm frame sz 0
      if fail ≠ sizeMax then .inl (w32 (w32 (fail + 1) + 1)) else .inr (some frame)
    else .inl (w32 (frame + 1))
  else .inr none

variable {bm : ℕ → Word} {frames sz : ℕ}

theorem pmmFirstFreeLoop_eq_run (fuel frame : ℕ) :
    pmmFirstFreeLoop bm frames sz fuel frame = run (searchStep bm frames sz) fuel frame := by
  induction fuel generalizing frame with
  | zero => rfl
  | succ fuel ih =>
    rw [pmmFirstFreeLoop, run, searchStep]
    dsimp only
    split_ifs <;> simp only [ih]

/-! One pass. -/

theorem searchStep_end {f : ℕ} (h : frames ≤ f) : searchStep bm frames sz f = .inr none :=
  if_neg (Nat.not_lt.mpr h)

theorem searchStep_used {f : ℕ} (h : f < frames) (hf : frames < 4294967296) (hu : pmmBit bm f = true) :
    searchStep bm frames sz f = .inl (f + 1) := by
  have hw : w32 (f + 1) = f + 1 := w32_of_lt (by omega)
  rw [searchStep, if_pos h, hw, if_neg (by simp [hu] : ¬ pmmBit bm f = false)]
  exact ite_self _

theorem searchStep_free {f : ℕ} (h : f < frames) (hu : pmmBit bm f = false) :
    searchStep bm frames sz f =
      if pmmProbe bm f sz 0 ≠ sizeMax then .inl (w32 (w32 (pmmProbe bm f sz 0 + 1) + 1))
      else .inr (some f) := by
  have hfull : ¬ bm (f / 32) = BitVec.allOnes 32 := by
    intro hfull
    rw [pmmBit_of_full hfull] at hu
    cases hu
  rw [searchStep, if_pos h, if_neg hfull, if_pos hu]

theorem pmmProbe_clear {f n i : ℕ} (h : ∀ k, i ≤ k → k < i + n → pmmBit bm (w32 (f + k)) = false) :
    pmmProbe bm f n i = sizeMax := by
  induction n generalizing i with
  | zero => rfl
  | succ n ih =>
    have hi := h i (Nat.le_refl i) (by omega)
    have hfull : ¬ bm (w32 (f + i) / 32) = BitVec.allOnes 32 := by
      intro hfull
      rw [pmmBit_of_full hfull] at hi
      cases hi
    rw [pmmProbe, if_neg hfull, if_neg (by simp [hi])]
    exact ih fun k hik hk => h k (by omega) (by omega)

/-- A probe gives the first frame in use. -/
theorem pmmProbe_first {f n i j : ℕ} (hij : i ≤ j) (hj : j < i + n) (hu : pmmBit bm (w32 (f + j)) = true)
    (h : ∀ k, i ≤ k → k < j → pmmBit bm (w32 (f + k)) = false) : pmmProbe bm f n i = w32 (f + j) := by
  induction n generalizing i with
  | zero => omega
  | succ n ih =>
    rw [pmmProbe]
    by_cases heq : i = j
    · rw [heq, if_pos hu]
      exact ite_self _
    · have hi := h i (Nat.le_refl i) (by omega)
      have hfull : ¬ bm (w32 (f + i) / 32) = BitVec.allOnes 32 := by
        intro hfull
        rw [pmmBit_of_full hfull] at hi
        cases hi
      rw [if_neg hfull, if_neg (by simp [hi])]
      exact ih (by omega) (by omega) fun k hik hk => h k (by omega) hk

/-- There is no frame in use among the `n` that a probe looks at, or there is a first one. -/
theorem probe_cases (bm : ℕ → Word) (f n : ℕ) :
    (∀ k < n, pmmBit bm (w32 (f + k)) = false) ∨
      ∃ j < n, pmmBit bm (w32 (f + j)) = true ∧ ∀ k < j, pmmBit bm (w32 (f + k)) = false := by
  induction n with
  | zero => exact .inl fun k hk => by omega
  | succ n ih =>
    rcases ih with hclear | ⟨j, hj, hu, hfirst⟩
    · cases hn : pmmBit bm (w32 (f + n)) with
      | false =>
        refine .inl fun k hk => ?_
        by_cases hkn : k = n
        · rw [hkn, hn]
        · exact hclear k (by omega)
      | true => exact .inr ⟨n, Nat.lt_succ_self n, hn, hclear⟩
    · exact .inr ⟨j, by omega, hu, hfirst⟩

/-! The pass of a search over the memory. -/

theorem not_skipped_of_lt {s f : ℕ} (h : f < s + 2) : ¬ Skipped bm s f := by
  match f, h with
  | 0, _ => exact id
  | 1, _ => exact id
  | f + 2, h =>
    intro hs
    have := hs.1
    omega

/-- The search from `s` tries frame `f`, and has stopped at no frame before. -/
structure Tried (bm : ℕ → Word) (frames sz s f : ℕ) : Prop where
  le : s ≤ f
  here : ¬ Skipped bm s f
  after : ¬ Skipped bm s (f + 1)
  before : ∀ h, s ≤ h → h < f → Stops bm frames sz h → Skipped bm s h

variable {s f g u : ℕ}

theorem Tried.start (bm : ℕ → Word) (frames sz s : ℕ) : Tried bm frames sz s s :=
  ⟨Nat.le_refl s, not_skipped_of_lt (by omega), not_skipped_of_lt (by omega), fun h _ _ => by omega⟩

/-- A frame in use is followed by the next one. -/
theorem Tried.next (h : Tried bm frames sz s f) (hu : pmmBit bm f = true) : Tried bm frames sz s (f + 1) := by
  refine ⟨Nat.le_succ_of_le h.le, h.after, ?_, ?_⟩
  · intro hskip
    rw [hskip.2.2.1] at hu
    cases hu
  · intro k hsk hk hstop
    by_cases hkf : k = f
    · rw [hkf] at hstop
      rw [hstop.2.1] at hu
      cases hu
    · exact h.before k hsk (by omega) hstop

/-- A run that a frame in use ends is followed by the frame after the next one. -/
theorem Tried.jump (h : Tried bm frames sz s f) {t : ℕ} (hft : f < t) (hts : t < f + sz) (ht : t < 4294967294)
    (hu : pmmBit bm t = true) (hclear : ∀ k, f ≤ k → k < t → pmmBit bm k = false) :
    Tried bm frames sz s (t + 2) := by
  have hle := h.le
  -- the last frame of the run is not skipped, whether it is the first one or not
  have hlast : ¬ Skipped bm s (t - 1) := by
    by_cases heq : t - 1 = f
    · rw [heq]
      exact h.here
    · obtain ⟨k, hk⟩ : ∃ k, t - 1 = k + 2 ∨ t - 1 < 2 := ⟨t - 3, by omega⟩
      rcases hk with hk | hk
      · rw [hk]
        intro hskip
        have hbit := hclear (k + 1) (by omega) (by omega)
        rw [hskip.2.1] at hbit
        cases hbit
      · exact not_skipped_of_lt (by omega)
  have hbehind : Skipped bm s (t + 1) := by
    obtain ⟨k, rfl⟩ : ∃ k, t = k + 1 := ⟨t - 1, by omega⟩
    exact ⟨by omega, hu, hclear k (by omega) (by omega), hlast⟩
  refine ⟨by omega, ?_, ?_, ?_⟩
  · intro hskip
    rw [hskip.2.2.1] at hu
    cases hu
  · intro hskip
    exact hskip.2.2.2 hbehind
  · intro k hsk hk hstop
    by_cases hkf : k < f
    · exact h.before k hsk hkf hstop
    · by_cases hkt : k < t
      · have hbit := hstop.2.2 t (by omega) (by omega) ht
        rw [hu] at hbit
        cases hbit
      · by_cases heq : k = t
        · have hbit := hstop.2.1
          rw [heq, hu] at hbit
          cases hbit
        · obtain rfl : k = t + 1 := by omega
          exact hbehind

/-- The search comes to the frame `r`, or to its end. -/
def ComesTo (bm : ℕ → Word) (frames sz f : ℕ) : Option ℕ → Prop
  | some g => Reaches (searchStep bm frames sz) f g
  | none => Returns (searchStep bm frames sz) f none

theorem ComesTo.head {r : Option ℕ} (hs : searchStep bm frames sz f = .inl g) (h : ComesTo bm frames sz g r) :
    ComesTo bm frames sz f r := by
  cases r with
  | none => exact .next hs h
  | some k => exact Relation.ReflTransGen.head hs h

/-- The search comes to the first frame at which it stops. -/
theorem Tried.comesTo (hf : frames < 4294967296) (h : Tried bm frames sz s f) :
    ∃ r, FirstStop bm frames sz s r ∧ ComesTo bm frames sz f r := by
  induction hn : frames - f using Nat.strong_induction_on generalizing f with
  | _ n ih =>
    by_cases hlt : f < frames
    · cases hu : pmmBit bm f with
      | true =>
        obtain ⟨r, hr, hc⟩ := ih _ (by omega) (h.next hu) rfl
        exact ⟨r, hr, hc.head (searchStep_used hlt hf hu)⟩
      | false =>
        by_cases hstop : Stops bm frames sz f
        · exact ⟨some f, ⟨h.le, hstop, h.here, h.before⟩, .refl⟩
        · have hw : ∀ k < min sz (4294967294 - f), w32 (f + k) = f + k := fun k hk => w32_of_lt (by omega)
          rcases probe_cases bm f (min sz (4294967294 - f)) with hclear | ⟨j, hj, huj, hfirst⟩
          · refine absurd ⟨hlt, hu, fun k hfk hks hk => ?_⟩ hstop
            have hbit := hclear (k - f) (by omega)
            rwa [hw _ (by omega), Nat.add_sub_cancel' hfk] at hbit
          · have hj0 : j ≠ 0 := by
              rintro rfl
              rw [hw 0 hj, Nat.add_zero, hu] at huj
              cases huj
            have hclear : ∀ k, f ≤ k → k < f + j → pmmBit bm k = false := by
              intro k hfk hk
              have hbit := hfirst (k - f) (by omega)
              rwa [hw _ (by omega), Nat.add_sub_cancel' hfk] at hbit
            have hprobe : pmmProbe bm f sz 0 = f + j := by
              rw [pmmProbe_first (Nat.zero_le j) (by omega) huj fun k _ hk => hfirst k hk, hw j hj]
            have hstep : searchStep bm frames sz f = .inl (f + j + 2) := by
              rw [searchStep_free hlt hu, hprobe, if_pos (by unfold sizeMax; omega), w32_of_lt (n := f + j + 1)
                (by omega), w32_of_lt (by omega)]
            rw [hw j hj] at huj
            obtain ⟨r, hr, hc⟩ := ih _ (by omega) (h.jump (by omega) (by omega) (by omega) huj hclear) rfl
            exact ⟨r, hr, hc.head hstep⟩
    · refine ⟨none, fun k hsk hstop => h.before k hsk ?_ hstop, .done (searchStep_end (by omega))⟩
      have := hstop.1
      omega

/-- What the search does at a frame at which it stops: it returns, it begins again, or it wraps around. -/
theorem Stops.step (h : Stops bm frames sz g) (hf : frames < 4294967296) (hsz : sz < 4294967296) :
    searchStep bm frames sz g = .inr (some g) ∨ searchStep bm frames sz g = .inl 0 ∨
      ∃ u, WrapsTo bm sz g u ∧ searchStep bm frames sz g = .inl (u + 2) := by
  obtain ⟨hlt, hu, hclear⟩ := h
  rw [searchStep_free hlt hu]
  rcases probe_cases bm g sz with hall | ⟨j, hj, huj, hfirst⟩
  · rw [pmmProbe_clear (n := sz) (i := 0) fun k _ hk => hall k (by omega)]
    exact .inl (if_neg (by simp))
  · have hprobe := pmmProbe_first (n := sz) (Nat.zero_le j) (by omega) huj fun k _ hk => hfirst k hk
    have hfree : ∀ k, g ≤ k → k < g + j → k < 4294967296 → pmmBit bm k = false := by
      intro k hgk hk hk32
      have hbit := hfirst (k - g) (by omega)
      rwa [Nat.add_sub_cancel' hgk, w32_of_lt hk32] at hbit
    rw [hprobe]
    by_cases hlow : g + j < 4294967296
    · rw [w32_of_lt hlow] at huj ⊢
      have hhigh : ¬ g + j < 4294967294 := by
        intro hlt'
        have hbit := hclear (g + j) (by omega) (by omega) hlt'
        rw [huj] at hbit
        cases hbit
      by_cases hmax : g + j = sizeMax
      · exact .inl (by rw [hmax]; exact if_neg (by simp))
      · unfold sizeMax at hmax ⊢
        have heq : g + j = 4294967294 := by omega
        rw [heq]
        exact .inr (.inl rfl)
    · have hwrap : w32 (g + j) = g + j - 4294967296 := by
        unfold w32
        omega
      rw [hwrap] at huj ⊢
      refine .inr (.inr ⟨g + j - 4294967296, ⟨fun k hgk hk => hfree k hgk (by omega) hk, huj, fun k hk => ?_,
        by omega, by omega⟩, ?_⟩)
      · have hbit := hfirst (k + 4294967296 - g) (by omega)
        have hback : w32 (g + (k + 4294967296 - g)) = k := by
          unfold w32
          omega
        rwa [hback] at hbit
      · rw [if_pos (by unfold sizeMax; omega), w32_of_lt (n := g + j - 4294967296 + 1) (by omega),
          w32_of_lt (by omega)]

theorem WrapsTo.step (h : WrapsTo bm sz g u) (hg : g < frames) (hf : frames < 4294967296) :
    searchStep bm frames sz g = .inl (u + 2) := by
  obtain ⟨hhigh, hu, hlow, hug, hsz⟩ := h
  have hidx : w32 (g + (u + 4294967296 - g)) = u := by
    unfold w32
    omega
  have hprobe : pmmProbe bm g sz 0 = u := by
    rw [← hidx] at hu
    rw [pmmProbe_first (Nat.zero_le _) (by omega) hu, hidx]
    intro k _ hk
    by_cases hlt : g + k < 4294967296
    · rw [w32_of_lt hlt]
      exact hhigh _ (by omega) hlt
    · have hw : w32 (g + k) = g + k - 4294967296 := by
        unfold w32
        omega
      rw [hw]
      exact hlow _ (by omega)
  rw [searchStep_free hg (hhigh g (Nat.le_refl g) (by omega)), hprobe, if_pos (by unfold sizeMax; omega),
    w32_of_lt (n := u + 1) (by omega), w32_of_lt (by omega)]

/-- At the start of a run the search returns. -/
theorem RunFits.step (h : RunFits bm frames sz g) (h1 : 1 ≤ sz) (hf : frames < 4294967296) :
    searchStep bm frames sz g = .inr (some g) := by
  obtain ⟨hle, hclear⟩ := h
  rw [searchStep_free (by omega) (hclear g (Nat.le_refl g) (by omega)), pmmProbe_clear]
  · exact if_neg (by simp)
  · intro k _ hk
    rw [w32_of_lt (by omega)]
    exact hclear _ (by omega) (by omega)

theorem FirstStop.unique {r r' : Option ℕ} (h : FirstStop bm frames sz s r) (h' : FirstStop bm frames sz s r') :
    r = r' := by
  cases r with
  | none =>
    cases r' with
    | none => rfl
    | some g => exact absurd (h g h'.1 h'.2.1) h'.2.2.1
  | some f =>
    cases r' with
    | none => exact absurd (h' f h.1 h.2.1) h.2.2.1
    | some g =>
      rcases Nat.lt_trichotomy f g with hlt | rfl | hlt
      · exact absurd (h'.2.2.2 f h.1 hlt h.2.1) h.2.2.1
      · rfl
      · exact absurd (h.2.2.2 g h'.1 hlt h'.2.1) h'.2.2.1

/-- The first frame in use is the same for every run that wraps around. -/
theorem WrapsTo.unique {g' u' : ℕ} (h : WrapsTo bm sz g u) (h' : WrapsTo bm sz g' u') : u = u' := by
  rcases Nat.lt_trichotomy u u' with hlt | rfl | hlt
  · have hbit := h'.2.2.1 u hlt
    rw [h.2.1] at hbit
    cases hbit
  · rfl
  · have hbit := h.2.2.1 u' hlt
    rw [h'.2.1] at hbit
    cases hbit

/-! The search as a whole. -/

/-- A search that comes to the right frame first returns it. -/
theorem FirstStop.returns {r : Option ℕ} (h : FirstStop bm frames sz s r) (hr : IsFirstFit bm frames sz r)
    (h1 : 1 ≤ sz) (hf : frames < 4294967296) : Returns (searchStep bm frames sz) s r := by
  obtain ⟨r', hr', hc⟩ := (Tried.start bm frames sz s).comesTo hf
  obtain rfl := h.unique hr'
  cases r with
  | none => exact hc
  | some g => exact .of_reaches hc (.done (hr.1.step h1 hf))

theorem returns_iff (h1 : 1 ≤ sz) (hsz : sz < 4294967296) (hf : frames < 4294967296) :
    (∃ r, IsFirstFit bm frames sz r ∧ Returns (searchStep bm frames sz) 0 r) ↔ SearchFinds bm frames sz := by
  constructor
  · rintro ⟨r, hr, hret⟩
    obtain ⟨r₀, hstop₀, hc₀⟩ := (Tried.start bm frames sz 0).comesTo hf
    cases r₀ with
    | none =>
      obtain rfl := hret.unique hc₀
      exact .inl ⟨none, hr, hstop₀⟩
    | some g =>
      have hg := hret.tail hc₀
      rcases hstop₀.2.1.step hf hsz with hstep | hstep | ⟨u, hwrap, hstep⟩
      · obtain rfl := hg.unique (.done hstep)
        exact .inl ⟨some g, hr, hstop₀⟩
      · exact absurd hc₀ (hg.acyclic hstep)
      · -- the second pass, which cannot wrap around once more
        obtain ⟨r₁, hstop₁, hc₁⟩ := (Tried.start bm frames sz (u + 2)).comesTo hf
        have hu := hret.tail (hc₀.tail hstep)
        refine .inr ⟨g, u, hstop₀, hwrap, r, hr, ?_⟩
        cases r₁ with
        | none =>
          obtain rfl := hu.unique hc₁
          exact hstop₁
        | some g₁ =>
          have hg₁ := hu.tail hc₁
          rcases hstop₁.2.1.step hf hsz with hstep₁ | hstep₁ | ⟨u₁, hwrap₁, hstep₁⟩
          · obtain rfl := hg₁.unique (.done hstep₁)
            exact hstop₁
          · exact absurd ((hc₀.tail hstep).trans hc₁) (hg₁.acyclic hstep₁)
          · obtain rfl := hwrap.unique hwrap₁
            exact absurd hc₁ (hg₁.acyclic hstep₁)
  · rintro (⟨r, hr, hstop⟩ | ⟨g, u, hstop, hwrap, r, hr, hstop'⟩)
    · exact ⟨r, hr, hstop.returns hr h1 hf⟩
    · obtain ⟨r', hr', hc⟩ := (Tried.start bm frames sz 0).comesTo hf
      obtain rfl := hstop.unique hr'
      exact ⟨r, hr, .of_reaches hc (.next (hwrap.step hstop.2.1.1 hf) (hstop'.returns hr h1 hf))⟩

/-- Where there is a run, only its start counts: nothing wraps around before. -/
theorem searchFinds_of_fits {f : ℕ} (h1 : 1 ≤ sz) (hf : frames < 2 ^ 32) (hfit : IsFirstFit bm frames sz (some f))
    (hskip : ¬ Skipped bm 0 f) : SearchFinds bm frames sz := by
  obtain ⟨⟨hle, hclear⟩, hleast⟩ := hfit
  refine .inl ⟨some f, ⟨⟨hle, hclear⟩, hleast⟩, Nat.zero_le f, ⟨by omega, hclear f (Nat.le_refl f) (by omega),
    fun k hk hks _ => hclear k hk hks⟩, hskip, fun g _ hg hstop => ?_⟩
  exact absurd ⟨by omega, fun k hk hks => hstop.2.2 k hk hks (by omega)⟩ (hleast g hg)

/-- The passes that the model allows are enough, since a frame number has `2 ^ 32` values. -/
theorem pmmFirstFreeLoop_eq_some_iff {r : Option ℕ} :
    pmmFirstFreeLoop bm frames sz loopFuel 0 = some r ↔ Returns (searchStep bm frames sz) 0 r := by
  rw [pmmFirstFreeLoop_eq_run]
  constructor
  · exact Returns.of_run
  · intro h
    have hlt : ∀ f, Reaches (searchStep bm frames sz) 0 f → f ∈ Finset.range loopFuel := by
      intro f hreach
      rw [Finset.mem_range]
      induction hreach with
      | refl => decide
      | tail _ hstep =>
        have hw : ∀ n, w32 n < loopFuel := fun n => Nat.mod_lt _ (by decide)
        unfold searchStep at hstep
        dsimp only at hstep
        split_ifs at hstep
        all_goals
          cases hstep
          exact hw _
    have hrun := h.run_card hlt
    rwa [Finset.card_range] at hrun

/-- The search gives the least run of `sz` free frames below `pmm_frames`, and `(size_t) -1` when there is
none, exactly when it does not pass over the start of that run and stops nowhere else before. -/
theorem pmm_first_free_iff (s : Machine) (sz : ℕ) (h1 : 1 ≤ sz) (hsz : sz < 2 ^ 32) (hf : s.pmmFrames < 2 ^ 32) :
    (∃ r, pmmFirstFree sz s = some (r, s) ∧ IsFirstFit s.pmmBitmap s.pmmFrames sz r) ↔
      SearchFinds s.pmmBitmap s.pmmFrames sz := by
  rw [← returns_iff h1 hsz hf]
  refine exists_congr fun r => ?_
  rw [and_comm, pmmFirstFree, Comp.readOr_apply, ← pmmFirstFreeLoop_eq_some_iff, Option.map_eq_some_iff]
  constructor
  · rintro ⟨hr, q, hq, heq⟩
    cases heq
    exact ⟨hr, hq⟩
  · rintro ⟨hr, hq⟩
    exact ⟨hr, r, hq, rfl⟩

theorem pmm_first_free_iff_sample :
    ∃ r, pmmFirstFree 1 pmmSample = some (r, pmmSample) ∧ IsFirstFit pmmSample.pmmBitmap 8 1 r := by
  have hfit : IsFirstFit pmmSample.pmmBitmap 8 1 (some 1) := by
    refine ⟨⟨by decide, fun k hk hks => ?_⟩, fun g hg hfits => ?_⟩
    · obtain rfl : k = 1 := by omega
      rfl
    · obtain rfl : g = 0 := by omega
      exact absurd (hfits.2 0 (by decide) (by decide)) (by decide)
  exact (pmm_first_free_iff pmmSample 1 (by decide) (by decide) (by decide)).mpr
    (searchFinds_of_fits (by decide) (by decide) hfit id)

/-- Frames 0, 2 and 3 of eight are free: the run of two is passed over. -/
theorem pmm_first_free_skips :
    ¬ ∀ (s : Machine) (sz : ℕ), 1 ≤ sz →
      ∃ r, pmmFirstFree sz s = some (r, s) ∧ IsFirstFit s.pmmBitmap s.pmmFrames sz r := by
  intro h
  obtain ⟨r, hr, hfit⟩ :=
    h { (default : Machine) with pmmBitmap := fun _ => 0xFFFFFFF2#32, pmmFrames := 8 } 2 (by decide)
  have hnone : (pmmFirstFree 2 { (default : Machine) with
      pmmBitmap := fun _ => 0xFFFFFFF2#32, pmmFrames := 8 }).map Prod.fst = some none := by decide +kernel
  rw [hr] at hnone
  obtain rfl : r = none := Option.some.inj hnone
  refine hfit 2 ⟨by decide, fun k hk hks => ?_⟩
  interval_cases k <;> rfl

end SysX
