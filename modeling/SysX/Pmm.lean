import SysX.Machine
import Mathlib.Data.List.Pairwise
import Mathlib.Data.List.Range

/-!
The physical memory manager (`mm/pmm.c`): a bitmap with one bit for each frame, a first-fit search
for a run of clear bits, and the exclusivity of the frames it hands out.
-/
namespace SysX

/-- `pmm_bitmap[frame / 32] & (1 << frame % 32)` -/
def pmmBit (bm : ℕ → Word) (frame : ℕ) : Bool := (bm (frame / 32)).getLsbD (frame % 32)

def Machine.setBitmap (s : Machine) (frame : ℕ) (b : Bool) : Machine :=
  let word := BitField.setBit (s.pmmBitmap (frame / 32)) (frame % 32) b
  { s with pmmBitmap := Function.update s.pmmBitmap (frame / 32) word }

def pmmAlloc (frame : ℕ) : Kernel ℤ := do
  let used ← Comp.read fun s => pmmBit s.pmmBitmap frame
  if used then pure (-1)
  else do
    Comp.modify fun s => s.setBitmap frame true
    pure 0

def pmmFree (frame : ℕ) : Kernel Unit := Comp.modify fun s => s.setBitmap frame false

/-- The probe of `sz` bits from `frame` on: the frame at which it fails, or `sizeMax`. -/
def pmmProbe (bm : ℕ → Word) (frame : ℕ) : (n i : ℕ) → ℕ
  | 0, _ => sizeMax
  | n + 1, i =>
    if bm (w32 (frame + i) / 32) = BitVec.allOnes 32 then w32 (frame + i)
    else if pmmBit bm (w32 (frame + i)) then w32 (frame + i)
    else pmmProbe bm frame n (i + 1)

/-- The search loop. More than `2 ^ 32` passes would repeat a value of `frame`, so a run that uses
up the fuel never ends (outer `none`); the inner `none` is the result `(size_t) -1`. -/
def pmmFirstFreeLoop (bm : ℕ → Word) (frames sz : ℕ) : (fuel frame : ℕ) → Option (Option ℕ)
  | 0, _ => none
  | fuel + 1, frame =>
    if frame < frames then
      if bm (frame / 32) = BitVec.allOnes 32 then
        pmmFirstFreeLoop bm frames sz fuel (w32 (frame + 1))
      else if pmmBit bm frame = false then
        let fail := pmmProbe bm frame sz 0
        if fail ≠ sizeMax then
          -- `frame = fail + 1`, and then the `frame++` at `next`
          pmmFirstFreeLoop bm frames sz fuel (w32 (w32 (fail + 1) + 1))
        else some (some frame)
      else pmmFirstFreeLoop bm frames sz fuel (w32 (frame + 1))
    else some none

def loopFuel : ℕ := 4294967296

def pmmFirstFree (sz : ℕ) : Kernel (Option ℕ) :=
  Comp.readOr fun s => pmmFirstFreeLoop s.pmmBitmap s.pmmFrames sz loopFuel 0

def pmmAllocFree (sz : ℕ) : Kernel (Option ℕ) := do
  let frame ← pmmFirstFree sz
  match frame with
  | none => pure none
  | some f => do
    Comp.forRange (fun i => do let _ ← pmmAlloc (w32 (f + i)); pure ()) sz 0
    pure (some f)

/-! Bits of the bitmap. -/

theorem pmmBit_setBitmap (s : Machine) (f g : ℕ) (b : Bool) :
    pmmBit (s.setBitmap f b).pmmBitmap g = if g = f then b else pmmBit s.pmmBitmap g := by
  unfold pmmBit Machine.setBitmap
  by_cases hw : g / 32 = f / 32
  · simp only [hw, Function.update_self]
    rw [BitField.getLsbD_setBit _ (Nat.mod_lt _ (by omega))]
    have : g % 32 = f % 32 ↔ g = f := by omega
    simp only [this]
  · have : g ≠ f := fun h => hw (by rw [h])
    simp [Function.update_of_ne hw, this]

/-- A full word has every one of its bits set. -/
theorem pmmBit_of_full {bm : ℕ → Word} {f : ℕ} (h : bm (f / 32) = BitVec.allOnes 32) :
    pmmBit bm f = true := by
  unfold pmmBit
  rw [h, BitVec.getLsbD_allOnes]
  simp [Nat.mod_lt]

theorem pmmProbe_free {bm : ℕ → Word} {frame : ℕ} :
    ∀ {n i : ℕ}, frame + i + n ≤ sizeMax → pmmProbe bm frame n i = sizeMax →
      ∀ k, i ≤ k → k < i + n → pmmBit bm (frame + k) = false
  | 0, i, _, _, k, hik, hk => by omega
  | n + 1, i, hb, h, k, hik, hk => by
    have hlt : frame + i < sizeMax := by omega
    have hw : w32 (frame + i) = frame + i := w32_of_lt (by unfold sizeMax at hlt; omega)
    rw [pmmProbe, hw] at h
    split_ifs at h with hfull hbit
    · omega
    · omega
    · by_cases hki : k = i
      · subst hki
        simpa using hbit
      · exact pmmProbe_free (by omega) h k (by omega) (by omega)

/-- A failing probe stops inside the run. -/
theorem pmmProbe_fail {bm : ℕ → Word} {frame : ℕ} :
    ∀ {n i : ℕ}, frame + i + n ≤ sizeMax → pmmProbe bm frame n i ≠ sizeMax →
      frame + i ≤ pmmProbe bm frame n i ∧ pmmProbe bm frame n i < frame + i + n
  | 0, _, _, h => absurd rfl h
  | n + 1, i, hb, h => by
    have hw : w32 (frame + i) = frame + i := w32_of_lt (by unfold sizeMax at hb; omega)
    rw [pmmProbe, hw] at h ⊢
    split_ifs at h ⊢ with hfull hbit
    · omega
    · omega
    · have := pmmProbe_fail (n := n) (i := i + 1) (by omega) h
      omega

/-- What the search returns is a run of clear bits that starts below `pmm_frames`. -/
theorem pmmFirstFreeLoop_sound {bm : ℕ → Word} {frames sz : ℕ} (hb : frames + sz ≤ sizeMax) :
    ∀ {fuel frame f : ℕ}, pmmFirstFreeLoop bm frames sz fuel frame = some (some f) →
      f < frames ∧ ∀ k < sz, pmmBit bm (f + k) = false
  | fuel + 1, frame, f, h => by
    rw [pmmFirstFreeLoop] at h
    dsimp only at h
    split_ifs at h with hlt hfull hbit hfail
    · exact pmmFirstFreeLoop_sound hb h
    · exact pmmFirstFreeLoop_sound hb h
    · cases h
      exact ⟨hlt, fun k hk =>
        pmmProbe_free (i := 0) (n := sz) (by omega) (by simpa using hfail) k (by omega) (by omega)⟩
    · exact pmmFirstFreeLoop_sound hb h
    · cases h

/-- The search ends: every pass moves `frame` up. -/
theorem pmmFirstFreeLoop_total (bm : ℕ → Word) {frames sz : ℕ} (hb : frames + sz < sizeMax) :
    ∀ {fuel frame : ℕ}, frames < frame + fuel → 0 < fuel →
      ∃ r, pmmFirstFreeLoop bm frames sz fuel frame = some r
  | fuel + 1, frame, h, _ => by
    rw [pmmFirstFreeLoop]
    dsimp only
    unfold sizeMax at hb
    by_cases hlt : frame < frames
    · have hw : w32 (frame + 1) = frame + 1 := w32_of_lt (by omega)
      have next : ∃ r, pmmFirstFreeLoop bm frames sz fuel (w32 (frame + 1)) = some r := by
        rw [hw]
        exact pmmFirstFreeLoop_total bm (by unfold sizeMax; omega) (by omega) (by omega)
      rw [if_pos hlt]
      split_ifs with hfull hbit hfail
      · exact next
      · have hp := pmmProbe_fail (by unfold sizeMax; omega) hfail
        have hw2 : w32 (w32 (pmmProbe bm frame sz 0 + 1) + 1) = pmmProbe bm frame sz 0 + 2 := by
          rw [w32_of_lt (n := pmmProbe bm frame sz 0 + 1) (by omega), w32_of_lt (by omega)]
        rw [hw2]
        by_cases hf : 0 < fuel
        · exact pmmFirstFreeLoop_total bm (by unfold sizeMax; omega) (by omega) hf
        · omega
      · exact ⟨_, rfl⟩
      · exact next
    · exact ⟨none, by rw [if_neg hlt]⟩

/-- The search for one frame gives up only when no frame from `frame` on is free. -/
theorem pmmFirstFreeLoop_one_none {bm : ℕ → Word} {frames : ℕ} (hb : frames + 1 ≤ sizeMax) :
    ∀ {fuel frame : ℕ}, pmmFirstFreeLoop bm frames 1 fuel frame = some none →
      ∀ g, frame ≤ g → g < frames → pmmBit bm g = true
  | fuel + 1, frame, h, g, hfg, hg => by
    have hw : w32 (frame + 1) = frame + 1 := w32_of_lt (by unfold sizeMax at hb; omega)
    have hw0 : w32 (frame + 0) = frame := w32_of_lt (by unfold sizeMax at hb; omega)
    rw [pmmFirstFreeLoop] at h
    dsimp only at h
    rw [if_pos (by omega), hw] at h
    split_ifs at h with hfull hbit hfail
    · by_cases hgf : g = frame
      · exact hgf ▸ pmmBit_of_full hfull
      · exact pmmFirstFreeLoop_one_none hb h g (by omega) hg
    · have hp : pmmProbe bm frame 1 0 = sizeMax := by
        rw [pmmProbe, hw0, if_neg hfull, if_neg (by simp [hbit])]
        rfl
      exact absurd hp hfail
    · cases h
    · by_cases hgf : g = frame
      · rw [hgf]
        simpa using hbit
      · exact pmmFirstFreeLoop_one_none hb h g (by omega) hg

/-- It returns the first one that is free. -/
theorem pmmFirstFreeLoop_one_some {bm : ℕ → Word} {frames f : ℕ} (hb : frames + 1 ≤ sizeMax) :
    ∀ {fuel frame : ℕ}, pmmFirstFreeLoop bm frames 1 fuel frame = some (some f) →
      ∀ g, frame ≤ g → g < f → pmmBit bm g = true
  | fuel + 1, frame, h, g, hfg, hg => by
    have hw0 : frame < frames → w32 (frame + 0) = frame := fun _ => w32_of_lt (by unfold sizeMax at hb; omega)
    have hw : frame < frames → w32 (frame + 1) = frame + 1 := fun _ => w32_of_lt (by unfold sizeMax at hb; omega)
    rw [pmmFirstFreeLoop] at h
    dsimp only at h
    split_ifs at h with hlt hfull hbit hfail
    · rw [hw hlt] at h
      by_cases hgf : g = frame
      · exact hgf ▸ pmmBit_of_full hfull
      · exact pmmFirstFreeLoop_one_some hb h g (by omega) hg
    · have hp : pmmProbe bm frame 1 0 = sizeMax := by
        rw [pmmProbe, hw0 hlt, if_neg hfull, if_neg (by simp [hbit])]
        rfl
      exact absurd hp hfail
    · cases h
      omega
    · rw [hw hlt] at h
      by_cases hgf : g = frame
      · rw [hgf]
        simpa using hbit
      · exact pmmFirstFreeLoop_one_some hb h g (by omega) hg
    · cases h

/-! The allocator as a whole. -/

/-- `t` is `s` with other bits in its bitmap. -/
def SameButBitmap (s t : Machine) : Prop := t = { s with pmmBitmap := t.pmmBitmap }

theorem pmmAlloc_run (s : Machine) (f : ℕ) :
    ∃ r t, pmmAlloc f s = some (r, t) ∧ SameButBitmap s t ∧
      ∀ g, pmmBit t.pmmBitmap g = (decide (g = f) || pmmBit s.pmmBitmap g) := by
  unfold pmmAlloc
  rw [Comp.read_bind]
  by_cases hu : pmmBit s.pmmBitmap f = true
  · rw [if_pos hu]
    refine ⟨-1, s, rfl, rfl, fun g => ?_⟩
    by_cases hg : g = f
    · simp [hg, hu]
    · simp [hg]
  · rw [if_neg hu, Comp.modify_bind]
    refine ⟨0, s.setBitmap f true, rfl, rfl, fun g => ?_⟩
    rw [pmmBit_setBitmap]
    by_cases hg : g = f <;> simp [hg]

/-- Marking a run of frames sets exactly their bits. -/
theorem pmmAllocRun_run (s : Machine) {f : ℕ} (sz : ℕ) (hb : f + sz ≤ sizeMax) :
    ∃ t, Comp.forRange (fun i => do let _ ← pmmAlloc (w32 (f + i)); pure ()) sz 0 s =
        some ((), t) ∧ SameButBitmap s t ∧
      ∀ g, pmmBit t.pmmBitmap g = (decide (f ≤ g ∧ g < f + sz) || pmmBit s.pmmBitmap g) := by
  have hloop := @Comp.forRange_total Machine
    (fun n t => SameButBitmap s t ∧ ∀ g,
      pmmBit t.pmmBitmap g = (decide (f ≤ g ∧ g < f + n) || pmmBit s.pmmBitmap g))
    (fun i => do let _ ← pmmAlloc (w32 (f + i)); pure ()) sz 0 ?_ s ⟨rfl, fun g => by simp⟩
  · simpa using hloop
  · rintro i - hi t ⟨hst, hbits⟩
    have hw : w32 (f + i) = f + i := w32_of_lt (by unfold sizeMax at hb; omega)
    obtain ⟨r, u, hu, htu, hubits⟩ := pmmAlloc_run t (f + i)
    refine ⟨u, by rw [hw, Comp.bind_of_eq hu]; rfl, ?_, fun g => ?_⟩
    · unfold SameButBitmap at *
      rw [htu, hst]
    · rw [hubits, hbits, ← Bool.or_assoc]
      congr 1
      rw [Bool.eq_iff_iff]
      simp only [Bool.or_eq_true, decide_eq_true_eq]
      omega

/-- A successful allocation returns a run of clear bits and sets exactly these. -/
theorem pmmAllocFree_some {s t : Machine} {sz f : ℕ} (hb : s.pmmFrames + sz ≤ sizeMax)
    (h : pmmAllocFree sz s = some (some f, t)) :
    f < s.pmmFrames ∧ (∀ k < sz, pmmBit s.pmmBitmap (f + k) = false) ∧ SameButBitmap s t ∧
      ∀ g, pmmBit t.pmmBitmap g = (decide (f ≤ g ∧ g < f + sz) || pmmBit s.pmmBitmap g) := by
  obtain ⟨r, u, hu, h⟩ := Comp.bind_eq_some.mp h
  rw [pmmFirstFree, Comp.readOr_apply, Option.map_eq_some_iff] at hu
  obtain ⟨r', hr, hru⟩ := hu
  cases hru
  cases r with
  | none => cases h
  | some f' =>
    have hs := pmmFirstFreeLoop_sound hb hr
    obtain ⟨v, hv, hsv, hbits⟩ := pmmAllocRun_run s (f := f') sz (by omega)
    dsimp only at h
    rw [Comp.bind_of_eq hv] at h
    cases h
    exact ⟨hs.1, hs.2, hsv, hbits⟩

/-- A failing allocation changes nothing. -/
theorem pmmAllocFree_none {s t : Machine} {sz : ℕ} (h : pmmAllocFree sz s = some (none, t)) :
    t = s := by
  obtain ⟨r, u, hu, h⟩ := Comp.bind_eq_some.mp h
  rw [pmmFirstFree, Comp.readOr_apply, Option.map_eq_some_iff] at hu
  obtain ⟨r', _, hru⟩ := hu
  cases hru
  cases r with
  | none =>
    cases h
    rfl
  | some f' =>
    obtain ⟨_, _, _, h⟩ := Comp.bind_eq_some.mp h
    cases h

theorem pmmAllocFree_total {s : Machine} {sz : ℕ} (hb : s.pmmFrames + sz < sizeMax) :
    ∃ r t, pmmAllocFree sz s = some (r, t) := by
  have hfuel : s.pmmFrames < 0 + loopFuel := by unfold loopFuel; unfold sizeMax at hb; omega
  obtain ⟨r, hr⟩ := pmmFirstFreeLoop_total s.pmmBitmap hb hfuel (by decide)
  have hf : pmmFirstFree sz s = some (r, s) := by
    rw [pmmFirstFree, Comp.readOr_apply, hr]
    rfl
  cases r with
  | none => exact ⟨none, s, by rw [pmmAllocFree, Comp.bind_of_eq hf]; rfl⟩
  | some f =>
    have hs := pmmFirstFreeLoop_sound hb.le hr
    obtain ⟨t, ht, -⟩ := pmmAllocRun_run s (f := f) sz (by omega)
    exact ⟨some f, t, by rw [pmmAllocFree, Comp.bind_of_eq hf]; dsimp only; rw [Comp.bind_of_eq ht]; rfl⟩

/-! Histories of allocator calls. -/

/-- `PmmRun s₀ s live given`: calls lead from `s₀` to `s`, each list of `live` holds the frames of
one successful allocation that have not been freed, and `given` every frame ever returned. -/
inductive PmmRun (s₀ : Machine) : Machine → List (List ℕ) → List ℕ → Prop
  | init : PmmRun s₀ s₀ [] []
  | alloc {s t live given sz f} (h : PmmRun s₀ s live given) (h1 : 1 ≤ sz) (hsz : sz ≤ 2 ^ 20)
      (hr : pmmAllocFree sz s = some (some f, t)) :
      PmmRun s₀ t (List.range' f sz :: live) (List.range' f sz ++ given)
  | fail {s t live given sz} (h : PmmRun s₀ s live given) (h1 : 1 ≤ sz) (hsz : sz ≤ 2 ^ 20)
      (hr : pmmAllocFree sz s = some (none, t)) : PmmRun s₀ t live given
  | free {s t live given f} (h : PmmRun s₀ s live given) (hf : ∃ r ∈ live, f ∈ r)
      (hr : pmmFree f s = some ((), t)) : PmmRun s₀ t (live.map fun r => r.filter (· ≠ f)) given

/-- A frame is marked exactly when it was marked at the start or is outstanding. -/
structure PmmInv (s₀ s : Machine) (live : List (List ℕ)) (given : List ℕ) : Prop where
  frames : s.pmmFrames = s₀.pmmFrames
  bit : ∀ f, pmmBit s.pmmBitmap f = true ↔ pmmBit s₀.pmmBitmap f = true ∨ ∃ r ∈ live, f ∈ r
  disjoint : live.Pairwise List.Disjoint
  nodup : ∀ r ∈ live, r.Nodup
  fresh : ∀ f ∈ given, pmmBit s₀.pmmBitmap f = false
  given : ∀ r ∈ live, ∀ f ∈ r, f ∈ given

theorem PmmInv.alloc {s₀ s t : Machine} {live : List (List ℕ)} {given : List ℕ} {sz f : ℕ}
    (h : PmmInv s₀ s live given) (hb : s.pmmFrames + sz ≤ sizeMax)
    (hr : pmmAllocFree sz s = some (some f, t)) :
    PmmInv s₀ t (List.range' f sz :: live) (List.range' f sz ++ given) := by
  obtain ⟨-, hclear, hst, hbits⟩ := pmmAllocFree_some hb hr
  have hold : ∀ g ∈ List.range' f sz, pmmBit s.pmmBitmap g = false := by
    intro g hg
    obtain ⟨hlo, hhi⟩ := List.mem_range'_1.mp hg
    have := hclear (g - f) (by omega)
    rwa [Nat.add_sub_cancel' hlo] at this
  refine ⟨?_, fun g => ?_, ?_, ?_, ?_, ?_⟩
  · rw [hst]
    exact h.frames
  · rw [hbits]
    simp only [Bool.or_eq_true, decide_eq_true_eq, h.bit g, List.mem_cons, exists_eq_or_imp,
      List.mem_range'_1]
    tauto
  · refine List.pairwise_cons.mpr ⟨fun r hr g hg hgr => ?_, h.disjoint⟩
    have := (h.bit g).mpr (.inr ⟨r, hr, hgr⟩)
    simp [hold g hg] at this
  · intro r hr
    rcases List.mem_cons.mp hr with rfl | hr
    · exact List.nodup_range'
    · exact h.nodup r hr
  · intro g hg
    rcases List.mem_append.mp hg with hg | hg
    · by_contra hne
      have := (h.bit g).mpr (.inl (by simpa using hne))
      simp [hold g hg] at this
    · exact h.fresh g hg
  · intro r hr g hg
    rcases List.mem_cons.mp hr with rfl | hr
    · exact List.mem_append_left _ hg
    · exact List.mem_append_right _ (h.given r hr g hg)

theorem PmmInv.free {s₀ s : Machine} {live : List (List ℕ)} {given : List ℕ} {f : ℕ}
    (h : PmmInv s₀ s live given) (hf : ∃ r ∈ live, f ∈ r) :
    PmmInv s₀ (s.setBitmap f false) (live.map fun r => r.filter (· ≠ f)) given := by
  obtain ⟨r₀, hr₀, hfr₀⟩ := hf
  have hnew : pmmBit s₀.pmmBitmap f = false := h.fresh f (h.given r₀ hr₀ f hfr₀)
  refine ⟨h.frames, fun g => ?_, ?_, ?_, h.fresh, ?_⟩
  · rw [pmmBit_setBitmap]
    by_cases hg : g = f
    · simp [hg, hnew]
    · simp [hg, h.bit g]
  · refine h.disjoint.map _ fun a b hab g hga hgb => ?_
    exact hab (List.mem_of_mem_filter hga) (List.mem_of_mem_filter hgb)
  · intro r hr
    obtain ⟨r', hr', rfl⟩ := List.mem_map.mp hr
    exact (h.nodup r' hr').filter _
  · intro r hr g hg
    obtain ⟨r', hr', rfl⟩ := List.mem_map.mp hr
    exact h.given r' hr' g (List.mem_of_mem_filter hg)

theorem PmmRun.inv {s₀ s : Machine} {live : List (List ℕ)} {given : List ℕ}
    (hf : s₀.pmmFrames ≤ 2 ^ 20) (h : PmmRun s₀ s live given) : PmmInv s₀ s live given := by
  induction h with
  | init => exact ⟨rfl, by simp, by simp, by simp, by simp, by simp⟩
  | alloc h h1 hsz hr ih => exact ih.alloc (by rw [ih.frames]; unfold sizeMax; omega) hr
  | fail h h1 hsz hr ih => exact pmmAllocFree_none hr ▸ ih
  | free h hf hr ih =>
    cases hr
    exact ih.free hf

/-- Frames handed out are exclusive in every history: outstanding allocations are disjoint and
marked, a frame marked at the start is never returned, every call returns, and a call changes no
bit but those of the frames it allocates or frees. -/
theorem pmm_frames_exclusive {s₀ s : Machine} {live : List (List ℕ)} {given : List ℕ}
    (hframes : s₀.pmmFrames ≤ 2 ^ 20) (h : PmmRun s₀ s live given) :
    live.Pairwise List.Disjoint ∧ (∀ r ∈ live, r.Nodup) ∧
    (∀ f ∈ given, pmmBit s₀.pmmBitmap f = false) ∧
    (∀ r ∈ live, ∀ f ∈ r, pmmBit s.pmmBitmap f = true) ∧
    (∀ sz, 1 ≤ sz → sz ≤ 2 ^ 20 → ∃ r t, pmmAllocFree sz s = some (r, t)) ∧
    (∀ sz t, 1 ≤ sz → sz ≤ 2 ^ 20 → pmmAllocFree sz s = some (none, t) → t = s) ∧
    (∀ sz f t, 1 ≤ sz → sz ≤ 2 ^ 20 → pmmAllocFree sz s = some (some f, t) →
      SameButBitmap s t ∧
      ∀ g, ¬ (f ≤ g ∧ g < f + sz) → pmmBit t.pmmBitmap g = pmmBit s.pmmBitmap g) ∧
    (∀ f t, pmmFree f s = some ((), t) →
      SameButBitmap s t ∧ ∀ g, g ≠ f → pmmBit t.pmmBitmap g = pmmBit s.pmmBitmap g) := by
  have inv := h.inv hframes
  have hb : ∀ sz, sz ≤ 2 ^ 20 → s.pmmFrames + sz < sizeMax := by
    intro sz hsz
    rw [inv.frames]
    unfold sizeMax
    omega
  refine ⟨inv.disjoint, inv.nodup, inv.fresh, fun r hr f hf => (inv.bit f).mpr (.inr ⟨r, hr, hf⟩),
    fun sz _ hsz => pmmAllocFree_total (hb sz hsz), fun sz t _ _ hr => pmmAllocFree_none hr,
    fun sz f t _ hsz hr => ?_, fun f t hr => ?_⟩
  · obtain ⟨-, -, hst, hbits⟩ := pmmAllocFree_some (hb sz hsz).le hr
    exact ⟨hst, fun g hg => by rw [hbits]; simp [hg]⟩
  · cases hr
    exact ⟨rfl, fun g hg => by rw [pmmBit_setBitmap, if_neg hg]⟩

/-- Eight frames, two of them in use: an allocation of three frames goes past both. -/
def pmmSample : Machine := { (default : Machine) with pmmBitmap := fun _ => 5#32, pmmFrames := 8 }

theorem pmm_frames_exclusive_sample :
    PmmRun pmmSample ((pmmAllocFree 3 pmmSample).get rfl).2 [[4, 5, 6]] [4, 5, 6] ∧
    [[4, 5, 6]].Pairwise List.Disjoint ∧ ∀ f ∈ [4, 5, 6], pmmBit pmmSample.pmmBitmap f = false := by
  have run : PmmRun pmmSample ((pmmAllocFree 3 pmmSample).get rfl).2 [[4, 5, 6]] [4, 5, 6] :=
    .alloc .init (by decide) (by decide) (show pmmAllocFree 3 pmmSample = some (some 4, _) from rfl)
  have h := pmm_frames_exclusive (by decide) run
  exact ⟨run, h.1, h.2.2.1⟩

end SysX
