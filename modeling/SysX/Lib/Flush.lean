import Mathlib.Data.Nat.Find
import Mathlib.Tactic.Common

/-!
A pass over a buffer in pages of two sizes, which copies the dirty pages to another buffer and cleans them. The
pass copies, and passes over clean pages, by the length of the last dirty page before.
-/
namespace SysX.Flush

/-- A buffer of `size` bytes from the small page `first` on. Small pages have `cell` bytes, and the `slot` small
pages of an aligned slot may be one big page. -/
structure Layout where
  cell : ℕ
  slot : ℕ
  big : ℕ → Bool
  first : ℕ
  size : ℕ
  cell_pos : 0 < cell
  slot_gt : 1 < slot

/-- The dirty bit of every page, and the buffer that is copied to. -/
structure Contents (β : Type*) where
  dirty : ℕ → Bool
  front : ℕ → β

namespace Layout

variable (L : Layout)

def off (p : ℕ) : ℕ := (p - L.first) * L.cell

def InRange (p : ℕ) : Prop := L.off p < L.size

/-- The length in small pages of the page at `p`. -/
def len (p : ℕ) : ℕ := if L.big (p / L.slot) then L.slot else 1

/-- A page starts at `p`. -/
def Starts (p : ℕ) : Prop := L.big (p / L.slot) = true → p % L.slot = 0

/-- `p` is of the page at `q`. -/
def SamePage (q p : ℕ) : Prop := p = q ∨ L.big (q / L.slot) = true ∧ p / L.slot = q / L.slot

instance (p : ℕ) : Decidable (L.InRange p) := inferInstanceAs (Decidable (_ < _))

instance (q p : ℕ) : Decidable (L.SamePage q p) := inferInstanceAs (Decidable (_ ∨ _))

variable {β : Type*} (back : ℕ → β)

/-- `z` small pages are copied from `q` on, as far as the buffer goes, and the page at `q` is clean. -/
def write (c : Contents β) (q z : ℕ) : Contents β where
  dirty p := if L.SamePage q p then false else c.dirty p
  front a := if L.off q ≤ a ∧ a < L.off q + z * L.cell ∧ a < L.size then back a else c.front a

/-- The pass from the page `q` on, where `z` is the length of the last dirty page before. -/
def flush : (fuel q z : ℕ) → Contents β → Option (Contents β)
  | 0, _, _, _ => none
  | fuel + 1, q, z, c =>
    if L.InRange q then
      if c.dirty q then flush fuel (q + L.len q) (L.len q) (L.write back c q z)
      else flush fuel (q + z) z c
    else some c

/-- From `q` on every page is clean and every byte was copied. -/
structure Done (q : ℕ) (c : Contents β) : Prop where
  clean : ∀ p, q ≤ p → L.InRange p → c.dirty p = false
  equal : ∀ a, L.off q ≤ a → a < L.size → c.front a = back a

/-- A dirty page may come after one of the length `z`: a big page after a small one has only its first small page
copied, and a small page after a big one is passed over unless it is the first of its slot. -/
structure Fits (front : ℕ → β) (z p : ℕ) : Prop where
  big : L.big (p / L.slot) = true → z = 1 →
    ∀ a, L.off p + L.cell ≤ a → a < L.off p + L.slot * L.cell → a < L.size → front a = back a
  small : L.big (p / L.slot) = false → z = L.slot → p % L.slot = 0

/-- The next dirty page from `q` on is `p`. -/
structure NextDirty (d : ℕ → Bool) (q p : ℕ) : Prop where
  le : q ≤ p
  range : L.InRange p
  starts : L.Starts p
  dirty : d p = true
  clean : ∀ r, q ≤ r → r < p → d r = false

/-- From `q` on every dirty page fits the dirty page before it. -/
def Chain (c : Contents β) (q : ℕ) : Prop :=
  ∀ q', q ≤ q' → L.Starts q' → c.dirty q' = true →
    ∀ p, L.NextDirty c.dirty (q' + L.len q') p → L.Fits back c.front (L.len q') p

/-- Every clean page from `q` on is equal in both buffers. -/
def Sound (c : Contents β) (q : ℕ) : Prop :=
  ∀ p, q ≤ p → L.InRange p → c.dirty p = false →
    ∀ a, L.off p ≤ a → a < L.off p + L.cell → a < L.size → c.front a = back a

/-- Where the pass may be: after a big page at the start of a slot, and at a dirty page at its start. -/
structure Aligned (d : ℕ → Bool) (q z : ℕ) : Prop where
  first : L.first ≤ q
  step : z = 1 ∨ z = L.slot
  slot : z = L.slot → q % L.slot = 0
  starts : d q = true → L.Starts q
  whole : ∀ p p', L.big (p / L.slot) = true → p / L.slot = p' / L.slot → d p = d p'

end Layout

namespace Layout

variable {L : Layout} {β : Type*} {back : ℕ → β} {c r : Contents β} {d : ℕ → Bool} {p q z fuel : ℕ}

theorem off_add (h : L.first ≤ q) (z : ℕ) : L.off (q + z) = L.off q + z * L.cell := by
  rw [off, off, ← Nat.add_mul]
  congr 1
  omega

theorem off_mono (h : q ≤ p) : L.off q ≤ L.off p := Nat.mul_le_mul_right _ (by omega)

theorem InRange.mono (h : L.InRange p) (hq : q ≤ p) : L.InRange q := Nat.lt_of_le_of_lt (off_mono hq) h

theorem InRange.lt (h : L.InRange p) : p < L.first + L.size := by
  have hcell := Nat.le_mul_of_pos_right (p - L.first) L.cell_pos
  have hp : (p - L.first) * L.cell < L.size := h
  omega

theorem len_cases : L.big (q / L.slot) = true ∧ L.len q = L.slot ∨ L.big (q / L.slot) = false ∧ L.len q = 1 := by
  unfold len
  cases L.big (q / L.slot) <;> simp

theorem len_pos : 0 < L.len q := by
  have := L.slot_gt
  rcases len_cases (L := L) (q := q) with h | h <;> omega

/-- The small pages of the page that starts at `q`. -/
theorem samePage_iff (h : L.Starts q) : L.SamePage q p ↔ q ≤ p ∧ p < q + L.len q := by
  have hslot := L.slot_gt
  unfold SamePage
  rcases len_cases (L := L) (q := q) with ⟨hbig, hlen⟩ | ⟨hbig, hlen⟩
  · have hq := Nat.div_add_mod q L.slot
    rw [h hbig] at hq
    rw [hlen, hbig]
    constructor
    · rintro (rfl | ⟨-, heq⟩)
      · omega
      · have hp := Nat.div_add_mod p L.slot
        have hlt := Nat.mod_lt p (Nat.zero_lt_of_lt hslot)
        rw [heq] at hp
        omega
    · rintro ⟨hle, hlt⟩
      refine .inr ⟨rfl, ?_⟩
      apply Nat.div_eq_of_lt_le
      · rw [Nat.mul_comm]
        omega
      · rw [Nat.succ_mul, Nat.mul_comm]
        omega
  · rw [hlen, hbig]
    simp only [Bool.false_eq_true, false_and, or_false]
    omega

/-- After a page the next one starts. -/
theorem starts_after (h : L.Starts q) : L.Starts (q + L.len q) := by
  intro hbig
  rcases len_cases (L := L) (q := q) with ⟨hbig', hlen⟩ | ⟨hbig', hlen⟩
  · rw [hlen, Nat.add_mod_right]
    exact h hbig'
  · rw [hlen] at hbig ⊢
    by_contra hmod
    have hsame : (q + 1) / L.slot = q / L.slot := by
      rw [Nat.succ_div, if_neg fun hdvd => hmod (Nat.mod_eq_zero_of_dvd hdvd), Nat.add_zero]
    rw [hsame, hbig'] at hbig
    cases hbig

namespace Aligned

theorem pos (h : L.Aligned d q z) : 0 < z := by
  have := L.slot_gt
  have := h.step
  omega

/-- After a dirty page the pass is at the next one. -/
theorem after (hfirst : L.first ≤ q) (hstarts : L.Starts q)
    (hwhole : ∀ p p', L.big (p / L.slot) = true → p / L.slot = p' / L.slot → c.dirty p = c.dirty p') :
    L.Aligned (L.write back c q z).dirty (q + L.len q) (L.len q) := by
  constructor
  case first => exact Nat.le_add_right_of_le hfirst
  case step =>
    rcases len_cases (L := L) (q := q) with ⟨-, hlen⟩ | ⟨-, hlen⟩
    · exact .inr hlen
    · exact .inl hlen
  case slot =>
    intro hlen
    have hslot := L.slot_gt
    rcases len_cases (L := L) (q := q) with ⟨hbig, -⟩ | ⟨-, hone⟩
    · rw [hlen, Nat.add_mod_right]
      exact hstarts hbig
    · omega
  case starts => exact fun _ => starts_after hstarts
  case whole =>
    intro p p' hbig heq
    have hsame : L.SamePage q p ↔ L.SamePage q p' := by
      unfold SamePage
      constructor
      · rintro (rfl | ⟨hb, hs⟩)
        · exact .inr ⟨hbig, heq.symm⟩
        · exact .inr ⟨hb, heq.symm.trans hs⟩
      · rintro (rfl | ⟨hb, hs⟩)
        · exact .inr ⟨heq ▸ hbig, heq⟩
        · exact .inr ⟨hb, heq.trans hs⟩
    simp only [write, hsame, hwhole p p' hbig heq]

theorem dirty_step (h : L.Aligned c.dirty q z) (hd : c.dirty q = true) :
    L.Aligned (L.write back c q z).dirty (q + L.len q) (L.len q) := after h.first (h.starts hd) h.whole

/-- A clean page is passed over. -/
theorem clean_step (h : L.Aligned d q z) (hd : d q = false) : L.Aligned d (q + z) z := by
  constructor
  case first => exact Nat.le_add_right_of_le h.first
  case step => exact h.step
  case slot =>
    intro hz
    rw [hz, Nat.add_mod_right]
    exact h.slot hz
  case starts =>
    intro hdirty hbig
    rcases h.step with rfl | hz
    · by_contra hmod
      have hsame : (q + 1) / L.slot = q / L.slot := by
        rw [Nat.succ_div, if_neg fun hdvd => hmod (Nat.mod_eq_zero_of_dvd hdvd), Nat.add_zero]
      rw [h.whole _ _ hbig hsame, hd] at hdirty
      cases hdirty
    · rw [hz, Nat.add_mod_right]
      exact h.slot hz
  case whole => exact h.whole

end Aligned

/-- The pass leaves the pages before it alone, and the bytes before it and beyond the buffer. -/
theorem flush_keeps (h : L.Aligned c.dirty q z) (hr : L.flush back fuel q z c = some r) :
    (∀ p < q, r.dirty p = c.dirty p) ∧ ∀ a, a < L.off q ∨ L.size ≤ a → r.front a = c.front a := by
  induction fuel generalizing q z c with
  | zero => cases hr
  | succ fuel ih =>
    rw [flush] at hr
    split_ifs at hr with hrange hd
    · obtain ⟨hdirty, hfront⟩ := ih (h.dirty_step hd) hr
      have hlen := len_pos (L := L) (q := q)
      constructor
      · intro p hp
        rw [hdirty p (by omega)]
        refine if_neg fun hsame => ?_
        have := (samePage_iff (h.starts hd)).mp hsame
        omega
      · intro a ha
        have hmono := off_mono (L := L) (Nat.le_add_right q (L.len q))
        rw [hfront a (by omega)]
        exact if_neg (by omega)
    · obtain ⟨hdirty, hfront⟩ := ih (h.clean_step (by simpa using hd)) hr
      have hmono := off_mono (L := L) (Nat.le_add_right q z)
      constructor
      · intro p hp
        exact hdirty p (by omega)
      · intro a ha
        exact hfront a (by omega)
    · obtain rfl := Option.some_inj.mp hr
      exact ⟨fun _ _ => rfl, fun _ _ => rfl⟩

theorem flush_beyond (hr : L.flush back fuel q z c = some r) {a : ℕ} (ha : L.size ≤ a) : r.front a = c.front a := by
  induction fuel generalizing q z c with
  | zero => cases hr
  | succ fuel ih =>
    rw [flush] at hr
    split_ifs at hr
    · rw [ih hr]
      exact if_neg (by omega)
    · exact ih hr
    · rw [Option.some_inj.mp hr]

/-! A dirty page. -/

theorem NextDirty.self (hrange : L.InRange q) (hstarts : L.Starts q) (hd : d q = true) : L.NextDirty d q q where
  le := Nat.le_refl q
  range := hrange
  starts := hstarts
  dirty := hd
  clean r hle hlt := by omega

theorem NextDirty.eq_self (h : L.NextDirty d q p) (hd : d q = true) : p = q := by
  by_contra hne
  have hle := h.le
  rw [h.clean q (Nat.le_refl q) (by omega)] at hd
  cases hd

/-- The write for a page leaves the big pages after it alone. -/
def Harmless (L : Layout) (back : ℕ → β) (c : Contents β) (q z : ℕ) : Prop :=
  ∀ p, q < p → L.big (p / L.slot) = true → L.Starts p → ∀ a, L.off p ≤ a → (L.write back c q z).front a = c.front a

/-- After a big page no more than a slot of small pages is written. -/
theorem Aligned.harmless (h : L.Aligned c.dirty q z) : L.Harmless back c q z := by
  intro p hlt hbig hstarts a ha
  have hafter : q + z ≤ p := by
    rcases h.step with rfl | hz
    · exact hlt
    · have hq := Nat.div_add_mod q L.slot
      have hp := Nat.div_add_mod p L.slot
      rw [h.slot hz] at hq
      rw [hstarts hbig] at hp
      have hdiv : q / L.slot < p / L.slot := by
        by_contra hge
        have := Nat.mul_le_mul_left L.slot (Nat.le_of_not_lt hge)
        omega
      have := Nat.mul_le_mul_left L.slot hdiv
      rw [Nat.succ_eq_add_one, Nat.mul_add, Nat.mul_one] at this
      omega
  have hoff := off_mono (L := L) hafter
  rw [off_add h.first] at hoff
  exact if_neg (by omega)

theorem write_dirty (hstarts : L.Starts q) (hle : q + L.len q ≤ p) :
    (L.write back c q z).dirty p = c.dirty p := by
  refine if_neg fun hsame => ?_
  have := (samePage_iff hstarts).mp hsame
  omega

theorem fits_write (h : L.Harmless back c q z) (hlt : q < p) (hstarts : L.Starts p) {z' : ℕ} :
    L.Fits back (L.write back c q z).front z' p ↔ L.Fits back c.front z' p := by
  have hfront (hbig : L.big (p / L.slot) = true) (a : ℕ) (ha : L.off p + L.cell ≤ a) :
      (L.write back c q z).front a = c.front a := h p hlt hbig hstarts a (by omega)
  constructor
  · intro hfits
    refine ⟨fun hbig hz a ha hend hsize => ?_, hfits.small⟩
    rw [← hfront hbig a ha]
    exact hfits.big hbig hz a ha hend hsize
  · intro hfits
    refine ⟨fun hbig hz a ha hend hsize => ?_, hfits.small⟩
    rw [hfront hbig a ha]
    exact hfits.big hbig hz a ha hend hsize

theorem nextDirty_write (hstarts : L.Starts q) {q' : ℕ} (hle : q + L.len q ≤ q') :
    L.NextDirty (L.write back c q z).dirty q' p ↔ L.NextDirty c.dirty q' p := by
  constructor
  · intro h
    have hle' := h.le
    refine ⟨h.le, h.range, h.starts, ?_, fun r hr hlt => ?_⟩
    · rw [← write_dirty hstarts (by omega)]
      exact h.dirty
    · rw [← write_dirty hstarts (by omega)]
      exact h.clean r hr hlt
  · intro h
    have hle' := h.le
    refine ⟨h.le, h.range, h.starts, ?_, fun r hr hlt => ?_⟩
    · rw [write_dirty hstarts (by omega)]
      exact h.dirty
    · rw [write_dirty hstarts (by omega)]
      exact h.clean r hr hlt

/-- The page itself was copied exactly when it fits the page before. -/
theorem page_equal_iff (h : L.Aligned c.dirty q z) :
    (∀ a, L.off q ≤ a → a < L.off (q + L.len q) → a < L.size → (L.write back c q z).front a = back a) ↔
      L.Fits back c.front z q := by
  have hfirst := h.first
  have hslot := L.slot_gt
  rw [off_add hfirst]
  constructor
  · intro hequal
    constructor
    · rintro hbig rfl a ha hend hsize
      rw [len, if_pos hbig] at hequal
      rw [← hequal a (by omega) hend hsize]
      exact (if_neg (by omega)).symm
    · intro _ hz
      exact h.slot hz
  · intro hfits a ha hend hsize
    by_cases hcopied : a < L.off q + z * L.cell
    · exact if_pos ⟨ha, hcopied, hsize⟩
    · have hbig : L.big (q / L.slot) = true ∧ z = 1 := by
        rcases len_cases (L := L) (q := q) with ⟨hbig, hlen⟩ | ⟨-, hlen⟩
        · refine ⟨hbig, h.step.resolve_right ?_⟩
          intro hz
          rw [hlen, ← hz] at hend
          omega
        · rw [hlen] at hend
          have := Nat.mul_le_mul_right L.cell h.pos
          omega
      obtain ⟨hbig, rfl⟩ := hbig
      rw [len, if_pos hbig] at hend
      have hkept : (L.write back c q 1).front a = c.front a := if_neg (by omega)
      rw [hkept]
      exact hfits.big hbig rfl a (by omega) hend hsize

/-- The chain from a dirty page on is what comes after it. -/
theorem chain_iff (hstarts : L.Starts q) (hd : c.dirty q = true) (hw : L.Harmless back c q z) :
    L.Chain back c q ↔
      (∀ p, L.NextDirty (L.write back c q z).dirty (q + L.len q) p →
          L.Fits back (L.write back c q z).front (L.len q) p) ∧
        L.Chain back (L.write back c q z) (q + L.len q) := by
  have hlen := len_pos (L := L) (q := q)
  constructor
  · intro hchain
    constructor
    · intro p hp
      have hle := hp.le
      rw [nextDirty_write hstarts (Nat.le_refl _)] at hp
      rw [fits_write hw (by omega) hp.starts]
      exact hchain q (Nat.le_refl q) hstarts hd p hp
    · intro q' hle hstarts' hd' p hp
      have hlen' := len_pos (L := L) (q := q')
      have hle' := hp.le
      rw [write_dirty hstarts hle] at hd'
      rw [nextDirty_write hstarts (by omega)] at hp
      rw [fits_write hw (by omega) hp.starts]
      exact hchain q' (by omega) hstarts' hd' p hp
  · rintro ⟨hnext, hchain⟩ q' hle hstarts' hd' p hp
    have hle' := hp.le
    have hlen' := len_pos (L := L) (q := q')
    by_cases hself : q' = q
    · subst hself
      have hp' : L.NextDirty (L.write back c q' z).dirty (q' + L.len q') p :=
        (nextDirty_write hstarts (Nat.le_refl _)).mpr hp
      rw [← fits_write hw (by omega) hp.starts]
      exact hnext p hp'
    · have hafter : q + L.len q ≤ q' := by
        by_contra hlt
        rcases (samePage_iff hstarts).mpr ⟨hle, Nat.lt_of_not_ge hlt⟩ with heq | ⟨hbig, heq⟩
        · exact hself heq
        · have hq := Nat.div_add_mod q L.slot
          have hq' := Nat.div_add_mod q' L.slot
          rw [hstarts hbig] at hq
          rw [hstarts' (heq ▸ hbig), heq] at hq'
          omega
      rw [← fits_write hw (by omega) hp.starts]
      apply hchain q' hafter hstarts'
      · rw [write_dirty hstarts hafter]
        exact hd'
      · exact (nextDirty_write hstarts (by omega)).mpr hp

theorem Sound.write (hs : L.Sound back c q) (hstarts : L.Starts q) :
    L.Sound back (L.write back c q z) (q + L.len q) := by
  intro p hle hrange hclean a ha hend hsize
  rw [write_dirty hstarts hle] at hclean
  by_cases hcopied : L.off q ≤ a ∧ a < L.off q + z * L.cell ∧ a < L.size
  · exact if_pos hcopied
  · exact (if_neg hcopied).trans (hs p (by omega) hrange hclean a ha hend hsize)

/-- The pass over a dirty page is done when the page was copied and the pass after it is done. -/
theorem flush_dirty_iff (hrange : L.InRange q) (hd : c.dirty q = true) (hstarts : L.Starts q)
    (hstep : L.Aligned (L.write back c q z).dirty (q + L.len q) (L.len q)) :
    (∃ fuel r, L.flush back fuel q z c = some r ∧ L.Done back q r) ↔
      (∀ a, L.off q ≤ a → a < L.off (q + L.len q) → a < L.size → (L.write back c q z).front a = back a) ∧
        ∃ fuel r, L.flush back fuel (q + L.len q) (L.len q) (L.write back c q z) = some r ∧
          L.Done back (q + L.len q) r := by
  have hmono := off_mono (L := L) (Nat.le_add_right q (L.len q))
  constructor
  · rintro ⟨fuel, r, hr, hdone⟩
    cases fuel with
    | zero => cases hr
    | succ fuel =>
      rw [flush, if_pos hrange, if_pos hd] at hr
      obtain ⟨-, hfront⟩ := flush_keeps hstep hr
      constructor
      · intro a ha hend hsize
        rw [← hfront a (.inl hend)]
        exact hdone.equal a ha hsize
      · exact ⟨fuel, r, hr, fun p hp => hdone.clean p (by omega), fun a ha => hdone.equal a (by omega)⟩
  · rintro ⟨hequal, fuel, r, hr, hdone⟩
    obtain ⟨hdirty, hfront⟩ := flush_keeps hstep hr
    refine ⟨fuel + 1, r, by rw [flush, if_pos hrange, if_pos hd, hr], ?_, ?_⟩
    · intro p hp hin
      by_cases hafter : q + L.len q ≤ p
      · exact hdone.clean p hafter hin
      · rw [hdirty p (by omega)]
        exact if_pos ((samePage_iff hstarts).mpr ⟨hp, by omega⟩)
    · intro a ha hsize
      by_cases hafter : L.off (q + L.len q) ≤ a
      · exact hdone.equal a hafter hsize
      · rw [hfront a (by omega)]
        exact hequal a ha (by omega) hsize

/-! Clean pages. -/

/-- The pages that are passed over are clean as far as the buffer goes. -/
def PassedClean (L : Layout) (d : ℕ → Bool) (q z : ℕ) : Prop :=
  ∀ p, q ≤ p → p < q + z → L.InRange p → d p = false

theorem PassedClean.nextDirty (h : L.PassedClean d q z) : L.NextDirty d q p ↔ L.NextDirty d (q + z) p := by
  constructor
  · intro hp
    refine ⟨?_, hp.range, hp.starts, hp.dirty, fun r hr hlt => hp.clean r (by omega) hlt⟩
    by_contra hlt
    have hd := hp.dirty
    rw [h p hp.le (Nat.lt_of_not_ge hlt) hp.range] at hd
    cases hd
  · intro hp
    have hle := hp.le
    refine ⟨by omega, hp.range, hp.starts, hp.dirty, fun r hr hlt => ?_⟩
    by_cases hpassed : r < q + z
    · exact h r hr hpassed (hp.range.mono (Nat.le_of_lt hlt))
    · exact hp.clean r (by omega) hlt

theorem PassedClean.chain (h : L.PassedClean c.dirty q z) : L.Chain back c q ↔ L.Chain back c (q + z) := by
  constructor
  · intro hchain q' hle
    exact hchain q' (by omega)
  · intro hchain q' hle hstarts hd p hp
    have hle' := hp.le
    refine hchain q' ?_ hstarts hd p hp
    by_contra hlt
    rw [h q' hle (Nat.lt_of_not_ge hlt) (hp.range.mono (by omega))] at hd
    cases hd

/-- Their bytes are equal. -/
theorem PassedClean.equal (h : L.PassedClean c.dirty q z) (hfirst : L.first ≤ q) (hs : L.Sound back c q) {a : ℕ}
    (ha : L.off q ≤ a) (hend : a < L.off (q + z)) (hsize : a < L.size) : c.front a = back a := by
  have hcell := L.cell_pos
  rw [off_add hfirst] at hend
  have hdiv := Nat.div_add_mod' (a - L.off q) L.cell
  have hmod := Nat.mod_lt (a - L.off q) hcell
  have hoff := off_add hfirst ((a - L.off q) / L.cell)
  have hpage : (a - L.off q) / L.cell < z := (Nat.div_lt_iff_lt_mul hcell).mpr (by omega)
  have hrange : L.InRange (q + (a - L.off q) / L.cell) := by
    unfold InRange
    omega
  have hle := Nat.le_add_right q ((a - L.off q) / L.cell)
  exact hs _ hle hrange (h _ hle (Nat.add_lt_add_left hpage q) hrange) a (by omega) (by omega) hsize

/-- A slot of small pages that are not all clean has a dirty page which does not fit a big page before. -/
theorem not_fits_of_passed (h : L.Aligned c.dirty q z) (hd : c.dirty q = false)
    (hpassed : ¬L.PassedClean c.dirty q z) : ∃ p, L.NextDirty c.dirty q p ∧ p < q + z ∧ ¬L.Fits back c.front z p := by
  have hslot := L.slot_gt
  have hsome : ∃ p, q ≤ p ∧ p < q + z ∧ L.InRange p ∧ c.dirty p = true := by
    by_contra hnone
    refine hpassed fun p hle hlt hrange => ?_
    by_contra hdirty
    exact hnone ⟨p, hle, hlt, hrange, by simpa using hdirty⟩
  obtain ⟨⟨hle, hlt, hrange, hdirty⟩, hmin⟩ := And.intro (Nat.find_spec hsome) fun r => Nat.find_min hsome (m := r)
  generalize Nat.find hsome = p at hle hlt hrange hdirty hmin
  have hne : p ≠ q := by
    rintro rfl
    rw [hd] at hdirty
    cases hdirty
  have hz : z = L.slot := by
    refine h.step.resolve_left ?_
    rintro rfl
    omega
  have hq := Nat.div_add_mod q L.slot
  have hp := Nat.div_add_mod p L.slot
  rw [h.slot hz] at hq
  have hsame : p / L.slot = q / L.slot := by
    apply Nat.div_eq_of_lt_le
    · rw [Nat.mul_comm]
      omega
    · rw [Nat.succ_mul, Nat.mul_comm]
      omega
  rw [hsame] at hp
  have hsmall : L.big (p / L.slot) = false := by
    by_contra hbig
    rw [h.whole p q (by simpa using hbig) hsame, hd] at hdirty
    cases hdirty
  refine ⟨p, ⟨hle, hrange, ?_, hdirty, ?_⟩, hlt, ?_⟩
  · intro hbig
    rw [hsmall] at hbig
    cases hbig
  · intro r hr hrp
    by_contra hdr
    exact hmin r hrp ⟨hr, by omega, hrange.mono (Nat.le_of_lt hrp), by simpa using hdr⟩
  · intro hfits
    have := hfits.small hsmall hz
    omega

/-- The pass over clean pages is done when the pass after them is done. -/
theorem flush_clean_iff (hrange : L.InRange q) (hd : c.dirty q = false) (hpassed : L.PassedClean c.dirty q z)
    (hstep : L.Aligned c.dirty (q + z) z) (hfirst : L.first ≤ q) (hs : L.Sound back c q) :
    (∃ fuel r, L.flush back fuel q z c = some r ∧ L.Done back q r) ↔
      ∃ fuel r, L.flush back fuel (q + z) z c = some r ∧ L.Done back (q + z) r := by
  have hmono := off_mono (L := L) (Nat.le_add_right q z)
  have hd' : ¬c.dirty q = true := by simp [hd]
  constructor
  · rintro ⟨fuel, r, hr, hdone⟩
    cases fuel with
    | zero => cases hr
    | succ fuel =>
      rw [flush, if_pos hrange, if_neg hd'] at hr
      exact ⟨fuel, r, hr, fun p hp => hdone.clean p (by omega), fun a ha => hdone.equal a (by omega)⟩
  · rintro ⟨fuel, r, hr, hdone⟩
    obtain ⟨hdirty, hfront⟩ := flush_keeps hstep hr
    refine ⟨fuel + 1, r, by rw [flush, if_pos hrange, if_neg hd', hr], ?_, ?_⟩
    · intro p hp hin
      by_cases hafter : q + z ≤ p
      · exact hdone.clean p hafter hin
      · rw [hdirty p (by omega)]
        exact hpassed p hp (by omega) hin
    · intro a ha hsize
      by_cases hafter : L.off (q + z) ≤ a
      · exact hdone.equal a hafter hsize
      · rw [hfront a (by omega)]
        exact hpassed.equal hfirst hs ha (by omega) hsize

/-- The pass brings over everything from `q` on exactly when every dirty page fits the one before. -/
theorem flush_iff (h : L.Aligned c.dirty q z) (hs : L.Sound back c q) :
    (∃ fuel r, L.flush back fuel q z c = some r ∧ L.Done back q r) ↔
      (∀ p, L.NextDirty c.dirty q p → L.Fits back c.front z p) ∧ L.Chain back c q := by
  induction hn : L.first + L.size - q using Nat.strongRecOn generalizing q z c with
  | ind n ih =>
    by_cases hrange : L.InRange q
    · have hlt := hrange.lt
      by_cases hd : c.dirty q = true
      · have hlen := len_pos (L := L) (q := q)
        have hstarts := h.starts hd
        have hstep : L.Aligned (L.write back c q z).dirty (q + L.len q) (L.len q) := h.dirty_step hd
        rw [flush_dirty_iff hrange hd hstarts hstep, ih _ (by omega) hstep (hs.write hstarts) rfl,
          page_equal_iff h, chain_iff hstarts hd h.harmless]
        have hself : (∀ p, L.NextDirty c.dirty q p → L.Fits back c.front z p) ↔ L.Fits back c.front z q := by
          constructor
          · intro hnext
            exact hnext q (.self hrange hstarts hd)
          · intro hfits p hp
            rw [hp.eq_self hd]
            exact hfits
        rw [hself]
      · have hclean : c.dirty q = false := by simpa using hd
        have hpos := h.pos
        have hstep := h.clean_step hclean
        by_cases hpassed : L.PassedClean c.dirty q z
        · simp only [hpassed.nextDirty, hpassed.chain]
          rw [flush_clean_iff hrange hclean hpassed hstep h.first hs]
          exact ih _ (by omega) hstep (fun p hp => hs p (by omega)) rfl
        · obtain ⟨p, hp, hlt', hfits⟩ : ∃ p, L.NextDirty c.dirty q p ∧ p < q + z ∧ ¬L.Fits back c.front z p :=
            not_fits_of_passed h hclean hpassed
          refine iff_of_false ?_ fun hall => hfits (hall.1 p hp)
          rintro ⟨fuel, r, hr, hdone⟩
          cases fuel with
          | zero => cases hr
          | succ fuel =>
            rw [flush, if_pos hrange, if_neg hd] at hr
            have hkept := (flush_keeps hstep hr).1 p hlt'
            rw [hdone.clean p hp.le hp.range, hp.dirty] at hkept
            cases hkept
    · -- the end of the buffer
      have hend : ∀ p, q ≤ p → ¬L.InRange p := fun p hp hin => hrange (hin.mono hp)
      constructor
      · intro _
        constructor
        · intro p hp
          exact absurd hp.range (hend p hp.le)
        · intro q' hle _ _ p hp
          have hle' := hp.le
          exact absurd hp.range (hend p (by omega))
      · intro _
        refine ⟨1, c, by rw [flush, if_neg hrange], fun p hp hin => absurd hin (hend p hp), fun a ha hsize => ?_⟩
        have hq : ¬L.off q < L.size := hrange
        omega

/-- A pass that starts with the length 0 never leaves a clean first page, and does not copy a dirty one. -/
theorem flush_first_iff (hrange : L.InRange L.first) (hstarts : L.Starts L.first)
    (hwhole : ∀ p p', L.big (p / L.slot) = true → p / L.slot = p' / L.slot → c.dirty p = c.dirty p')
    (hs : L.Sound back c L.first) :
    (∃ fuel r, L.flush back fuel L.first 0 c = some r ∧ L.Done back L.first r) ↔
      c.dirty L.first = true ∧
        (∀ a, a < L.len L.first * L.cell → a < L.size → c.front a = back a) ∧ L.Chain back c L.first := by
  by_cases hd : c.dirty L.first = true
  · have hstep : L.Aligned (L.write back c L.first 0).dirty (L.first + L.len L.first) (L.len L.first) :=
      .after (Nat.le_refl L.first) hstarts hwhole
    have hfront (a : ℕ) : (L.write back c L.first 0).front a = c.front a := by
      refine if_neg ?_
      rw [Nat.zero_mul]
      omega
    have hzero : L.off L.first = 0 := by
      rw [off, Nat.sub_self, Nat.zero_mul]
    rw [flush_dirty_iff hrange hd hstarts hstep, flush_iff hstep (hs.write hstarts),
      ← chain_iff hstarts hd fun p _ _ _ a _ => hfront a, off_add (Nat.le_refl L.first), hzero, Nat.zero_add]
    simp only [hfront, hd, true_and, Nat.zero_le, forall_const]
  · refine iff_of_false ?_ fun h => hd h.1
    rintro ⟨fuel, r, hr, -⟩
    induction fuel with
    | zero => cases hr
    | succ fuel ih =>
      rw [flush, if_pos hrange, if_neg hd] at hr
      exact ih hr

end Layout

end SysX.Flush
