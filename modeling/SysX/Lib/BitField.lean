import Mathlib.Data.Nat.Bitwise
import Mathlib.Tactic.Common

/-! Single bits and bit ranges of a fixed-width word, as a packed C structure stores them. -/
namespace SysX.BitField

variable {w : ℕ}

def setBit (d : BitVec w) (i : ℕ) (b : Bool) : BitVec w :=
  if b then d ||| BitVec.twoPow w i else d &&& ~~~ BitVec.twoPow w i

def fieldMask (w off len : ℕ) : BitVec w := BitVec.ofNat w ((2 ^ len - 1) <<< off)

/-- The `len` bits of `d` from bit `off` up, as a number. -/
def getField (d : BitVec w) (off len : ℕ) : ℕ := (d.toNat >>> off) % 2 ^ len

/-- Store `v`, truncated to `len` bits, into the bits of `d` from `off` up. -/
def setField (d : BitVec w) (off len v : ℕ) : BitVec w :=
  (d &&& ~~~ fieldMask w off len) ||| BitVec.ofNat w ((v % 2 ^ len) <<< off)

theorem getLsbD_fieldMask (off len j : ℕ) :
    (fieldMask w off len).getLsbD j = decide (j < w ∧ off ≤ j ∧ j < off + len) := by
  rw [fieldMask, BitVec.getLsbD_ofNat, Nat.testBit_shiftLeft, Nat.testBit_two_pow_sub_one,
    Bool.eq_iff_iff]
  simp only [Bool.and_eq_true, decide_eq_true_eq]
  omega

theorem getLsbD_setBit (d : BitVec w) {i : ℕ} (hi : i < w) (b : Bool) (j : ℕ) :
    (setBit d i b).getLsbD j = if j = i then b else d.getLsbD j := by
  unfold setBit
  by_cases hj : j = i
  · subst hj
    cases b <;> simp [hi]
  · have hij : i ≠ j := fun h => hj h.symm
    cases b
    · by_cases hw : j < w
      · simp [hj, hw]
      · simp [hj, BitVec.getLsbD_of_ge _ _ (Nat.le_of_not_lt hw)]
    · simp [hj, hij]

theorem getLsbD_setField (d : BitVec w) {off len : ℕ} (h : off + len ≤ w) (v j : ℕ) :
    (setField d off len v).getLsbD j =
      if off ≤ j ∧ j < off + len then v.testBit (j - off) else d.getLsbD j := by
  unfold setField
  rw [BitVec.getLsbD_or, BitVec.getLsbD_and, BitVec.getLsbD_not, getLsbD_fieldMask,
    BitVec.getLsbD_ofNat, Nat.testBit_shiftLeft, Nat.testBit_mod_two_pow]
  by_cases hw : j < w
  · by_cases hj : off ≤ j ∧ j < off + len
    · have hl : j - off < len := by omega
      simp [hw, hj, hl]
    · have hl : ¬ (off ≤ j ∧ j - off < len) := by omega
      rw [if_neg hj]
      by_cases ho : off ≤ j
      · have hl' : ¬ j - off < len := fun h => hl ⟨ho, h⟩
        have hj' : ¬ j < off + len := fun h => hj ⟨ho, h⟩
        simp [hw, hl', hj']
      · simp [hw, ho]
  · have hj : ¬ (off ≤ j ∧ j < off + len) := by omega
    simp [hw, hj, BitVec.getLsbD_of_ge _ _ (Nat.le_of_not_lt hw)]

theorem testBit_getField (d : BitVec w) (off len j : ℕ) :
    (getField d off len).testBit j = (decide (j < len) && d.getLsbD (off + j)) := by
  rw [getField, Nat.testBit_mod_two_pow, Nat.testBit_shiftRight, BitVec.testBit_toNat]

theorem getField_lt (d : BitVec w) (off len : ℕ) : getField d off len < 2 ^ len :=
  Nat.mod_lt _ (Nat.two_pow_pos len)

/-- A range is determined by its bits. -/
theorem getField_congr {d e : BitVec w} {off len : ℕ}
    (h : ∀ j, off ≤ j → j < off + len → d.getLsbD j = e.getLsbD j) :
    getField d off len = getField e off len := by
  apply Nat.eq_of_testBit_eq
  intro j
  rw [testBit_getField, testBit_getField]
  by_cases hj : j < len
  · rw [h (off + j) (by omega) (by omega)]
  · simp [hj]

theorem getField_setField_self (d : BitVec w) {off len : ℕ} (h : off + len ≤ w) (v : ℕ) :
    getField (setField d off len v) off len = v % 2 ^ len := by
  apply Nat.eq_of_testBit_eq
  intro j
  rw [testBit_getField, getLsbD_setField d h, Nat.testBit_mod_two_pow, Nat.add_sub_cancel_left]
  by_cases hj : j < len
  · rw [if_pos (by omega)]
  · simp [hj]

end SysX.BitField
