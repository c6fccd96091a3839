import Mathlib.Data.Nat.Digits.Defs
import Mathlib.Tactic.Common

/-! The bytes of a fixed-width word, lowest first, and what masks and shifts by whole bytes do to them. -/
namespace SysX.ByteLanes

variable {n : ℕ} (x y : BitVec n)

/-- Byte `j` of `x`; it is zero beyond the word. -/
def lane (j : ℕ) : BitVec 8 := x.extractLsb' (8 * j) 8

@[simp] theorem getElem_lane (j : ℕ) {i : ℕ} (h : i < 8) : (lane x j)[i] = x.getLsbD (8 * j + i) := by
  simp [lane]

@[simp] theorem lane_and (j : ℕ) : lane (x &&& y) j = lane x j &&& lane y j := by
  ext i hi
  simp

@[simp] theorem lane_or (j : ℕ) : lane (x ||| y) j = lane x j ||| lane y j := by
  ext i hi
  simp

theorem lane_of_le {j : ℕ} (h : n ≤ 8 * j) : lane x j = 0 := by
  ext i hi
  have hb : n ≤ 8 * j + i := by omega
  simp [BitVec.getLsbD_of_ge x _ hb]

theorem lane_not {j : ℕ} (h : 8 * j + 8 ≤ n) : lane (~~~x) j = ~~~lane x j := by
  ext i hi
  have hb : 8 * j + i < n := by omega
  simp [hb]

theorem lane_setWidth {m j : ℕ} (h : 8 * j + 8 ≤ m) : lane (x.setWidth m) j = lane x j := by
  ext i hi
  have hb : 8 * j + i < m := by omega
  simp [hb]

/-- A shift up by `k` bytes. -/
theorem lane_shiftLeft (k : ℕ) {j : ℕ} (h : 8 * j + 8 ≤ n) :
    lane (x <<< (k * 8)) j = if k ≤ j then lane x (j - k) else 0 := by
  ext i hi
  have hb : 8 * j + i < n := by omega
  rw [getElem_lane, BitVec.getLsbD_shiftLeft]
  by_cases hk : k ≤ j
  · have hlow : ¬ 8 * j + i < k * 8 := by omega
    have hsub : 8 * j + i - k * 8 = 8 * (j - k) + i := by omega
    simp only [if_pos hk, getElem_lane, hsub, hb, hlow]
    simp
  · have hlow : 8 * j + i < k * 8 := by omega
    simp [hk, hlow]

/-- A narrower value shifted up by `k` bytes takes up the bytes from `k` on. -/
theorem lane_setWidth_shiftLeft {m : ℕ} (v : BitVec (8 * m)) (k : ℕ) {j : ℕ} (h : 8 * j + 8 ≤ n) :
    lane (v.setWidth n <<< (k * 8)) j = if k ≤ j ∧ j < k + m then lane v (j - k) else 0 := by
  rw [lane_shiftLeft _ _ h]
  by_cases hk : k ≤ j
  · rw [if_pos hk, lane_setWidth _ (by omega)]
    by_cases hm : j < k + m
    · rw [if_pos ⟨hk, hm⟩]
    · rw [if_neg (by omega), lane_of_le _ (by omega)]
  · rw [if_neg hk, if_neg (by omega)]

/-- A shift down by `k` bytes. -/
theorem lane_shiftRight (k j : ℕ) : lane (x >>> (k * 8)) j = lane x (j + k) := by
  ext i hi
  have hadd : k * 8 + (8 * j + i) = 8 * (j + k) + i := by omega
  simp [hadd]

/-- Two words of whole bytes are equal when their bytes are. -/
theorem eq_of_lane {x y : BitVec (8 * n)} (h : ∀ j < n, lane x j = lane y j) : x = y := by
  apply BitVec.eq_of_getLsbD_eq
  intro i hi
  have hlt : i % 8 < 8 := Nat.mod_lt _ (by omega)
  have hbit := congrArg (fun b : BitVec 8 => b[i % 8]) (h (i / 8) (by omega))
  simpa only [getElem_lane, Nat.div_add_mod] using hbit

theorem toNat_lane (j : ℕ) : (lane x j).toNat = x.toNat / 256 ^ j % 256 := by
  rw [lane, BitVec.extractLsb'_toNat, Nat.shiftRight_eq_div_pow, Nat.pow_mul]

/-- A number of whole bytes is put together from them. -/
theorem ofDigits_lane (x : BitVec (8 * n)) :
    Nat.ofDigits 256 ((List.range n).map fun j => (lane x j).toNat) = x.toNat := by
  have hlow : ∀ m, Nat.ofDigits 256 ((List.range m).map fun j => (lane x j).toNat) = x.toNat % 256 ^ m := by
    intro m
    induction m with
    | zero => exact (Nat.mod_one _).symm
    | succ m ih =>
      rw [List.range_succ, List.map_append, Nat.ofDigits_append, ih, List.length_map, List.length_range,
        List.map_singleton, Nat.ofDigits_singleton, toNat_lane, Nat.mod_pow_succ]
  rw [hlow, show 256 = 2 ^ 8 from rfl, ← Nat.pow_mul]
  exact Nat.mod_eq_of_lt x.isLt

end SysX.ByteLanes
