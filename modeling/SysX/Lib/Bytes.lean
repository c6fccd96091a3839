import Mathlib.Algebra.Group.Nat.Defs
import Mathlib.Logic.Function.Basic
import Mathlib.Tactic.Common

/-! Little-endian numbers in a store of bytes, where `f` enumerates the cells that a number takes up. -/
namespace SysX

variable {α : Type} {m : α → UInt8} {f : ℕ → α} {n v : ℕ} {a : α}

def readLe (m : α → UInt8) (f : ℕ → α) : ℕ → ℕ
  | 0 => 0
  | n + 1 => (m (f 0)).toNat + 256 * readLe m (fun i => f (i + 1)) n

def writeLe [DecidableEq α] (m : α → UInt8) (f : ℕ → α) : (n v : ℕ) → α → UInt8
  | 0, _ => m
  | n + 1, v => Function.update (writeLe m (fun i => f (i + 1)) n (v / 256)) (f 0) (UInt8.ofNat v)

theorem readLe_lt (m : α → UInt8) (f : ℕ → α) (n : ℕ) : readLe m f n < 256 ^ n := by
  induction n generalizing f with
  | zero => exact Nat.one_pos
  | succ n ih =>
    have hlow := (m (f 0)).toNat_lt
    have hhigh := ih fun i => f (i + 1)
    rw [readLe, Nat.pow_succ]
    omega

/-- The number depends on its own cells only. -/
theorem readLe_congr {β : Type} {m' : β → UInt8} {g : ℕ → β} (h : ∀ i < n, m' (g i) = m (f i)) :
    readLe m' g n = readLe m f n := by
  induction n generalizing f g with
  | zero => rfl
  | succ n ih =>
    have hrest := ih (f := fun i => f (i + 1)) fun i hi => h (i + 1) (Nat.succ_lt_succ hi)
    rw [readLe, readLe, h 0 (Nat.succ_pos n), hrest]

section Write

variable [DecidableEq α]

theorem writeLe_of_ne (h : ∀ i < n, a ≠ f i) : writeLe m f n v a = m a := by
  induction n generalizing f v with
  | zero => rfl
  | succ n ih =>
    rw [writeLe, Function.update_of_ne (h 0 (Nat.succ_pos n))]
    exact ih fun i hi => h (i + 1) (Nat.succ_lt_succ hi)

/-- The bytes that a number is written as. -/
theorem writeLe_apply (hf : ∀ i < n, ∀ j < n, f i = f j → i = j) {i : ℕ} (hi : i < n) :
    writeLe m f n v (f i) = UInt8.ofNat (v / 256 ^ i) := by
  induction n generalizing f v i with
  | zero => omega
  | succ n ih =>
    rw [writeLe]
    cases i with
    | zero => simp
    | succ i =>
      have hne : f (i + 1) ≠ f 0 := by
        intro h
        have := hf (i + 1) hi 0 (Nat.succ_pos n) h
        omega
      have hrest := ih (f := fun i => f (i + 1)) (v := v / 256) (fun i hi j hj h =>
        Nat.succ.inj (hf _ (Nat.succ_lt_succ hi) _ (Nat.succ_lt_succ hj) h)) (Nat.lt_of_succ_lt_succ hi)
      rw [Function.update_of_ne hne, hrest, Nat.div_div_eq_div_mul, ← Nat.pow_succ']

/-- What was written is read back. -/
theorem readLe_writeLe (hf : ∀ i < n, ∀ j < n, f i = f j → i = j) :
    readLe (writeLe m f n v) f n = v % 256 ^ n := by
  induction n generalizing f v with
  | zero => rw [readLe, Nat.pow_zero, Nat.mod_one]
  | succ n ih =>
    have hrest : readLe (writeLe m f (n + 1) v) (fun i => f (i + 1)) n = v / 256 % 256 ^ n := by
      rw [← ih (f := fun i => f (i + 1)) fun i hi j hj h =>
        Nat.succ.inj (hf _ (Nat.succ_lt_succ hi) _ (Nat.succ_lt_succ hj) h)]
      apply readLe_congr
      intro i hi
      refine Function.update_of_ne (fun h => ?_) _ _
      have := hf (i + 1) (Nat.succ_lt_succ hi) 0 (Nat.succ_pos n) h
      omega
    have hlow : writeLe m f (n + 1) v (f 0) = UInt8.ofNat v := Function.update_self ..
    rw [readLe, hrest, hlow, Nat.pow_succ, Nat.mul_comm (256 ^ n), Nat.mod_mul]
    simp

end Write
end SysX
