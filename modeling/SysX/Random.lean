import SysX.Machine
import Mathlib.Data.Nat.ModEq

/-!
The pseudorandom numbers of `lib/stdlib.c`: `srand` and `rand`.
-/
namespace SysX

/-- `RAND_SEEDCNT` -/
def randSeedcnt : ℕ := 5
/-- `RAND_LCG_A` -/
def randLcgA : Word := 1103515245#32
/-- `RAND_LCG_C` -/
def randLcgC : Word := 12345#32
/-- `RAND_MAX` -/
def randMax : ℤ := 32767

/-- `rand_seed`, of which the first `RAND_SEEDCNT` words are used. -/
abbrev RandSeed := ℕ → Word

namespace LibStdlib

def srandLoop : (n i : ℕ) → (seed : Word) → RandSeed → RandSeed
  | 0, _, _, r => r
  | n + 1, i, seed, r =>
    let seed := seed * randLcgA + randLcgC
    srandLoop n (i + 1) seed (Function.update r i (r i + seed))

def srand (seed : Word) (r : RandSeed) : RandSeed := srandLoop randSeedcnt 0 seed r

def randSum (r : RandSeed) : (n : ℕ) → Word
  | 0 => 0#32
  | n + 1 => randSum r n + r n

/-- The loop that moves the seeds down by one. -/
def randShift (r : RandSeed) : (n : ℕ) → RandSeed
  | 0 => r
  | n + 1 =>
    let r := randShift r n
    Function.update r n (r (n + 1))

/-- The remainder of a negative `int` is negative. -/
def rand (r : RandSeed) : ℤ × RandSeed :=
  let ret := randSum r randSeedcnt * randLcgA + randLcgC
  (ret.toInt.tmod randMax, Function.update (randShift r (randSeedcnt - 1)) (randSeedcnt - 1) ret)

end LibStdlib

/-! Runs of the generator. -/

inductive RandCall where
  | srand (seed : Word)
  | rand

/-- The seeds that the calls of `rand` find. -/
def randStates : List RandCall → RandSeed → List RandSeed
  | [], _ => []
  | .srand seed :: calls, r => randStates calls (LibStdlib.srand seed r)
  | .rand :: calls, r => r :: randStates calls (LibStdlib.rand r).2

/-- The numbers that the calls of `rand` return. -/
def randValues : List RandCall → RandSeed → List ℤ
  | [], _ => []
  | .srand seed :: calls, r => randValues calls (LibStdlib.srand seed r)
  | .rand :: calls, r => (LibStdlib.rand r).1 :: randValues calls (LibStdlib.rand r).2

/-- The seed that `rand` forms from five seeds. -/
def nextSeed (r : RandSeed) : ℕ :=
  (1103515245 * ((r 0).toNat + (r 1).toNat + (r 2).toNat + (r 3).toNat + (r 4).toNat) + 12345) % 2 ^ 32

/-- The next seed is not negative as an `int`, or a multiple of `RAND_MAX`. -/
def NextInRange (r : RandSeed) : Prop := nextSeed r < 2 ^ 31 ∨ 32767 ∣ 2 ^ 32 - nextSeed r

section Range

variable {r : RandSeed}

theorem toNat_randNext :
    (LibStdlib.randSum r randSeedcnt * randLcgA + randLcgC).toNat = nextSeed r := by
  have hsum : LibStdlib.randSum r randSeedcnt = 0#32 + r 0 + r 1 + r 2 + r 3 + r 4 := rfl
  have hnat : (LibStdlib.randSum r randSeedcnt).toNat =
      ((r 0).toNat + (r 1).toNat + (r 2).toNat + (r 3).toNat + (r 4).toNat) % 2 ^ 32 := by
    simp [hsum, BitVec.toNat_add]
  rw [BitVec.toNat_add, BitVec.toNat_mul, hnat, nextSeed, Nat.mod_add_mod, Nat.mul_comm 1103515245]
  exact ((Nat.mod_modEq _ _).mul_right _).add_right _

theorem rand_eq : (LibStdlib.rand r).1 =
    if nextSeed r < 2 ^ 31 then (nextSeed r : ℤ) % 32767 else -(((2 ^ 32 - nextSeed r) % 32767 : ℕ) : ℤ) := by
  have hlt : nextSeed r < 2 ^ 32 := Nat.mod_lt _ (by decide)
  simp only [LibStdlib.rand, BitVec.toInt_eq_toNat_cond, toNat_randNext, randMax]
  by_cases h : nextSeed r < 2 ^ 31
  · rw [if_pos (by omega), if_pos h, Int.tmod_eq_emod_of_nonneg (by omega)]
  · have hneg : (nextSeed r : ℤ) - ((2 ^ 32 : ℕ) : ℤ) = -((2 ^ 32 - nextSeed r : ℕ) : ℤ) := by omega
    rw [if_neg (by omega), if_neg h, hneg, Int.neg_tmod, Int.tmod_eq_emod_of_nonneg (by omega)]
    exact congrArg Neg.neg (Int.natCast_mod _ _).symm

/-- One call is in range exactly where its next seed is. -/
theorem rand_range_one : 0 ≤ (LibStdlib.rand r).1 ∧ (LibStdlib.rand r).1 ≤ randMax ↔ NextInRange r := by
  rw [rand_eq, randMax, NextInRange, Nat.dvd_iff_mod_eq_zero]
  by_cases h : nextSeed r < 2 ^ 31
  · rw [if_pos h]
    omega
  · rw [if_neg h]
    omega

end Range

/-- In a run of calls all numbers are in range exactly where every call of `rand` finds seeds with a next one in range. -/
theorem rand_range_iff (calls : List RandCall) (r : RandSeed) :
    (∀ x ∈ randValues calls r, 0 ≤ x ∧ x ≤ randMax) ↔ ∀ s ∈ randStates calls r, NextInRange s := by
  induction calls generalizing r with
  | nil => simp [randValues, randStates]
  | cons call calls ih =>
    cases call with
    | srand seed => simp only [randValues, randStates, ih]
    | rand => simp only [randValues, randStates, List.forall_mem_cons, ih, rand_range_one]

/-- The second number behind the initial seeds is negative. -/
theorem rand_negative : ¬ ∀ (calls : List RandCall), ∀ x ∈ randValues calls fun _ => 0#32, 0 ≤ x ∧ x ≤ randMax := by
  intro h
  have hsecond := h [.rand, .rand] (-16842) (by decide)
  exact absurd hsecond.1 (by decide)

end SysX
