import SysX.Lib.Bytes
import Mathlib.Tactic.Common

/-! Words of 32 bits in a memory that is reached through an address space. -/
namespace SysX

/-- The cell behind an address, and whether it may be written. -/
abbrev AddressSpace := BitVec 32 → Option (ℕ × Bool)

namespace AddressSpace

variable (sp : AddressSpace) {m m' : ℕ → UInt8} {a : BitVec 32} {n k : ℕ} {ws vs : List (BitVec 32)}

/-- The cell behind the `i`th address from `a` on. -/
def cell (a : BitVec 32) (i : ℕ) : ℕ := ((sp (a + .ofNat 32 i)).map Prod.fst).getD 0

def Readable (a : BitVec 32) (n : ℕ) : Prop := ∀ i < n, (sp (a + .ofNat 32 i)).isSome

def Writable (a : BitVec 32) (n : ℕ) : Prop := ∀ i < n, (sp (a + .ofNat 32 i)).any Prod.snd

/-- No two of `n` addresses lead to one cell. -/
def Separate (a : BitVec 32) (n : ℕ) : Prop := ∀ i < n, ∀ j < n, sp.cell a i = sp.cell a j → i = j

instance : Decidable (sp.Readable a n) := inferInstanceAs (Decidable (∀ i < n, _))

instance : Decidable (sp.Writable a n) := inferInstanceAs (Decidable (∀ i < n, _))

instance : Decidable (sp.Separate a n) := inferInstanceAs (Decidable (∀ i < n, ∀ j < n, _))

def load (m : ℕ → UInt8) (a : BitVec 32) : Option (BitVec 32) :=
  if sp.Readable a 4 then some (.ofNat 32 (readLe m (sp.cell a) 4)) else none

def store (m : ℕ → UInt8) (a w : BitVec 32) : Option (ℕ → UInt8) :=
  if sp.Writable a 4 then some (writeLe m (sp.cell a) 4 w.toNat) else none

def loadWords (m : ℕ → UInt8) : (a : BitVec 32) → (n : ℕ) → Option (List (BitVec 32))
  | _, 0 => some []
  | a, n + 1 => (sp.load m a).bind fun w => (loadWords m (a + 4) n).map fun ws => w :: ws

def storeWords : (m : ℕ → UInt8) → (a : BitVec 32) → List (BitVec 32) → Option (ℕ → UInt8)
  | m, _, [] => some m
  | m, a, w :: ws => (sp.store m a w).bind fun m => storeWords m (a + 4) ws

variable {sp}

/-- Behind `k` addresses come the others. -/
theorem cell_add : sp.cell (a + .ofNat 32 k) n = sp.cell a (k + n) := by
  rw [cell, cell, BitVec.ofNat_add, BitVec.add_assoc]

theorem Writable.readable (h : sp.Writable a n) : sp.Readable a n := by
  intro i hi
  have hi := h i hi
  cases hsp : sp (a + .ofNat 32 i) with
  | none => simp [hsp] at hi
  | some c => rfl

theorem writable_add : sp.Writable a (k + n) ↔ sp.Writable a k ∧ sp.Writable (a + .ofNat 32 k) n := by
  refine ⟨fun h => ⟨fun i hi => h i (by omega), fun i hi => ?_⟩, fun ⟨hk, hn⟩ i hi => ?_⟩
  · rw [BitVec.add_assoc, ← BitVec.ofNat_add]
    exact h (k + i) (by omega)
  · rcases Nat.lt_or_ge i k with hlt | hge
    · exact hk i hlt
    · have hi := hn (i - k) (by omega)
      rwa [BitVec.add_assoc, ← BitVec.ofNat_add, Nat.add_sub_cancel' hge] at hi

theorem Separate.add (h : sp.Separate a (k + n)) : sp.Separate (a + .ofNat 32 k) n := by
  intro i hi j hj hij
  rw [cell_add, cell_add] at hij
  have := h (k + i) (by omega) (k + j) (by omega) hij
  omega

/-- A word depends on its own cells only. -/
theorem load_congr (h : ∀ i < 4, m' (sp.cell a i) = m (sp.cell a i)) : sp.load m' a = sp.load m a := by
  rw [load, load, readLe_congr h]

/-- The words in front, and those behind them. -/
theorem loadWords_add (h : sp.loadWords m a (k + n) = some ws) :
    sp.loadWords m a k = some (ws.take k) ∧ sp.loadWords m (a + .ofNat 32 (4 * k)) n = some (ws.drop k) := by
  induction k generalizing a ws with
  | zero =>
    rw [Nat.zero_add] at h
    refine ⟨rfl, ?_⟩
    rw [Nat.mul_zero, BitVec.add_zero, h]
    rfl
  | succ k ih =>
    rw [Nat.add_right_comm, loadWords, Option.bind_eq_some_iff] at h
    obtain ⟨w, hw, h⟩ := h
    rw [Option.map_eq_some_iff] at h
    obtain ⟨us, hus, rfl⟩ := h
    obtain ⟨hfront, hback⟩ := ih hus
    have hadd : a + 4 + .ofNat 32 (4 * k) = a + .ofNat 32 (4 * (k + 1)) := by
      rw [BitVec.add_assoc, Nat.mul_succ, Nat.add_comm, BitVec.ofNat_add]
      rfl
    refine ⟨?_, hadd ▸ hback⟩
    rw [loadWords, hw, Option.bind_some, hfront]
    rfl

/-- Some of the words in the middle. -/
theorem loadWords_slice (h : sp.loadWords m a n = some ws) (i : ℕ) (hk : i + k ≤ n) :
    sp.loadWords m (a + .ofNat 32 (4 * i)) k = some ((ws.drop i).take k) := by
  obtain ⟨j, rfl⟩ := Nat.exists_eq_add_of_le hk
  rw [Nat.add_assoc] at h
  exact (loadWords_add (loadWords_add h).2).1

theorem storeWords_isSome : (sp.storeWords m a ws).isSome ↔ sp.Writable a (4 * ws.length) := by
  induction ws generalizing a m with
  | nil => simp [storeWords, Writable]
  | cons w ws ih =>
    rw [storeWords, store, List.length_cons, Nat.mul_succ, Nat.add_comm, writable_add]
    split_ifs with h
    · rw [Option.bind_some, ih]
      exact (and_iff_right h).symm
    · simp [h]

/-- Where no store goes, nothing has changed. -/
theorem storeWords_of_ne {c : ℕ} (h : sp.storeWords m a ws = some m') (hc : ∀ i < 4 * ws.length, c ≠ sp.cell a i) :
    m' c = m c := by
  induction ws generalizing a m with
  | nil =>
    rw [storeWords, Option.some.injEq] at h
    rw [h]
  | cons w ws ih =>
    rw [storeWords, Option.bind_eq_some_iff] at h
    obtain ⟨m₁, hstore, h⟩ := h
    have hfirst : m₁ c = m c := by
      rw [store] at hstore
      split_ifs at hstore
      rw [← Option.some.inj hstore]
      exact writeLe_of_ne fun i hi => hc i (by rw [List.length_cons]; omega)
    rw [ih h fun i hi => ?_, hfirst]
    have hcell : sp.cell (a + 4) i = sp.cell a (4 + i) := cell_add
    rw [hcell]
    exact hc (4 + i) (by rw [List.length_cons]; omega)

/-- What was stored is loaded again. -/
theorem loadWords_storeWords (h : sp.storeWords m a ws = some m') (hsep : sp.Separate a (4 * ws.length)) :
    sp.loadWords m' a ws.length = some ws := by
  induction ws generalizing a m with
  | nil => rfl
  | cons w ws ih =>
    rw [storeWords, Option.bind_eq_some_iff] at h
    obtain ⟨m₁, hstore, h⟩ := h
    rw [List.length_cons, Nat.mul_succ, Nat.add_comm] at hsep
    have hcell (i : ℕ) : sp.cell (a + 4) i = sp.cell a (4 + i) := cell_add
    have hfirst : sp.load m' a = some w := by
      have hkept : ∀ i < 4, m' (sp.cell a i) = m₁ (sp.cell a i) := by
        intro i hi
        refine storeWords_of_ne h fun j hj heq => ?_
        rw [hcell] at heq
        have := hsep i (by omega) (4 + j) (by omega) heq
        omega
      rw [store] at hstore
      split_ifs at hstore with hwritable
      rw [load_congr hkept, load, if_pos hwritable.readable, ← Option.some.inj hstore,
        readLe_writeLe fun i hi j hj => hsep i (by omega) j (by omega)]
      congr 1
      exact BitVec.eq_of_toNat_eq (by rw [BitVec.toNat_ofNat]; omega)
    rw [List.length_cons, loadWords, hfirst, Option.bind_some, ih h hsep.add]
    rfl

end AddressSpace
end SysX
