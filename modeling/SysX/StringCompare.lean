import SysX.Tar

/-! The comparisons of strings (`lib/string.c`). The first string lies in memory, the second is given by its value. -/
namespace SysX

/-- `ret = str1[i] - str2[i]` of signed characters -/
def charDiff (c d : UInt8) : ℤ := c.toInt8.toInt - d.toInt8.toInt

/-- Equal pointers, of which the source makes a case of their own, have equal strings. -/
def strcmp (r : ℕ → UInt8) : (k : ℕ) → Str → ℤ
  | k, [] => charDiff (r k) 0
  | k, c :: str => if r k = c ∧ c ≠ 0 then strcmp r (k + 1) str else charDiff (r k) c

def strncmp (r : ℕ → UInt8) : (k : ℕ) → Str → (n : ℕ) → ℤ
  | _, _, 0 => 0
  | k, [], _ + 1 => charDiff (r k) 0
  | k, c :: str, n + 1 => if r k = c ∧ c ≠ 0 then strncmp r (k + 1) str n else charDiff (r k) c

variable {r : ℕ → UInt8} {k n : ℕ} {c d : UInt8} {a str : Str}

theorem charDiff_eq_zero_iff : charDiff c d = 0 ↔ c = d := by
  unfold charDiff
  rw [Int.sub_eq_zero, Int8.toInt_inj]
  constructor
  · intro h
    simpa using congrArg Int8.toUInt8 h
  · rintro rfl
    rfl

theorem strcmp_eq_zero_iff (hs : 0 ∉ str) : strcmp r k str = 0 ↔ Spells r k str := by
  induction str generalizing k with
  | nil => exact charDiff_eq_zero_iff
  | cons c str ih =>
    have hc : c ≠ 0 := fun h => hs (h ▸ List.mem_cons_self)
    have hrest : 0 ∉ str := fun h => hs (List.mem_cons_of_mem _ h)
    rw [strcmp, Spells]
    split_ifs with hsame
    · rw [ih hrest]
      exact ⟨fun h => ⟨hsame.1, hc, h⟩, fun h => h.2.2⟩
    · rw [charDiff_eq_zero_iff]
      exact ⟨fun h => absurd ⟨h, hc⟩ hsame, fun h => h.1⟩

/-- The two strings agree in their first `n` characters. -/
theorem strncmp_eq_zero_iff (h : Spells r k a) (hs : 0 ∉ str) : strncmp r k str n = 0 ↔ a.take n = str.take n := by
  induction n generalizing k a str with
  | zero => simp [strncmp]
  | succ n ih =>
    cases str with
    | nil =>
      rw [strncmp, charDiff_eq_zero_iff, List.take_nil, List.take_eq_nil_iff]
      cases a with
      | nil => exact iff_of_true h (.inr rfl)
      | cons d a =>
        obtain ⟨rfl, hd, -⟩ := h
        simp [hd]
    | cons c str =>
      have hc : c ≠ 0 := fun h => hs (h ▸ List.mem_cons_self)
      have hrest : 0 ∉ str := fun h => hs (List.mem_cons_of_mem _ h)
      rw [strncmp, List.take_succ_cons]
      cases a with
      | nil =>
        have hend : r k = 0 := h
        rw [if_neg (fun hsame => hc (hsame.1.symm.trans hend)), charDiff_eq_zero_iff, hend]
        simp [hc.symm]
      | cons d a =>
        obtain ⟨rfl, -, htail⟩ := h
        rw [List.take_succ_cons, List.cons.injEq]
        split_ifs with hsame
        · rw [ih htail hrest]
          exact ⟨fun h => ⟨hsame.1, h⟩, fun h => h.2⟩
        · rw [charDiff_eq_zero_iff]
          exact ⟨fun h => absurd ⟨h, hc⟩ hsame, fun h => h.1⟩

/-- Where there are that many, the first `n` characters start the string in memory. -/
theorem strncmp_prefix_iff (h : Spells r k a) (hs : 0 ∉ str) (hn : n ≤ str.length) :
    strncmp r k str n = 0 ↔ str.take n <+: a := by
  rw [strncmp_eq_zero_iff h hs, List.prefix_iff_eq_take, List.length_take, Nat.min_eq_left hn]
  exact eq_comm

theorem Spells.unique {b : Str} (h : Spells r k a) (h' : Spells r k b) : a = b := by
  have hlong := h.cstring (n := a.length + b.length + 1) (by omega)
  have hlong' := h'.cstring (n := a.length + b.length + 1) (by omega)
  exact Option.some.inj (hlong.symm.trans hlong')

theorem spells_getD (h : 0 ∉ str) : Spells (fun i => str.getD i 0) 0 str := by
  apply Spells.of_cells h
  · intro i hi
    rw [Nat.zero_add]
  · rw [Nat.zero_add]
    exact List.getD_eq_default _ _ (Nat.le_refl _)

theorem strcmp_getD_iff (ha : 0 ∉ a) (hs : 0 ∉ str) : strcmp (fun i => a.getD i 0) 0 str = 0 ↔ a = str := by
  rw [strcmp_eq_zero_iff hs]
  constructor
  · exact (spells_getD ha).unique
  · rintro rfl
    exact spells_getD ha

end SysX
