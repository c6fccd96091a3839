import Mathlib.Data.List.Induction
import Mathlib.Data.List.Shortlex
import Mathlib.Algebra.Order.Ring.Nat
import Mathlib.Tactic.Ring

/-!
Numeration without a zero: words over the digits below `b`, the most significant one first, are counted by length and then in
the order of the alphabet. Every word but the empty one has the number of the words before it.
-/
namespace SysX.Numeration

variable {b d n : ℕ} {ds es : List ℕ}

/-- The place of a word among all words, of which the empty one is the first. -/
def ordinal (b : ℕ) : List ℕ → ℕ
  | [] => 0
  | d :: ds => (d + 1) * b ^ ds.length + ordinal b ds

/-- The first word of `k` digits. -/
def firstOrdinal (b : ℕ) : ℕ → ℕ
  | 0 => 0
  | k + 1 => b ^ k + firstOrdinal b k

@[simp] theorem ordinal_concat : ordinal b (ds ++ [d]) = ordinal b ds * b + (d + 1) := by
  induction ds with
  | nil => simp [ordinal]
  | cons e ds ih =>
    simp only [List.cons_append, ordinal, ih, List.length_append, List.length_singleton]
    ring

/-- Further digits make the number no smaller. -/
theorem ordinal_le_append (hb : 0 < b) : ordinal b ds ≤ ordinal b (ds ++ es) := by
  induction es using List.reverseRecOn with
  | nil => simp
  | append_singleton es e ih =>
    rw [← List.append_assoc, ordinal_concat]
    have hmul : ordinal b (ds ++ es) ≤ ordinal b (ds ++ es) * b := Nat.le_mul_of_pos_right _ hb
    omega

theorem length_le_ordinal (hb : 0 < b) : ds.length ≤ ordinal b ds := by
  induction ds with
  | nil => simp
  | cons d ds ih =>
    have hpos : 0 < (d + 1) * b ^ ds.length := by positivity
    simp only [List.length_cons, ordinal]
    omega

theorem firstOrdinal_le (ds : List ℕ) : firstOrdinal b ds.length ≤ ordinal b ds := by
  induction ds with
  | nil => simp [firstOrdinal]
  | cons d ds ih =>
    have hle : b ^ ds.length ≤ (d + 1) * b ^ ds.length := Nat.le_mul_of_pos_left _ (Nat.succ_pos d)
    simp only [List.length_cons, firstOrdinal, ordinal]
    omega

theorem ordinal_lt (hds : ∀ d ∈ ds, d < b) : ordinal b ds < firstOrdinal b (ds.length + 1) := by
  induction ds with
  | nil => simp [ordinal, firstOrdinal]
  | cons d ds ih =>
    have hd : (d + 1) * b ^ ds.length ≤ b ^ (ds.length + 1) := by
      rw [Nat.pow_succ, Nat.mul_comm (b ^ ds.length)]
      exact Nat.mul_le_mul_right _ (hds d (by simp))
    have htail := ih fun e he => hds e (by simp [he])
    simp only [List.length_cons, firstOrdinal, ordinal] at htail ⊢
    omega

theorem firstOrdinal_mono {j k : ℕ} (h : j ≤ k) : firstOrdinal b j ≤ firstOrdinal b k := by
  induction h with
  | refl => exact Nat.le_refl _
  | step _ ih => exact ih.trans (Nat.le_add_left _ _)

/-- Of two words of one length, the one with the smaller number comes first in the alphabet. -/
theorem lex_of_ordinal_lt (hds : ∀ d ∈ ds, d < b) (hes : ∀ d ∈ es, d < b) (hlen : ds.length = es.length)
    (h : ordinal b ds < ordinal b es) : List.Lex (· < ·) ds es := by
  induction ds generalizing es with
  | nil =>
    obtain rfl : es = [] := List.length_eq_zero_iff.mp hlen.symm
    exact absurd h (Nat.lt_irrefl _)
  | cons d ds ih =>
    cases es with
    | nil => cases hlen
    | cons e es =>
      have hlen' : ds.length = es.length := Nat.succ.inj hlen
      have hds' : ∀ x ∈ ds, x < b := fun x hx => hds x (by simp [hx])
      have hes' : ∀ x ∈ es, x < b := fun x hx => hes x (by simp [hx])
      rcases Nat.lt_trichotomy d e with hlt | rfl | hgt
      · exact .rel hlt
      · apply List.Lex.cons
        apply ih hds' hes' hlen'
        simp only [ordinal, hlen'] at h
        omega
      · -- the larger first digit outweighs all that follows
        have hmul : (e + 1 + 1) * b ^ es.length ≤ (d + 1) * b ^ es.length := Nat.mul_le_mul_right _ (Nat.succ_le_succ hgt)
        have hlow := firstOrdinal_le (b := b) ds
        have hhigh := ordinal_lt hes'
        simp only [ordinal, firstOrdinal, hlen', Nat.succ_mul] at h hmul hlow hhigh
        omega

/-- Words with smaller numbers come first, by length and then by the alphabet. -/
theorem shortlex_of_ordinal_lt (hds : ∀ d ∈ ds, d < b) (hes : ∀ d ∈ es, d < b) (h : ordinal b ds < ordinal b es) :
    List.Shortlex (· < ·) ds es := by
  rcases Nat.lt_trichotomy ds.length es.length with hlt | heq | hgt
  · exact .of_length_lt hlt
  · exact .of_lex heq (lex_of_ordinal_lt hds hes heq h)
  · have hmono : firstOrdinal b (es.length + 1) ≤ firstOrdinal b ds.length := firstOrdinal_mono hgt
    have hlow := firstOrdinal_le (b := b) ds
    have hhigh := ordinal_lt hes
    omega

/-- No two words have one number. -/
theorem ordinal_injective (hds : ∀ d ∈ ds, d < b) (hes : ∀ d ∈ es, d < b) (h : ordinal b ds = ordinal b es) : ds = es := by
  induction ds using List.reverseRecOn generalizing es with
  | nil =>
    cases es with
    | nil => rfl
    | cons e es =>
      have hb : 0 < b := Nat.zero_lt_of_lt (hes e (by simp))
      have hpos : 0 < (e + 1) * b ^ es.length := by positivity
      simp only [ordinal] at h
      omega
  | append_singleton ds d ih =>
    cases es using List.reverseRecOn with
    | nil => simp [ordinal] at h
    | append_singleton es e =>
      have hd : d < b := hds d (by simp)
      have he : e < b := hes e (by simp)
      simp only [ordinal_concat] at h
      -- the last digit is the remainder, and the rest the quotient
      have hlast : d = e := by
        have hmod := congrArg (· - 1) h
        have hmod' := congrArg (· % b) hmod
        simpa [← Nat.add_assoc, Nat.mul_comm _ b, Nat.mul_add_mod, Nat.mod_eq_of_lt hd, Nat.mod_eq_of_lt he] using hmod'
      subst hlast
      have hrest : ordinal b ds = ordinal b es := Nat.eq_of_mul_eq_mul_right (Nat.zero_lt_of_lt hd) (by omega)
      rw [ih (fun x hx => hds x (by simp [hx])) (fun x hx => hes x (by simp [hx])) hrest]

/-- The word behind `n` others that are not empty. -/
def word (b n : ℕ) : List ℕ :=
  if n / b = 0 then [n % b] else word b (n / b - 1) ++ [n % b]
termination_by n
decreasing_by exact Nat.lt_of_lt_of_le (Nat.sub_lt (Nat.pos_of_ne_zero ‹_›) Nat.one_pos) (Nat.div_le_self n b)

theorem word_of_lt (h : n / b = 0) : word b n = [n % b] := by rw [word, if_pos h]

theorem word_of_le (h : n / b ≠ 0) : word b n = word b (n / b - 1) ++ [n % b] := by rw [word, if_neg h]

theorem ordinal_word (b n : ℕ) : ordinal b (word b n) = n + 1 := by
  have hdiv := Nat.div_add_mod' n b
  fun_induction word b n with
  | case1 n h =>
    simp only [h] at hdiv
    simp [ordinal]
    omega
  | case2 n h ih =>
    have hpred : n / b - 1 + 1 = n / b := Nat.succ_pred h
    rw [ordinal_concat, ih (Nat.div_add_mod' _ _), hpred]
    omega

theorem lt_of_mem_word (hb : 0 < b) (h : d ∈ word b n) : d < b := by
  fun_induction word b n with
  | case1 n => simpa [List.mem_singleton.mp h] using Nat.mod_lt n hb
  | case2 n _ ih =>
    rcases List.mem_append.mp h with hin | hlast
    · exact ih hin
    · simpa [List.mem_singleton.mp hlast] using Nat.mod_lt n hb

/-- The word of a number is the one that has it. -/
theorem word_ordinal (hds : ∀ d ∈ ds, d < b) (hne : ds ≠ []) : word b (ordinal b ds - 1) = ds := by
  have hb : 0 < b := by
    obtain ⟨d, hd⟩ := List.exists_mem_of_ne_nil ds hne
    exact Nat.zero_lt_of_lt (hds d hd)
  have hpos : 0 < ordinal b ds := Nat.lt_of_lt_of_le (List.length_pos_iff.mpr hne) (length_le_ordinal hb)
  apply ordinal_injective (fun d => lt_of_mem_word hb) hds
  rw [ordinal_word]
  omega

end SysX.Numeration
