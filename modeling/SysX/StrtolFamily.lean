import SysX.Strtol
import Mathlib.Data.List.Induction
import Mathlib.Data.List.TakeWhile

/-!
`strtol` beside `strtoll`. It takes its number from `strtoull`, which looks for the sign and the prefix before it passes the
leading blanks, and has no negative numbers.
-/
namespace SysX

/-- `INT32_MAX` -/
def int32Max : ℤ := 2147483647
/-- `INT32_MIN` -/
def int32Min : ℤ := -2147483648

/-- The conversion from `uint64_t` to `int64_t` -/
def toInt64 (n : ℕ) : ℤ := (BitVec.ofNat 64 n).toInt

namespace LibStdlib

def strtol (str : Str) (base : ℕ) : ℤ × Option Str :=
  let (result, endptr) := strtoull str base
  let result := toInt64 result
  (if int32Max < result then int32Max else if result < int32Min then int32Min else result, endptr)

end LibStdlib

/-- The number that 32 bits can hold which is nearest to `n`. -/
def saturate32 (n : ℤ) : ℤ := max int32Min (min n int32Max)

/-- The sign that `strtoll` finds. -/
def HasMinus (str : Str) : Prop := (str.dropWhile isSpace).headD 0 = 45

instance (str : Str) : Decidable (HasMinus str) := inferInstanceAs (Decidable (_ = _))

/-- `strtol` is `strtoll` with a narrower range, and `strtoull` agrees with it where no sign and no limit comes between. -/
structure ConversionsAgree (str : Str) (base : ℕ) : Prop where
  clamped : (LibStdlib.strtol str base).1 = saturate32 (LibStdlib.strtoll str base).1
  unsigned : ¬ HasMinus str → ∀ (v : ℕ) e, LibStdlib.strtoll str base = ((v : ℤ), e) → v < int64Max →
    LibStdlib.strtoull str base = (v, e)

def isDigit (base : ℕ) (c : UInt8) : Bool := (digitValue c).any (· < base)

/-- The number that a text starts with, 0 where it starts with no digit. -/
def leadingValue (base : ℕ) (text : Str) : ℕ := numeralValue base (text.takeWhile (isDigit base))

/-- The text behind an optional sign. -/
def skipSign (text : Str) : Str := if text.headD 0 = 43 ∨ text.headD 0 = 45 then text.tail else text

/-- What `strtoll` reads behind blanks, sign and prefix, and in which base. -/
def signedText (str : Str) (base : ℕ) : Str × ℕ := LibStdlib.detectBase (skipSign (str.dropWhile isSpace)) base

/-- What `strtoull` reads behind sign, prefix and blanks. -/
def unsignedText (str : Str) (base : ℕ) : Str × ℕ :=
  let (text, selected) := LibStdlib.detectBase (skipSign str) base
  (text.dropWhile isSpace, selected)

section Readings

variable {base n : ℕ} {c : UInt8} {str text rest digits before : Str}

theorem isDigit_iff : isDigit base c = true ↔ IsDigit base c := by
  unfold isDigit IsDigit
  cases digitValue c <;> simp

theorem takeWhile_isDigit (hc : c ∈ text.takeWhile (isDigit base)) : IsDigit base c :=
  isDigit_iff.mp (List.mem_takeWhile_imp hc)

theorem digitsEnd_dropWhile : DigitsEnd base (text.dropWhile (isDigit base)) := by
  intro c hc hdigit
  have hhead := List.head?_dropWhile_not (isDigit base) text
  rw [hc] at hhead
  simp [isDigit_iff.mpr hdigit] at hhead

namespace LibStdlib

theorem strtoullDigits_leading (hb : 0 < base) :
    strtoullDigits base text 0 = if leadingValue base text ≤ uint64Max then
      (leadingValue base text, some (text.dropWhile (isDigit base))) else (uint64Max, none) := by
  have hloop := @strtoullDigits_eq base (text.takeWhile (isDigit base)) (text.dropWhile (isDigit base)) [] hb
    (fun _ => takeWhile_isDigit) digitsEnd_dropWhile (Nat.zero_le _)
  rwa [List.takeWhile_append_dropWhile] at hloop

/-- The loop of `strtoll` on a number in its range. -/
theorem strtollDigits_fits (hb : 0 < base) (hdigits : ∀ c ∈ digits, IsDigit base c) (hend : DigitsEnd base rest)
    (hfits : numeralValue base (before ++ digits) < int64Limit) :
    strtollDigits false base (digits ++ rest) (numeralValue base before) =
      ((numeralValue base (before ++ digits) : ℤ), some rest) := by
  induction digits generalizing before with
  | nil => rw [List.nil_append, List.append_nil, strtollDigits_end hend]
  | cons c digits ih =>
    have hc := hdigits c List.mem_cons_self
    have hzero := hc.ne_zero
    obtain ⟨d, hlt, hd⟩ := hc
    have hmore : numeralValue base before * base + d ≤ numeralValue base (before ++ c :: digits) :=
      numeralValue_concat_le_append hb hd
    have hmul : ¬ int64Max.tdiv base < numeralValue base before := by
      rw [int64Max_tdiv_lt hb]
      omega
    have hprod : (numeralValue base before : ℤ) * base = ((numeralValue base before * base : ℕ) : ℤ) := rfl
    have hadd : ¬ int64Max - d < (numeralValue base before : ℤ) * base := by
      rw [hprod]
      unfold int64Limit at hfits
      unfold int64Max
      omega
    have hnext : (numeralValue base before : ℤ) * base + d = (numeralValue base (before ++ [c]) : ℤ) := by
      rw [numeralValue_concat hd]
      rfl
    rw [List.cons_append, strtollDigits, if_neg hzero, digitOf_eq, hd]
    dsimp only
    rw [if_neg (Nat.not_le_of_lt hlt), if_pos rfl, if_neg hmul, if_neg hadd, hnext, List.append_cons before c digits]
    apply ih fun c hc => hdigits c (List.mem_cons_of_mem _ hc)
    rwa [← List.append_cons]

theorem strtollDigits_leading (hb : 0 < base) (hfits : leadingValue base text < int64Limit) :
    strtollDigits false base text 0 = ((leadingValue base text : ℤ), some (text.dropWhile (isDigit base))) := by
  have hloop := @strtollDigits_fits base (text.dropWhile (isDigit base)) (text.takeWhile (isDigit base)) [] hb
    (fun _ => takeWhile_isDigit) digitsEnd_dropWhile hfits
  rwa [List.takeWhile_append_dropWhile] at hloop

theorem strtollDigits_leading_fst (hb : 0 < base) :
    (strtollDigits false base text 0).1 = min (leadingValue base text : ℤ) int64Max := by
  have hloop := @strtollDigits_pos base (text.takeWhile (isDigit base)) (text.dropWhile (isDigit base)) [] hb
    (fun _ => takeWhile_isDigit) digitsEnd_dropWhile (show 0 < int64Limit by decide)
  rwa [List.takeWhile_append_dropWhile] at hloop

/-- The loop of `strtoll` behind a minus sign. -/
theorem strtollDigits_leading_neg (hb : 0 < base) {r : ℤ} (hr : (strtollDigits true base text 0).1 = r) :
    (leadingValue base text ≤ int64Limit → r = -(leadingValue base text : ℤ)) ∧
      (int64Limit < leadingValue base text →
        (ExceedsByAddition int64Limit base [] (text.takeWhile (isDigit base)) → r = int64Max) ∧
        (¬ ExceedsByAddition int64Limit base [] (text.takeWhile (isDigit base)) → r = int64Min)) := by
  apply @strtollDigits_neg base (text.takeWhile (isDigit base)) (text.dropWhile (isDigit base)) [] hb
    (fun _ => takeWhile_isDigit) digitsEnd_dropWhile (Nat.zero_le _)
  rw [List.takeWhile_append_dropWhile]
  exact hr

theorem strtoull_eq_digits : strtoull str base = strtoullDigits (unsignedText str base).2 (unsignedText str base).1 0 := rfl

theorem strtoll_eq_digits :
    strtoll str base = strtollDigits (HasMinus str) (signedText str base).2 (signedText str base).1 0 := rfl

theorem strtol_fst : (strtol str base).1 = saturate32 (toInt64 (strtoull str base).1) := by
  unfold strtol saturate32 int32Max int32Min
  dsimp only
  split_ifs <;> omega

end LibStdlib

end Readings

/-! When the three agree, by what the two parsers read. -/

namespace LibStdlib

variable {base b b' : ℕ} {str u w : Str}

theorem toInt64_of_lt {n : ℕ} (h : n < int64Limit) : toInt64 n = n := by
  unfold int64Limit at h
  rw [toInt64, BitVec.toInt_eq_toNat_cond, BitVec.toNat_ofNat]
  omega

theorem toInt64_of_le {n : ℕ} (h : int64Limit ≤ n) (hn : n ≤ uint64Max) : toInt64 n = n - 18446744073709551616 := by
  unfold int64Limit at h
  unfold uint64Max at hn
  rw [toInt64, BitVec.toInt_eq_toNat_cond, BitVec.toNat_ofNat]
  omega

theorem strtoull_fst (hu : unsignedText str base = (w, b')) (hb' : 0 < b') :
    (strtoull str base).1 = min (leadingValue b' w) uint64Max := by
  rw [strtoull_eq_digits, hu, strtoullDigits_leading hb']
  dsimp only
  split_ifs <;> omega

/-- What `strtol` returns, for a number in the range of `strtoll`, in that of `strtoull`, and beyond both. -/
theorem strtol_cases (hu : unsignedText str base = (w, b')) (hb' : 0 < b') :
    (strtol str base).1 =
      if leadingValue b' w < int64Limit then min (leadingValue b' w : ℤ) int32Max
      else if leadingValue b' w ≤ uint64Max then max (leadingValue b' w - 18446744073709551616) int32Min
      else -1 := by
  rw [strtol_fst, strtoull_fst hu hb']
  split_ifs with hsmall hlarge
  · rw [Nat.min_eq_left (by unfold int64Limit at hsmall; unfold uint64Max; omega), toInt64_of_lt hsmall]
    unfold saturate32 int32Max int32Min
    omega
  · rw [Nat.min_eq_left hlarge, toInt64_of_le (Nat.le_of_not_lt hsmall) hlarge]
    unfold uint64Max at hlarge
    unfold saturate32 int32Max int32Min
    omega
  · rw [Nat.min_eq_right (Nat.le_of_not_le hlarge)]
    decide

/-- Without a minus sign, the parsers have to read the same. -/
theorem conversionsAgree_pos (hminus : ¬ HasMinus str) (hs : signedText str base = (u, b))
    (hu : unsignedText str base = (w, b')) (hb : 0 < b) (hb' : 0 < b') :
    ConversionsAgree str base ↔
      (leadingValue b u < int64Max ∧ leadingValue b' w = leadingValue b u ∧
        w.dropWhile (isDigit b') = u.dropWhile (isDigit b)) ∨
      (int64Max ≤ leadingValue b u ∧ int32Max ≤ leadingValue b' w ∧ leadingValue b' w < int64Limit) := by
  have hll : strtoll str base = strtollDigits false b u 0 := by rw [strtoll_eq_digits, hs, decide_eq_false hminus]
  have hull : strtoull str base = strtoullDigits b' w 0 := by rw [strtoull_eq_digits, hu]
  have hfst : (strtoll str base).1 = min (leadingValue b u : ℤ) int64Max := by rw [hll, strtollDigits_leading_fst hb]
  have hl := strtol_cases hu hb'
  by_cases hlt : (leadingValue b u : ℤ) < int64Max
  · have hfits : leadingValue b u < int64Limit := by
      unfold int64Max at hlt
      unfold int64Limit
      omega
    rw [strtollDigits_leading hb hfits] at hll
    constructor
    · intro h
      have hsame := h.unsigned hminus _ _ hll hlt
      rw [hull, strtoullDigits_leading hb'] at hsame
      split_ifs at hsame with hle
      · obtain ⟨hvalue, hrest⟩ := Prod.mk.inj hsame
        exact .inl ⟨hlt, hvalue, Option.some.inj hrest⟩
      · cases (Prod.mk.inj hsame).2
    · rintro (⟨-, hvalue, hrest⟩ | ⟨hle, -⟩)
      · constructor
        · rw [hl, hvalue, if_pos hfits, hfst]
          unfold saturate32 int64Max int32Max int32Min
          unfold int64Max at hlt
          omega
        · intro _ v e hv _
          obtain ⟨hveq, rfl⟩ := Prod.mk.inj (hll.symm.trans hv)
          obtain rfl : leadingValue b u = v := Int.ofNat.inj hveq
          rw [hull, strtoullDigits_leading hb', hvalue, hrest, if_pos]
          unfold int64Limit at hfits
          unfold uint64Max
          omega
      · exact absurd hlt (Int.not_lt.mpr hle)
  · have hmax : saturate32 (strtoll str base).1 = int32Max := by
      rw [hfst, Int.min_eq_right (Int.not_lt.mp hlt)]
      decide
    constructor
    · intro h
      have hclamped := h.clamped
      rw [hmax, hl] at hclamped
      refine .inr ⟨Int.not_lt.mp hlt, ?_⟩
      unfold int64Limit uint64Max int32Max int32Min at *
      split_ifs at hclamped <;> omega
    · rintro (⟨hlt', -⟩ | ⟨-, hle, hfits⟩)
      · exact absurd hlt' hlt
      · constructor
        · rw [hmax, hl, if_pos hfits]
          exact Int.min_eq_right hle
        · intro _ v e hv hv'
          rw [hv] at hfst
          omega

section Minus

variable (hminus : HasMinus str) (hs : signedText str base = (u, b)) (hu : unsignedText str base = (w, b'))
  (hb : 0 < b) (hb' : 0 < b')

include hminus

theorem conversionsAgree_minus : ConversionsAgree str base ↔ (strtol str base).1 = saturate32 (strtoll str base).1 :=
  ⟨fun h => h.clamped, fun h => ⟨h, fun hno => absurd hminus hno⟩⟩

include hs hb

/-- `strtoll` behind a minus sign. -/
theorem strtoll_minus {r : ℤ} (hr : (strtoll str base).1 = r) :
    (leadingValue b u ≤ int64Limit → r = -(leadingValue b u : ℤ)) ∧
      (int64Limit < leadingValue b u →
        (ExceedsByAddition int64Limit b [] (u.takeWhile (isDigit b)) → r = int64Max) ∧
        (¬ ExceedsByAddition int64Limit b [] (u.takeWhile (isDigit b)) → r = int64Min)) := by
  apply strtollDigits_leading_neg hb
  rw [← hr, strtoll_eq_digits, hs, decide_eq_true hminus]

theorem saturate32_strtoll_minus : saturate32 (strtoll str base).1 = 0 ↔ leadingValue b u = 0 := by
  obtain ⟨hsmall, hlarge⟩ := strtoll_minus hminus hs hb rfl
  unfold saturate32 int32Max int32Min
  by_cases hle : leadingValue b u ≤ int64Limit
  · rw [hsmall hle]
    omega
  · obtain ⟨hmax, hmin⟩ := hlarge (Nat.lt_of_not_le hle)
    have hne : leadingValue b u ≠ 0 := fun h => hle (by rw [h]; exact Nat.zero_le _)
    refine iff_of_false ?_ hne
    by_cases hex : ExceedsByAddition int64Limit b [] (u.takeWhile (isDigit b))
    · rw [hmax hex]
      decide
    · rw [hmin hex]
      decide

include hu hb'

theorem conversionsAgree_minus_of_zero (hw : leadingValue b' w = 0) :
    ConversionsAgree str base ↔ leadingValue b u = 0 := by
  have hl := strtol_cases hu hb'
  rw [hw, if_pos (by decide)] at hl
  rw [conversionsAgree_minus hminus, hl, ← saturate32_strtoll_minus hminus hs hb]
  exact eq_comm

theorem conversionsAgree_minus_of_blank (hn : leadingValue b u = 0) :
    ConversionsAgree str base ↔ leadingValue b' w = 0 := by
  rw [conversionsAgree_minus hminus, (saturate32_strtoll_minus hminus hs hb).mpr hn, strtol_cases hu hb']
  unfold int64Limit uint64Max int32Max int32Min
  split_ifs
  · omega
  · omega
  · exact iff_of_false id (by omega)

/-- The two's complement of a large number is negative as well, and below the range of 32 bits in part. -/
theorem conversionsAgree_minus_of_same (hsame : leadingValue b' w = leadingValue b u) :
    ConversionsAgree str base ↔ leadingValue b u = 0 ∨ int64Limit ≤ leadingValue b u ∧
      leadingValue b u ≤ 18446744071562067968 ∧ ¬ ExceedsByAddition int64Limit b [] (u.takeWhile (isDigit b)) := by
  obtain ⟨hsmall, hlarge⟩ := strtoll_minus hminus hs hb rfl
  have hexceeds : ExceedsByAddition int64Limit b [] (u.takeWhile (isDigit b)) → int64Limit < leadingValue b u :=
    fun h => h.lt hb
  rw [conversionsAgree_minus hminus, strtol_cases hu hb', hsame]
  unfold saturate32
  by_cases hle : leadingValue b u ≤ int64Limit
  · have hno : ¬ ExceedsByAddition int64Limit b [] (u.takeWhile (isDigit b)) :=
      fun h => absurd hle (Nat.not_le_of_lt (hexceeds h))
    simp only [hsmall hle, hno, not_false_eq_true, and_true]
    unfold int64Limit uint64Max int32Max int32Min at *
    split_ifs <;> omega
  · obtain ⟨hmax, hmin⟩ := hlarge (Nat.lt_of_not_le hle)
    by_cases hex : ExceedsByAddition int64Limit b [] (u.takeWhile (isDigit b))
    · simp only [hmax hex, hex, not_true_eq_false, and_false, or_false]
      unfold int64Limit uint64Max int64Max int32Max int32Min at *
      split_ifs <;> omega
    · simp only [hmin hex, hex, not_false_eq_true, and_true]
      unfold int64Limit uint64Max int64Min int32Max int32Min at *
      split_ifs <;> omega

end Minus

end LibStdlib

/-! What the two parsers read. -/

section Texts

open LibStdlib (detectBase)

variable {base b : ℕ} {c : UInt8} {str text digits rest : Str}

theorem detectBase_pos : 0 < (detectBase str base).2 := by
  unfold detectBase
  dsimp only
  split_ifs with hbase
  · exact Nat.pos_of_ne_zero hbase
  all_goals exact Nat.succ_pos _

/-- Without a leading zero, or with a base given, nothing is passed. -/
theorem detectBase_plain (h : ¬(base = 0 ∧ str.headD 0 = 48)) :
    detectBase str base = (str, if base = 0 then 10 else base) := by
  unfold detectBase
  by_cases hbase : base = 0
  · rw [if_neg (not_not_intro hbase), if_neg fun hzero => h ⟨hbase, hzero⟩, if_pos hbase]
  · rw [if_pos hbase, if_neg hbase]

theorem detectBase_zero :
    detectBase (48 :: str) 0 = if str.headD 0 = 120 ∨ str.headD 0 = 88 then (str.tail, 16) else (str, 8) := rfl

theorem detectBase_suffix : (detectBase str base).1 <:+ str := by
  unfold detectBase
  dsimp only
  split_ifs
  · exact List.suffix_refl str
  · exact (List.tail_suffix _).trans (List.tail_suffix _)
  · exact List.tail_suffix _
  · exact List.suffix_refl str

theorem skipSign_of_not (h : ¬ (text.headD 0 = 43 ∨ text.headD 0 = 45)) : skipSign text = text := if_neg h

theorem length_skipSign (h : text.headD 0 = 43 ∨ text.headD 0 = 45) : (skipSign text).length < text.length := by
  rw [skipSign, if_pos h]
  cases text with
  | nil => exact absurd h (by decide)
  | cons c text => exact Nat.lt_succ_self _

theorem isSpace_sign (h : c = 43 ∨ c = 45) : isSpace c = false := by
  rcases h with rfl | rfl <;> rfl

theorem isDigit_of_isSpace (h : isSpace c = true) : isDigit b c = false := by
  by_contra hdigit
  rw [(isDigit_iff.mp (eq_true_of_ne_false hdigit)).not_space] at h
  cases h

theorem isDigit_sign (h : c = 43 ∨ c = 45) : isDigit b c = false := by
  by_contra hdigit
  exact (isDigit_iff.mp (eq_true_of_ne_false hdigit)).not_sign h

theorem takeWhile_of_head (h : isDigit b (text.headD 0) = false) : text.takeWhile (isDigit b) = [] := by
  cases text with
  | nil => rfl
  | cons c text => simpa using h

theorem dropWhile_of_head (h : isDigit b (text.headD 0) = false) : text.dropWhile (isDigit b) = text := by
  cases text with
  | nil => rfl
  | cons c text => simpa using h

theorem leadingValue_of_head (h : isDigit b (text.headD 0) = false) : leadingValue b text = 0 := by
  rw [leadingValue, takeWhile_of_head h]
  rfl

theorem dropWhile_zero_cons (hb : 0 < b) : (48 :: text).dropWhile (isDigit b) = text.dropWhile (isDigit b) :=
  List.dropWhile_cons_of_pos (isDigit_iff.mpr ⟨0, hb, rfl⟩)

theorem leadingValue_zero_cons (hb : 0 < b) : leadingValue b (48 :: text) = leadingValue b text := by
  rw [leadingValue, List.takeWhile_cons_of_pos (isDigit_iff.mpr ⟨0, hb, rfl⟩), numeralValue_zero_cons]
  rfl

theorem dropWhile_isSpace_of_head (h : isSpace (text.headD 0) = false) : text.dropWhile isSpace = text := by
  cases text with
  | nil => rfl
  | cons c text => simpa using h

theorem length_dropWhile_isSpace (h : isSpace (text.headD 0) = true) : (text.dropWhile isSpace).length < text.length := by
  cases text with
  | nil => cases h
  | cons c text =>
    have hc : isSpace c = true := h
    rw [List.dropWhile_cons_of_pos hc]
    exact Nat.lt_succ_of_le (List.length_dropWhile_le _ _)

/-- Behind a blank, neither sign nor prefix is found. -/
theorem unsignedText_of_isSpace (h : isSpace (str.headD 0) = true) :
    unsignedText str base = (str.dropWhile isSpace, if base = 0 then 10 else base) := by
  have hsign : skipSign str = str := by
    apply skipSign_of_not
    intro hsign
    rw [isSpace_sign hsign] at h
    cases h
  have hzero : str.headD 0 ≠ 48 := by
    intro hzero
    rw [hzero] at h
    cases h
  unfold unsignedText
  rw [hsign, detectBase_plain fun h => hzero h.2]

theorem unsignedText_of_not_isSpace (h : isSpace (str.headD 0) = false) :
    unsignedText str base = ((signedText str base).1.dropWhile isSpace, (signedText str base).2) := by
  unfold signedText
  rw [dropWhile_isSpace_of_head h]
  rfl

theorem IsDigit.mono (h : IsDigit b c) (hle : b ≤ base) : IsDigit base c := by
  obtain ⟨d, hlt, hd⟩ := h
  exact ⟨d, Nat.lt_of_lt_of_le hlt hle, hd⟩

theorem isDigit_head (h : DigitsEnd base text) (hle : b ≤ base) : isDigit b (text.headD 0) = false := by
  cases text with
  | nil => rfl
  | cons c text =>
    by_contra hdigit
    exact h c rfl ((isDigit_iff.mp (eq_true_of_ne_false hdigit)).mono hle)

theorem numeralValue_le_ten : numeralValue 8 digits ≤ numeralValue 10 digits := Nat.ofDigits_monotone _ (by decide)

/-- Digits of two figures or more stand for less in base 8. -/
theorem numeralValue_lt_ten (hdigits : ∀ c ∈ digits, IsDigit 8 c) (h : 8 ≤ numeralValue 10 digits) :
    numeralValue 8 digits < numeralValue 10 digits := by
  induction digits using List.reverseRecOn with
  | nil => exact absurd h (by decide)
  | append_singleton digits c ih =>
    obtain ⟨d, hlt, hd⟩ := hdigits c (by simp)
    rw [numeralValue_concat hd] at h
    rw [numeralValue_concat hd, numeralValue_concat hd]
    have hle : numeralValue 8 digits ≤ numeralValue 10 digits := numeralValue_le_ten
    omega

/-- A number of one figure is the same in both bases. -/
theorem numeralValue_figure (hdigits : ∀ c ∈ digits, IsDigit 10 c) (h : numeralValue 10 digits < 8) :
    (∀ c ∈ digits, IsDigit 8 c) ∧ numeralValue 8 digits = numeralValue 10 digits := by
  induction digits using List.reverseRecOn with
  | nil => exact ⟨nofun, rfl⟩
  | append_singleton digits c ih =>
    obtain ⟨d, hlt, hd⟩ := hdigits c (by simp)
    rw [numeralValue_concat hd] at h
    obtain ⟨hall, hsame⟩ := ih (fun c hc => hdigits c (by simp [hc])) (by omega)
    constructor
    · intro e he
      rcases List.mem_append.mp he with hin | hlast
      · exact hall e hin
      · obtain rfl := List.mem_singleton.mp hlast
        exact ⟨d, by omega, hd⟩
    · rw [numeralValue_concat hd, numeralValue_concat hd]
      omega

end Texts

/-- When the three functions agree on a string. -/
def AgreesOn (str : Str) (base : ℕ) : Prop :=
  let text := str.dropWhile isSpace
  let (digits, selected) := signedText str base
  let n := leadingValue selected digits
  if isSpace (str.headD 0) then
    if text.headD 0 = 43 then False
    else if text.headD 0 = 45 then n = 0
    else if base = 0 ∧ text.headD 0 = 48 then selected = 8 ∧ leadingValue 10 text < 8
    else n < int64Limit
  else if isSpace (digits.headD 0) then HasMinus str ∧ leadingValue selected (digits.dropWhile isSpace) = 0
  else if HasMinus str then
    n = 0 ∨ int64Limit ≤ n ∧ n ≤ 18446744071562067968 ∧
      ¬ ExceedsByAddition int64Limit selected [] (digits.takeWhile (isDigit selected))
  else n < int64Limit

section Family

open LibStdlib

variable {base b b' : ℕ} {str u w : Str}

theorem conversionsAgree_same (hminus : ¬ HasMinus str) (hs : signedText str base = (u, b))
    (hu : unsignedText str base = (u, b)) (hb : 0 < b) : ConversionsAgree str base ↔ leadingValue b u < int64Limit := by
  rw [conversionsAgree_pos hminus hs hu hb hb]
  simp only [and_self, and_true]
  unfold int64Limit int64Max int32Max
  omega

/-- The parsers end at different places, and one of the numbers is small. -/
theorem not_conversionsAgree (hminus : ¬ HasMinus str) (hs : signedText str base = (u, b))
    (hu : unsignedText str base = (w, b')) (hb : 0 < b) (hb' : 0 < b')
    (hrest : w.dropWhile (isDigit b') ≠ u.dropWhile (isDigit b))
    (hsmall : leadingValue b' w < int32Max ∨ leadingValue b u < int64Max) :
    ¬ ConversionsAgree str base := by
  rw [conversionsAgree_pos hminus hs hu hb hb']
  rintro (⟨-, -, hsame⟩ | ⟨hle, hle', -⟩)
  · exact hrest hsame
  · omega

/-- Without blanks in front. -/
theorem agreesOn_of_not_isSpace (h : isSpace (str.headD 0) = false) : ConversionsAgree str base ↔ AgreesOn str base := by
  cases hs : signedText str base with
  | mk u b =>
    have hb : 0 < (signedText str base).2 := detectBase_pos
    have hu : unsignedText str base = _ := unsignedText_of_not_isSpace h
    unfold AgreesOn
    simp only [h, hs, Bool.false_eq_true, if_false] at hb hu ⊢
    by_cases hblank : isSpace (u.headD 0) = true
    · have hn : leadingValue b u = 0 := leadingValue_of_head (isDigit_of_isSpace hblank)
      rw [if_pos hblank]
      by_cases hminus : HasMinus str
      · rw [conversionsAgree_minus_of_blank hminus hs hu hb hb hn, and_iff_right hminus]
      · refine iff_of_false (not_conversionsAgree hminus hs hu hb hb ?_ (.inr (by rw [hn]; decide))) fun h => hminus h.1
        intro hsame
        have hshort := length_dropWhile_isSpace hblank
        have hle := List.length_dropWhile_le (isDigit b) (u.dropWhile isSpace)
        rw [hsame, dropWhile_of_head (isDigit_of_isSpace hblank)] at hle
        omega
    · rw [if_neg hblank]
      rw [dropWhile_isSpace_of_head (eq_false_of_ne_true hblank)] at hu
      by_cases hminus : HasMinus str
      · rw [if_pos hminus]
        exact conversionsAgree_minus_of_same hminus hs hu hb hb rfl
      · rw [if_neg hminus]
        exact conversionsAgree_same hminus hs hu hb

/-- An octal number behind blanks. -/
theorem conversionsAgree_octal {r : Str} (hminus : ¬ HasMinus str) (hs : signedText str base = (r, 8))
    (hu : unsignedText str base = (48 :: r, 10)) : ConversionsAgree str base ↔ leadingValue 10 (48 :: r) < 8 := by
  rw [conversionsAgree_pos hminus hs hu (by decide) (by decide), leadingValue_zero_cons (by decide),
    dropWhile_zero_cons (by decide)]
  have hsplit : ∀ b, r.takeWhile (isDigit b) ++ r.dropWhile (isDigit b) = r := fun _ => List.takeWhile_append_dropWhile
  constructor
  · intro h
    by_contra hlarge
    have hoctal : ∀ c ∈ r.takeWhile (isDigit 8), IsDigit 8 c := fun _ => takeWhile_isDigit
    rcases h with ⟨-, hsame, hrest⟩ | ⟨hmax, -, hlt⟩
    · have hrun : r.takeWhile (isDigit 10) = r.takeWhile (isDigit 8) := by
        have hboth := (hsplit 10).trans (hsplit 8).symm
        rw [hrest] at hboth
        exact List.append_cancel_right hboth
      have hless := numeralValue_lt_ten hoctal (by rw [← hrun]; exact Nat.le_of_not_lt hlarge)
      unfold leadingValue at hsame
      rw [hrun] at hsame
      omega
    · -- more digits than the octal ones only make the number larger
      have hrun : r.takeWhile (isDigit 10) =
          r.takeWhile (isDigit 8) ++ (r.dropWhile (isDigit 8)).takeWhile (isDigit 10) := by
        rw [← List.takeWhile_append_of_pos, hsplit]
        exact fun c hc => isDigit_iff.mpr ((hoctal c hc).mono (by decide))
      have hle : numeralValue 10 (r.takeWhile (isDigit 8)) ≤ leadingValue 10 r := by
        rw [leadingValue, hrun]
        exact numeralValue_le_append (by decide)
      have hmore : numeralValue 8 (r.takeWhile (isDigit 8)) ≤ numeralValue 10 (r.takeWhile (isDigit 8)) := numeralValue_le_ten
      unfold int64Max leadingValue at hmax
      have hless := numeralValue_lt_ten hoctal (by omega)
      unfold int64Limit at hlt
      omega
  · intro h
    obtain ⟨hoctal, hsame⟩ := numeralValue_figure (fun _ => takeWhile_isDigit) h
    have hrest : (r.dropWhile (isDigit 10)).takeWhile (isDigit 8) = [] :=
      takeWhile_of_head (isDigit_head digitsEnd_dropWhile (by decide))
    have hrun : r.takeWhile (isDigit 8) = r.takeWhile (isDigit 10) := by
      conv_lhs => rw [← hsplit 10]
      rw [List.takeWhile_append_of_pos fun c hc => isDigit_iff.mpr (hoctal c hc), hrest, List.append_nil]
    have hend : r.dropWhile (isDigit 10) = r.dropWhile (isDigit 8) := by
      have hboth := (hsplit 10).trans (hsplit 8).symm
      rw [hrun] at hboth
      exact List.append_cancel_left hboth
    have hvalue : leadingValue 8 r = leadingValue 10 r := by
      rw [leadingValue, hrun]
      exact hsame
    refine .inl ⟨?_, hvalue.symm, hend⟩
    unfold int64Max
    omega

/-- Only `strtoll` knows the prefix of a hexadecimal number behind blanks. -/
theorem not_conversionsAgree_hex {r : Str} (hminus : ¬ HasMinus str) (hs : signedText str base = (r.tail, 16))
    (hu : unsignedText str base = (48 :: r, 10)) (hx : r.headD 0 = 120 ∨ r.headD 0 = 88) :
    ¬ ConversionsAgree str base := by
  have hnone : isDigit 10 (r.headD 0) = false := by
    rcases hx with hx | hx <;> rw [hx] <;> decide
  have hne : 0 < r.length := by
    cases r with
    | nil => exact absurd hx (by decide)
    | cons c r => exact Nat.succ_pos _
  apply not_conversionsAgree hminus hs hu (by decide) (by decide)
  · intro hsame
    have hle := List.length_dropWhile_le (isDigit 16) r.tail
    rw [← hsame, dropWhile_zero_cons (by decide), dropWhile_of_head hnone, List.length_tail] at hle
    omega
  · rw [leadingValue_zero_cons (by decide), leadingValue_of_head hnone]
    exact .inl (by decide)

/-- Behind blanks. -/
theorem agreesOn_of_isSpace (h : isSpace (str.headD 0) = true) : ConversionsAgree str base ↔ AgreesOn str base := by
  have hu : unsignedText str base = _ := unsignedText_of_isSpace h
  have hb' : 0 < if base = 0 then 10 else base := by split_ifs <;> omega
  have hdetect : signedText str base = detectBase (skipSign (str.dropWhile isSpace)) base := rfl
  have hminus : HasMinus str ↔ (str.dropWhile isSpace).headD 0 = 45 := Iff.rfl
  have hpos : 0 < (signedText str base).2 := detectBase_pos
  have hsuffix : (signedText str base).1 <:+ skipSign (str.dropWhile isSpace) := detectBase_suffix
  cases hs : signedText str base with
  | mk u b =>
    unfold AgreesOn
    simp only [h, hs, if_true] at hdetect hpos hsuffix ⊢
    generalize str.dropWhile isSpace = text at *
    by_cases hplus : text.headD 0 = 43
    · have hnone : isDigit (if base = 0 then 10 else base) (text.headD 0) = false := isDigit_sign (.inl hplus)
      rw [if_pos hplus, iff_false]
      apply not_conversionsAgree _ hs hu hpos hb'
      · intro hsame
        have hle := List.length_dropWhile_le (isDigit b) u
        have hskip := length_skipSign (.inl hplus)
        have hbehind := hsuffix.length_le
        rw [← hsame, dropWhile_of_head hnone] at hle
        omega
      · rw [leadingValue_of_head hnone]
        exact .inl (by decide)
      · rw [hminus, hplus]
        decide
    rw [if_neg hplus]
    by_cases hneg : text.headD 0 = 45
    · rw [if_pos hneg]
      exact conversionsAgree_minus_of_zero (hminus.mpr hneg) hs hu hpos hb' (leadingValue_of_head (isDigit_sign (.inr hneg)))
    rw [if_neg hneg]
    rw [skipSign_of_not (not_or.mpr ⟨hplus, hneg⟩)] at hdetect
    rw [← hminus] at hneg
    by_cases hoctal : base = 0 ∧ text.headD 0 = 48
    · rw [if_pos hoctal]
      obtain ⟨rfl, hzero⟩ := hoctal
      obtain ⟨r, rfl⟩ : ∃ r, text = 48 :: r := by
        cases text with
        | nil => exact absurd hzero (by decide)
        | cons c r => exact ⟨r, congrArg (· :: r) hzero⟩
      rw [detectBase_zero] at hdetect
      split_ifs at hdetect with hx
      · obtain ⟨rfl, rfl⟩ := Prod.mk.inj hdetect
        exact iff_of_false (not_conversionsAgree_hex hneg hs hu hx) fun h => absurd h.1 (by decide)
      · obtain ⟨rfl, rfl⟩ := Prod.mk.inj hdetect
        rw [conversionsAgree_octal hneg hs hu, and_iff_right rfl]
    · rw [if_neg hoctal]
      rw [detectBase_plain hoctal] at hdetect
      obtain ⟨rfl, rfl⟩ := Prod.mk.inj hdetect
      exact conversionsAgree_same hneg hs hu hb'

/-- `strtol`, `strtoll` and `strtoull` agree on exactly these strings. -/
theorem strtol_family_iff (str : Str) (base : ℕ) : ConversionsAgree str base ↔ AgreesOn str base := by
  cases h : isSpace (str.headD 0) with
  | false => exact agreesOn_of_not_isSpace h
  | true => exact agreesOn_of_isSpace h

/-- `strtol` of "-5" is 5. -/
theorem strtol_negative : ¬ ConversionsAgree [45, 53] 10 := fun h => absurd h.clamped (by decide)

end Family

end SysX
