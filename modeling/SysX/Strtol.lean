import SysX.Tar
import Mathlib.Data.Nat.Digits.Defs
import Mathlib.Tactic.Ring

/-!
The number parsers of `lib/stdlib.c`: `strtoull`, `strtoul` and `strtoll`. A string is the list of its characters, and what
is stored at `endptr` is the rest of it, or nothing where the parser returns before that.
-/
namespace SysX

/-- `INT64_MAX` -/
def int64Max : ℤ := 9223372036854775807
/-- `INT64_MIN` -/
def int64Min : ℤ := -9223372036854775808
/-- `UINT32_MAX` -/
def uint32Max : ℕ := 4294967295

namespace LibStdlib

/-- The detection of the base, which the two parsers share. -/
def detectBase (str : Str) (base : ℕ) : Str × ℕ :=
  if base ≠ 0 then (str, base)
  else if str.headD 0 = 48 then
    let str := str.tail
    if str.headD 0 = 120 ∨ str.headD 0 = 88 then (str.tail, 16) else (str, 8)
  else (str, 10)

def strtoullDigits (base : ℕ) : (str : Str) → (result : ℕ) → ℕ × Option Str
  | [], result => (result, some [])
  | c :: str, result =>
    if c = 0 then (result, some (c :: str))
    else match digitOf c with
      | none => (result, some (c :: str))
      | some d =>
        if base ≤ d then (result, some (c :: str))
        else if uint64Max / base < result then (uint64Max, none)
        else
          let result := w64 (result * base)
          if uint64Max - d < result then (uint64Max, none) else strtoullDigits base str (w64 (result + d))

def strtoull (str : Str) (base : ℕ) : ℕ × Option Str :=
  let str := if str.headD 0 = 43 ∨ str.headD 0 = 45 then str.tail else str
  let (str, base) := detectBase str base
  strtoullDigits base (str.dropWhile isSpace) 0

def strtoul (str : Str) (base : ℕ) : ℕ × Option Str :=
  let (result, endptr) := strtoull str base
  (if uint32Max < result then uint32Max else result, endptr)

/-- The loop of `strtoll`. The checks keep the products and the sums within 64 bits. -/
def strtollDigits (sign : Bool) (base : ℕ) : (str : Str) → (result : ℤ) → ℤ × Option Str
  | [], result => (result, some [])
  | c :: str, result =>
    if c = 0 then (result, some (c :: str))
    else match digitOf c with
      | none => (result, some (c :: str))
      | some d =>
        if base ≤ d then (result, some (c :: str))
        else if sign = false then
          if int64Max.tdiv base < result then (int64Max, none)
          else if int64Max - d < result * base then (int64Max, none)
          else strtollDigits sign base str (result * base + d)
        else
          if result < int64Min.tdiv base then (int64Min, none)
          -- the one exit of this branch with the other limit
          else if result * base < int64Min + d then (int64Max, none)
          else strtollDigits sign base str (result * base - d)

def strtoll (str : Str) (base : ℕ) : ℤ × Option Str :=
  let str := str.dropWhile isSpace
  let sign := str.headD 0 = 45
  let str := if str.headD 0 = 43 ∨ str.headD 0 = 45 then str.tail else str
  let (str, base) := detectBase str base
  strtollDigits sign base str 0

end LibStdlib

/-! What a numeral is. -/

/-- What a character stands for as a digit, in either case of the letters. -/
def digitValue (c : UInt8) : Option ℕ :=
  if 48 ≤ c.toNat ∧ c.toNat ≤ 57 then some (c.toNat - 48)
  else if 65 ≤ c.toNat ∧ c.toNat ≤ 90 then some (c.toNat - 55)
  else if 97 ≤ c.toNat ∧ c.toNat ≤ 122 then some (c.toNat - 87)
  else none

def IsDigit (base : ℕ) (c : UInt8) : Prop := ∃ d < base, digitValue c = some d

/-- The number that digits stand for, the first one being the most significant. -/
def numeralValue (base : ℕ) (digits : Str) : ℕ :=
  Nat.ofDigits base (digits.map fun c => (digitValue c).getD 0).reverse

/-- What stands behind the digits: nothing, or a character that is no digit. -/
def DigitsEnd (base : ℕ) (rest : Str) : Prop := ∀ c, rest.head? = some c → ¬ IsDigit base c

/-- The prefix `pre` before the digits, in a string with `rest` behind them, and the base that it selects. -/
inductive BasePrefix : (base : ℕ) → (pre digits rest : Str) → (selected : ℕ) → Prop
  | given {base : ℕ} (h : base ≠ 0) (digits rest : Str) : BasePrefix base [] digits rest base
  | hex {x : UInt8} (h : x = 120 ∨ x = 88) (digits rest : Str) : BasePrefix 0 [48, x] digits rest 16
  | octal (digits rest : Str) (h : ∀ x, (digits ++ rest).head? = some x → x ≠ 120 ∧ x ≠ 88) :
    BasePrefix 0 [] (48 :: digits) rest 8
  | decimal (digits rest : Str) (h : digits.head? ≠ some 48) : BasePrefix 0 [] digits rest 10

section Digits

variable {base selected n d : ℕ} {c : UInt8} {digits rest before pre : Str}

theorem digitOf_eq (c : UInt8) : digitOf c = digitValue c := by
  have hc := c.toNat_lt
  have hsub : ∀ k : UInt8, k ≤ c → (c - k).toNat = c.toNat - k.toNat := fun k hk => UInt8.toNat_sub_of_le c k hk
  unfold digitOf digitValue
  simp only [UInt8.le_iff_toNat_le, UInt8.reduceToNat] at hsub ⊢
  by_cases hlow : 97 ≤ c.toNat ∧ c.toNat ≤ 122
  · have h32 : (c - 32).toNat = c.toNat - 32 := hsub 32 (by simp only [UInt8.reduceToNat]; omega)
    have h65 : (c - 32 - 65).toNat = c.toNat - 32 - 65 := by
      rw [UInt8.toNat_sub_of_le _ _ (UInt8.le_iff_toNat_le.mpr (by rw [h32]; simp only [UInt8.reduceToNat]; omega)), h32]
      rfl
    rw [if_pos hlow, h32, if_neg (by omega), if_pos (by omega), if_neg (by omega), if_neg (by omega), if_pos hlow,
      UInt8.toNat_add, h65]
    simp only [UInt8.reduceToNat]
    congr 1
    omega
  · rw [if_neg hlow]
    by_cases hdigit : 48 ≤ c.toNat ∧ c.toNat ≤ 57
    · rw [if_pos hdigit, if_pos hdigit, hsub 48 hdigit.1]
      rfl
    · rw [if_neg hdigit, if_neg hdigit]
      by_cases hup : 65 ≤ c.toNat ∧ c.toNat ≤ 90
      · rw [if_pos hup, if_pos hup, UInt8.toNat_add, hsub 65 hup.1]
        simp only [UInt8.reduceToNat]
        congr 1
        omega
      · rw [if_neg hup, if_neg hup, if_neg hlow]

theorem IsDigit.ne_zero (h : IsDigit base c) : c ≠ 0 := by
  rintro rfl
  obtain ⟨d, -, hd⟩ := h
  cases hd

theorem IsDigit.not_space (h : IsDigit base c) : isSpace c = false := by
  obtain ⟨d, -, hd⟩ := h
  by_contra hspace
  simp only [isSpace, Bool.not_eq_false, Bool.or_eq_true, decide_eq_true_eq] at hspace
  rcases hspace with ((((rfl | rfl) | rfl) | rfl) | rfl) | rfl <;> cases hd

/-- No digit is a sign. -/
theorem IsDigit.not_sign (h : IsDigit base c) : ¬ (c = 43 ∨ c = 45) := by
  obtain ⟨d, -, hd⟩ := h
  rintro (rfl | rfl) <;> cases hd

theorem digitValue_le (h : digitValue c = some d) : d ≤ 35 := by
  unfold digitValue at h
  split_ifs at h <;> obtain rfl := Option.some.inj h <;> omega

theorem numeralValue_concat (hd : digitValue c = some d) :
    numeralValue base (before ++ [c]) = numeralValue base before * base + d := by
  unfold numeralValue
  rw [List.map_append, List.reverse_append, List.map_singleton, hd]
  exact (Nat.add_comm _ _).trans (congrArg (· + d) (Nat.mul_comm _ _))

/-- Further digits make the number no smaller. -/
theorem numeralValue_le_append (hb : 0 < base) : numeralValue base before ≤ numeralValue base (before ++ digits) := by
  unfold numeralValue
  rw [List.map_append, List.reverse_append, Nat.ofDigits_append]
  exact (Nat.le_mul_of_pos_left _ (Nat.pow_pos hb)).trans (Nat.le_add_left _ _)

theorem numeralValue_concat_le_append (hb : 0 < base) (hd : digitValue c = some d) :
    numeralValue base before * base + d ≤ numeralValue base (before ++ c :: digits) := by
  rw [← numeralValue_concat hd, List.append_cons before c digits]
  exact numeralValue_le_append hb

theorem numeralValue_zero_cons : numeralValue base (48 :: digits) = numeralValue base digits := by
  unfold numeralValue
  rw [List.map_cons, List.reverse_cons, Nat.ofDigits_append]
  exact (congrArg _ (Nat.mul_zero _)).trans (Nat.add_zero _)

end Digits

namespace LibStdlib

variable {base selected : ℕ} {c : UInt8} {digits rest before pre : Str}

/-- Where the digits end, the loop stops with what it has. -/
theorem strtoullDigits_end (h : DigitsEnd base rest) (n : ℕ) : strtoullDigits base rest n = (n, some rest) := by
  cases rest with
  | nil => rfl
  | cons c rest =>
    have hno := h c rfl
    rw [strtoullDigits, digitOf_eq]
    by_cases hzero : c = 0
    · exact if_pos hzero
    · rw [if_neg hzero]
      cases hd : digitValue c with
      | none => rfl
      | some d => exact if_pos (Nat.le_of_not_lt fun hlt => hno ⟨d, hlt, hd⟩)

/-- The loop of `strtoull`, where the digits before it have not overflowed. -/
theorem strtoullDigits_eq (hb : 0 < base) (hdigits : ∀ c ∈ digits, IsDigit base c) (hend : DigitsEnd base rest)
    (hbefore : numeralValue base before ≤ uint64Max) :
    strtoullDigits base (digits ++ rest) (numeralValue base before) =
      if numeralValue base (before ++ digits) ≤ uint64Max then (numeralValue base (before ++ digits), some rest)
      else (uint64Max, none) := by
  induction digits generalizing before with
  | nil =>
    rw [List.append_nil, if_pos hbefore]
    exact strtoullDigits_end hend _
  | cons c digits ih =>
    have hc := hdigits c List.mem_cons_self
    have hzero := hc.ne_zero
    obtain ⟨d, hlt, hd⟩ := hc
    have hsmall := digitValue_le hd
    have hconcat : numeralValue base (before ++ [c]) = numeralValue base before * base + d := numeralValue_concat hd
    have hmore : numeralValue base before * base + d ≤ numeralValue base (before ++ c :: digits) :=
      numeralValue_concat_le_append hb hd
    rw [List.cons_append, strtoullDigits, if_neg hzero, digitOf_eq, hd]
    dsimp only
    rw [if_neg (Nat.not_le_of_lt hlt)]
    by_cases hmul : uint64Max / base < numeralValue base before
    · have hover : uint64Max < numeralValue base before * base := (Nat.div_lt_iff_lt_mul hb).mp hmul
      rw [if_pos hmul, if_neg (by omega)]
    · have hfits : numeralValue base before * base ≤ uint64Max :=
        Nat.le_of_not_lt fun hover => hmul ((Nat.div_lt_iff_lt_mul hb).mpr hover)
      have hw : w64 (numeralValue base before * base) = numeralValue base before * base :=
        Nat.mod_eq_of_lt (Nat.lt_succ_of_le hfits)
      rw [if_neg hmul, hw]
      by_cases hadd : uint64Max - d < numeralValue base before * base
      · rw [if_pos hadd, if_neg (by omega)]
      · have hsum : numeralValue base before * base + d ≤ uint64Max := by
          unfold uint64Max at hadd ⊢
          omega
        have hw' : w64 (numeralValue base before * base + d) = numeralValue base (before ++ [c]) := by
          rw [hconcat]
          exact Nat.mod_eq_of_lt (Nat.lt_succ_of_le hsum)
        rw [if_neg hadd, hw', List.append_cons before c digits]
        exact ih (fun c hc => hdigits c (List.mem_cons_of_mem _ hc)) (by rw [hconcat]; exact hsum)

/-- The base is detected, and what follows holds the digits up to a leading zero. -/
theorem detectBase_eq (hpre : BasePrefix base pre digits rest selected) (hne : digits ≠ [])
    (hdigits : ∀ c ∈ digits, IsDigit selected c) :
    ∃ digits', detectBase (pre ++ digits ++ rest) base = (digits' ++ rest, selected) ∧
      numeralValue selected digits' = numeralValue selected digits ∧ ∀ c ∈ digits', IsDigit selected c := by
  cases hpre with
  | given h => exact ⟨digits, if_pos h, rfl, hdigits⟩
  | hex h => exact ⟨digits, by simp [detectBase, h], rfl, hdigits⟩
  | octal digits _ h =>
    refine ⟨digits, ?_, numeralValue_zero_cons.symm, fun c hc => hdigits c (List.mem_cons_of_mem _ hc)⟩
    have hx : ¬ ((digits ++ rest).headD 0 = 120 ∨ (digits ++ rest).headD 0 = 88) := by
      cases hlist : digits ++ rest with
      | nil => decide
      | cons x _ =>
        have := h x (by rw [hlist]; rfl)
        exact not_or.mpr this
    exact if_neg hx
  | decimal _ _ h =>
    refine ⟨digits, ?_, rfl, hdigits⟩
    cases digits with
    | nil => exact absurd rfl hne
    | cons c digits =>
      have hc : ¬ c = 48 := fun h48 => h (congrArg some h48)
      exact if_neg hc

theorem dropWhile_isSpace {str : Str} (h : ∀ c, str.head? = some c → isSpace c = false) : str.dropWhile isSpace = str := by
  cases str with
  | nil => rfl
  | cons c str => exact List.dropWhile_cons_of_neg (by rw [h c rfl]; exact Bool.false_ne_true)

/-- The head of a text that starts with digits, where there are any. -/
theorem head_digits (h : (digits ++ rest).head? = some c) : c ∈ digits ∨ rest.head? = some c := by
  cases digits with
  | nil => exact .inr h
  | cons d digits => exact .inl (List.mem_cons.mpr (.inl (Option.some.inj h).symm))

/-- A sign is passed. The text behind it has none. -/
theorem skip_sign {sign str : Str} (hsign : sign = [] ∨ sign = [43] ∨ sign = [45])
    (hstr : ∀ c, str.head? = some c → ¬ (c = 43 ∨ c = 45)) :
    (if (sign ++ str).headD 0 = 43 ∨ (sign ++ str).headD 0 = 45 then (sign ++ str).tail else sign ++ str) = str := by
  rcases hsign with rfl | rfl | rfl
  · cases str with
    | nil => rfl
    | cons c str => exact if_neg (hstr c rfl)
  · rfl
  · rfl

theorem BasePrefix.not_sign (hpre : BasePrefix base pre digits rest selected) (hne : digits ≠ [])
    (hdigits : ∀ c ∈ digits, IsDigit selected c) (hc : (pre ++ digits ++ rest).head? = some c) : ¬ (c = 43 ∨ c = 45) := by
  have hhead : (digits ++ rest).head? = some c → ¬ (c = 43 ∨ c = 45) := by
    intro h
    cases digits with
    | nil => exact absurd rfl hne
    | cons d digits => exact (Option.some.inj h) ▸ (hdigits d List.mem_cons_self).not_sign
  cases hpre with
  | given => exact hhead hc
  | hex =>
    obtain rfl : 48 = c := Option.some.inj hc
    decide
  | octal => exact hhead hc
  | decimal => exact hhead hc

/-- `strtoull` of a numeral behind an optional plus sign. -/
theorem strtoull_eq {sign : Str} (hb : 0 < selected) (hsign : sign = [] ∨ sign = [43])
    (hpre : BasePrefix base pre digits rest selected) (hne : digits ≠ []) (hdigits : ∀ c ∈ digits, IsDigit selected c)
    (hend : ∀ c, rest.head? = some c → ¬ IsDigit selected c ∧ isSpace c = false) :
    strtoull (sign ++ (pre ++ digits ++ rest)) base = if numeralValue selected digits ≤ uint64Max then
      (numeralValue selected digits, some rest) else (uint64Max, none) := by
  obtain ⟨digits', hdetect, hvalue, hdigits'⟩ := detectBase_eq hpre hne hdigits
  have hspace : (digits' ++ rest).dropWhile isSpace = digits' ++ rest := by
    apply dropWhile_isSpace
    intro c hc
    rcases head_digits hc with hin | hrest
    · exact (hdigits' c hin).not_space
    · exact (hend c hrest).2
  have hloop : strtoullDigits selected (digits' ++ rest) 0 = _ :=
    @strtoullDigits_eq _ _ _ [] hb hdigits' (fun c hc => (hend c hc).1) (Nat.zero_le _)
  rw [List.nil_append, hvalue] at hloop
  rw [strtoull, skip_sign (hsign.imp_right .inl) fun c hc => BasePrefix.not_sign hpre hne hdigits hc, hdetect]
  dsimp only
  rw [hspace]
  exact hloop

/-! The same functions on a string in memory, in a base other than 0. -/

section Memory

variable {r : ℕ → UInt8} {k n : ℕ} {str : Str}

theorem skipSpaces_spells (h : Spells r k str) (hn : str.length < n) :
    ∃ k', skipSpaces r n k = some k' ∧ Spells r k' (str.dropWhile isSpace) := by
  induction str generalizing k n with
  | nil =>
    obtain ⟨n, rfl⟩ := Nat.exists_eq_succ_of_ne_zero (Nat.ne_of_gt hn)
    exact ⟨k, if_neg (by rw [show r k = 0 from h]; decide), h⟩
  | cons c str ih =>
    obtain ⟨n, rfl⟩ := Nat.exists_eq_succ_of_ne_zero (Nat.ne_of_gt (Nat.zero_lt_of_lt hn))
    have hall := h
    obtain ⟨rfl, -, hrest⟩ := h
    by_cases hspace : isSpace (r k) = true
    · rw [List.dropWhile_cons_of_pos hspace, skipSpaces, if_pos hspace]
      exact ih hrest (Nat.lt_of_succ_lt_succ hn)
    · rw [List.dropWhile_cons_of_neg hspace, skipSpaces, if_neg hspace]
      exact ⟨k, rfl, hall⟩

theorem strtoullDigits_spells {result : ℕ} (hb : 0 < base) (h : Spells r k str) (hn : str.length < n) :
    SysX.strtoullDigits base r n k result = some (strtoullDigits base str result).1 := by
  induction str generalizing k n result with
  | nil =>
    obtain ⟨n, rfl⟩ := Nat.exists_eq_succ_of_ne_zero (Nat.ne_of_gt hn)
    exact if_pos h
  | cons c str ih =>
    obtain ⟨n, rfl⟩ := Nat.exists_eq_succ_of_ne_zero (Nat.ne_of_gt (Nat.zero_lt_of_lt hn))
    obtain ⟨rfl, hzero, hrest⟩ := h
    rw [SysX.strtoullDigits, strtoullDigits, if_neg hzero, if_neg hzero, digitOf_eq]
    cases hd : digitValue (r k) with
    | none => rfl
    | some d =>
      have hsmall := digitValue_le hd
      dsimp only
      by_cases hout : base ≤ d
      · rw [if_pos hout, if_pos hout]
      · rw [if_neg hout, if_neg hout]
        by_cases hmul : uint64Max / base < result
        · rw [if_pos hmul, if_pos hmul]
        · have hfits : result * base ≤ uint64Max :=
            Nat.le_of_not_lt fun hover => hmul ((Nat.div_lt_iff_lt_mul hb).mpr hover)
          have hw : w64 (result * base) = result * base := Nat.mod_eq_of_lt (Nat.lt_succ_of_le hfits)
          rw [if_neg hmul, if_neg hmul, hw]
          by_cases hadd : uint64Max - d < result * base
          · rw [if_pos hadd, if_pos hadd]
          · have hw' : w64 (result * base + d) = result * base + d := by
              unfold uint64Max at hadd hfits
              exact Nat.mod_eq_of_lt (by omega)
            rw [if_neg hadd, if_neg hadd, hw']
            exact ih hrest (Nat.lt_of_succ_lt_succ hn)

/-- The parser of the archives. -/
theorem strtoull_spells (hb : 0 < base) (h : Spells r k str) (hn : str.length < stringFuel) :
    SysX.strtoull r k base = some (strtoull str base).1 := by
  have hsign : ∃ k', (if r k = 43 ∨ r k = 45 then k + 1 else k) = k' ∧
      Spells r k' (if str.headD 0 = 43 ∨ str.headD 0 = 45 then str.tail else str) := by
    rw [← h.head]
    by_cases hs : r k = 43 ∨ r k = 45
    · rw [if_pos hs, if_pos hs]
      cases str with
      | nil => exact absurd hs (by rw [show r k = 0 from h]; decide)
      | cons c str => exact ⟨k + 1, rfl, h.2.2⟩
    · rw [if_neg hs, if_neg hs]
      exact ⟨k, rfl, h⟩
  obtain ⟨k', hk', hspells⟩ := hsign
  have hlen : (if str.headD 0 = 43 ∨ str.headD 0 = 45 then str.tail else str).length ≤ str.length := by
    split_ifs
    · rw [List.length_tail]
      omega
    · exact Nat.le_refl _
  have hdetect : ∀ s : Str, detectBase s base = (s, base) := fun s => if_pos hb.ne'
  unfold SysX.strtoull strtoull
  dsimp only
  rw [hk', hdetect]
  generalize (if str.headD 0 = 43 ∨ str.headD 0 = 45 then str.tail else str) = tail at hspells hlen
  obtain ⟨k'', hskip, hdigits⟩ := skipSpaces_spells hspells (Nat.lt_of_le_of_lt hlen hn)
  dsimp only
  rw [hskip]
  exact strtoullDigits_spells hb hdigits
    (Nat.lt_of_le_of_lt ((List.dropWhile_sublist _).length_le.trans hlen) hn)

end Memory

end LibStdlib

/-- `strtoull` gives the number, up to the largest one, and finds the end of the digits; `strtoul` gives the number up to
the largest one that it can. -/
theorem strtoull_min {base selected : ℕ} {sign pre digits rest : Str} (hbase : base = 0 ∨ 2 ≤ base ∧ base ≤ 36)
    (hsign : sign = [] ∨ sign = [43]) (hpre : BasePrefix base pre digits rest selected) (hne : digits ≠ [])
    (hdigits : ∀ c ∈ digits, IsDigit selected c)
    (hend : ∀ c, rest.head? = some c → ¬ IsDigit selected c ∧ isSpace c = false) :
    (LibStdlib.strtoull (sign ++ (pre ++ digits ++ rest)) base).1 = min (numeralValue selected digits) uint64Max ∧
    (numeralValue selected digits ≤ uint64Max →
      (LibStdlib.strtoull (sign ++ (pre ++ digits ++ rest)) base).2 = some rest) ∧
    (LibStdlib.strtoul (sign ++ (pre ++ digits ++ rest)) base).1 = min (numeralValue selected digits) uint32Max := by
  have hb : 0 < selected := by
    cases hpre with
    | given h => omega
    | hex | octal | decimal => decide
  have heq := LibStdlib.strtoull_eq hb hsign hpre hne hdigits hend
  unfold LibStdlib.strtoul
  rw [heq]
  by_cases hle : numeralValue selected digits ≤ uint64Max
  · rw [if_pos hle]
    refine ⟨(Nat.min_eq_left hle).symm, fun _ => rfl, ?_⟩
    dsimp only
    split_ifs with h32
    · exact (Nat.min_eq_right h32.le).symm
    · exact (Nat.min_eq_left (Nat.le_of_not_lt h32)).symm
  · rw [if_neg hle]
    have hbig : uint32Max ≤ numeralValue selected digits := by
      unfold uint64Max at hle
      unfold uint32Max
      omega
    exact ⟨(Nat.min_eq_right (Nat.le_of_not_le hle)).symm, fun h => absurd h hle, (Nat.min_eq_right hbig).symm⟩

/-- A number behind the prefix of the base 16, with a plus sign and both cases of letters. -/
theorem strtoull_min_hex :
    (LibStdlib.strtoull ([43] ++ ([48, 120] ++ [102, 70] ++ [103])) 0).1 = min (numeralValue 16 [102, 70]) uint64Max ∧
    (numeralValue 16 [102, 70] ≤ uint64Max →
      (LibStdlib.strtoull ([43] ++ ([48, 120] ++ [102, 70] ++ [103])) 0).2 = some [103]) ∧
    (LibStdlib.strtoul ([43] ++ ([48, 120] ++ [102, 70] ++ [103])) 0).1 = min (numeralValue 16 [102, 70]) uint32Max :=
  strtoull_min (.inl rfl) (.inr rfl) (.hex (.inl rfl) _ _) (List.cons_ne_nil _ _)
    (by
      intro c hc
      simp only [List.mem_cons, List.not_mem_nil, or_false] at hc
      rcases hc with rfl | rfl <;> exact ⟨15, by decide, rfl⟩)
    (by
      intro c hc
      obtain rfl : 103 = c := Option.some.inj hc
      refine ⟨?_, rfl⟩
      rintro ⟨d, hd, heq⟩
      obtain rfl : 16 = d := Option.some.inj heq
      exact absurd hd (by decide))

/-! The signed parser. -/

/-- The digit that makes the number exceed the limit does so when it is added. `before` are the digits in front of these. -/
def ExceedsByAddition (limit base : ℕ) (before digits : Str) : Prop :=
  ∃ ds c ds', digits = ds ++ c :: ds' ∧ numeralValue base (before ++ ds) * base ≤ limit ∧
    limit < numeralValue base (before ++ ds ++ [c])

section Exceeds

variable {base : ℕ} {digits before : Str}

theorem exceedsByAddition_cons {limit : ℕ} {c : UInt8} : ExceedsByAddition limit base before (c :: digits) ↔
    numeralValue base before * base ≤ limit ∧ limit < numeralValue base (before ++ [c]) ∨
      ExceedsByAddition limit base (before ++ [c]) digits := by
  constructor
  · rintro ⟨ds, e, ds', heq, hle, hlt⟩
    cases ds with
    | nil =>
      obtain ⟨rfl, rfl⟩ := List.cons.inj heq
      rw [List.append_nil] at hle hlt
      exact .inl ⟨hle, hlt⟩
    | cons c' ds =>
      obtain ⟨rfl, rfl⟩ := List.cons.inj heq
      rw [List.append_cons before c ds] at hle hlt
      exact .inr ⟨ds, e, ds', rfl, hle, hlt⟩
  · rintro (⟨hle, hlt⟩ | ⟨ds, e, ds', rfl, hle, hlt⟩)
    · exact ⟨[], c, digits, rfl, by rwa [List.append_nil], by rwa [List.append_nil]⟩
    · rw [← List.append_cons before c ds] at hle hlt
      exact ⟨c :: ds, e, ds', rfl, hle, hlt⟩

theorem ExceedsByAddition.lt {limit : ℕ} (h : ExceedsByAddition limit base before digits) (hb : 0 < base) :
    limit < numeralValue base (before ++ digits) := by
  obtain ⟨ds, c, ds', rfl, -, hlt⟩ := h
  rw [List.append_cons ds c ds', ← List.append_assoc, ← List.append_assoc]
  exact Nat.lt_of_lt_of_le hlt (numeralValue_le_append hb)

/-- A number that exceeds the limit already does not get there by an addition. -/
theorem not_exceedsByAddition {limit : ℕ} (hb : 0 < base) (h : limit < numeralValue base before) :
    ¬ ExceedsByAddition limit base before digits := by
  rintro ⟨ds, c, ds', -, hle, -⟩
  have hgrow : numeralValue base before ≤ numeralValue base (before ++ ds) := numeralValue_le_append hb
  exact absurd hle (Nat.not_le_of_lt (Nat.lt_of_lt_of_le h (hgrow.trans (Nat.le_mul_of_pos_right _ hb))))

end Exceeds

/-- `- INT64_MIN` -/
def int64Limit : ℕ := 9223372036854775808

namespace LibStdlib

variable {base : ℕ} {digits rest before : Str}

theorem strtollDigits_end (h : DigitsEnd base rest) (sign : Bool) (n : ℤ) :
    strtollDigits sign base rest n = (n, some rest) := by
  cases rest with
  | nil => rfl
  | cons c rest =>
    have hno := h c rfl
    rw [strtollDigits, digitOf_eq]
    by_cases hzero : c = 0
    · exact if_pos hzero
    · rw [if_neg hzero]
      cases hd : digitValue c with
      | none => rfl
      | some d => exact if_pos (Nat.le_of_not_lt fun hlt => hno ⟨d, hlt, hd⟩)

/-- The first check of the positive branch. -/
theorem int64Max_tdiv_lt (hb : 0 < base) (n : ℕ) : int64Max.tdiv base < n ↔ int64Limit ≤ n * base := by
  have hdiv : int64Max.tdiv base = ((9223372036854775807 / base : ℕ) : ℤ) := rfl
  rw [hdiv, Int.ofNat_lt, Nat.div_lt_iff_lt_mul hb]
  rfl

/-- The first check of the negative branch, where the quotient is rounded towards zero. -/
theorem lt_int64Min_tdiv (hb : 0 < base) (n : ℕ) : -(n : ℤ) < int64Min.tdiv base ↔ int64Limit < n * base := by
  have hdiv : int64Min.tdiv base = -((int64Limit / base : ℕ) : ℤ) := Int.neg_tdiv (int64Limit : ℤ) base
  rw [hdiv, neg_lt_neg_iff, Int.ofNat_lt, Nat.div_lt_iff_lt_mul hb]

/-- The loop of `strtoll` on the digits of a positive number. -/
theorem strtollDigits_pos (hb : 0 < base) (hdigits : ∀ c ∈ digits, IsDigit base c) (hend : DigitsEnd base rest)
    (hbefore : numeralValue base before < int64Limit) :
    (strtollDigits false base (digits ++ rest) (numeralValue base before)).1 =
      min (numeralValue base (before ++ digits) : ℤ) int64Max := by
  induction digits generalizing before with
  | nil =>
    rw [List.append_nil, List.nil_append, strtollDigits_end hend]
    unfold int64Limit at hbefore
    unfold int64Max
    dsimp only
    omega
  | cons c digits ih =>
    have hc := hdigits c List.mem_cons_self
    have hzero := hc.ne_zero
    obtain ⟨d, hlt, hd⟩ := hc
    have hconcat : numeralValue base (before ++ [c]) = numeralValue base before * base + d := numeralValue_concat hd
    have hmore : numeralValue base before * base + d ≤ numeralValue base (before ++ c :: digits) :=
      numeralValue_concat_le_append hb hd
    have hfirst := int64Max_tdiv_lt hb (numeralValue base before)
    have hprod : (numeralValue base before : ℤ) * base = ((numeralValue base before * base : ℕ) : ℤ) := rfl
    rw [List.cons_append, strtollDigits, if_neg hzero, digitOf_eq, hd]
    dsimp only
    rw [if_neg (Nat.not_le_of_lt hlt), if_pos rfl, hprod]
    by_cases hmul : int64Limit ≤ numeralValue base before * base
    · rw [if_pos (hfirst.mpr hmul)]
      unfold int64Limit at hmul
      unfold int64Max
      omega
    · rw [if_neg (mt hfirst.mp hmul)]
      unfold int64Limit at hmul ih
      unfold int64Max at ih ⊢
      split_ifs with hadd
      · omega
      · rw [← Int.natCast_add, ← hconcat, List.append_cons before c digits]
        exact ih (fun c hc => hdigits c (List.mem_cons_of_mem _ hc)) (by rw [hconcat]; omega)

/-- The loop of `strtoll` on the digits of a negative number. -/
theorem strtollDigits_neg (hb : 0 < base) (hdigits : ∀ c ∈ digits, IsDigit base c) (hend : DigitsEnd base rest)
    (hbefore : numeralValue base before ≤ int64Limit) {r : ℤ}
    (hr : (strtollDigits true base (digits ++ rest) (-(numeralValue base before : ℤ))).1 = r) :
    (numeralValue base (before ++ digits) ≤ int64Limit → r = -(numeralValue base (before ++ digits) : ℤ)) ∧
      (int64Limit < numeralValue base (before ++ digits) →
        (ExceedsByAddition int64Limit base before digits → r = int64Max) ∧
        (¬ ExceedsByAddition int64Limit base before digits → r = int64Min)) := by
  induction digits generalizing before with
  | nil =>
    rw [List.nil_append, strtollDigits_end hend] at hr
    rw [List.append_nil]
    exact ⟨fun _ => hr.symm, fun hlt => absurd hbefore (Nat.not_le_of_lt hlt)⟩
  | cons c digits ih =>
    have hc := hdigits c List.mem_cons_self
    have hzero := hc.ne_zero
    obtain ⟨d, hlt, hd⟩ := hc
    have hconcat : numeralValue base (before ++ [c]) = numeralValue base before * base + d := numeralValue_concat hd
    have hmore : numeralValue base before * base + d ≤ numeralValue base (before ++ c :: digits) :=
      numeralValue_concat_le_append hb hd
    have hfirst := lt_int64Min_tdiv hb (numeralValue base before)
    have hprod : -(numeralValue base before : ℤ) * base = -((numeralValue base before * base : ℕ) : ℤ) := Int.neg_mul _ _
    rw [List.cons_append, strtollDigits, if_neg hzero, digitOf_eq, hd] at hr
    dsimp only at hr
    rw [if_neg (Nat.not_le_of_lt hlt), if_neg (Bool.false_ne_true ∘ Eq.symm), hprod] at hr
    by_cases hmul : int64Limit < numeralValue base before * base
    · -- the product is too small already
      rw [if_pos (hfirst.mpr hmul)] at hr
      refine ⟨fun hle => absurd hle (by omega), fun _ => ⟨fun hex => ?_, fun _ => hr.symm⟩⟩
      rcases exceedsByAddition_cons.mp hex with ⟨hle, -⟩ | hex
      · exact absurd hle (Nat.not_le_of_lt hmul)
      · exact absurd hex (not_exceedsByAddition hb (by omega))
    · rw [if_neg (mt hfirst.mp hmul)] at hr
      by_cases hadd : int64Limit < numeralValue base before * base + d
      · rw [if_pos (by unfold int64Min; unfold int64Limit at hadd; omega)] at hr
        refine ⟨fun hle => absurd hle (by omega), fun _ => ⟨fun _ => hr.symm, fun hno => absurd ?_ hno⟩⟩
        exact exceedsByAddition_cons.mpr (.inl ⟨Nat.le_of_not_lt hmul, by rwa [hconcat]⟩)
      · have hnext : -((numeralValue base before * base : ℕ) : ℤ) - d = -(numeralValue base (before ++ [c]) : ℤ) := by
          rw [hconcat]
          omega
        rw [if_neg (by unfold int64Min; unfold int64Limit at hadd; omega), hnext] at hr
        have hrest := ih (fun c hc => hdigits c (List.mem_cons_of_mem _ hc)) (by rw [hconcat]; omega) hr
        rw [← List.append_cons before c digits] at hrest
        have hiff : ExceedsByAddition int64Limit base before (c :: digits) ↔
            ExceedsByAddition int64Limit base (before ++ [c]) digits := by
          rw [exceedsByAddition_cons, hconcat]
          exact or_iff_right fun h => hadd h.2
        rwa [hiff]

/-- `strtoll` of digits behind an optional sign runs its loop on them. -/
theorem strtoll_eq {sign : Str} (hb : base ≠ 0) (hsign : sign = [] ∨ sign = [43] ∨ sign = [45]) (hne : digits ≠ [])
    (hdigits : ∀ c ∈ digits, IsDigit base c) :
    strtoll (sign ++ (digits ++ rest)) base = strtollDigits (decide (sign = [45])) base (digits ++ rest) 0 := by
  have hhead : ∀ c, (digits ++ rest).head? = some c → IsDigit base c := by
    intro c hc
    cases digits with
    | nil => exact absurd rfl hne
    | cons d digits => exact (Option.some.inj hc) ▸ hdigits d List.mem_cons_self
  have hspace : (sign ++ (digits ++ rest)).dropWhile isSpace = sign ++ (digits ++ rest) := by
    apply dropWhile_isSpace
    intro c hc
    rcases hsign with rfl | rfl | rfl
    · exact (hhead c hc).not_space
    · obtain rfl : 43 = c := Option.some.inj hc
      rfl
    · obtain rfl : 45 = c := Option.some.inj hc
      rfl
  have hneg : (sign ++ (digits ++ rest)).headD 0 = 45 ↔ sign = [45] := by
    rcases hsign with rfl | rfl | rfl
    · cases digits with
      | nil => exact absurd rfl hne
      | cons d digits =>
        exact iff_of_false (fun h => (hdigits d List.mem_cons_self).not_sign (.inr h)) (List.cons_ne_nil _ _).symm
    · exact iff_of_false (show (43 : UInt8) ≠ 45 by decide) (by decide)
    · exact iff_of_true rfl rfl
  unfold strtoll
  rw [hspace]
  dsimp only
  rw [skip_sign hsign fun c hc => (hhead c hc).not_sign, detectBase, if_pos hb]
  simp only [hneg]

end LibStdlib

/-- The number behind an optional sign. -/
def signedValue (base : ℕ) (sign digits : Str) : ℤ :=
  if sign = [45] then -(numeralValue base digits : ℤ) else numeralValue base digits

/-- The number that 64 bits can hold which is nearest to `n`. -/
def saturate (n : ℤ) : ℤ := max int64Min (min n int64Max)

section Signed

variable {base : ℕ} {sign digits rest : Str}

/-- A number without a minus sign is read, up to the largest one. -/
theorem strtoll_of_not_neg (hbase : 2 ≤ base ∧ base ≤ 36) (hsign : sign = [] ∨ sign = [43] ∨ sign = [45]) (hneg : sign ≠ [45])
    (hne : digits ≠ []) (hdigits : ∀ c ∈ digits, IsDigit base c) (hend : DigitsEnd base rest) :
    (LibStdlib.strtoll (sign ++ (digits ++ rest)) base).1 = saturate (signedValue base sign digits) := by
  have hb : 0 < base := by omega
  have hstart : numeralValue base [] < int64Limit := show 0 < int64Limit by decide
  have hloop := LibStdlib.strtollDigits_pos hb hdigits hend hstart
  rw [List.nil_append] at hloop
  rw [LibStdlib.strtoll_eq hb.ne' hsign hne hdigits, signedValue, if_neg hneg, decide_eq_false hneg]
  refine hloop.trans ?_
  unfold saturate int64Min int64Max
  omega

/-- A negative number is read where it fits. -/
theorem strtoll_neg_of_le (hbase : 2 ≤ base ∧ base ≤ 36) (hne : digits ≠ []) (hdigits : ∀ c ∈ digits, IsDigit base c)
    (hend : DigitsEnd base rest) (hle : numeralValue base digits ≤ int64Limit) :
    (LibStdlib.strtoll ([45] ++ (digits ++ rest)) base).1 = saturate (signedValue base [45] digits) := by
  have hb : 0 < base := by omega
  have hstart : numeralValue base [] ≤ int64Limit := Nat.zero_le _
  have hloop := LibStdlib.strtollDigits_neg hb hdigits hend hstart rfl
  rw [List.nil_append] at hloop
  rw [LibStdlib.strtoll_eq hb.ne' (.inr (.inr rfl)) hne hdigits, signedValue, if_pos rfl, decide_eq_true rfl]
  refine (hloop.1 hle).trans ?_
  unfold saturate int64Min int64Max
  unfold int64Limit at hle
  omega

end Signed

/-- `strtoll` gives the number, or the limit that it exceeds, except where a negative number falls below the limit by an
addition. -/
theorem strtoll_iff {base : ℕ} {sign digits rest : Str} (hbase : 2 ≤ base ∧ base ≤ 36)
    (hsign : sign = [] ∨ sign = [43] ∨ sign = [45]) (hne : digits ≠ []) (hdigits : ∀ c ∈ digits, IsDigit base c)
    (hend : DigitsEnd base rest) :
    (LibStdlib.strtoll (sign ++ (digits ++ rest)) base).1 = saturate (signedValue base sign digits) ↔
      ¬ (sign = [45] ∧ ExceedsByAddition int64Limit base [] digits) := by
  have hb : 0 < base := by omega
  by_cases hneg : sign = [45]
  · subst hneg
    simp only [true_and]
    by_cases hle : numeralValue base digits ≤ int64Limit
    · exact iff_of_true (strtoll_neg_of_le hbase hne hdigits hend hle) fun hex => absurd hle (Nat.not_le_of_lt (hex.lt hb))
    · have hstart : numeralValue base [] ≤ int64Limit := Nat.zero_le _
      have hzero : -(numeralValue base [] : ℤ) = 0 := rfl
      have hloop := LibStdlib.strtollDigits_neg hb hdigits hend hstart rfl
      rw [List.nil_append, hzero] at hloop
      obtain ⟨hmax, hmin⟩ := hloop.2 (Nat.lt_of_not_le hle)
      have hsat : saturate (-(numeralValue base digits : ℤ)) = int64Min := by
        unfold saturate int64Min int64Max
        unfold int64Limit at hle
        omega
      rw [LibStdlib.strtoll_eq hb.ne' hsign hne hdigits, signedValue, if_pos rfl, decide_eq_true rfl, hsat]
      by_cases hex : ExceedsByAddition int64Limit base [] digits
      · rw [hmax hex]
        exact iff_of_false (by decide) (not_not_intro hex)
      · exact iff_of_true (hmin hex) hex
  · exact iff_of_true (strtoll_of_not_neg hbase hsign hneg hne hdigits hend) fun h => hneg h.1

/-- One below the smallest number gives the largest one. -/
theorem strtoll_below :
    ¬ (LibStdlib.strtoll [45, 57, 50, 50, 51, 51, 55, 50, 48, 51, 54, 56, 53, 52, 55, 55, 53, 56, 48, 57] 10).1 =
      saturate (signedValue 10 [45] [57, 50, 50, 51, 51, 55, 50, 48, 51, 54, 56, 53, 52, 55, 55, 53, 56, 48, 57]) := by
  decide

/-- A negative number in base 16. -/
theorem strtoll_iff_hex : (LibStdlib.strtoll ([45] ++ ([102, 70] ++ [32])) 16).1 = saturate (signedValue 16 [45] [102, 70]) ↔
    ¬ (([45] : Str) = [45] ∧ ExceedsByAddition int64Limit 16 [] [102, 70]) :=
  @strtoll_iff 16 [45] [102, 70] [32] (by decide) (.inr (.inr rfl)) (List.cons_ne_nil _ _)
    (by
      intro c hc
      simp only [List.mem_cons, List.not_mem_nil, or_false] at hc
      rcases hc with rfl | rfl <;> exact ⟨15, by decide, rfl⟩)
    (by
      rintro c hc ⟨d, -, hd⟩
      obtain rfl : 32 = c := Option.some.inj hc
      cases hd)

end SysX
