import SysX.PrintfText
import SysX.Strtol

/-!
Numbers that `_vsnprintf` has printed, read back by the parsers of `lib/stdlib.c`.
-/
namespace SysX.MpPrintf

/-! Digits. -/

section Digits

variable {base n value k : ℕ} {uppercase : Bool} {buf : Str} {c : UInt8}

theorem digitValue_digit : ∀ (uppercase : Bool), ∀ d < 36,
    digitValue (.ofNat (if d < 10 then 48 + d else (if uppercase then 65 else 97) + d - 10)) = some d := by
  decide

theorem isDigit_of_mem_ntoaDigits (hb : 0 < base) (hb' : base ≤ 36) (h : c ∈ ntoaDigits uppercase base n value) :
    IsDigit base c := by
  induction n generalizing value with
  | zero => cases h
  | succ n ih =>
    rw [ntoaDigits, List.mem_cons] at h
    rcases h with rfl | h
    · have hlt := Nat.mod_lt value hb
      exact ⟨value % base, hlt, digitValue_digit _ _ (Nat.lt_of_lt_of_le hlt hb')⟩
    · split_ifs at h
      · exact ih h
      · cases h

/-- A buffer holds the least significant digit first. -/
theorem numeralValue_reverse :
    numeralValue base buf.reverse = Nat.ofDigits base (buf.map fun c => (digitValue c).getD 0) := by
  unfold numeralValue
  rw [List.map_reverse, List.reverse_reverse]

theorem numeralValue_ntoaDigits (hb : 0 < base) (hb' : base ≤ 36) (n value : ℕ) :
    numeralValue base (ntoaDigits uppercase base n value).reverse = value % base ^ n := by
  induction n generalizing value with
  | zero => exact (Nat.mod_one value).symm
  | succ n ih =>
    have hdigit := digitValue_digit uppercase _ (Nat.lt_of_lt_of_le (Nat.mod_lt value hb) hb')
    have hrest : Nat.ofDigits base ((if value / base ≠ 0 then ntoaDigits uppercase base n (value / base) else []).map
        fun c => (digitValue c).getD 0) = value / base % base ^ n := by
      split_ifs with hzero
      · rw [← numeralValue_reverse, ih]
      · rw [not_not.mp hzero, Nat.zero_mod]
        rfl
    rw [numeralValue_reverse, ntoaDigits, List.map_cons, Nat.ofDigits_cons, hrest, hdigit, Nat.pow_succ',
      Nat.mod_mul]
    rfl

theorem length_ntoaDigits (hk : 0 < k) (h : value < base ^ k) : (ntoaDigits uppercase base n value).length ≤ k := by
  induction n generalizing value k with
  | zero => exact Nat.zero_le k
  | succ n ih =>
    obtain ⟨k, rfl⟩ := Nat.exists_eq_succ_of_ne_zero hk.ne'
    rw [ntoaDigits, List.length_cons]
    split_ifs with hzero
    · have hlt : value / base < base ^ k := Nat.div_lt_of_lt_mul (by rwa [Nat.pow_succ'] at h)
      have hpos : 0 < k := by
        rcases Nat.eq_zero_or_pos k with rfl | hpos
        · exact absurd (Nat.lt_one_iff.mp hlt) hzero
        · exact hpos
      exact Nat.succ_le_succ (ih hpos hlt)
    · exact Nat.succ_le_succ (Nat.zero_le k)

theorem numeralValue_zeros (digits : Str) : numeralValue base (List.replicate k 48 ++ digits) = numeralValue base digits := by
  induction k with
  | zero => rfl
  | succ k ih => rw [List.replicate_succ, List.cons_append, numeralValue_zero_cons, ih]

theorem isDigit_zero (hb : 0 < base) : IsDigit base 48 := ⟨0, hb, rfl⟩

end Digits

/-! The parts of a number's text. -/

section Parts

variable {base prec width value : ℕ} {negative : Bool} {flags : Flags} {buf : Str}

def signText (negative : Bool) (flags : Flags) : Str :=
  if negative then [45] else if flags.plus then [43] else if flags.space then [32] else []

/-- The zeros fill the buffer, so that there is no room for a sign. -/
def Fills (prec width : ℕ) (flags : Flags) : Prop :=
  flags.left = false ∧ (ntoaBufferSize ≤ prec ∨ flags.zeropad = true ∧ ntoaBufferSize ≤ width)

theorem padZeros_length : (padZeros buf width).length = max buf.length (min width ntoaBufferSize) := by
  rw [padZeros, List.length_append, List.length_replicate]
  omega

theorem padZeros_zeros : ∃ k, padZeros buf width = buf ++ List.replicate k 48 := ⟨_, rfl⟩

theorem padNumber_zeros : ∃ k, padNumber buf prec width flags = buf ++ List.replicate k 48 := by
  unfold padNumber
  split_ifs
  · exact ⟨0, (List.append_nil buf).symm⟩
  · obtain ⟨j, hj⟩ : ∃ j, padZeros buf prec = buf ++ List.replicate j 48 := padZeros_zeros
    obtain ⟨k, hk⟩ : ∃ k, padZeros (padZeros buf prec) width = padZeros buf prec ++ List.replicate k 48 := padZeros_zeros
    exact ⟨j + k, by rw [hk, hj, List.append_assoc, List.replicate_append_replicate]⟩
  · exact padZeros_zeros

theorem padNumber_full (h : buf.length < ntoaBufferSize) :
    ntoaBufferSize ≤ (padNumber buf prec width flags).length ↔ Fills prec width flags := by
  unfold padNumber Fills
  cases flags.left with
  | true => simpa using h
  | false =>
    cases flags.zeropad with
    | true =>
      simp only [Bool.false_eq_true, if_false, if_true, padZeros_length, true_and]
      omega
    | false =>
      simp only [Bool.false_eq_true, if_false, padZeros_length, true_and, false_and, or_false]
      omega

theorem storeSign_eq : storeSign buf negative flags =
    buf ++ if buf.length < ntoaBufferSize then signText negative flags else [] := by
  unfold storeSign signText store
  split_ifs <;> simp

theorem signText_reverse : (signText negative flags).reverse = signText negative flags := by
  unfold signText
  split_ifs <;> rfl

/-- The digits that a number has on its own. -/
def plainDigits (value base : ℕ) (flags : Flags) : Str :=
  (if !flags.precision || value ≠ 0 then ntoaDigits flags.uppercase base ntoaBufferSize value else []).reverse

theorem ntoaText_plain (hhash : flags.hash = false) : ntoaText value negative base prec width flags =
    revText (storeSign (padNumber (plainDigits value base flags).reverse prec (digitsWidth negative width flags) flags)
      negative flags) (digitsWidth negative width flags) flags := by
  obtain ⟨zeropad, left, plus, space, hash, uppercase, char, short, long, longLong, precision, adaptExp⟩ := flags
  obtain rfl : hash = false := hhash
  rw [plainDigits, List.reverse_reverse]
  rfl

theorem spaces_or (p : Prop) [Decidable p] (m : ℕ) : ∃ a, (if p then spaces m else []) = spaces a := by
  by_cases hp : p
  · exact ⟨m, if_pos hp⟩
  · exact ⟨0, if_neg hp⟩

/-- Without a prefix of the base: spaces, a sign where there is room for it, zeros, digits, and spaces. -/
theorem ntoaText_parts (hhash : flags.hash = false) : ∃ a k b sign, ntoaText value negative base prec width flags =
      spaces a ++ (sign ++ ((List.replicate k 48 ++ plainDigits value base flags) ++ spaces b)) ∧
    (sign = [] ∨ sign = signText negative flags) ∧
    ((plainDigits value base flags).length < ntoaBufferSize →
      (Fills prec (digitsWidth negative width flags) flags → sign = []) ∧
      (¬ Fills prec (digitsWidth negative width flags) flags → sign = signText negative flags)) := by
  rw [ntoaText_plain hhash]
  generalize digitsWidth negative width flags = w
  obtain ⟨k, hk⟩ : ∃ k, padNumber (plainDigits value base flags).reverse prec w flags =
    (plainDigits value base flags).reverse ++ List.replicate k 48 := padNumber_zeros
  obtain ⟨sign, hsign⟩ : ∃ sign, (if ((plainDigits value base flags).reverse ++ List.replicate k 48).length < ntoaBufferSize
      then signText negative flags else []) = sign := ⟨_, rfl⟩
  obtain ⟨a, ha⟩ := spaces_or ((!flags.left && !flags.zeropad) = true)
    (w - ((plainDigits value base flags).reverse ++ List.replicate k 48 ++ sign).length)
  obtain ⟨b, hb⟩ := spaces_or (flags.left = true)
    (w - ((plainDigits value base flags).reverse ++ List.replicate k 48 ++ sign).length)
  refine ⟨a, k, b, sign.reverse, ?_, ?_, fun hlen => ?_⟩
  · rw [hk, storeSign_eq, revText, hsign, ha, hb]
    simp only [List.reverse_append, List.reverse_reverse, List.reverse_replicate, List.append_assoc]
  · rw [← hsign]
    split_ifs
    · exact .inr signText_reverse
    · exact .inl rfl
  · rw [← List.length_reverse] at hlen
    have hfull : ntoaBufferSize ≤ (padNumber (plainDigits value base flags).reverse prec w flags).length ↔ Fills prec w flags :=
      padNumber_full hlen
    rw [hk] at hfull
    refine ⟨fun hfills => ?_, fun hroom => ?_⟩
    · rw [← hsign, if_neg (Nat.not_lt_of_le (hfull.mpr hfills))]
      rfl
    · rw [← hsign, if_pos (Nat.lt_of_not_le (mt hfull.mp hroom)), signText_reverse]

theorem isDigit_of_mem_plainDigits {c : UInt8} (hb : 0 < base) (hb' : base ≤ 36) (h : c ∈ plainDigits value base flags) :
    IsDigit base c := by
  unfold plainDigits at h
  rw [List.mem_reverse] at h
  split_ifs at h
  · exact isDigit_of_mem_ntoaDigits hb hb' h
  · cases h

theorem numeralValue_plainDigits (hb : 0 < base) (hb' : base ≤ 36) :
    numeralValue base (plainDigits value base flags) = value % base ^ ntoaBufferSize := by
  unfold plainDigits
  split_ifs with hprint
  · exact numeralValue_ntoaDigits hb hb' _ _
  · have hzero : value = 0 := by
      by_contra hne
      exact hprint (by simp [hne])
    rw [hzero, Nat.zero_mod]
    rfl

theorem length_plainDigits_lt (h : value ≤ uint64Max) : (plainDigits value 10 flags).length < ntoaBufferSize := by
  have hlt : value < 10 ^ 20 := Nat.lt_of_le_of_lt h (by decide)
  unfold plainDigits
  rw [List.length_reverse]
  split_ifs
  · exact Nat.lt_of_le_of_lt (length_ntoaDigits (by decide) hlt) (by decide)
  · exact (by decide : 0 < ntoaBufferSize)

end Parts

/-! Reading. -/

section Reading

variable {sign digits str : Str} {a b base : ℕ}

theorem digitsEnd_spaces (b : ℕ) : DigitsEnd base (spaces b) := by
  rintro c hc ⟨d, -, hd⟩
  cases b with
  | zero => cases hc
  | succ b =>
    obtain rfl : 32 = c := Option.some.inj hc
    cases hd

theorem dropWhile_spaces (a : ℕ) (str : Str) : (spaces a ++ str).dropWhile isSpace = str.dropWhile isSpace := by
  induction a with
  | zero => rfl
  | succ a ih => exact ih

/-- Leading spaces are passed. -/
theorem strtoll_spaces : LibStdlib.strtoll (spaces a ++ str) base = LibStdlib.strtoll str base := by
  unfold LibStdlib.strtoll
  rw [dropWhile_spaces]

theorem strtoll_blank (hb : base ≠ 0) (hsign : sign = [] ∨ sign = [43] ∨ sign = [45]) :
    (LibStdlib.strtoll (sign ++ spaces b) base).1 = 0 := by
  have hend : ∀ sign, (LibStdlib.strtollDigits sign base (spaces b) 0).1 = 0 := by
    intro sign
    rw [LibStdlib.strtollDigits_end (digitsEnd_spaces b)]
  have hdetect : ∀ str, LibStdlib.detectBase str base = (str, base) := fun _ => if_pos hb
  unfold LibStdlib.strtoll
  rcases hsign with rfl | rfl | rfl
  · have hnil : (([] : Str) ++ spaces b).dropWhile isSpace = [] := by
      have h := dropWhile_spaces b []
      rwa [List.append_nil] at h
    rw [hnil]
    dsimp only
    rw [hdetect]
    rfl
  · show (LibStdlib.strtollDigits _ (LibStdlib.detectBase (spaces b) base).2 (LibStdlib.detectBase (spaces b) base).1 0).1 = 0
    rw [hdetect]
    exact hend _
  · show (LibStdlib.strtollDigits _ (LibStdlib.detectBase (spaces b) base).2 (LibStdlib.detectBase (spaces b) base).1 0).1 = 0
    rw [hdetect]
    exact hend _

theorem signedValue_nil (sign : Str) : signedValue base sign [] = 0 := by
  unfold signedValue
  split_ifs <;> rfl

theorem saturate_of_mem {n : ℤ} (h : int64Min ≤ n ∧ n ≤ int64Max) : saturate n = n := by
  rw [saturate, min_eq_left h.2, max_eq_right h.1]

/-- A number in front of spaces is read, with no digits as zero. -/
theorem strtoll_signed (hbase : 2 ≤ base ∧ base ≤ 36) (hsign : sign = [] ∨ sign = [43] ∨ sign = [45])
    (hdigits : ∀ c ∈ digits, IsDigit base c) (hfit : sign = [45] → numeralValue base digits ≤ int64Limit) :
    (LibStdlib.strtoll (sign ++ (digits ++ spaces b)) base).1 = saturate (signedValue base sign digits) := by
  by_cases hne : digits = []
  · rw [hne, signedValue_nil]
    exact strtoll_blank (by omega) hsign
  · by_cases hneg : sign = [45]
    · subst hneg
      exact strtoll_neg_of_le hbase hne hdigits (digitsEnd_spaces b) (hfit rfl)
    · exact strtoll_of_not_neg hbase hsign hneg hne hdigits (digitsEnd_spaces b)

/-- A number between spaces is read. -/
theorem strtoll_printed (hbase : 2 ≤ base ∧ base ≤ 36) (hsign : sign = [] ∨ sign = [43] ∨ sign = [45] ∨ sign = [32])
    (hdigits : ∀ c ∈ digits, IsDigit base c) (hfit : sign = [45] → numeralValue base digits ≤ int64Limit) :
    (LibStdlib.strtoll (spaces a ++ (sign ++ (digits ++ spaces b))) base).1 = saturate (signedValue base sign digits) := by
  rw [strtoll_spaces]
  have hcases : sign = [32] ∨ (sign = [] ∨ sign = [43] ∨ sign = [45]) := by tauto
  rcases hcases with rfl | hsign
  · -- this sign is one more space
    have hspace : LibStdlib.strtoll ([32] ++ (digits ++ spaces b)) base = LibStdlib.strtoll (digits ++ spaces b) base :=
      @strtoll_spaces _ 1 _
    rw [hspace]
    exact strtoll_signed hbase (.inl rfl) hdigits fun h => absurd h (by decide)
  · exact strtoll_signed hbase hsign hdigits hfit

theorem dropWhile_digits (hdigits : ∀ c ∈ digits, IsDigit base c) :
    ∃ b', (spaces a ++ (digits ++ spaces b)).dropWhile isSpace = digits ++ spaces b' := by
  rw [dropWhile_spaces]
  cases digits with
  | nil =>
    have h := dropWhile_spaces b []
    rw [List.append_nil] at h
    exact ⟨0, h⟩
  | cons c digits =>
    have hc : ¬ isSpace c = true := by
      rw [(hdigits c List.mem_cons_self).not_space]
      exact Bool.false_ne_true
    exact ⟨b, List.dropWhile_cons_of_neg hc⟩

theorem head_not_sign (hdigits : ∀ c ∈ digits, IsDigit base c) :
    ¬ ((spaces a ++ (digits ++ spaces b)).headD 0 = 43 ∨ (spaces a ++ (digits ++ spaces b)).headD 0 = 45) := by
  have hspaces : ∀ n, ¬ ((spaces n).headD 0 = 43 ∨ (spaces n).headD 0 = 45) := by
    intro n
    cases n with
    | zero => exact (by decide : ¬ ((0 : UInt8) = 43 ∨ (0 : UInt8) = 45))
    | succ n => exact (by decide : ¬ ((32 : UInt8) = 43 ∨ (32 : UInt8) = 45))
  cases a with
  | succ a => exact hspaces (a + 1)
  | zero =>
    cases digits with
    | nil => exact hspaces b
    | cons c digits => exact (hdigits c List.mem_cons_self).not_sign

theorem strtoull_printed (hbase : 2 ≤ base) (hdigits : ∀ c ∈ digits, IsDigit base c)
    (hfit : numeralValue base digits ≤ uint64Max) :
    (LibStdlib.strtoull (spaces a ++ (digits ++ spaces b)) base).1 = numeralValue base digits := by
  have hb : 0 < base := by omega
  obtain ⟨b', hdrop⟩ : ∃ b', (spaces a ++ (digits ++ spaces b)).dropWhile isSpace = digits ++ spaces b' :=
    dropWhile_digits hdigits
  have hdetect : ∀ str, LibStdlib.detectBase str base = (str, base) := fun _ => if_pos hb.ne'
  have hloop : LibStdlib.strtoullDigits base (digits ++ spaces b') 0 = _ :=
    @LibStdlib.strtoullDigits_eq _ _ _ [] hb hdigits (digitsEnd_spaces b') (Nat.zero_le _)
  rw [LibStdlib.strtoull, if_neg (head_not_sign hdigits), hdetect]
  dsimp only
  rw [hdrop, hloop, List.nil_append, if_pos hfit]

end Reading

/-! The integer specifiers. -/

section Specifiers

variable {float : FloatText} {fmt : Str} {va va' : List VaArg} {d : Directive} {c : UInt8} {flags : Flags} {v : ℤ}

theorem integerArg_bits {signed : Bool} (h : integerArg signed flags va = some (v, va')) :
    ∃ w ≤ 64, ∃ b : BitVec w, v = if signed then b.toInt else b.toNat := by
  unfold integerArg at h
  split at h
  · by_cases hlong : flags.longLong = true
    · rw [if_pos hlong] at h
      exact ⟨64, le_rfl, _, (congrArg Prod.fst (Option.some.inj h)).symm⟩
    · rw [if_neg hlong] at h
      cases h
  · dsimp only at h
    split at h
    · cases h
    split at h
    · exact ⟨32, by decide, _, (congrArg Prod.fst (Option.some.inj h)).symm⟩
    split at h
    · exact ⟨8, by decide, _, (congrArg Prod.fst (Option.some.inj h)).symm⟩
    split at h
    · exact ⟨16, by decide, _, (congrArg Prod.fst (Option.some.inj h)).symm⟩
    · exact ⟨32, by decide, _, (congrArg Prod.fst (Option.some.inj h)).symm⟩
  · cases h

theorem integerArg_signed (h : integerArg true flags va = some (v, va')) : int64Min ≤ v ∧ v ≤ int64Max := by
  obtain ⟨w, hw, b, hv⟩ := integerArg_bits h
  rw [if_pos rfl] at hv
  have hlow := BitVec.le_toInt b
  have hhigh := @BitVec.toInt_lt w b
  have hpow : (2 : ℤ) ^ (w - 1) ≤ 2 ^ 63 := pow_le_pow_right₀ (by decide) (by omega)
  unfold int64Min int64Max
  omega

theorem integerArg_unsigned (h : integerArg false flags va = some (v, va')) : 0 ≤ v ∧ v ≤ uint64Max := by
  obtain ⟨w, hw, b, hv⟩ := integerArg_bits h
  rw [if_neg Bool.false_ne_true] at hv
  have hlt := b.isLt
  have hpow : 2 ^ w ≤ 2 ^ 64 := Nat.pow_le_pow_right (by decide) hw
  unfold uint64Max
  omega

/-- A format that is one integer directive. -/
theorem formatText_integer (hparse : parseDirective fmt va = some d) (hformat : d.format = [c]) (hc : isInteger c = true)
    (harg : integerArg (isSigned c) (integerFlags c d.flags) d.va = some (v, va')) :
    formatText float (37 :: fmt) va =
      some (ntoaText v.natAbs (decide (v < 0)) (integerBase c) d.precision d.width (integerFlags c d.flags)) := by
  have hspec : specifierText float c d =
      some (va', ntoaText v.natAbs (decide (v < 0)) (integerBase c) d.precision d.width (integerFlags c d.flags)) := by
    unfold specifierText
    rw [if_pos hc]
    dsimp only
    rw [harg]
    rfl
  have hend : formatTextLoop float fmt.length [] va' = some [] := by
    cases fmt <;> rfl
  rw [formatText, List.length_cons, formatTextLoop, if_neg (not_not.mpr rfl), hparse, Option.bind_some, hformat]
  dsimp only
  rw [hspec, Option.bind_some, hend, Option.map_some, List.append_nil]

theorem integerBase_range (c : UInt8) : 2 ≤ integerBase c ∧ integerBase c ≤ 36 := by
  unfold integerBase
  split_ifs <;> decide

theorem isInteger_of_isSigned (h : isSigned c = true) : isInteger c = true ∧ integerBase c = 10 := by
  have hc : c = 100 ∨ c = 105 := by simpa [isSigned] using h
  rcases hc with rfl | rfl <;> decide

/-- The zeros and the digits of a number, read as one numeral. -/
theorem numeral_of_parts {base k value : ℕ} (hbase : 2 ≤ base ∧ base ≤ 36) :
    numeralValue base (List.replicate k 48 ++ plainDigits value base flags) = value % base ^ ntoaBufferSize ∧
      ∀ c ∈ List.replicate k 48 ++ plainDigits value base flags, IsDigit base c := by
  have hb : 0 < base := by omega
  refine ⟨by rw [numeralValue_zeros, numeralValue_plainDigits hb hbase.2], fun c hc => ?_⟩
  rcases List.mem_append.mp hc with hzero | hdigit
  · rw [List.eq_of_mem_replicate hzero]
    exact isDigit_zero hb
  · exact isDigit_of_mem_plainDigits hb hbase.2 hdigit

theorem signText_cases (negative : Bool) (flags : Flags) : signText negative flags = [] ∨ signText negative flags = [43] ∨
    signText negative flags = [45] ∨ signText negative flags = [32] := by
  unfold signText
  split_ifs <;> simp

theorem signText_ne (flags : Flags) : signText false flags ≠ [45] := by
  unfold signText
  split_ifs <;> simp_all

/-- The sign of a negative number takes one place of the width that zeros are to fill. -/
theorem fills_negative (c : UInt8) (d : Directive) :
    Fills d.precision (digitsWidth true d.width (integerFlags c d.flags)) (integerFlags c d.flags) ↔ d.flags.left = false ∧
      (32 ≤ d.precision ∨ d.flags.zeropad = true ∧ d.flags.precision = false ∧ 33 ≤ d.width) := by
  unfold Fills digitsWidth integerFlags ntoaBufferSize
  cases d.flags.left <;> cases d.flags.zeropad <;> cases d.flags.precision <;> simp
  split_ifs <;> omega

/-- A printed `%d` or `%i` is read back as the number that it was, unless the number is negative and its zeros have filled the
buffer. -/
theorem printed_signed_iff (hparse : parseDirective fmt va = some d) (hformat : d.format = [c]) (hc : isSigned c = true)
    (harg : integerArg true (integerFlags c d.flags) d.va = some (v, va')) :
    ∃ text, formatText float (37 :: fmt) va = some text ∧ ((LibStdlib.strtoll text 10).1 = v ↔
      ¬ (v < 0 ∧ d.flags.left = false ∧
        (32 ≤ d.precision ∨ d.flags.zeropad = true ∧ d.flags.precision = false ∧ 33 ≤ d.width))) := by
  obtain ⟨hint, hbase⟩ := isInteger_of_isSigned hc
  have hrange := integerArg_signed harg
  have habs : v.natAbs ≤ int64Limit := by
    unfold int64Min int64Max at hrange
    unfold int64Limit
    omega
  refine ⟨_, formatText_integer hparse hformat hint (by rwa [hc]), ?_⟩
  have hhash : (integerFlags c d.flags).hash = false := by simp [integerFlags, hbase]
  rw [hbase]
  obtain ⟨a, k, b, sign, htext, hsign, hexact⟩ :=
    @ntoaText_parts 10 d.precision d.width v.natAbs (decide (v < 0)) _ hhash
  obtain ⟨hfills, hroom⟩ := hexact (length_plainDigits_lt (habs.trans (by decide)))
  obtain ⟨hvalue, hdigits⟩ := @numeral_of_parts (integerFlags c d.flags) 10 k v.natAbs (by decide)
  rw [Nat.mod_eq_of_lt (Nat.lt_of_le_of_lt habs (by decide))] at hvalue
  have hsigns : sign = [] ∨ sign = [43] ∨ sign = [45] ∨ sign = [32] := by
    rcases hsign with rfl | rfl
    · exact .inl rfl
    · exact signText_cases _ _
  have hread := @strtoll_printed sign _ a b 10 (by decide) hsigns hdigits fun _ => hvalue.trans_le habs
  rw [htext, hread, signedValue, hvalue]
  by_cases hneg : v < 0
  · -- a negative number needs its sign
    rw [decide_eq_true hneg, fills_negative] at hfills hroom
    by_cases hfull : d.flags.left = false ∧
        (32 ≤ d.precision ∨ d.flags.zeropad = true ∧ d.flags.precision = false ∧ 33 ≤ d.width)
    · rw [hfills hfull, if_neg (by decide)]
      refine iff_of_false ?_ fun h => h ⟨hneg, hfull⟩
      unfold saturate int64Min int64Max
      omega
    · have hminus : sign = [45] := hroom hfull
      rw [if_pos hminus, show -(v.natAbs : ℤ) = v by omega]
      exact iff_of_true (saturate_of_mem hrange) fun h => hfull h.2
  · have hplus : sign ≠ [45] := by
      rw [decide_eq_false hneg] at hsign
      rcases hsign with rfl | rfl
      · decide
      · exact signText_ne _
    rw [if_neg hplus, show (v.natAbs : ℤ) = v by omega]
    exact iff_of_true (saturate_of_mem hrange) fun h => hneg h.1

/-- The other specifiers, without a prefix of the base: 32 digits are enough for every number but those in base 2. -/
theorem printed_unsigned_iff (hparse : parseDirective fmt va = some d) (hformat : d.format = [c]) (hc : isInteger c = true)
    (hunsigned : isSigned c = false) (hhash : d.flags.hash = true → c = 117)
    (harg : integerArg false (integerFlags c d.flags) d.va = some (v, va')) :
    ∃ text, formatText float (37 :: fmt) va = some text ∧
      (((LibStdlib.strtoull text (integerBase c)).1 : ℤ) = v ↔ (c = 98 → v < 4294967296)) := by
  obtain ⟨hlow, hhigh⟩ := integerArg_unsigned harg
  refine ⟨_, formatText_integer hparse hformat hc (by rwa [hunsigned]), ?_⟩
  have hplain : (integerFlags c d.flags).hash = false := by
    unfold integerFlags
    cases hh : d.flags.hash with
    | false => rfl
    | true =>
      rw [hhash hh]
      rfl
  obtain ⟨a, k, b, sign, htext, hsign, -⟩ :=
    @ntoaText_parts (integerBase c) d.precision d.width v.natAbs (decide (v < 0)) _ hplain
  obtain ⟨hvalue, hdigits⟩ := @numeral_of_parts (integerFlags c d.flags) (integerBase c) k v.natAbs (integerBase_range c)
  have hempty : sign = [] := by
    have hnone : signText (decide (v < 0)) (integerFlags c d.flags) = [] := by
      rw [decide_eq_false (Int.not_lt.mpr hlow)]
      simp [signText, integerFlags, hunsigned]
    rw [hnone, or_self] at hsign
    exact hsign
  have hle : v.natAbs ≤ uint64Max := by omega
  have hread := @strtoull_printed _ a b (integerBase c) (integerBase_range c).1 hdigits
    (by rw [hvalue]; exact (Nat.mod_le _ _).trans hle)
  rw [htext, hempty, List.nil_append, hread, hvalue]
  by_cases h98 : c = 98
  · have hpow : integerBase c ^ ntoaBufferSize = 4294967296 := by
      rw [h98]
      decide
    rw [hpow]
    have hmod := Nat.mod_lt v.natAbs (show 0 < 4294967296 by decide)
    constructor
    · intro h _
      omega
    · intro h
      rw [Nat.mod_eq_of_lt (by have := h h98; omega)]
      omega
  · have hpow : uint64Max < integerBase c ^ ntoaBufferSize := by
      have hb : 8 ≤ integerBase c := by
        simp only [isInteger, Bool.or_eq_true, decide_eq_true_eq] at hc
        unfold integerBase
        rcases hc with (((((rfl | rfl) | rfl) | rfl) | rfl) | rfl) | rfl <;> first | decide | exact absurd rfl h98
      exact Nat.lt_of_lt_of_le (show uint64Max < 8 ^ ntoaBufferSize by decide) (Nat.pow_le_pow_left hb _)
    rw [Nat.mod_eq_of_lt (Nat.lt_of_le_of_lt hle hpow)]
    refine iff_of_true ?_ fun h => absurd h h98
    omega

end Specifiers

/-- `%6d` of -12 -/
theorem printed_signed_sample : ∃ text, formatText noFloat [37, 54, 100] [.word (-12#32)] = some text ∧
    ((LibStdlib.strtoll text 10).1 = -12 ↔ ¬ ((-12 : ℤ) < 0 ∧ false = false ∧
      (32 ≤ 0 ∨ false = true ∧ false = false ∧ 33 ≤ 6))) :=
  @printed_signed_iff noFloat [54, 100] [.word (-12#32)] [] ⟨{}, 6, 0, [100], [.word (-12#32)]⟩ 100 (-12)
    (by decide) rfl rfl (by decide)

/-- `%b` of a number of 64 bits -/
theorem printed_unsigned_sample : ∃ text, formatText noFloat [37, 108, 108, 98] [.quad 4294967297#64] = some text ∧
    (((LibStdlib.strtoull text 2).1 : ℤ) = 4294967297 ↔ ((98 : UInt8) = 98 → (4294967297 : ℤ) < 4294967296)) :=
  @printed_unsigned_iff noFloat [108, 108, 98] [.quad 4294967297#64] []
    ⟨{ long := true, longLong := true }, 0, 0, [98], [.quad 4294967297#64]⟩ 98 4294967297
    (by decide) rfl rfl rfl (by decide) (by decide)

end SysX.MpPrintf
