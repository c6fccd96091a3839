import SysX.Lib.Moves
import SysX.Lib.Numeration
import SysX.Tar

/-!
The column names of `helpers/basecol.c`, in which `A` is 0 and `AA` is 26.
-/
namespace SysX

/-- The letters of `n`, the last one first, from `buf + off` on. -/
def basecolEncodeLoop (upper : Bool) (n off : ℕ) (buf : ℕ → UInt8) : ℕ × (ℕ → UInt8) :=
  let buf := Function.update buf off (UInt8.ofNat (n % 26 + if upper then 65 else 97))
  if n / 26 = 0 then (off + 1, buf) else basecolEncodeLoop upper (n / 26 - 1) (off + 1) buf
termination_by n
decreasing_by omega

/-- The length of the name, and the buffer, in which the name is reversed in place. -/
def basecolEncode (n : ℕ) (buf : ℕ → UInt8) (upper : Bool) : ℕ × (ℕ → UInt8) :=
  let (off, buf) := basecolEncodeLoop upper n 0 buf
  let buf := Function.update buf off 0
  (off, swapEnds off (off / 2) buf)

def basecolDecodeLoop : (str : Str) → (ret n : ℕ) → ℕ × Str
  | [], ret, _ => (ret, [])
  | c :: str, ret, n =>
    if 65 ≤ c ∧ c ≤ 90 then
      let ret := if n ≠ 0 then w32 (w32 (ret + 1) * 26) else ret
      basecolDecodeLoop str (w32 (ret + (c - 65).toNat)) (w32 (n + 1))
    else if 97 ≤ c ∧ c ≤ 122 then
      let ret := if n ≠ 0 then w32 (w32 (ret + 1) * 26) else ret
      basecolDecodeLoop str (w32 (ret + (c - 97).toNat)) (w32 (n + 1))
    else (ret, c :: str)

/-- The number, and what is left of the string at `endptr`. -/
def basecolDecode (str : Str) : ℕ × Str := basecolDecodeLoop str 0 0

/-! Names and the numbers that they stand for. -/

open Numeration

def columnLetter (upper : Bool) (d : ℕ) : UInt8 := UInt8.ofNat (d + if upper then 65 else 97)

def columnDigit (c : UInt8) : Option ℕ :=
  if 65 ≤ c ∧ c ≤ 90 then some (c - 65).toNat
  else if 97 ≤ c ∧ c ≤ 122 then some (c - 97).toNat
  else none

def IsColumnName (str : Str) : Prop := str ≠ [] ∧ ∀ c ∈ str, (columnDigit c).isSome

def columnWord (str : Str) : List ℕ := str.map fun c => (columnDigit c).getD 0

/-- The number of the names before this one, by length and then by the alphabet. -/
def columnValue (str : Str) : ℕ := ordinal 26 (columnWord str) - 1

/-- The letter in upper case. -/
def columnUpper (c : UInt8) : UInt8 := if 97 ≤ c ∧ c ≤ 122 then c - 32 else c

section Letters

variable {upper : Bool} {d e n : ℕ} {c : UInt8} {str : Str} {w : List ℕ}

theorem toNat_columnLetter (hd : d < 26) : (columnLetter upper d).toNat = d + if upper then 65 else 97 := by
  rw [columnLetter, UInt8.toNat_ofNat']
  apply Nat.mod_eq_of_lt
  split_ifs <;> omega

@[simp] theorem columnDigit_columnLetter (hd : d < 26) : columnDigit (columnLetter upper d) = some d := by
  have key : ∀ upper, ∀ d < 26, columnDigit (columnLetter upper d) = some d := by decide
  exact key upper d hd

theorem columnLetter_ne_zero (hd : d < 26) : columnLetter upper d ≠ 0 := by
  intro h
  have hletter := @columnDigit_columnLetter upper d hd
  rw [h] at hletter
  cases hletter

theorem columnDigit_eq_some :
    columnDigit c = some d ↔ d < 26 ∧ (c.toNat = d + 65 ∨ c.toNat = d + 97) := by
  have hsub : ∀ k : UInt8, k ≤ c → (c - k).toNat = c.toNat - k.toNat := fun k hk => UInt8.toNat_sub_of_le c k hk
  have hup := hsub 65
  have hlow := hsub 97
  simp only [columnDigit, UInt8.le_iff_toNat_le, UInt8.reduceToNat] at hup hlow ⊢
  split_ifs <;> simp only [Option.some.injEq, false_iff] <;> omega

theorem columnUpper_eq (h : columnDigit c = some d) : columnUpper c = columnLetter true d := by
  obtain ⟨hd, hc⟩ := columnDigit_eq_some.mp h
  apply UInt8.toNat_inj.mp
  have hsub : ∀ k : UInt8, k ≤ c → (c - k).toNat = c.toNat - k.toNat := fun k hk => UInt8.toNat_sub_of_le c k hk
  have hlow := hsub 32
  rw [toNat_columnLetter hd, columnUpper]
  simp only [UInt8.le_iff_toNat_le, UInt8.reduceToNat, if_true] at hlow ⊢
  split_ifs <;> omega

end Letters

/-! The encoder. -/

section Encode

variable {upper : Bool} {n off a : ℕ} {buf : ℕ → UInt8}

theorem basecolEncodeLoop_length : (basecolEncodeLoop upper n off buf).1 = off + (word 26 n).length := by
  fun_induction basecolEncodeLoop upper n off buf with
  | case1 n off buf buf' h => simp [word_of_lt h]
  | case2 n off buf buf' h ih =>
    rw [ih, word_of_le h, List.length_append, List.length_singleton]
    omega

/-- The loop leaves the letters of the name in reverse. -/
theorem basecolEncodeLoop_apply : (basecolEncodeLoop upper n off buf).2 a =
    if off ≤ a ∧ a < off + (word 26 n).length then columnLetter upper ((word 26 n).reverse.getD (a - off) 0) else buf a := by
  fun_induction basecolEncodeLoop upper n off buf with
  | case1 n off buf buf' h =>
    simp only [word_of_lt h, List.length_singleton, List.reverse_singleton]
    by_cases ha : a = off
    · simp [ha, buf', columnLetter]
    · rw [if_neg (by omega)]
      simp [buf', ha]
  | case2 n off buf buf' h ih =>
    rw [ih, word_of_le h]
    simp only [List.length_append, List.length_singleton, List.reverse_append, List.reverse_singleton, List.singleton_append]
    by_cases ha : a = off
    · simp [ha, buf', columnLetter]
    · by_cases hin : off + 1 ≤ a ∧ a < off + 1 + (word 26 (n / 26 - 1)).length
      · have hsub : a - off = (a - (off + 1)) + 1 := by omega
        rw [if_pos hin, if_pos (by omega), hsub, List.getD_cons_succ]
      · rw [if_neg hin, if_neg (by omega)]
        simp [buf', ha]

/-- The buffer holds the name of the number. -/
theorem basecolEncode_spells : Spells (basecolEncode n buf upper).2 0 ((word 26 n).map (columnLetter upper)) ∧
    (basecolEncode n buf upper).1 = ((word 26 n).map (columnLetter upper)).length := by
  have hlen : (basecolEncodeLoop upper n 0 buf).1 = (word 26 n).length := by
    rw [basecolEncodeLoop_length, Nat.zero_add]
  refine ⟨.of_cells ?_ (fun i hi => ?_) ?_, by simp [basecolEncode, hlen]⟩
  · intro hzero
    obtain ⟨d, hd, hletter⟩ := List.mem_map.mp hzero
    exact columnLetter_ne_zero (lt_of_mem_word (by decide) hd) hletter
  · have hi' : i < (word 26 n).length := by simpa using hi
    simp only [basecolEncode, swapEnds_half, hlen, Nat.zero_add]
    rw [if_pos hi', Function.update_of_ne (by omega), basecolEncodeLoop_apply, if_pos (by omega)]
    rw [List.getD_eq_getElem _ _ (by simp; omega), List.getD_eq_getElem _ _ hi]
    simp only [List.getElem_reverse, List.getElem_map]
    congr 2
    omega
  · simp [basecolEncode, swapEnds_half, hlen]

end Encode

/-! The decoder. -/

section Decode

variable {str before : Str}

theorem columnWord_concat {c : UInt8} {d : ℕ} (h : columnDigit c = some d) :
    columnWord (before ++ [c]) = columnWord before ++ [d] := by
  simp [columnWord, h]

/-- One letter, in either case. -/
theorem basecolDecodeLoop_cons {c : UInt8} {d : ℕ} (h : columnDigit c = some d) (str : Str) (ret n : ℕ) :
    basecolDecodeLoop (c :: str) ret n =
      basecolDecodeLoop str (w32 ((if n ≠ 0 then w32 (w32 (ret + 1) * 26) else ret) + d)) (w32 (n + 1)) := by
  unfold columnDigit at h
  rw [basecolDecodeLoop]
  split_ifs at h with hup hlow
  · rw [if_pos hup, ← Option.some.inj h]
  · rw [if_neg hup, if_pos hlow, ← Option.some.inj h]

/-- The loop behind the letters `before`. -/
theorem basecolDecodeLoop_eq (hstr : ∀ c ∈ str, (columnDigit c).isSome)
    (hbefore : ∀ c ∈ before, (columnDigit c).isSome) (hfits : columnValue (before ++ str) < 2 ^ 32) :
    basecolDecodeLoop str (columnValue before) before.length = (columnValue (before ++ str), []) := by
  induction str generalizing before with
  | nil => simp [basecolDecodeLoop]
  | cons c str ih =>
    obtain ⟨d, hd⟩ := Option.isSome_iff_exists.mp (hstr c (by simp))
    have hd26 := (columnDigit_eq_some.mp hd).1
    have hvalue : columnValue (before ++ [c]) = ordinal 26 (columnWord before) * 26 + d := by
      rw [columnValue, columnWord_concat hd, ordinal_concat]
      rfl
    have happend : before ++ c :: str = (before ++ [c]) ++ str := by simp
    have hle : columnValue (before ++ [c]) ≤ columnValue (before ++ c :: str) := by
      have hword : columnWord ((before ++ [c]) ++ str) = columnWord (before ++ [c]) ++ columnWord str := List.map_append
      rw [happend, columnValue, columnValue, hword]
      exact Nat.sub_le_sub_right (ordinal_le_append (by decide)) 1
    have hlength : (columnWord before).length ≤ ordinal 26 (columnWord before) := length_le_ordinal (by decide)
    have hwordlen : (columnWord before).length = before.length := List.length_map _
    have hstep : w32 ((if before.length ≠ 0 then w32 (w32 (columnValue before + 1) * 26) else columnValue before) + d) =
        columnValue (before ++ [c]) := by
      by_cases hempty : before = []
      · rw [hvalue]
        simp [hempty, columnValue, columnWord, ordinal, w32_of_lt (show d < 4294967296 by omega)]
      · have hpos : 0 < before.length := List.length_pos_iff.mpr hempty
        have hone : columnValue before + 1 = ordinal 26 (columnWord before) := by
          unfold columnValue
          omega
        rw [if_pos (by omega), hone, w32_of_lt (show ordinal 26 (columnWord before) < 4294967296 by omega),
          w32_of_lt (show ordinal 26 (columnWord before) * 26 < 4294967296 by omega), w32_of_lt (by omega), hvalue]
    have hcount : w32 (before.length + 1) = (before ++ [c]).length := by
      rw [List.length_append, List.length_singleton, w32_of_lt (by omega)]
    rw [basecolDecodeLoop_cons hd, hstep, hcount, happend]
    apply ih (fun e he => hstr e (by simp [he])) _ (by rwa [← happend])
    intro e he
    rcases List.mem_append.mp he with hin | hlast
    · exact hbefore e hin
    · simp [List.mem_singleton.mp hlast, hd]

theorem basecolDecode_eq (hstr : ∀ c ∈ str, (columnDigit c).isSome) (hfits : columnValue str < 2 ^ 32) :
    basecolDecode str = (columnValue str, []) :=
  @basecolDecodeLoop_eq str [] hstr nofun hfits

end Decode

/-! Both together. -/

section Codec

variable {upper : Bool} {n m : ℕ} {w w' : List ℕ} {str : Str}

theorem columnWord_map_columnLetter (hw : ∀ d ∈ w, d < 26) : columnWord (w.map (columnLetter upper)) = w := by
  have hid : ∀ d ∈ w, (columnDigit (columnLetter upper d)).getD 0 = d := fun d hd => by simp [columnDigit_columnLetter (hw d hd)]
  simpa [columnWord, Function.comp_def] using List.map_congr_left hid

theorem columnValue_name (n : ℕ) : columnValue ((word 26 n).map (columnLetter upper)) = n := by
  rw [columnValue, columnWord_map_columnLetter fun d => lt_of_mem_word (by decide), ordinal_word, Nat.add_sub_cancel]

theorem isSome_of_mem_name {c : UInt8} (hc : c ∈ (word 26 n).map (columnLetter upper)) : (columnDigit c).isSome := by
  obtain ⟨d, hd, rfl⟩ := List.mem_map.mp hc
  simp [columnDigit_columnLetter (lt_of_mem_word (by decide) hd)]

/-- The name of the value of a name is the name in upper case. -/
theorem name_columnValue (h : IsColumnName str) :
    (word 26 (columnValue str)).map (columnLetter true) = str.map columnUpper := by
  have hword : ∀ d ∈ columnWord str, d < 26 := by
    intro d hd
    obtain ⟨c, hc, rfl⟩ := List.mem_map.mp hd
    obtain ⟨e, he⟩ := Option.isSome_iff_exists.mp (h.2 c hc)
    simpa [he] using (columnDigit_eq_some.mp he).1
  rw [columnValue, word_ordinal hword (by simpa [columnWord] using h.1), columnWord, List.map_map]
  apply List.map_congr_left
  intro c hc
  obtain ⟨d, hd⟩ := Option.isSome_iff_exists.mp (h.2 c hc)
  simp [hd, columnUpper_eq hd]

theorem lex_columnLetter (hw : ∀ d ∈ w, d < 26) (hw' : ∀ d ∈ w', d < 26) (h : List.Lex (· < ·) w w') :
    List.Lex (· < ·) (w.map (columnLetter upper)) (w'.map (columnLetter upper)) := by
  induction h with
  | nil => exact .nil
  | cons _ ih => exact .cons (ih (fun d hd => hw d (by simp [hd])) fun d hd => hw' d (by simp [hd]))
  | rel hlt =>
    apply List.Lex.rel
    rw [UInt8.lt_iff_toNat_lt, toNat_columnLetter (hw _ (by simp)), toNat_columnLetter (hw' _ (by simp))]
    omega

/-- Names are ordered as their numbers. -/
theorem shortlex_name (h : n < m) :
    List.Shortlex (· < ·) ((word 26 n).map (columnLetter upper)) ((word 26 m).map (columnLetter upper)) := by
  have hn : ∀ d ∈ word 26 n, d < 26 := fun d => lt_of_mem_word (by decide)
  have hm : ∀ d ∈ word 26 m, d < 26 := fun d => lt_of_mem_word (by decide)
  have horder := shortlex_of_ordinal_lt hn hm (by rw [ordinal_word, ordinal_word]; omega)
  rw [List.shortlex_def] at horder ⊢
  simp only [List.length_map]
  exact horder.imp_right fun h => ⟨h.1, lex_columnLetter hn hm h.2⟩

end Codec

/-- Encoding and decoding are inverse to each other, and the names are ordered as the numbers. -/
theorem basecol_codec :
    (∀ n < 2 ^ 32, ∀ upper buf, ∃ str, Spells (basecolEncode n buf upper).2 0 str ∧
      (basecolEncode n buf upper).1 = str.length ∧ basecolDecode str = (n, [])) ∧
    (∀ str, IsColumnName str → columnValue str < 2 ^ 32 → ∀ buf,
      Spells (basecolEncode (basecolDecode str).1 buf true).2 0 (str.map columnUpper)) ∧
    ∀ n m, n < m → m < 2 ^ 32 → ∀ upper buf buf', ∃ str str', Spells (basecolEncode n buf upper).2 0 str ∧
      Spells (basecolEncode m buf' upper).2 0 str' ∧ List.Shortlex (· < ·) str str' := by
  refine ⟨fun n hn upper buf => ?_, fun str hname hfits buf => ?_, fun n m hlt _ upper buf buf' => ?_⟩
  · refine ⟨_, basecolEncode_spells.1, basecolEncode_spells.2, ?_⟩
    rw [basecolDecode_eq (fun c => isSome_of_mem_name) (by rwa [columnValue_name]), columnValue_name]
  · rw [basecolDecode_eq hname.2 hfits, ← name_columnValue hname]
    exact basecolEncode_spells.1
  · exact ⟨_, _, basecolEncode_spells.1, basecolEncode_spells.1, shortlex_name hlt⟩

theorem basecol_codec_ab : Spells (basecolEncode (basecolDecode [97, 66]).1 (fun _ => 0) true).2 0 [65, 66] :=
  basecol_codec.2.1 [97, 66] ⟨by decide, List.forall_mem_cons.mpr ⟨rfl, List.forall_mem_singleton.mpr rfl⟩⟩ (by decide) _

end SysX
