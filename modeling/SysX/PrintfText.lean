import SysX.MpPrintf

/-!
The text of a format in memory, as `kvsprintf` (`lib/stdio.c`) leaves it there.
-/
namespace SysX

open MpPrintf

namespace MpPrintf

/-- No conversion of floating point numbers. -/
def noFloat : FloatText := ⟨fun _ _ _ _ => [], fun _ _ _ _ => []⟩

end MpPrintf

/-! Streams. -/

/-- `ptstream_t` of a string, with the memory. -/
structure StrStream where
  mem : ℕ → UInt8
  buf : ℕ
  sz : ℕ
  off : ℕ

/-- `ptstr_write`, whose result nobody looks at -/
def ptstrWrite (c : UInt8) (s : StrStream) : StrStream :=
  if s.sz ≤ s.off then s
  else { s with mem := Function.update s.mem (w32 (s.buf + s.off)) c, off := w32 (s.off + 1) }

/-- `_out_fct` with `pt_outfct`: a null character is not written. -/
def outFct {σ : Type} (write : UInt8 → σ → σ) : OutFct σ := fun c _ _ s => if c ≠ 0 then write c s else s

def kvfprintf (float : FloatText) (fmt : Str) (arg : List VaArg) (stream : StrStream) : Option (ℕ × StrStream) :=
  vsnprintf (outFct ptstrWrite) stream.sz float fmt arg stream

def kvsprintf (float : FloatText) (str : ℕ) (fmt : Str) (arg : List VaArg) (mem : ℕ → UInt8) : Option (ℕ × (ℕ → UInt8)) :=
  (kvfprintf float fmt arg ⟨mem, str, 4294967295, 0⟩).map fun (ret, stream) =>
    (ret, Function.update stream.mem (w32 (str + ret)) 0)

section Memory

variable {float : FloatText} {str : ℕ} {fmt text : Str} {arg : List VaArg} {mem mem' : ℕ → UInt8}

/-- The characters of a text but the null characters. -/
def written (text : Str) : Str := text.filter (· ≠ 0)

/-- The stream behind a text. -/
theorem foldl_outFct (text : Str) : ∀ {s : StrStream} (k : ℕ), s.sz = 4294967295 → s.buf + s.off + text.length < 4294967296 →
    ∃ t : StrStream, (text.zipIdx k).foldl (fun s c => outFct ptstrWrite c.1 (w32 c.2) 4294967295 s) s = t ∧
      t.buf = s.buf ∧ t.sz = s.sz ∧ t.off = s.off + (written text).length ∧
      ∀ a, t.mem a = if s.buf + s.off ≤ a then (written text).getD (a - (s.buf + s.off)) (s.mem a) else s.mem a := by
  induction text with
  | nil =>
    intro s k _ _
    exact ⟨s, rfl, rfl, rfl, rfl, fun a => by simp [written]⟩
  | cons c text ih =>
    intro s k hsz hfit
    rw [List.length_cons] at hfit
    rw [List.zipIdx_cons, List.foldl_cons]
    by_cases hc : c = 0
    · have hskip : outFct ptstrWrite c (w32 k) 4294967295 s = s := if_neg fun hne => hne hc
      have hwritten : written (c :: text) = written text := by simp [written, hc]
      rw [hskip, hwritten]
      exact ih (k + 1) hsz (by omega)
    · have hwritten : written (c :: text) = c :: written text := by simp [written, hc]
      have hstep : outFct ptstrWrite c (w32 k) 4294967295 s =
          { s with mem := Function.update s.mem (s.buf + s.off) c, off := s.off + 1 } := by
        rw [outFct, if_pos hc, ptstrWrite, if_neg (by omega), w32_of_lt (by omega), w32_of_lt (by omega)]
      obtain ⟨t, ht, hbuf, hsz', hoff, hmem⟩ :=
        @ih { s with mem := Function.update s.mem (s.buf + s.off) c, off := s.off + 1 } (k + 1) hsz
        (show s.buf + (s.off + 1) + text.length < 4294967296 by omega)
      rw [hstep]
      refine ⟨t, ht, hbuf, hsz', ?_, fun a => ?_⟩
      · rw [hoff, hwritten, List.length_cons]
        show s.off + 1 + _ = _
        omega
      · rw [hmem a, hwritten]
        show (if s.buf + (s.off + 1) ≤ a then (written text).getD (a - (s.buf + (s.off + 1)))
            (Function.update s.mem (s.buf + s.off) c a)
          else Function.update s.mem (s.buf + s.off) c a) = _
        by_cases heq : a = s.buf + s.off
        · rw [heq, if_neg (by omega), if_pos (Nat.le_refl _), Function.update_self, Nat.sub_self]
          rfl
        · rw [Function.update_of_ne heq]
          by_cases hle : s.buf + s.off ≤ a
          · rw [if_pos (by omega), if_pos hle, show a - (s.buf + s.off) = a - (s.buf + (s.off + 1)) + 1 by omega]
            rfl
          · rw [if_neg (by omega), if_neg hle]

/-- The text without its null characters, the terminator where the whole text would end, and nothing else. Only a text without null
characters is the string that is left. -/
theorem kvsprintf_text (h : formatText float fmt arg = some text) (hfit : str + text.length < 4294967296) :
    ∃ mem', kvsprintf float str fmt arg mem = some (text.length, mem') ∧
      (∀ i < (written text).length, i ≠ text.length → mem' (str + i) = (written text).getD i 0) ∧
      mem' (str + text.length) = 0 ∧
      (∀ a, (a < str ∨ str + (written text).length ≤ a) → a ≠ str + text.length → mem' a = mem a) ∧
      (0 ∉ text → Spells mem' str text) := by
  obtain ⟨t, ht, hbuf, -, -, hmem⟩ := foldl_outFct text (s := ⟨mem, str, 4294967295, 0⟩) 0 rfl
    (show str + 0 + text.length < 4294967296 by omega)
  have hlen : w32 text.length = text.length := w32_of_lt (by omega)
  have hrun : kvsprintf float str fmt arg mem = some (text.length, Function.update t.mem (str + text.length) 0) := by
    rw [kvsprintf, kvfprintf, vsnprintf_eq, h, Option.map_some, Option.map_some, hlen, putAll_snd text (by decide), ht]
    dsimp only
    rw [outFct, if_neg (not_not.mpr rfl), w32_of_lt hfit]
  have hcell : ∀ a, t.mem a = if str ≤ a then (written text).getD (a - str) (mem a) else mem a := hmem
  refine ⟨_, hrun, fun i hi hne => ?_, Function.update_self _ _ _, fun a ha hne => ?_, fun hzero => ?_⟩
  · rw [Function.update_of_ne (by omega), hcell, if_pos (Nat.le_add_right _ _), Nat.add_sub_cancel_left,
      List.getD_eq_getElem _ _ hi, List.getD_eq_getElem _ _ hi]
  · rw [Function.update_of_ne hne, hcell]
    split_ifs with hle
    · exact List.getD_eq_default _ _ (by omega)
    · rfl
  · have hwritten : written text = text := by
      rw [written, List.filter_eq_self]
      exact fun c hc => decide_eq_true fun h0 => hzero (h0 ▸ hc)
    refine .of_cells hzero (fun i hi => ?_) (Function.update_self _ _ _)
    rw [Function.update_of_ne (by omega), hcell, if_pos (Nat.le_add_right _ _), Nat.add_sub_cancel_left, hwritten,
      List.getD_eq_getElem _ _ hi, List.getD_eq_getElem _ _ hi]

end Memory

theorem kvsprintf_text_sample : ∃ mem', kvsprintf noFloat 16 [37, 100, 33] [.word 7#32] (fun _ => 1) = some (2, mem') ∧
    (∀ i < 2, i ≠ 2 → mem' (16 + i) = ([55, 33] : Str).getD i 0) ∧ mem' 18 = 0 ∧
    (∀ a, (a < 16 ∨ 18 ≤ a) → a ≠ 18 → mem' a = 1) ∧ (0 ∉ ([55, 33] : Str) → Spells mem' 16 [55, 33]) :=
  @kvsprintf_text noFloat 16 [37, 100, 33] [55, 33] [.word 7#32] (fun _ => 1) (by decide) (by decide)

end SysX
