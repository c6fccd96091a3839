import SysX.Tar

/-! The editing of a line (`term_gets` in `hal/terminal.c`) in the buffer that `kmain` passes to it (`kernel/kernel.c`). -/
namespace SysX

/-- `TERM_LINE_TERMINATION` -/
def termLineTermination : UInt8 := 10
/-- `'\b'` -/
def charBackspace : UInt8 := 8

/-- The buffer by offsets, the index, and what was shown on the terminal. -/
structure TermLine where
  s : ℕ → UInt8
  i : ℕ
  shown : Str

/-- `s[i] = c`, where the buffer has `size` bytes. A store beyond them faults. -/
def termStore (size i : ℕ) (c : UInt8) : Comp TermLine Unit :=
  if i < size then Comp.modify fun t => { t with s := Function.update t.s i c } else Comp.fault

def termPuts (str : Str) : Comp TermLine Unit := Comp.modify fun t => { t with shown := t.shown ++ str }

/-- The loop of `term_gets` over the characters that are typed, which tells whether the line has ended. -/
def termGetsLoop (size : ℕ) : (typed : Str) → Comp TermLine Bool
  | [] => pure false
  | c :: typed =>
    if c = termLineTermination then do
      let i ← Comp.read TermLine.i
      termStore size i 0
      termPuts [13, 10]
      pure true
    else if c = charBackspace then do
      Comp.modify fun t => { t with i := if t.i ≠ 0 then t.i - 1 else t.i }
      termPuts [charBackspace, 32, charBackspace]
      termGetsLoop size typed
    else do
      let i ← Comp.read TermLine.i
      termStore size i c
      Comp.modify fun t => { t with i := t.i + 1 }
      termPuts [c]
      termGetsLoop size typed

/-- `term_gets`, where `getc` tells whether there is a terminal that reads. -/
def termGets (getc : Bool) (size : ℕ) (typed : Str) : Comp TermLine Bool :=
  if getc then do
    Comp.modify fun t => { t with i := 0 }
    termGetsLoop size typed
  else pure false

/-- The size of `buf` in `kmain`. -/
def kmainBuf : ℕ := 100

/-! What the line should be. -/

/-- The line after a character of it was typed. -/
def editChar (line : Str) (c : UInt8) : Str := if c = charBackspace then line.dropLast else line ++ [c]

/-- The line after characters and backspaces. -/
def edited (typed : Str) : Str := typed.foldl editChar []

/-- What is typed before the line ends. -/
def typedLine (typed : Str) : Str := typed.takeWhile (· ≠ termLineTermination)

/-- The buffer holds the line and its terminator, the line cut off where there is no room for it. -/
def LineHeld (s : ℕ → UInt8) (line : Str) : Prop :=
  let kept := line.take (kmainBuf - 1)
  (∀ j < kept.length, s j = kept.getD j 0) ∧ s kept.length = 0

/-- Every store is inside the buffer, and the buffer holds the line when it ends. -/
def LineKept (typed : Str) : Prop :=
  ∀ t, ∃ ended t', termGets true kmainBuf typed t = some (ended, t') ∧
    (termLineTermination ∈ typed → ended = true ∧ LineHeld t'.s (edited (typedLine typed)))

/-- The line has no more than 99 characters where another one is typed and where it ends. -/
def TypedFits (typed : Str) : Prop :=
  ∀ before c after, typed = before ++ c :: after → termLineTermination ∉ before → c ≠ charBackspace →
    (edited before).length < kmainBuf

/-- The buffer holds the line so far. -/
structure LineSoFar (line : Str) (t : TermLine) : Prop where
  index : t.i = line.length
  cells : ∀ j < line.length, t.s j = line.getD j 0

section Loop

variable {size : ℕ} {c : UInt8} {typed line : Str} {t : TermLine}

/-- A stored character is behind the line so far. -/
theorem LineSoFar.put (h : LineSoFar line t) (hc : c ≠ charBackspace) (shown : Str) :
    LineSoFar (editChar line c) ⟨Function.update t.s t.i c, t.i + 1, shown⟩ := by
  rw [editChar, if_neg hc]
  constructor
  · rw [List.length_append, ← h.index]
    rfl
  · intro j hj
    rw [List.length_append, List.length_singleton] at hj
    rcases Nat.lt_succ_iff_lt_or_eq.mp hj with hlt | rfl
    · rw [List.getD_append _ _ _ _ hlt, ← h.cells j hlt]
      exact Function.update_of_ne (by rw [h.index]; omega) _ _
    · rw [List.getD_append_right _ _ _ _ (Nat.le_refl _), Nat.sub_self, ← h.index]
      exact Function.update_self _ _ _

theorem LineSoFar.back (h : LineSoFar line t) (shown : Str) :
    LineSoFar (editChar line charBackspace) ⟨t.s, if t.i ≠ 0 then t.i - 1 else t.i, shown⟩ := by
  rw [editChar, if_pos rfl]
  constructor
  · dsimp only
    rw [List.length_dropLast, h.index]
    split_ifs
    · rfl
    · omega
  · intro j hj
    rw [List.length_dropLast] at hj
    rw [h.cells j (by omega), List.getD_eq_getElem?_getD, List.getD_eq_getElem?_getD, List.getElem?_dropLast, if_pos hj]

theorem LineSoFar.held (h : LineSoFar line t) (hroom : line.length < kmainBuf) :
    LineHeld (Function.update t.s t.i 0) line := by
  have hkept : line.take (kmainBuf - 1) = line := List.take_of_length_le (by omega)
  unfold LineHeld
  rw [hkept]
  constructor
  · intro j hj
    rw [← h.cells j hj]
    exact Function.update_of_ne (by rw [h.index]; omega) _ _
  · rw [← h.index]
    exact Function.update_self _ _ _

theorem termStore_bind {α : Type} {f : Unit → Comp TermLine α} {i : ℕ} :
    (termStore size i c >>= f) t = if i < size then f () { t with s := Function.update t.s i c } else none := by
  unfold termStore
  split_ifs
  · rfl
  · rfl

theorem termGetsLoop_end :
    termGetsLoop size (termLineTermination :: typed) t =
      if t.i < size then some (true, ⟨Function.update t.s t.i 0, t.i, t.shown ++ [13, 10]⟩) else none := by
  rw [termGetsLoop, if_pos rfl, Comp.read_bind, termStore_bind]
  rfl

theorem termGetsLoop_back :
    termGetsLoop size (charBackspace :: typed) t =
      termGetsLoop size typed ⟨t.s, if t.i ≠ 0 then t.i - 1 else t.i, t.shown ++ [charBackspace, 32, charBackspace]⟩ := by
  rw [termGetsLoop, if_neg (by decide), if_pos rfl]
  rfl

theorem termGetsLoop_put (hend : c ≠ termLineTermination) (hc : c ≠ charBackspace) :
    termGetsLoop size (c :: typed) t =
      if t.i < size then termGetsLoop size typed ⟨Function.update t.s t.i c, t.i + 1, t.shown ++ [c]⟩ else none := by
  rw [termGetsLoop, if_neg hend, if_neg hc, Comp.read_bind, termStore_bind]
  rfl

/-- From `line` on, every character that is stored finds room. -/
def RoomFrom (line typed : Str) : Prop :=
  ∀ before c after, typed = before ++ c :: after → termLineTermination ∉ before → c ≠ charBackspace →
    (before.foldl editChar line).length < kmainBuf

/-- One character has room, and so have the others unless it has ended the line. -/
theorem roomFrom_cons :
    RoomFrom line (c :: typed) ↔ (c ≠ charBackspace → line.length < kmainBuf) ∧
      (c ≠ termLineTermination → RoomFrom (editChar line c) typed) := by
  constructor
  · intro h
    refine ⟨h [] c typed rfl List.not_mem_nil, fun hend before d after heq hbefore hd => ?_⟩
    apply h (c :: before) d after (by rw [heq]; rfl) _ hd
    rw [List.mem_cons, not_or]
    exact ⟨fun hc => hend hc.symm, hbefore⟩
  · rintro ⟨hfirst, hrest⟩ before d after heq hbefore hd
    cases before with
    | nil =>
      obtain ⟨rfl, -⟩ := List.cons.inj heq
      exact hfirst hd
    | cons b before =>
      obtain ⟨rfl, htail⟩ := List.cons.inj heq
      rw [List.mem_cons, not_or] at hbefore
      exact hrest (fun hc => hbefore.1 hc.symm) before d after htail hbefore.2 hd

theorem LineSoFar.run (h : LineSoFar line t) (hroom : RoomFrom line typed) :
    ∃ ended t', termGetsLoop kmainBuf typed t = some (ended, t') ∧ (termLineTermination ∈ typed →
      ended = true ∧ LineHeld t'.s ((typedLine typed).foldl editChar line)) := by
  induction typed generalizing line t with
  | nil => exact ⟨false, t, rfl, fun hmem => nomatch hmem⟩
  | cons c typed ih =>
    obtain ⟨hfirst, hrest⟩ := roomFrom_cons.mp hroom
    by_cases hend : c = termLineTermination
    · subst hend
      have hlen := hfirst (by decide)
      have hline : typedLine (termLineTermination :: typed) = [] := by simp [typedLine]
      rw [termGetsLoop_end, h.index, if_pos hlen, ← h.index, hline]
      exact ⟨true, _, rfl, fun _ => ⟨rfl, h.held hlen⟩⟩
    · have hline : typedLine (c :: typed) = c :: typedLine typed := by simp [typedLine, hend]
      have hmem : termLineTermination ∈ c :: typed ↔ termLineTermination ∈ typed := by simp [Ne.symm hend]
      rw [hline, hmem]
      by_cases hc : c = charBackspace
      · subst hc
        rw [termGetsLoop_back]
        exact ih (h.back _) (hrest hend)
      · rw [termGetsLoop_put hend hc, h.index, if_pos (hfirst hc), ← h.index]
        exact ih (h.put hc _) (hrest hend)

theorem LineSoFar.room (h : LineSoFar line t) {r : Bool × TermLine} (hrun : termGetsLoop kmainBuf typed t = some r) :
    RoomFrom line typed := by
  induction typed generalizing line t with
  | nil =>
    intro before c after heq
    cases before with
    | nil => cases heq
    | cons => cases heq
  | cons c typed ih =>
    rw [roomFrom_cons]
    by_cases hend : c = termLineTermination
    · subst hend
      rw [termGetsLoop_end, h.index] at hrun
      split_ifs at hrun with hlen
      exact ⟨fun _ => hlen, fun hne => (hne rfl).elim⟩
    by_cases hc : c = charBackspace
    · subst hc
      rw [termGetsLoop_back] at hrun
      exact ⟨fun hne => (hne rfl).elim, fun _ => ih (h.back _) hrun⟩
    · rw [termGetsLoop_put hend hc, h.index] at hrun
      split_ifs at hrun with hlen
      rw [← h.index] at hrun
      exact ⟨fun _ => hlen, fun _ => ih (h.put hc _) hrun⟩

end Loop

theorem TypedFits.of_kept {typed : Str} (h : LineKept typed) : TypedFits typed := by
  obtain ⟨ended, t', hrun, -⟩ := h ⟨fun _ => 0, 0, []⟩
  have hstart : LineSoFar [] ⟨fun _ => 0, 0, []⟩ := ⟨rfl, fun j hj => nomatch hj⟩
  exact hstart.room hrun

/-- A line is kept exactly where it never grows out of the buffer while it is typed. -/
theorem term_gets_iff (typed : Str) : LineKept typed ↔ TypedFits typed := by
  constructor
  · exact TypedFits.of_kept
  · intro h t
    have hstart : LineSoFar [] { t with i := 0 } := ⟨rfl, fun j hj => nomatch hj⟩
    exact hstart.run h

/-- A line of 100 characters, whose terminator is stored behind the buffer. -/
theorem term_gets_overruns : ¬∀ typed, LineKept typed := by
  intro h
  have hfits := TypedFits.of_kept (h (List.replicate 100 97 ++ [termLineTermination]))
  have hlen := hfits (List.replicate 100 97) termLineTermination [] rfl (by decide) (by decide)
  revert hlen
  decide +kernel

end SysX
