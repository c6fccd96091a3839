import SysX.Lib.Ansi
import SysX.Lib.Comp
import SysX.Machine
import SysX.Tar

/-!
The terminal on a serial line, `hal/term_serial.c`: the cursor is set by sequences that `ksprintf` writes, and its place is read
from the reply to a status report.
-/
namespace SysX

open Ansi (Terminal)

/-- The line with its terminal. `rx` are the characters received and not yet read. -/
structure SerialLine {W H : ℕ} (T : Terminal W H) where
  term : T.State
  rx : Str

/-! `lib/mp-printf.c`, as far as the formats below need it. -/

namespace Printf

/-- The loop of `_ntoa_long`, with room for `n` more digits. The last digit comes first. -/
def ntoaDigits (base : ℕ) : (n value : ℕ) → Str
  | 0, _ => []
  | n + 1, value =>
    let digit := value % base
    .ofNat (if digit < 10 then 48 + digit else 97 + digit - 10) ::
      if value / base ≠ 0 then ntoaDigits base n (value / base) else []

/-- `_ntoa_long` in base 10 without flags, precision and width: `_ntoa_format` adds nothing, and `_out_rev` reverses. -/
def ntoaLong (value : Word) : Str := (ntoaDigits 10 32 value.toNat).reverse

/-- `_vsnprintf`, where `%u` without flags, width, precision and length is the only conversion. -/
def vsnprintf : (format : Str) → (va : List Word) → Option Str
  | [], _ => some []
  | 37 :: 117 :: format, value :: va => (vsnprintf format va).map (ntoaLong value ++ ·)
  | c :: format, va => if c = 37 then none else (vsnprintf format va).map (c :: ·)

end Printf

/-- `ksprintf` into a buffer of `size` characters, with the character that terminates the text. -/
def ksprintf (size : ℕ) (fmt : Str) (arg : List Word) : Option Str :=
  (Printf.vsnprintf fmt arg).bind fun str => if str.length < size then some str else none

/-- `"\x1B[%u;%uH"` -/
def cupFormat : Str := [27, 91, 37, 117, 59, 37, 117, 72]

/-- `"\x1B[6n"` -/
def statusReport : Str := [27, 91, 54, 110]

/-- `"\x1B[1000;1000H"` -/
def outrageousPosition : Str := [27, 91, 49, 48, 48, 48, 59, 49, 48, 48, 48, 72]

/-- What the driver reads the reply for. -/
inductive ReplyState where
  /-- 0 - waiting for ESC -/
  | esc
  /-- 1 - waiting for [ -/
  | bracket
  /-- 2 - reading y -/
  | row
  /-- 3 - reading x -/
  | column

section Driver

variable {W H : ℕ} {T : Terminal W H}

def serPutc (c : UInt8) : Comp (SerialLine T) Unit :=
  Comp.modify fun s =>
    let (term, out) := T.feed s.term c
    { term, rx := s.rx ++ out }

def serPuts (s : Str) : Comp (SerialLine T) Unit := Comp.forList serPutc s

/-- A character as an `int`, less `'0'`. -/
def digitOffset (c : UInt8) : Word := c.toBitVec.signExtend 32 - 48

/-- The loop of `serterm_get_xy` on what is received: `x`, `y` and what is left. It waits for good where this ends. -/
def replyLoop : (rx : Str) → (state : ReplyState) → (x y : Word) → Option ((Word × Word) × Str)
  | [], _, _, _ => none
  | c :: rx, .esc, x, y => replyLoop rx (if c = 27 then .bracket else .esc) x y
  | c :: rx, .bracket, x, y => replyLoop rx (if c = 91 then .row else .bracket) x y
  | c :: rx, .row, x, y => if c = 59 then replyLoop rx .column x y else replyLoop rx .row x (y * 10 + digitOffset c)
  | c :: rx, .column, x, y => if c = 82 then some ((x, y), rx) else replyLoop rx .column (x * 10 + digitOffset c) y

def readReply : Comp (SerialLine T) (Word × Word) :=
  fun s => (replyLoop s.rx .esc 0 0).map fun r => (r.1, { s with rx := r.2 })

def sertermGetXy : Comp (SerialLine T) (Word × Word) := do
  serPuts statusReport
  readReply

/-- `char buf[16]; ksprintf(buf, "\x1B[%u;%uH", y, x); ser_puts(TERM_SER_PORT, buf);` -/
def putCursor (x y : Word) : Comp (SerialLine T) Unit := do
  let buf ← Comp.readOr fun _ => ksprintf 16 cupFormat [y, x]
  serPuts buf

def sertermSetXy (x y : Word) : Comp (SerialLine T) Unit := putCursor x y

def sertermGetDimensions : Comp (SerialLine T) (Word × Word) := do
  let (x, y) ← sertermGetXy
  serPuts outrageousPosition
  let (width, height) ← sertermGetXy
  let width := width + 1
  let height := height + 1
  putCursor x y
  pure (width, height)

end Driver

/-! The formats. -/

section Formats

open Printf

variable {n v : ℕ}

theorem ntoaDigits_eq (hpos : 0 < v) (h : v < 10 ^ n) : ntoaDigits 10 n v = (Nat.digits 10 v).map Ansi.digitChar := by
  induction n generalizing v with
  | zero => omega
  | succ n ih =>
    have hdigit : v % 10 < 10 := Nat.mod_lt v (by decide)
    rw [Nat.digits_def' (by decide) hpos, List.map_cons, ntoaDigits, if_pos hdigit]
    congr 1
    by_cases hrest : v / 10 = 0
    · rw [if_neg (not_not_intro hrest), hrest]
      rfl
    · rw [if_pos hrest]
      exact ih (Nat.pos_of_ne_zero hrest) (Nat.div_lt_of_lt_mul (by rw [← Nat.pow_succ']; exact h))

theorem ntoaLong_eq (hpos : 0 < v) (h : v < 2 ^ 32) : ntoaLong (.ofNat 32 v) = Ansi.decimal v := by
  have hbound : v < 10 ^ 32 := Nat.lt_trans h (by decide)
  rw [ntoaLong, BitVec.toNat_ofNat, Nat.mod_eq_of_lt h, ntoaDigits_eq hpos hbound, ← List.map_reverse]
  rfl

/-- A position of three digits each fits into the buffer. -/
theorem ksprintf_cup {row col : ℕ} (hrow : row + 1 < 1000) (hcol : col + 1 < 1000) :
    ksprintf 16 cupFormat [.ofNat 32 (row + 1), .ofNat 32 (col + 1)] = some (Ansi.cup (row + 1) (col + 1)) := by
  have htext : vsnprintf cupFormat [.ofNat 32 (row + 1), .ofNat 32 (col + 1)] = some (Ansi.cup (row + 1) (col + 1)) := by
    have hrow' : ntoaLong (.ofNat 32 (row + 1)) = _ := ntoaLong_eq (Nat.succ_pos row) (by omega)
    have hcol' : ntoaLong (.ofNat 32 (col + 1)) = _ := ntoaLong_eq (Nat.succ_pos col) (by omega)
    simp [cupFormat, vsnprintf, hrow', hcol', Ansi.cup]
  have hrow' : (Ansi.decimal (row + 1)).length ≤ 3 := Ansi.length_decimal_le hrow
  have hcol' : (Ansi.decimal (col + 1)).length ≤ 3 := Ansi.length_decimal_le hcol
  rw [ksprintf, htext, Option.bind_some, if_pos]
  simp only [Ansi.cup, List.length_append, List.length_cons, List.length_nil]
  omega

theorem outrageousPosition_eq : outrageousPosition = Ansi.cup 1000 1000 := by
  simp [outrageousPosition, Ansi.cup, Ansi.decimal, Ansi.digitChar]

end Formats

/-! The reply. -/

section Reply

variable {x y : Word} {rx rest : Str} {d n : ℕ}

theorem digitOffset_digitChar (hd : d < 10) : digitOffset (Ansi.digitChar d) = .ofNat 32 d := by
  interval_cases d <;> rfl

theorem accumulate_digit (hd : d < 10) :
    BitVec.ofNat 32 n * 10 + digitOffset (Ansi.digitChar d) = BitVec.ofNat 32 (n * 10 + d) := by
  rw [digitOffset_digitChar hd, BitVec.ofNat_add, BitVec.ofNat_mul]
  rfl

theorem digitChar_ne {c : UInt8} (hd : d < 10) (hc : 58 ≤ c.toNat) : Ansi.digitChar d ≠ c := by
  rintro rfl
  rw [Ansi.toNat_digitChar hd] at hc
  omega

/-- What comes before the reply is skipped. -/
theorem replyLoop_skip (h : 27 ∉ rx) : replyLoop (rx ++ rest) .esc x y = replyLoop rest .esc x y := by
  induction rx with
  | nil => rfl
  | cons c rx ih =>
    obtain ⟨hc, hrx⟩ := not_or.mp (mt List.mem_cons.mpr h)
    rw [List.cons_append, replyLoop, if_neg (Ne.symm hc)]
    exact ih hrx

theorem replyLoop_row (n : ℕ) : replyLoop (Ansi.decimal n ++ rest) .row x 0 = replyLoop rest .row x (.ofNat 32 n) := by
  apply @Ansi.read_decimal _ _ (fun cs y => replyLoop cs .row x y) (BitVec.ofNat 32)
  intro n d rest hd
  rw [replyLoop, if_neg (digitChar_ne hd (by decide)), accumulate_digit hd]

theorem replyLoop_column (n : ℕ) :
    replyLoop (Ansi.decimal n ++ rest) .column 0 y = replyLoop rest .column (.ofNat 32 n) y := by
  apply @Ansi.read_decimal _ _ (fun cs x => replyLoop cs .column x y) (BitVec.ofNat 32)
  intro n d rest hd
  rw [replyLoop, if_neg (digitChar_ne hd (by decide)), accumulate_digit hd]

theorem replyLoop_cpr (h : 27 ∉ rx) (row col : ℕ) :
    replyLoop (rx ++ Ansi.cpr row col) .esc 0 0 = some ((.ofNat 32 col, .ofNat 32 row), []) := by
  simp only [replyLoop_skip h, Ansi.cpr, List.append_assoc, List.cons_append, List.nil_append]
  calc replyLoop (27 :: 91 :: (Ansi.decimal row ++ 59 :: (Ansi.decimal col ++ [82]))) .esc 0 0
      = replyLoop (Ansi.decimal row ++ 59 :: (Ansi.decimal col ++ [82])) .row 0 0 := rfl
    _ = replyLoop (59 :: (Ansi.decimal col ++ [82])) .row 0 (.ofNat 32 row) := replyLoop_row row
    _ = replyLoop (Ansi.decimal col ++ [82]) .column 0 (.ofNat 32 row) := rfl
    _ = replyLoop [82] .column (.ofNat 32 col) (.ofNat 32 row) := replyLoop_column col

end Reply

/-! The driver with its terminal. -/

/-- No sequence has begun, and of what has been typed ahead nothing looks like a reply. -/
structure SerialLine.Idle {W H : ℕ} {T : Terminal W H} (s : SerialLine T) : Prop where
  ground : T.Ground s.term
  typed : 27 ∉ s.rx

section Geometry

variable {W H : ℕ} {T : Terminal W H} {s : SerialLine T} {row col : ℕ}

theorem serPuts_eq (cs : Str) (s : SerialLine T) :
    serPuts cs s = some ((), ⟨(Ansi.feedAll T.feed s.term cs).1, s.rx ++ (Ansi.feedAll T.feed s.term cs).2⟩) := by
  induction cs generalizing s with
  | nil =>
    rw [Ansi.feedAll, List.append_nil]
    rfl
  | cons c cs ih =>
    have hstep : serPuts (c :: cs) s = serPuts cs ⟨(T.feed s.term c).1, s.rx ++ (T.feed s.term c).2⟩ := rfl
    rw [hstep, ih, List.append_assoc]
    rfl

/-- The driver reads rows and columns as they are counted on the line. -/
theorem sertermGetXy_eq (h : s.Idle) :
    ∃ t, sertermGetXy s = some ((.ofNat 32 ((T.cursor s.term).1 + 1), .ofNat 32 ((T.cursor s.term).2 + 1)), t) ∧
      t.Idle ∧ T.cursor t.term = T.cursor s.term := by
  obtain ⟨u, hfeed, hground, hcursor⟩ := T.report s.term h.ground
  refine ⟨⟨u, []⟩, ?_, ⟨hground, List.not_mem_nil⟩, hcursor⟩
  have hputs : serPuts statusReport s = _ := serPuts_eq Ansi.dsr s
  rw [hfeed] at hputs
  apply (Comp.bind_of_eq hputs).trans
  rw [readReply, replyLoop_cpr h.typed]
  rfl

/-- The cursor goes where the sequence says, or as far as there are cells. -/
theorem serPuts_cup (h : s.Idle) (row col : ℕ) :
    ∃ t, serPuts (Ansi.cup (row + 1) (col + 1)) s = some ((), t) ∧ t.Idle ∧
      ((T.cursor t.term).1 : ℕ) = min col (W - 1) ∧ ((T.cursor t.term).2 : ℕ) = min row (H - 1) := by
  obtain ⟨u, hfeed, hground, hcol, hrow⟩ := T.address s.term h.ground col row
  have hputs := serPuts_eq (Ansi.cup (row + 1) (col + 1)) s
  rw [hfeed, List.append_nil] at hputs
  exact ⟨⟨u, s.rx⟩, hputs, ⟨hground, h.typed⟩, hcol, hrow⟩

/-- What was read for a cell takes the cursor back to it. -/
theorem putCursor_eq (h : s.Idle) (hW : W ≤ 999) (hH : H ≤ 999) (cell : Fin W × Fin H) :
    ∃ t, putCursor (.ofNat 32 (cell.1 + 1)) (.ofNat 32 (cell.2 + 1)) s = some ((), t) ∧ t.Idle ∧ T.cursor t.term = cell := by
  obtain ⟨t, hputs, hidle, hcol, hrow⟩ := serPuts_cup h cell.2 cell.1
  refine ⟨t, ?_, hidle, ?_⟩
  · have hrow : (cell.2 : ℕ) + 1 < 1000 := by omega
    have hcol : (cell.1 : ℕ) + 1 < 1000 := by omega
    have hbuf : Comp.readOr (fun _ => ksprintf 16 cupFormat [.ofNat 32 (cell.2 + 1), .ofNat 32 (cell.1 + 1)]) s =
        some (Ansi.cup (cell.2 + 1) (cell.1 + 1), s) := by
      rw [Comp.readOr_apply, ksprintf_cup hrow hcol]
      rfl
    exact (Comp.bind_of_eq hbuf).trans hputs
  · ext <;> omega

/-- The size that is read is one more than the last cell on the line, which is the number of cells already. -/
theorem sertermGetDimensions_eq (h : s.Idle) (hW : W ≤ 999) (hH : H ≤ 999) :
    ∃ t, sertermGetDimensions s = some ((.ofNat 32 (W + 1), .ofNat 32 (H + 1)), t) ∧ t.Idle ∧
      T.cursor t.term = T.cursor s.term := by
  obtain ⟨t₁, hfirst, hidle₁, hcursor₁⟩ := sertermGetXy_eq h
  obtain ⟨t₂, hcorner, hidle₂, hcol, hrow⟩ := serPuts_cup hidle₁ 999 999
  obtain ⟨t₃, hsecond, hidle₃, hcursor₃⟩ := sertermGetXy_eq hidle₂
  obtain ⟨t, hback, hidle, hcursor⟩ := putCursor_eq hidle₃ hW hH (T.cursor s.term)
  have hW' : 0 < W := (T.cursor s.term).1.pos
  have hH' : 0 < H := (T.cursor s.term).2.pos
  rw [show ((T.cursor t₂.term).1 : ℕ) + 1 = W by omega, show ((T.cursor t₂.term).2 : ℕ) + 1 = H by omega] at hsecond
  refine ⟨t, ?_, hidle, hcursor⟩
  rw [← outrageousPosition_eq] at hcorner
  have hrun : sertermGetDimensions s = some ((.ofNat 32 W + 1, .ofNat 32 H + 1), t) :=
    (Comp.bind_of_eq hfirst).trans <| (Comp.bind_of_eq hcorner).trans <| (Comp.bind_of_eq hsecond).trans <|
      Comp.bind_of_eq hback
  rw [BitVec.ofNat_add, BitVec.ofNat_add]
  exact hrun

theorem sertermSetXy_getXy (h : s.Idle) (hW : W ≤ 999) (hH : H ≤ 999) :
    ∃ x y t u, sertermGetXy s = some ((x, y), t) ∧ sertermSetXy x y t = some ((), u) ∧
      T.cursor u.term = T.cursor s.term := by
  obtain ⟨t, hget, hidle, -⟩ := sertermGetXy_eq h
  obtain ⟨u, hset, -, hcursor⟩ := putCursor_eq hidle hW hH (T.cursor s.term)
  exact ⟨_, _, t, u, hget, hset, hcursor⟩

end Geometry

/-- What the functions are for: the numbers of columns and rows, and a cursor that stays where it is. -/
structure SerialGeometry {W H : ℕ} {T : Terminal W H} (s : SerialLine T) : Prop where
  dimensions : ∃ t, sertermGetDimensions s = some ((.ofNat 32 W, .ofNat 32 H), t) ∧ T.cursor t.term = T.cursor s.term
  position : ∃ x y t u, sertermGetXy s = some ((x, y), t) ∧ sertermSetXy x y t = some ((), u) ∧
    T.cursor u.term = T.cursor s.term

theorem not_serialGeometry {W H : ℕ} {T : Terminal W H} {s : SerialLine T} (h : s.Idle) (hW : W ≤ 999) (hH : H ≤ 999) :
    ¬ SerialGeometry s := by
  intro hgeometry
  obtain ⟨t, hrun, -⟩ := sertermGetDimensions_eq h hW hH
  obtain ⟨t', hrun', -⟩ := hgeometry.dimensions
  obtain ⟨hsize, -⟩ := Prod.mk.inj (Option.some.inj (hrun.symm.trans hrun'))
  have hwidth := congrArg BitVec.toNat (Prod.mk.inj hsize).1
  rw [BitVec.toNat_ofNat, BitVec.toNat_ofNat] at hwidth
  omega

/-- The driver finds one column and one row too many on every terminal. The cursor comes back to its place. -/
theorem serialGeometry_never (W H : ℕ) (T : Terminal W H) (s : SerialLine T) (h : s.Idle) (hW : W ≤ 999) (hH : H ≤ 999) :
    ¬ SerialGeometry s ∧
    (∃ t, sertermGetDimensions s = some ((.ofNat 32 (W + 1), .ofNat 32 (H + 1)), t) ∧
      T.cursor t.term = T.cursor s.term) ∧
    ∃ x y t u, sertermGetXy s = some ((x, y), t) ∧ sertermSetXy x y t = some ((), u) ∧
      T.cursor u.term = T.cursor s.term := by
  refine ⟨not_serialGeometry h hW hH, ?_, sertermSetXy_getXy h hW hH⟩
  obtain ⟨t, hrun, -, hcursor⟩ := sertermGetDimensions_eq h hW hH
  exact ⟨t, hrun, hcursor⟩

/-- A terminal of 80 columns and 24 rows. -/
def vt80x24 : Terminal 80 24 := Ansi.plain (by decide) (by decide)

/-- The terminal after it has been switched on. -/
def vt80x24Home : SerialLine vt80x24 := ⟨Ansi.plainHome (by decide) (by decide), []⟩

theorem vt80x24Home_idle : vt80x24Home.Idle := ⟨rfl, List.not_mem_nil⟩

theorem serialGeometry_never_vt80x24 :
    ∃ t, sertermGetDimensions vt80x24Home = some ((81, 25), t) ∧ vt80x24.cursor t.term = vt80x24.cursor vt80x24Home.term :=
  (serialGeometry_never 80 24 vt80x24 vt80x24Home vt80x24Home_idle (by decide) (by decide)).2.1

/-- It has 80 columns, and the driver finds 81. -/
theorem not_serialGeometry_vt80x24 : ¬ SerialGeometry vt80x24Home :=
  not_serialGeometry vt80x24Home_idle (by decide) (by decide)

end SysX
