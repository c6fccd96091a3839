import SysX.SerialTerm

/-!
`_vsnprintf` of `lib/mp-printf.c`, which hands the characters of a text to an output function one by one, each with its position.
The conversions of floating point numbers are a parameter.
-/
namespace SysX.MpPrintf

/-- `PRINTF_NTOA_BUFFER_SIZE` -/
def ntoaBufferSize : ℕ := 32

/-- The `FLAGS_` bits. -/
structure Flags where
  zeropad : Bool := false
  left : Bool := false
  plus : Bool := false
  space : Bool := false
  hash : Bool := false
  uppercase : Bool := false
  char : Bool := false
  short : Bool := false
  long : Bool := false
  longLong : Bool := false
  precision : Bool := false
  adaptExp : Bool := false
  deriving DecidableEq

/-- What `va_arg` finds. A pointer is a word, or the string that it points to. -/
inductive VaArg where
  | word (w : Word)
  | quad (q : BitVec 64)
  | double (d : BitVec 64)
  | text (p : Option Str)
  deriving DecidableEq

/-- `out_fct_type`, where `σ` is what the function works on. -/
abbrev OutFct (σ : Type) := (character : UInt8) → (idx maxlen : ℕ) → σ → σ

/-- What `_ftoa` and `_etoa` put out. -/
structure FloatText where
  ftoa : (value : BitVec 64) → (prec width : ℕ) → Flags → Str
  etoa : (value : BitVec 64) → (prec width : ℕ) → Flags → Str

/-! Numbers. A buffer holds its characters in reverse. -/

/-- The loop of `_ntoa_long` and of `_ntoa_long_long`, with room for `n` more digits. -/
def ntoaDigits (uppercase : Bool) (base : ℕ) : (n value : ℕ) → Str
  | 0, _ => []
  | n + 1, value =>
    let digit := value % base
    .ofNat (if digit < 10 then 48 + digit else (if uppercase then 65 else 97) + digit - 10) ::
      if value / base ≠ 0 then ntoaDigits uppercase base n (value / base) else []

/-- `buf[len++] = c`, where there is room. -/
def store (buf : Str) (c : UInt8) : Str := if buf.length < ntoaBufferSize then buf ++ [c] else buf

/-- `while ((len < n) && (len < PRINTF_NTOA_BUFFER_SIZE)) buf[len++] = '0';` -/
def padZeros (buf : Str) (n : ℕ) : Str := buf ++ List.replicate (min n ntoaBufferSize - buf.length) 48

/-- Zeros that have filled the precision or the width make room for the prefix of the base. -/
def dropZeros (buf : Str) (base prec width : ℕ) (flags : Flags) : Str :=
  let len := buf.length
  if !flags.precision && len ≠ 0 && (len = prec || len = width) then
    buf.take (if len - 1 ≠ 0 && base = 16 then len - 1 - 1 else len - 1)
  else buf

def storeBase (buf : Str) (base : ℕ) (flags : Flags) : Str :=
  if base = 16 then store buf (if flags.uppercase then 88 else 120)
  else if base = 2 then store buf 98
  else buf

/-- The prefix of the base. -/
def hashPrefix (buf : Str) (base prec width : ℕ) (flags : Flags) : Str :=
  store (storeBase (dropZeros buf base prec width flags) base flags) 48

/-- The width that is left for a number with a sign, where zeros are to fill it. -/
def digitsWidth (negative : Bool) (width : ℕ) (flags : Flags) : ℕ :=
  if !flags.left && width ≠ 0 && flags.zeropad && (negative || flags.plus || flags.space) then width - 1 else width

/-- Leading zeros. -/
def padNumber (buf : Str) (prec width : ℕ) (flags : Flags) : Str :=
  if flags.left then buf
  else if flags.zeropad then padZeros (padZeros buf prec) width
  else padZeros buf prec

def storeSign (buf : Str) (negative : Bool) (flags : Flags) : Str :=
  if negative then store buf 45
  else if flags.plus then store buf 43
  else if flags.space then store buf 32
  else buf

/-- `_ntoa_format` up to its last line: the buffer. -/
def ntoaBuffer (buf : Str) (negative : Bool) (base prec width : ℕ) (flags : Flags) : Str :=
  let width := digitsWidth negative width flags
  let buf := padNumber buf prec width flags
  storeSign (if flags.hash then hashPrefix buf base prec width flags else buf) negative flags

/-! Fields of the format. -/

/-- `_is_digit` -/
def isDigit (ch : UInt8) : Bool := 48 ≤ ch && ch ≤ 57

/-- `_atoi` -/
def atoi : (str : Str) → (i : ℕ) → ℕ × Str
  | [], i => (i, [])
  | c :: str, i => if isDigit c then atoi str (w32 (i * 10 + (c.toNat - 48))) else (i, c :: str)

def parseFlags : (format : Str) → Flags → Flags × Str
  | [], flags => (flags, [])
  | c :: format, flags =>
    if c = 48 then parseFlags format { flags with zeropad := true }
    else if c = 45 then parseFlags format { flags with left := true }
    else if c = 43 then parseFlags format { flags with plus := true }
    else if c = 32 then parseFlags format { flags with space := true }
    else if c = 35 then parseFlags format { flags with hash := true }
    else (flags, c :: format)

/-- What has been read of a directive, and what is left. -/
structure Directive where
  flags : Flags
  width : ℕ
  precision : ℕ
  format : Str
  va : List VaArg
  deriving DecidableEq

def parseWidth (d : Directive) : Option Directive :=
  if isDigit (d.format.headD 0) then
    let (width, format) := atoi d.format 0
    some { d with width, format }
  else if d.format.headD 0 = 42 then
    match d.va with
    | .word w :: va =>
      if w.msb then some { d with flags := { d.flags with left := true }, width := (-w).toNat, format := d.format.tail, va }
      else some { d with width := w.toNat, format := d.format.tail, va }
    | _ => none
  else some d

/-- Behind the point. -/
def parsePrecisionValue (d : Directive) : Option Directive :=
  if isDigit (d.format.headD 0) then
    let (precision, format) := atoi d.format 0
    some { d with precision, format }
  else if d.format.headD 0 = 42 then
    match d.va with
    | .word w :: va => some { d with precision := if w.msb then 0 else w.toNat, format := d.format.tail, va }
    | _ => none
  else some d

def parsePrecision (d : Directive) : Option Directive :=
  if d.format.headD 0 = 46 then
    parsePrecisionValue { d with flags := { d.flags with precision := true }, format := d.format.tail }
  else some d

/-- `ptrdiff_t` and `size_t` are as long as `long`, `intmax_t` is as long as `long long`. -/
def parseLength (d : Directive) : Directive :=
  let c := d.format.headD 0
  let format := d.format.tail
  if c = 108 then
    if format.headD 0 = 108 then { d with flags := { d.flags with long := true, longLong := true }, format := format.tail }
    else { d with flags := { d.flags with long := true }, format }
  else if c = 104 then
    if format.headD 0 = 104 then { d with flags := { d.flags with short := true, char := true }, format := format.tail }
    else { d with flags := { d.flags with short := true }, format }
  else if c = 116 || c = 122 then { d with flags := { d.flags with long := true }, format }
  else if c = 106 then { d with flags := { d.flags with longLong := true }, format }
  else d

/-- From behind the `%` up to the specifier. -/
def parseDirective (format : Str) (va : List VaArg) : Option Directive :=
  let (flags, format) := parseFlags format {}
  (parseWidth ⟨flags, 0, 0, format, va⟩).bind fun d => (parsePrecision d).map parseLength

/-! Integer specifiers. -/

/-- `d`, `i`, `u`, `x`, `X`, `o` and `b` -/
def isInteger (c : UInt8) : Bool := c = 100 || c = 105 || c = 117 || c = 120 || c = 88 || c = 111 || c = 98

/-- `d` and `i` -/
def isSigned (c : UInt8) : Bool := c = 100 || c = 105

def integerBase (c : UInt8) : ℕ :=
  if c = 120 || c = 88 then 16
  else if c = 111 then 8
  else if c = 98 then 2
  else 10

def integerFlags (c : UInt8) (flags : Flags) : Flags :=
  { flags with
    hash := flags.hash && integerBase c ≠ 10
    uppercase := flags.uppercase || c = 88
    plus := flags.plus && isSigned c
    space := flags.space && isSigned c
    zeropad := flags.zeropad && !flags.precision }

/-- The argument as the type that the length field asks for. -/
def integerArg (signed : Bool) (flags : Flags) : List VaArg → Option (ℤ × List VaArg)
  | .quad q :: va => if flags.longLong then some (if signed then q.toInt else q.toNat, va) else none
  | .word w :: va =>
    if flags.longLong then none
    else if flags.long then some (if signed then w.toInt else w.toNat, va)
    else if flags.char then
      let b := w.setWidth 8
      some (if signed then b.toInt else b.toNat, va)
    else if flags.short then
      let h := w.setWidth 16
      some (if signed then h.toInt else h.toNat, va)
    else some (if signed then w.toInt else w.toNat, va)
  | _ => none

/-- `null_placeholder` -/
def nullPlaceholder : Str := [40, 110, 117, 108, 108, 41]

section Output

variable {σ : Type} (out : OutFct σ) (maxlen : ℕ)

/-- `out(c, buffer, idx++, maxlen)` -/
def put (c : UInt8) (st : ℕ × σ) : ℕ × σ := (w32 (st.1 + 1), out c st.1 maxlen st.2)

/-- A loop over the characters of a text. -/
def putAll (text : Str) (st : ℕ × σ) : ℕ × σ := text.foldl (fun st c => put out maxlen c st) st

/-- A loop that counts from `l` up to `width`. -/
def putSpaces (l width : ℕ) (st : ℕ × σ) : ℕ × σ := (put out maxlen 32)^[width - l] st

/-- `while (idx - start_idx < width) out(' ', buffer, idx++, maxlen);`, for at most `n` passes -/
def padRight (start width : ℕ) : (n : ℕ) → ℕ × σ → ℕ × σ
  | 0, st => st
  | n + 1, st => if w32 (st.1 + 4294967296 - start) < width then padRight start width n (put out maxlen 32 st) else st

/-- `_out_rev` -/
def outRev (buf : Str) (width : ℕ) (flags : Flags) (st : ℕ × σ) : ℕ × σ :=
  let start := st.1
  let st := if !flags.left && !flags.zeropad then putSpaces out maxlen buf.length width st else st
  let st := putAll out maxlen buf.reverse st
  if flags.left then padRight out maxlen start width width st else st

/-- `_ntoa_format` -/
def ntoaFormat (buf : Str) (negative : Bool) (base prec width : ℕ) (flags : Flags) (st : ℕ × σ) : ℕ × σ :=
  outRev out maxlen (ntoaBuffer buf negative base prec width flags) (digitsWidth negative width flags) flags st

/-- `_ntoa_long` and `_ntoa_long_long`, which differ in the type of `value` -/
def ntoa (value : ℕ) (negative : Bool) (base prec width : ℕ) (flags : Flags) (st : ℕ × σ) : ℕ × σ :=
  let flags := { flags with hash := flags.hash && value ≠ 0 }
  let buf := if !flags.precision || value ≠ 0 then ntoaDigits flags.uppercase base ntoaBufferSize value else []
  ntoaFormat out maxlen buf negative base prec width flags st

/-- `%c` and `%s`: a text of length `l` with its padding -/
def putPadded (text : Str) (l width : ℕ) (flags : Flags) (st : ℕ × σ) : ℕ × σ :=
  let st := if flags.left then st else putSpaces out maxlen l width st
  let st := putAll out maxlen text st
  if flags.left then putSpaces out maxlen l width st else st

/-- `_strnlen_s` of a string, for at most `maxsize` characters -/
def strnlen (str : Str) (maxsize : ℕ) : ℕ := min str.length maxsize

/-- The specifier, whose arguments must be there. -/
def specifier (float : FloatText) (c : UInt8) (d : Directive) (st : ℕ × σ) : Option (List VaArg × (ℕ × σ)) :=
  if isInteger c then
    let flags := integerFlags c d.flags
    (integerArg (isSigned c) flags d.va).map fun (value, va) =>
      (va, ntoa out maxlen value.natAbs (decide (value < 0)) (integerBase c) d.precision d.width flags st)
  else if c = 102 || c = 70 then
    match d.va with
    | .double value :: va =>
      some (va, putAll out maxlen (float.ftoa value d.precision d.width
        { d.flags with uppercase := d.flags.uppercase || c = 70 }) st)
    | _ => none
  else if c = 101 || c = 69 || c = 103 || c = 71 then
    match d.va with
    | .double value :: va =>
      some (va, putAll out maxlen (float.etoa value d.precision d.width { d.flags with
        adaptExp := d.flags.adaptExp || c = 103 || c = 71
        uppercase := d.flags.uppercase || c = 69 || c = 71 }) st)
    | _ => none
  else if c = 99 then
    match d.va with
    | .word w :: va => some (va, putPadded out maxlen [⟨w.setWidth 8⟩] 1 d.width d.flags st)
    | _ => none
  else if c = 115 then
    match d.va with
    | .text p :: va =>
      let p := p.getD nullPlaceholder
      let l := strnlen p (if d.precision ≠ 0 then d.precision else 4294967295)
      let l := if d.flags.precision then min l d.precision else l
      some (va, putPadded out maxlen (if d.flags.precision then p.take d.precision else p) l d.width d.flags st)
    | _ => none
  else if c = 112 then
    match d.va with
    | .word w :: va =>
      some (va, ntoa out maxlen w.toNat false 16 d.precision 8 { d.flags with zeropad := true, uppercase := true } st)
    | _ => none
  else some (d.va, put out maxlen c st)

/-- The loop of `_vsnprintf`. A format that ends within a directive is read beyond its end. -/
def vsnprintfLoop (float : FloatText) : (n : ℕ) → (format : Str) → (va : List VaArg) → ℕ × σ → Option (ℕ × σ)
  | _, [], _, st => some st
  | 0, _ :: _, _, _ => none
  | n + 1, c :: format, va, st =>
    if c ≠ 37 then vsnprintfLoop float n format va (put out maxlen c st)
    else
      (parseDirective format va).bind fun d =>
        match d.format with
        | [] => none
        | c :: format => (specifier out maxlen float c d st).bind fun (va, st) => vsnprintfLoop float n format va st

/-- `_vsnprintf`, with the number of characters that it returns. Each pass of the loop reads a character at least. -/
def vsnprintf (float : FloatText) (format : Str) (va : List VaArg) (s : σ) : Option (ℕ × σ) :=
  (vsnprintfLoop out maxlen float format.length format va (0, s)).map fun (idx, s) =>
    (idx, out 0 (if idx < maxlen then idx else w32 (maxlen + 4294967295)) maxlen s)

end Output

/-! The text of a directive, wherever it goes. -/

def spaces (n : ℕ) : Str := List.replicate n 32

/-- What `_out_rev` puts out. -/
def revText (buf : Str) (width : ℕ) (flags : Flags) : Str :=
  (if !flags.left && !flags.zeropad then spaces (width - buf.length) else []) ++ buf.reverse ++
    (if flags.left then spaces (width - buf.length) else [])

def ntoaText (value : ℕ) (negative : Bool) (base prec width : ℕ) (flags : Flags) : Str :=
  let flags := { flags with hash := flags.hash && value ≠ 0 }
  let buf := if !flags.precision || value ≠ 0 then ntoaDigits flags.uppercase base ntoaBufferSize value else []
  revText (ntoaBuffer buf negative base prec width flags) (digitsWidth negative width flags) flags

def paddedText (text : Str) (l width : ℕ) (flags : Flags) : Str :=
  (if flags.left then [] else spaces (width - l)) ++ text ++ (if flags.left then spaces (width - l) else [])

def specifierText (float : FloatText) (c : UInt8) (d : Directive) : Option (List VaArg × Str) :=
  if isInteger c then
    let flags := integerFlags c d.flags
    (integerArg (isSigned c) flags d.va).map fun (value, va) =>
      (va, ntoaText value.natAbs (decide (value < 0)) (integerBase c) d.precision d.width flags)
  else if c = 102 || c = 70 then
    match d.va with
    | .double value :: va =>
      some (va, float.ftoa value d.precision d.width { d.flags with uppercase := d.flags.uppercase || c = 70 })
    | _ => none
  else if c = 101 || c = 69 || c = 103 || c = 71 then
    match d.va with
    | .double value :: va =>
      some (va, float.etoa value d.precision d.width { d.flags with
        adaptExp := d.flags.adaptExp || c = 103 || c = 71
        uppercase := d.flags.uppercase || c = 69 || c = 71 })
    | _ => none
  else if c = 99 then
    match d.va with
    | .word w :: va => some (va, paddedText [⟨w.setWidth 8⟩] 1 d.width d.flags)
    | _ => none
  else if c = 115 then
    match d.va with
    | .text p :: va =>
      let p := p.getD nullPlaceholder
      let l := strnlen p (if d.precision ≠ 0 then d.precision else 4294967295)
      let l := if d.flags.precision then min l d.precision else l
      some (va, paddedText (if d.flags.precision then p.take d.precision else p) l d.width d.flags)
    | _ => none
  else if c = 112 then
    match d.va with
    | .word w :: va => some (va, ntoaText w.toNat false 16 d.precision 8 { d.flags with zeropad := true, uppercase := true })
    | _ => none
  else some (d.va, [c])

def formatTextLoop (float : FloatText) : (n : ℕ) → (format : Str) → (va : List VaArg) → Option Str
  | _, [], _ => some []
  | 0, _ :: _, _ => none
  | n + 1, c :: format, va =>
    if c ≠ 37 then (formatTextLoop float n format va).map (c :: ·)
    else
      (parseDirective format va).bind fun d =>
        match d.format with
        | [] => none
        | c :: format => (specifierText float c d).bind fun r => (formatTextLoop float n format r.1).map (r.2 ++ ·)

/-- The text of a format, where its directives are whole and find their arguments. -/
def formatText (float : FloatText) (format : Str) (va : List VaArg) : Option Str :=
  formatTextLoop float format.length format va

section Emission

variable {σ : Type} {out : OutFct σ} {maxlen : ℕ} {buf text : Str} {width l k n : ℕ} {flags : Flags} {st : ℕ × σ}

theorem putAll_append (text rest : Str) (st : ℕ × σ) :
    putAll out maxlen (text ++ rest) st = putAll out maxlen rest (putAll out maxlen text st) := List.foldl_append

theorem putAll_spaces (n : ℕ) (st : ℕ × σ) : putAll out maxlen (spaces n) st = (put out maxlen 32)^[n] st := by
  induction n generalizing st with
  | zero => rfl
  | succ n ih =>
    rw [Function.iterate_succ_apply, ← ih]
    rfl

theorem putSpaces_eq : putSpaces out maxlen l width st = putAll out maxlen (spaces (width - l)) st :=
  (putAll_spaces (width - l) st).symm

/-- The position behind a text. -/
theorem putAll_fst (h : st.1 < 4294967296) : (putAll out maxlen text st).1 = w32 (st.1 + text.length) := by
  induction text generalizing st with
  | nil => exact (Nat.mod_eq_of_lt h).symm
  | cons c text ih =>
    show (putAll out maxlen text (put out maxlen c st)).1 = _
    rw [ih (Nat.mod_lt _ (by decide)), put, List.length_cons, w32, w32, w32]
    omega

/-- The loop on the right of the text ends where the width is reached. -/
theorem padRight_eq {start : ℕ} (hstart : start < 4294967296) (hst : st.1 = w32 (start + k)) (hk : k < 4294967296)
    (hwidth : width < 4294967296) (hn : width ≤ k + n) :
    padRight out maxlen start width n st = putAll out maxlen (spaces (width - k)) st := by
  induction n generalizing k st with
  | zero =>
    rw [Nat.sub_eq_zero_of_le (show width ≤ k from hn)]
    rfl
  | succ n ih =>
    have hdiff : w32 (st.1 + 4294967296 - start) = k := by
      rw [hst, w32, w32]
      omega
    rw [padRight, hdiff]
    split_ifs with hlt
    · have hnext : (put out maxlen 32 st).1 = w32 (start + (k + 1)) := by
        rw [put, hst, w32, w32, w32]
        omega
      rw [ih hnext (by omega) (by omega), show width - k = (width - (k + 1)) + 1 by omega]
      rfl
    · rw [Nat.sub_eq_zero_of_le (Nat.le_of_not_lt hlt)]
      rfl

theorem outRev_eq (hst : st.1 < 4294967296) (hbuf : buf.length < 4294967296) (hwidth : width < 4294967296) :
    outRev out maxlen buf width flags st = putAll out maxlen (revText buf width flags) st := by
  unfold outRev revText
  cases hleft : flags.left with
  | false =>
    cases hzero : flags.zeropad with
    | false => simp [putSpaces_eq, putAll_append]
    | true => simp
  | true =>
    have hfst : (putAll out maxlen buf.reverse st).1 = w32 (st.1 + buf.length) := by
      rw [putAll_fst hst, List.length_reverse]
    have hpad : padRight out maxlen st.1 width width (putAll out maxlen buf.reverse st) =
        putAll out maxlen (spaces (width - buf.length)) (putAll out maxlen buf.reverse st) :=
      padRight_eq hst hfst hbuf hwidth (Nat.le_add_left _ _)
    simp [hpad, putAll_append]

theorem putPadded_eq : putPadded out maxlen text l width flags st = putAll out maxlen (paddedText text l width flags) st := by
  unfold putPadded paddedText
  cases flags.left with
  | false => simp [putSpaces_eq, putAll_append]
  | true => simp [putSpaces_eq, putAll_append]

end Emission

/-! The buffer for numbers. -/

section Buffer

variable {buf : Str} {base prec width n value : ℕ} {negative uppercase : Bool} {flags : Flags} {c : UInt8}

theorem length_ntoaDigits_le (n value : ℕ) : (ntoaDigits uppercase base n value).length ≤ n := by
  induction n generalizing value with
  | zero => exact Nat.le_refl 0
  | succ n ih =>
    rw [ntoaDigits, List.length_cons]
    split_ifs
    · exact Nat.succ_le_succ (ih _)
    · exact Nat.succ_le_succ (Nat.zero_le n)

theorem length_store_le (h : buf.length ≤ ntoaBufferSize) : (store buf c).length ≤ ntoaBufferSize := by
  unfold store
  split_ifs with hlt
  · rw [List.length_append, List.length_singleton]
    exact hlt
  · exact h

theorem length_padZeros_le (h : buf.length ≤ ntoaBufferSize) : (padZeros buf n).length ≤ ntoaBufferSize := by
  rw [padZeros, List.length_append, List.length_replicate]
  omega

theorem length_dropZeros_le (h : buf.length ≤ ntoaBufferSize) :
    (dropZeros buf base prec width flags).length ≤ ntoaBufferSize := by
  unfold dropZeros
  dsimp only
  split_ifs
  · exact (List.length_take_le _ _).trans (by omega)
  · exact (List.length_take_le _ _).trans (by omega)
  · exact h

theorem length_storeBase_le (h : buf.length ≤ ntoaBufferSize) : (storeBase buf base flags).length ≤ ntoaBufferSize := by
  unfold storeBase
  by_cases h16 : base = 16
  · rw [if_pos h16]
    exact length_store_le h
  · rw [if_neg h16]
    split_ifs
    · exact length_store_le h
    · exact h

theorem length_hashPrefix_le (h : buf.length ≤ ntoaBufferSize) : (hashPrefix buf base prec width flags).length ≤ ntoaBufferSize :=
  length_store_le (length_storeBase_le (length_dropZeros_le h))

theorem length_padNumber_le (h : buf.length ≤ ntoaBufferSize) : (padNumber buf prec width flags).length ≤ ntoaBufferSize := by
  unfold padNumber
  split_ifs
  · exact h
  · exact length_padZeros_le (length_padZeros_le h)
  · exact length_padZeros_le h

theorem length_storeSign_le (h : buf.length ≤ ntoaBufferSize) : (storeSign buf negative flags).length ≤ ntoaBufferSize := by
  unfold storeSign
  split_ifs
  · exact length_store_le h
  · exact length_store_le h
  · exact length_store_le h
  · exact h

/-- No store passes the end of the buffer. -/
theorem length_ntoaBuffer_le (h : buf.length ≤ ntoaBufferSize) :
    (ntoaBuffer buf negative base prec width flags).length ≤ ntoaBufferSize := by
  unfold ntoaBuffer
  refine length_storeSign_le ?_
  split_ifs
  · exact length_hashPrefix_le (length_padNumber_le h)
  · exact length_padNumber_le h

theorem digitsWidth_le : digitsWidth negative width flags ≤ width := by
  unfold digitsWidth
  split_ifs
  · exact Nat.sub_le _ _
  · exact Nat.le_refl _

variable {σ : Type} {out : OutFct σ} {maxlen : ℕ} {st : ℕ × σ}

theorem ntoa_eq (hst : st.1 < 4294967296) (hwidth : width < 4294967296) :
    ntoa out maxlen value negative base prec width flags st =
      putAll out maxlen (ntoaText value negative base prec width flags) st := by
  refine outRev_eq hst ?_ (Nat.lt_of_le_of_lt digitsWidth_le hwidth)
  refine Nat.lt_of_le_of_lt (length_ntoaBuffer_le ?_) (show ntoaBufferSize < 4294967296 by decide)
  split_ifs
  · exact length_ntoaDigits_le _ _
  · exact Nat.zero_le _

end Buffer

/-! The widths that are read. -/

section Widths

variable {d e : Directive} {format : Str} {va : List VaArg}

theorem atoi_lt (str : Str) {i : ℕ} (hi : i < 4294967296) : (atoi str i).1 < 4294967296 := by
  induction str generalizing i with
  | nil => exact hi
  | cons c str ih =>
    rw [atoi]
    split_ifs
    · exact ih (Nat.mod_lt _ (by decide))
    · exact hi

theorem parseWidth_lt (h : parseWidth d = some e) (hd : d.width < 4294967296) : e.width < 4294967296 := by
  unfold parseWidth at h
  split_ifs at h
  · obtain rfl := Option.some.inj h
    exact atoi_lt d.format (by decide)
  · split at h
    · split_ifs at h
      · obtain rfl := Option.some.inj h
        exact BitVec.isLt _
      · obtain rfl := Option.some.inj h
        exact BitVec.isLt _
    · cases h
  · obtain rfl := Option.some.inj h
    exact hd

theorem parsePrecision_width (h : parsePrecision d = some e) : e.width = d.width := by
  unfold parsePrecision parsePrecisionValue at h
  dsimp only at h
  split_ifs at h
  · obtain rfl := Option.some.inj h
    rfl
  · split at h
    · obtain rfl := Option.some.inj h
      rfl
    · cases h
  · obtain rfl := Option.some.inj h
    rfl
  · obtain rfl := Option.some.inj h
    rfl

theorem parseLength_width (d : Directive) : (parseLength d).width = d.width := by
  unfold parseLength
  dsimp only
  split_ifs <;> rfl

theorem parseDirective_lt (h : parseDirective format va = some d) : d.width < 4294967296 := by
  unfold parseDirective at h
  obtain ⟨d₁, hwidth, hrest⟩ := Option.bind_eq_some_iff.mp h
  obtain ⟨d₂, hprec, rfl⟩ := Option.map_eq_some_iff.mp hrest
  rw [parseLength_width, parsePrecision_width hprec]
  exact parseWidth_lt hwidth (show 0 < 4294967296 by decide)

end Widths

section Loop

variable {σ : Type} {out : OutFct σ} {maxlen : ℕ} {float : FloatText} {st : ℕ × σ}

theorem specifier_eq (c : UInt8) (d : Directive) (hst : st.1 < 4294967296) (hwidth : d.width < 4294967296) :
    specifier out maxlen float c d st = (specifierText float c d).map fun r => (r.1, putAll out maxlen r.2 st) := by
  unfold specifier specifierText
  by_cases hint : isInteger c = true
  · rw [if_pos hint, if_pos hint, Option.map_map]
    refine congrArg (Option.map · _) (funext fun r => ?_)
    exact congrArg (Prod.mk r.2) (ntoa_eq hst hwidth)
  rw [if_neg hint, if_neg hint]
  by_cases hf : (decide (c = 102) || decide (c = 70)) = true
  · rw [if_pos hf, if_pos hf]
    split <;> rfl
  rw [if_neg hf, if_neg hf]
  by_cases he : (decide (c = 101) || decide (c = 69) || decide (c = 103) || decide (c = 71)) = true
  · rw [if_pos he, if_pos he]
    split <;> rfl
  rw [if_neg he, if_neg he]
  by_cases hc : c = 99
  · rw [if_pos hc, if_pos hc]
    split
    · exact congrArg (fun st => some (_, st)) putPadded_eq
    · rfl
  rw [if_neg hc, if_neg hc]
  by_cases hs : c = 115
  · rw [if_pos hs, if_pos hs]
    split
    · exact congrArg (fun st => some (_, st)) putPadded_eq
    · rfl
  rw [if_neg hs, if_neg hs]
  by_cases hp : c = 112
  · rw [if_pos hp, if_pos hp]
    split
    · exact congrArg (fun st => some (_, st)) (ntoa_eq hst (by decide))
    · rfl
  rw [if_neg hp, if_neg hp]
  rfl

theorem vsnprintfLoop_eq (n : ℕ) : ∀ (format : Str) (va : List VaArg) {st : ℕ × σ}, st.1 < 4294967296 →
    vsnprintfLoop out maxlen float n format va st =
      (formatTextLoop float n format va).map fun text => putAll out maxlen text st := by
  induction n with
  | zero =>
    intro format va st _
    cases format with
    | nil => rfl
    | cons c format => rfl
  | succ n ih =>
    intro format va st hst
    cases format with
    | nil => rfl
    | cons c format =>
      rw [vsnprintfLoop, formatTextLoop]
      split_ifs with hc
      · have hput : (put out maxlen c st).1 < 4294967296 := Nat.mod_lt _ (by decide)
        rw [ih format va hput, Option.map_map]
        rfl
      · cases hd : parseDirective format va with
        | none => rfl
        | some d =>
          rw [Option.bind_some, Option.bind_some]
          cases hrest : d.format with
          | nil => rfl
          | cons c rest =>
            dsimp only
            rw [specifier_eq c d hst (parseDirective_lt hd)]
            cases specifierText float c d with
            | none => rfl
            | some r =>
              have hnext : (putAll out maxlen r.2 st).1 < 4294967296 := by
                rw [putAll_fst hst]
                exact Nat.mod_lt _ (by decide)
              show vsnprintfLoop out maxlen float n rest r.1 (putAll out maxlen r.2 st) = _
              rw [ih rest r.1 hnext, Option.bind_some, Option.map_map]
              refine congrArg (Option.map · _) (funext fun text => ?_)
              exact (putAll_append r.2 text st).symm

/-- The characters come with their positions. -/
theorem putAll_snd (text : Str) {k : ℕ} {s : σ} (h : k < 4294967296) :
    (putAll out maxlen text (k, s)).2 = (text.zipIdx k).foldl (fun s c => out c.1 (w32 c.2) maxlen s) s := by
  have hgen : ∀ (text : Str) (k : ℕ) (s : σ), (putAll out maxlen text (w32 k, s)).2 =
      (text.zipIdx k).foldl (fun s c => out c.1 (w32 c.2) maxlen s) s := by
    intro text
    induction text with
    | nil => exact fun _ _ => rfl
    | cons c text ih =>
      intro k s
      rw [List.zipIdx_cons, List.foldl_cons, ← ih (k + 1)]
      show (putAll out maxlen text (w32 (w32 k + 1), out c (w32 k) maxlen s)).2 = _
      rw [show w32 (w32 k + 1) = w32 (k + 1) by rw [w32, w32, w32]; omega]
  have hk := hgen text k s
  rwa [show w32 k = k from Nat.mod_eq_of_lt h] at hk

/-- `_vsnprintf` puts out the text of the format, and then a null character. -/
theorem vsnprintf_eq (float : FloatText) (format : Str) (va : List VaArg) (out : OutFct σ) (maxlen : ℕ) (s : σ) :
    vsnprintf out maxlen float format va s = (formatText float format va).map fun text =>
      (w32 text.length, out 0 (if w32 text.length < maxlen then w32 text.length else w32 (maxlen + 4294967295)) maxlen
        (putAll out maxlen text (0, s)).2) := by
  have hzero : ((0, s) : ℕ × σ).1 < 4294967296 := show 0 < 4294967296 by decide
  rw [vsnprintf, vsnprintfLoop_eq _ _ _ hzero, Option.map_map]
  refine congrArg (Option.map · _) (funext fun text => ?_)
  have hfst : (putAll out maxlen text (0, s)).1 = w32 text.length := by rw [putAll_fst hzero, Nat.zero_add]
  rw [← hfst]
  rfl

/-- `_vsnprintf` puts out the text of the format, whatever the output function does with it, and then a null character at the
position behind it or at the last one that there is. It returns the length of the text. -/
theorem vsnprintf_text (float : FloatText) (format : Str) (va : List VaArg) (out : OutFct σ) (maxlen : ℕ) (s : σ) :
    vsnprintf out maxlen float format va s = (formatText float format va).map fun text =>
      (w32 text.length, out 0 (if w32 text.length < maxlen then w32 text.length else w32 (maxlen + 4294967295)) maxlen
        (text.zipIdx.foldl (fun s c => out c.1 (w32 c.2) maxlen s) s)) := by
  rw [vsnprintf_eq]
  refine congrArg (Option.map · _) (funext fun text => ?_)
  rw [putAll_snd text (show 0 < 4294967296 by decide)]

end Loop

end SysX.MpPrintf
