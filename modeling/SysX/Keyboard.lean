import SysX.Lib.Comp
import Mathlib.Logic.Function.Basic

/-!
The keyboard layer (`hal/keyboard.c`): key presses go into one ring of events that all keyboards share,
and are read from it as events or as characters.
-/
namespace SysX

/-- `kbd_event_t`. The bit field `id` has seven bits. -/
structure KbdEvent where
  id : ℕ
  pressed : Bool
  code : ℕ
  c : ℕ
  mod : BitVec 16
  deriving DecidableEq, Repr

/-- `kbd_info_t` -/
structure KbdInfo where
  keymap : ℕ → ℕ
  mod : BitVec 16
  inUse : Bool

/-- `kbd_list`, `kbd_events`, `kbd_events_rdidx` and `kbd_events_wridx`. -/
structure Kbd where
  list : ℕ → KbdInfo
  events : ℕ → KbdEvent
  rdidx : ℕ
  wridx : ℕ

abbrev KbdOp := Comp Kbd

def kbdMaxNum : ℕ := 128
def kbdMaxEvents : ℕ := 64

/-! `hal/kbdcodes.h` -/

def keyModLCtrl : BitVec 16 := 1
def keyModLShift : BitVec 16 := 2
def keyModLAlt : BitVec 16 := 4
def keyModLMeta : BitVec 16 := 8
def keyModRCtrl : BitVec 16 := 16
def keyModRShift : BitVec 16 := 32
def keyModRAlt : BitVec 16 := 64
def keyModRMeta : BitVec 16 := 128
def keyModNum : BitVec 16 := 256
def keyModCaps : BitVec 16 := 512

def keyCapsLock : ℕ := 0x39
def keyNumLock : ℕ := 0x53
def keyLeftCtrl : ℕ := 0xe0
def keyLeftShift : ℕ := 0xe1
def keyLeftAlt : ℕ := 0xe2
def keyLeftMeta : ℕ := 0xe3
def keyRightCtrl : ℕ := 0xe4
def keyRightShift : ℕ := 0xe5
def keyRightAlt : ℕ := 0xe6
def keyRightMeta : ℕ := 0xe7

/-! Accesses to the array of events. -/

def kbdEventAt (i : ℕ) : KbdOp KbdEvent :=
  Comp.readOr fun s => if i < kbdMaxEvents then some (s.events i) else none

def kbdSetEvent (i : ℕ) (e : KbdEvent) : KbdOp Unit := fun s =>
  if i < kbdMaxEvents then some ((), { s with events := Function.update s.events i e }) else none

/-- `kbd_events[i].code = 0` -/
def kbdInvalidate (i : ℕ) : KbdOp Unit := do
  let e ← kbdEventAt i
  kbdSetEvent i { e with code := 0 }

def kbdSetRdidx (i : ℕ) : KbdOp Unit := Comp.modify fun s => { s with rdidx := i }

/-- Whether the event is one of the keyboard `id`. `(size_t)-1` stands for all keyboards. -/
def KbdEvent.Of (e : KbdEvent) (id : Option ℕ) : Prop := id = none ∨ id = some e.id

instance (e : KbdEvent) (id : Option ℕ) : Decidable (e.Of id) :=
  inferInstanceAs (Decidable (_ ∨ _))

/-- The loop over the queued events, from `rdidx` up to the write index. The body may leave it with a
result. -/
def kbdLoop {α β : Type} (body : β → ℕ → KbdEvent → Except α β) :
    (fuel rdidx : ℕ) → β → KbdOp (Except α β)
  | 0, _, _ => Comp.fault
  | fuel + 1, rdidx, b => do
    let wridx ← Comp.read (·.wridx)
    if rdidx = wridx then pure (.ok b)
    else do
      let e ← kbdEventAt rdidx
      match body b rdidx e with
      | .error a => pure (.error a)
      | .ok b => kbdLoop body fuel ((rdidx + 1) % kbdMaxEvents) b

/-- No loop over the events goes around the ring more than once. -/
def kbdFuel : ℕ := 65

/-- The index of the first, or of the last, event that has not been read. -/
def kbdEventPeek (id : Option ℕ) (last : Bool) : KbdOp (Option ℕ) := do
  let rdidx ← Comp.read (·.rdidx)
  let r ← kbdLoop (fun lastEvent i e =>
    if e.Of id ∧ e.code ≠ 0 then if last then .ok (some i) else .error i else .ok lastEvent)
    kbdFuel rdidx none
  match r with
  | .error i => pure (some i)
  | .ok lastEvent => pure (if last then lastEvent else none)

/-! `kbd_keypress` -/

/-- The modifier key `mask` was pressed or released. -/
def modSet (mod mask : BitVec 16) (pressed : Bool) : BitVec 16 :=
  (mod &&& ~~~mask) ||| if pressed then mask else 0

/-- A lock toggles when its key is released. -/
def modToggle (mod mask : BitVec 16) (pressed : Bool) : BitVec 16 :=
  if pressed then mod else mod ^^^ mask

def kbdMod (mod : BitVec 16) (pressed : Bool) (code : ℕ) : BitVec 16 :=
  if code = keyLeftCtrl then modSet mod keyModLCtrl pressed
  else if code = keyRightCtrl then modSet mod keyModRCtrl pressed
  else if code = keyLeftShift then modSet mod keyModLShift pressed
  else if code = keyRightShift then modSet mod keyModRShift pressed
  else if code = keyLeftAlt then modSet mod keyModLAlt pressed
  else if code = keyRightAlt then modSet mod keyModRAlt pressed
  else if code = keyLeftMeta then modSet mod keyModLMeta pressed
  else if code = keyRightMeta then modSet mod keyModRMeta pressed
  else if code = keyNumLock then modToggle mod keyModNum pressed
  else if code = keyCapsLock then modToggle mod keyModCaps pressed
  else mod

/-- Shift, CapsLk and AltGr choose the layer of the keymap. -/
def kbdLayer (mod : BitVec 16) : ℕ :=
  (if mod &&& (keyModLShift ||| keyModRShift) ≠ 0 then 1 else 0) +
    (if mod &&& keyModCaps ≠ 0 then 2 else 0) + if mod &&& keyModRAlt ≠ 0 then 4 else 0

/-- The event of a key of the keyboard `id`, whose modifiers are `mod` by now. -/
def kbdEvent (info : KbdInfo) (id : ℕ) (pressed : Bool) (code : ℕ) (mod : BitVec 16) : KbdEvent where
  id := id
  pressed := pressed
  code := code
  c := if pressed then info.keymap (kbdLayer mod * 256 + code) else 0
  mod := mod

/-- The index of the event. `code` is a `uint8_t`. -/
def kbdKeypress (id : ℕ) (pressed : Bool) (code : ℕ) : KbdOp (Option ℕ) := do
  let info ← Comp.read fun s => s.list id
  if kbdMaxNum ≤ id ∨ info.inUse = false then pure none
  else do
    let rdidx ← Comp.read (·.rdidx)
    let wridx ← Comp.read (·.wridx)
    -- the mask stands where the remainder was meant
    Comp.when ((wridx + 1) % kbdMaxEvents = rdidx) (kbdSetRdidx ((rdidx + 1) &&& kbdMaxEvents))
    let mod := kbdMod info.mod pressed code
    Comp.modify fun s => { s with list := Function.update s.list id { info with mod := mod } }
    kbdSetEvent wridx (kbdEvent info id pressed code mod)
    Comp.modify fun s => { s with wridx := (wridx + 1) % kbdMaxEvents }
    pure (some wridx)

/-! The readers. -/

def kbdEventAvailable (id : Option ℕ) : KbdOp ℕ := do
  let rdidx ← Comp.read (·.rdidx)
  let r ← kbdLoop (α := Empty) (fun n _ e => .ok (if e.Of id ∧ e.code ≠ 0 then n + 1 else n))
    kbdFuel rdidx 0
  match r with
  | .ok n => pure n

/-- "increment and skip invalidated events" -/
def kbdSkip : ℕ → KbdOp Unit
  | 0 => Comp.fault
  | fuel + 1 => do
    let rdidx ← Comp.read (·.rdidx)
    let wridx ← Comp.read (·.wridx)
    let e ← kbdEventAt rdidx
    if e.code = 0 ∧ rdidx ≠ wridx then do
      kbdSetRdidx ((rdidx + 1) % kbdMaxEvents)
      kbdSkip fuel
    else pure ()

def kbdEventRead (id : Option ℕ) : KbdOp (Option KbdEvent) := do
  let r ← kbdEventPeek id false
  match r with
  | none => pure none
  | some i => do
    let buf ← kbdEventAt i
    kbdInvalidate i
    let rdidx ← Comp.read (·.rdidx)
    Comp.when (i = rdidx) (kbdSkip kbdFuel)
    pure (some buf)

def kbdCharAvailable (id : Option ℕ) : KbdOp ℕ := do
  let rdidx ← Comp.read (·.rdidx)
  let r ← kbdLoop (α := Empty) (fun n _ e => .ok (if e.Of id ∧ e.c ≠ 0 then n + 1 else n))
    kbdFuel rdidx 0
  match r with
  | .ok n => pure n

/-- "invalidate all preceding events" -/
def kbdInvalidateTo (id : Option ℕ) (rdidx : ℕ) : (fuel rdidx2 : ℕ) → KbdOp Unit
  | 0, _ => Comp.fault
  | fuel + 1, rdidx2 =>
    if rdidx2 = rdidx then pure ()
    else do
      let e ← kbdEventAt rdidx2
      Comp.when (e.Of id) do
        kbdInvalidate rdidx2
        let first ← Comp.read (·.rdidx)
        Comp.when (rdidx2 = first) (kbdSetRdidx ((first + 1) % kbdMaxEvents))
      kbdInvalidateTo id rdidx fuel ((rdidx2 + 1) % kbdMaxEvents)

/-- The index of the first event that has a character. -/
def kbdCharFind (id : Option ℕ) : KbdOp (Option ℕ) := do
  let rdidx ← Comp.read (·.rdidx)
  let r ← kbdLoop (fun _ i e => if e.Of id ∧ e.c ≠ 0 then .error i else .ok ()) kbdFuel rdidx ()
  match r with
  | .error i => pure (some i)
  | .ok _ => pure none

def kbdCharRead (id : Option ℕ) : KbdOp ℕ := do
  let r ← kbdCharFind id
  match r with
  | none => pure 0
  | some i => do
    kbdInvalidate i
    let rdidx2 ← Comp.read (·.rdidx)
    kbdInvalidateTo id i kbdFuel rdidx2
    kbdSetRdidx ((i + 1) % kbdMaxEvents)
    let e ← kbdEventAt i
    pure e.c

end SysX
