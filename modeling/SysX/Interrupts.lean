import SysX.Lib.Comp
import Mathlib.Algebra.Group.Nat.Defs
import Mathlib.Logic.Function.Basic

/-!
The registries of interrupt handlers: that of the legacy controllers (`arch/x86/i8259.c`) and that of
the I/O APIC (`arch/x86cpu/apic.c`), which an adapter joins.
-/
namespace SysX

/-- A function that handles an interrupt: `ioapic_legacy_handler`, or one of a driver. -/
inductive Handler where
  | legacy
  | driver (addr : ℕ)
  deriving DecidableEq, Repr

/-- `intr_handler_t` -/
structure IntrHandler where
  irq : ℕ
  handler : Option Handler
  deriving DecidableEq, Repr

def intrHandlerZero : IntrHandler := ⟨0, none⟩

/-- A table of handlers: the pointer to it and its count, the block of the heap that is allocated for
it, and what the allocator returns next. `heap n` is what the `n`-th allocation returns, and `junk n`
what a block that grows then holds in its new part. -/
structure HandlerTable where
  handlers : ℕ
  cnt : ℕ
  block : ℕ
  mem : List IntrHandler
  heap : ℕ → Option ℕ
  junk : ℕ → ℕ → IntrHandler
  calls : ℕ

abbrev TableOp := Comp HandlerTable

/-- `handlers[i]`. An access outside the allocated block faults. -/
def handlerAt (i : ℕ) : TableOp IntrHandler :=
  Comp.readOr fun t => if t.handlers = t.block then t.mem[i]? else none

def setHandler (i : ℕ) (e : IntrHandler) : TableOp Unit := fun t =>
  if t.handlers = t.block ∧ i < t.mem.length then some ((), { t with mem := t.mem.set i e }) else none

/-- `kcalloc(n, sizeof(intr_handler_t))`, and the count that goes with it. -/
def handlersCalloc (n : ℕ) : TableOp Bool := do
  let new ← Comp.read fun t => t.heap t.calls
  Comp.modify fun t => { t with calls := t.calls + 1 }
  match new with
  | none => pure false
  | some p => do
    Comp.modify fun t => { t with
      handlers := p, cnt := n, block := p, mem := List.replicate n intrHandlerZero }
    pure true

/-- `krealloc(handlers, n * sizeof(intr_handler_t))`. The block may move, and the old one is dead then. -/
def handlersRealloc (n : ℕ) : TableOp (Option ℕ) := do
  let new ← Comp.readOr fun t => if t.handlers = t.block then some (t.heap t.calls) else none
  Comp.modify fun t => { t with calls := t.calls + 1 }
  match new with
  | none => pure none
  | some p => do
    Comp.modify fun t => { t with
      block := p, mem := t.mem.take n ++ (List.range (n - t.mem.length)).map (t.junk t.calls) }
    pure (some p)

/-- `PIC_HANDLERS_ALLOCSZ` and `IOAPIC_HANDLERS_ALLOCSZ` -/
def handlersAllocSz : ℕ := 4

/-- The first of the entries `i, ..., i + n - 1` without a handler. -/
def findFree : (n i : ℕ) → TableOp (Option ℕ)
  | 0, _ => pure none
  | n + 1, i => do
    let e ← handlerAt i
    if e.handler = none then pure (some i) else findFree n (i + 1)

/-- The body that `pic_handle` and `ioapic_handle` share. The new address is not stored. -/
def tableHandle (irq : ℕ) (handler : Handler) : TableOp (Option ℕ) := do
  let cnt ← Comp.read (·.cnt)
  let id ← findFree cnt 0
  let id ← (match id with
    | some id => pure (some id)
    | none => do
      let new ← handlersRealloc (cnt + handlersAllocSz)
      match new with
      | none => pure none
      | some _ => do
        Comp.forRange (fun i => setHandler (cnt + i) intrHandlerZero) (handlersAllocSz - 1) 1
        Comp.modify fun t => { t with cnt := t.cnt + 1 }
        pure (some cnt))
  match id with
  | none => pure none
  | some id => do
    setHandler id ⟨irq, some handler⟩
    pure (some id)

def tableUnhandle (id : ℕ) : TableOp Unit := do
  let cnt ← Comp.read (·.cnt)
  Comp.when (id < cnt) do
    let e ← handlerAt id
    setHandler id { e with handler := none }

/-- The handlers of `irq` among the entries `i, ..., i + n - 1`, in the order in which they are called. -/
def tableCalls (irq : ℕ) : (n i : ℕ) → TableOp (List Handler)
  | 0, _ => pure []
  | n + 1, i => do
    let e ← handlerAt i
    let rest ← tableCalls irq n (i + 1)
    match e.handler with
    | none => pure rest
    | some h => pure (if e.irq = irq then h :: rest else rest)

/-- The two tables, `ioapic_irq_gsi` and `apic_enabled`. -/
structure Intr where
  pic : HandlerTable
  ioapic : HandlerTable
  irqGsi : ℕ → ℕ
  apicEnabled : Bool

abbrev IntrOp := Comp Intr

def onPic {α : Type} (c : TableOp α) : IntrOp α := fun s =>
  (c s.pic).map fun p => (p.1, { s with pic := p.2 })

def onIoapic {α : Type} (c : TableOp α) : IntrOp α := fun s =>
  (c s.ioapic).map fun p => (p.1, { s with ioapic := p.2 })

def legacyIrqs : ℕ := 16

/-- `ioapic_irq_gsi[irq]` -/
def irqGsiAt (irq : ℕ) : IntrOp ℕ :=
  Comp.readOr fun s => if irq < legacyIrqs then some (s.irqGsi irq) else none

/-- What an interrupt does that is seen outside: the calls of the drivers' handlers, and the
acknowledgements, written to ports or to the local APIC. -/
inductive IntrEvent where
  | call (handler : Handler) (irq : ℕ)
  | outb (port value : ℕ)
  | apicEoi
  deriving DecidableEq, Repr

/-! `arch/x86/i8259.c` -/

def picVectBase : ℕ := 0x20
def pic1Cmd : ℕ := 0x20
def pic2Cmd : ℕ := 0xA0

/-- The part of `pic_init` that sets up the table. -/
def picInit : IntrOp Bool := onPic (handlersCalloc 16)

/-- `pic_eoi_inline` -/
def picEoiInline (irq : ℕ) : List IntrEvent :=
  (if 8 ≤ irq then [.outb pic2Cmd 0x20] else []) ++ [.outb pic1Cmd 0x20]

/-- Whether the interrupt controllers say that no interrupt is in service after all. `isr` is what
`pic_read_isr` returns. -/
def Spurious (irq isr : ℕ) : Prop := (irq = 7 ∨ irq = 15) ∧ isr.testBit irq = false

instance (irq isr : ℕ) : Decidable (Spurious irq isr) := inferInstanceAs (Decidable (_ ∧ _))

/-- `pic_handler_stub`, with `isr` the result of `pic_read_isr`. -/
def picHandlerStub (vector isr : ℕ) : IntrOp (List IntrEvent) :=
  let irq := (vector + 256 - picVectBase) % 256
  if Spurious irq isr then pure (if irq = 15 then picEoiInline 2 else [])
  else do
    let cnt ← Comp.read fun s => s.pic.cnt
    let calls ← onPic (tableCalls irq cnt 0)
    pure (calls.map (fun h => .call h irq) ++ picEoiInline irq)

/-! `arch/x86cpu/apic.c` -/

def ioapicHandlerVectBase : ℕ := 0x30

/-- `ioapic_handle`. `gsi` is a `uint8_t`. -/
def ioapicHandle (gsi : ℕ) (handler : Handler) : IntrOp (Option ℕ) :=
  onIoapic (tableHandle (gsi % 256) handler)

/-- The first legacy IRQ from `i` on that is routed to `gsi`. -/
def firstIrq (irqGsi : ℕ → ℕ) (gsi : ℕ) : (n i : ℕ) → Option ℕ
  | 0, _ => none
  | n + 1, i => if irqGsi i = gsi then some i else firstIrq irqGsi gsi n (i + 1)

def ioapicLegacyHandler (gsi : ℕ) : IntrOp (List IntrEvent) := do
  let irq ← Comp.read fun s => firstIrq s.irqGsi gsi legacyIrqs 0
  match irq with
  | none => pure []
  | some irq => do
    let cnt ← Comp.read fun s => s.pic.cnt
    let calls ← onPic (tableCalls irq cnt 0)
    pure (calls.map fun h => .call h irq)

/-- The calls of the handlers of a GSI, one after the other. -/
def ioapicCalls (gsi : ℕ) : List Handler → IntrOp (List IntrEvent)
  | [] => pure []
  | .legacy :: rest => do
    let events ← ioapicLegacyHandler gsi
    let events' ← ioapicCalls gsi rest
    pure (events ++ events')
  | .driver addr :: rest => do
    let events ← ioapicCalls gsi rest
    pure (.call (.driver addr) gsi :: events)

def ioapicHandler (vector : ℕ) : IntrOp (List IntrEvent) := do
  let gsi := (vector + 256 - ioapicHandlerVectBase) % 256
  let cnt ← Comp.read fun s => s.ioapic.cnt
  let handlers ← onIoapic (tableCalls gsi cnt 0)
  let events ← ioapicCalls gsi handlers
  pure (events ++ [.apicEoi])

/-- "transparently adapt legacy PIC IRQs to APIC GSIs": the loop over the entries `i, ..., i + n - 1`,
with the bitmask of the IRQs that are handled so far. -/
def adaptIrqs : (n i handled : ℕ) → IntrOp Unit
  | 0, _, _ => pure ()
  | n + 1, i, handled => do
    let e ← onPic (handlerAt i)
    if e.handler ≠ none ∧ handled.testBit e.irq = false then do
      let gsi ← irqGsiAt e.irq
      let _ ← ioapicHandle gsi .legacy
      adaptIrqs n (i + 1) ((handled ||| 2 ^ e.irq) % 65536)
    else adaptIrqs n (i + 1) handled

/-- The part of `apic_init` that sets up the I/O APIC's table of `maxGsis` entries and the adapters. -/
def apicInit (maxGsis : ℕ) : IntrOp Bool := do
  let ok ← onIoapic (handlersCalloc maxGsis)
  if ok then do
    let cnt ← Comp.read fun s => s.pic.cnt
    adaptIrqs cnt 0 0
    Comp.modify fun s => { s with apicEnabled := true }
    pure true
  else pure false

/-- `pic_handle` -/
def picHandle (irq : ℕ) (handler : Handler) : IntrOp (Option ℕ) := do
  let id ← onPic (tableHandle irq handler)
  match id with
  | none => pure none
  | some id => do
    let apicEnabled ← Comp.read (·.apicEnabled)
    Comp.when (apicEnabled = true) do
      let gsi ← irqGsiAt irq
      let _ ← ioapicHandle gsi .legacy
    pure (some id)

/-- `pic_unhandle` -/
def picUnhandle (id : ℕ) : IntrOp Unit := onPic (tableUnhandle id)

end SysX
