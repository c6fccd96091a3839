import SysX.Lib.Comp
import SysX.Lib.Walk
import SysX.MpRouting
import SysX.Reloc

/-!
The three passes of `apic_init` (`arch/x86cpu/apic.c`) over the entries of the MADT. How far a pass goes on is read from the
entries themselves.
-/
namespace SysX

/-- The MADT at `addr` in memory. Its header and the place of its first entry are there. -/
structure Madt where
  mem : ℕ → UInt8
  addr : ℕ
  header : addr + 44 < 4294967296

/-- An entry, with the fields that are read. -/
inductive MadtEntry
  | cpuLapic (cpuId apicId : UInt8) (flags : ℕ)
  | ioapic (ioapicId : UInt8) (ioapicBase gsiBase : ℕ)
  | ioapicSrcOverride (busSrc irqSrc : UInt8) (gsi flags : ℕ)
  | ioapicNmi (flags gsi : ℕ)
  | lapicNmi (cpuId : UInt8) (flags : ℕ) (lint : UInt8)
  | lapicBaseOverride (base : ℕ)
  | other (type : UInt8)
deriving DecidableEq, Repr

namespace Madt

/-- `header.length` -/
def length (t : Madt) : ℕ := readMem t.mem (t.addr + 4) 4

/-- `&madt->first_entry` -/
def firstEntry (t : Madt) : ℕ := t.addr + 44

def entryType (t : Madt) (e : ℕ) : UInt8 := t.mem (w32 e)
def entryLength (t : Madt) (e : ℕ) : ℕ := (t.mem (w32 (e + 1))).toNat

def entry (t : Madt) (e : ℕ) : MadtEntry :=
  let byte i := t.mem (w32 (e + i))
  match (t.entryType e).toNat with
  | 0 => .cpuLapic (byte 2) (byte 3) (readMem t.mem (e + 4) 4)
  | 1 => .ioapic (byte 2) (readMem t.mem (e + 4) 4) (readMem t.mem (e + 8) 4)
  | 2 => .ioapicSrcOverride (byte 2) (byte 3) (readMem t.mem (e + 4) 4) (readMem t.mem (e + 8) 2)
  | 3 => .ioapicNmi (readMem t.mem (e + 2) 2) (readMem t.mem (e + 4) 4)
  | 4 => .lapicNmi (byte 2) (readMem t.mem (e + 3) 2) (byte 5)
  | 5 => .lapicBaseOverride (readMem t.mem (e + 4) 8)
  | _ => .other (t.entryType e)

/-- `(uintptr_t) madt + madt->header.length` -/
def stop (t : Madt) : ℕ := w32 (t.addr + t.length)

def next (t : Madt) (e : ℕ) : ℕ := w32 (e + t.entryLength e)

end Madt

/-- The loop that the three passes share. The result is false where a pass gives up. -/
def madtWalk {σ : Type} (t : Madt) (visit : MadtEntry → Comp σ Bool) : (fuel e : ℕ) → Comp σ Bool
  | 0, _ => Comp.fault
  | fuel + 1, e =>
    if e < t.stop then do
      let go ← visit (t.entry e)
      if go then madtWalk t visit fuel (t.next e) else pure false
    else pure true

/-! The first pass. -/

/-- `apic_cpu_cnt`, `ioapic_cnt` and `lapic_base_paddr` -/
structure ApicCounts where
  cpuCnt : ℕ
  ioapicCnt : ℕ
  lapicBase : ℕ
deriving DecidableEq

/-- "only count usable ones" -/
def MadtEntry.usableCpu : MadtEntry → Bool
  | .cpuLapic _ _ flags => flags &&& (1 <<< 0 ||| 1 <<< 1) ≠ 0
  | _ => false

def madtCountEntry (e : MadtEntry) : Comp ApicCounts Bool := do
  match e with
  | .cpuLapic .. => Comp.when (e.usableCpu = true) (Comp.modify fun s => { s with cpuCnt := s.cpuCnt + 1 })
  | .ioapic .. => Comp.modify fun s => { s with ioapicCnt := s.ioapicCnt + 1 }
  | .lapicBaseOverride base => Comp.modify fun s => { s with lapicBase := w32 base }
  | _ => pure ()
  pure true

def madtCount (t : Madt) (fuel : ℕ) : Comp ApicCounts Bool := madtWalk t madtCountEntry fuel t.firstEntry

/-! The second pass. -/

/-- `apic_cpu_info_t` -/
structure ApicCpuInfo where
  cpuId : ℕ
  apicId : UInt8
deriving DecidableEq

/-- What the second pass has stored. -/
structure ApicTables where
  info : List IoapicInfo
  cpus : List ApicCpuInfo
  bspIdx : Option ℕ
  maxGsis : ℕ
deriving DecidableEq

/-- What the second pass finds: the sizes of the two tables, the APIC ID of the processor it runs on, and of each IOAPIC
whether its registers can be mapped and what its version register holds. -/
structure ApicHardware where
  counts : ApicCounts
  bspApicId : UInt8
  mapped : ℕ → Bool
  ioapicVer : ℕ → ℕ

/-- The record of a processor is stored, where the table has room for it. -/
def storeCpu (hw : ApicHardware) (cpuId : ℕ) (apicId : UInt8) : Comp ApicTables Unit := do
  let cpuI ← Comp.read (·.cpus.length)
  if cpuI < hw.counts.cpuCnt then
    Comp.modify fun s => { s with
      cpus := s.cpus ++ [⟨cpuId, apicId⟩], bspIdx := if apicId = hw.bspApicId then some cpuI else s.bspIdx }
  else Comp.fault

/-- The record of an IOAPIC is stored, where the table has room for it. The result is false where it cannot be mapped. -/
def storeIoapic (hw : ApicHardware) (id gsiBase : UInt8) : Comp ApicTables Bool := do
  let i ← Comp.read (·.info.length)
  if i < hw.counts.ioapicCnt then
    if hw.mapped i then do
      let inputs := ioapicInputs (hw.ioapicVer i)
      Comp.modify fun s => { s with
        info := s.info ++ [⟨id, gsiBase, inputs⟩], maxGsis := max s.maxGsis (gsiBase.toNat + inputs.toNat) }
      pure true
    else pure false
  else Comp.fault

def madtStoreEntry (hw : ApicHardware) (e : MadtEntry) : Comp ApicTables Bool :=
  match e with
  | .cpuLapic cpuId apicId _ =>
    if e.usableCpu = true then do
      storeCpu hw cpuId.toNat apicId
      pure true
    else pure true
  | .ioapic ioapicId _ gsiBase => storeIoapic hw ioapicId (UInt8.ofNat gsiBase)
  | _ => pure true

def madtStore (t : Madt) (hw : ApicHardware) (fuel : ℕ) : Comp ApicTables Bool :=
  madtWalk t (madtStoreEntry hw) fuel t.firstEntry

/-! The third pass. -/

/-- The mapping of legacy interrupts, and what has been written to the IOAPICs and to the LVT entries of the LAPIC. -/
structure ApicSetup where
  ioapicIrqGsi : ℕ → UInt8
  writes : List IoapicWrite
  lvtWrites : List (ℕ × ℕ)

def lapicRegLvtLint0 : ℕ := 0x350
def lapicRegLvtLint1 : ℕ := 0x360

def trigger (flags : ℕ) : ℕ :=
  (if flags.testBit 1 then 1 <<< 13 else 0) ||| (if flags.testBit 3 then 1 <<< 15 else 0)

/-- The loop that looks for the IOAPIC with a GSI and writes the entry of it. -/
def writeEntry (gsi val : ℕ) : (i : ℕ) → List IoapicInfo → Comp ApicSetup Unit
  | _, [] => pure ()
  | i, r :: rs =>
    if r.gsiBase.toNat ≤ gsi ∧ gsi < r.gsiBase.toNat + r.inputs.toNat then
      Comp.modify fun s => { s with writes := s.writes ++ [⟨i, ioredtblL (UInt8.ofNat (gsi - r.gsiBase.toNat)), val⟩] }
    else writeEntry gsi val (i + 1) rs

/-- The vector of a GSI is computed in 32 bits here. -/
def madtSetupEntry (tables : ApicTables) : MadtEntry → Comp ApicSetup Bool
  | .ioapicSrcOverride _ irqSrc gsi flags =>
    if irqSrc.toNat < 16 then do
      Comp.modify fun s => { s with ioapicIrqGsi := Function.update s.ioapicIrqGsi irqSrc.toNat (UInt8.ofNat gsi) }
      writeEntry gsi (w32 (mpVectBase + gsi) ||| lvtMask ||| trigger flags) 0 tables.info
      pure true
    else Comp.fault
  | .ioapicNmi flags gsi => do
    writeEntry gsi (2 ||| 1 <<< 10 ||| trigger flags) 0 tables.info
    pure true
  | .lapicNmi cpuId flags lint => do
    Comp.forList (fun cpu => Comp.when (cpuId = 0xFF ∨ cpu.cpuId = cpuId.toNat) (Comp.modify fun s => { s with
      lvtWrites := s.lvtWrites ++
        [(if lint ≠ 0 then lapicRegLvtLint1 else lapicRegLvtLint0, 2 ||| 1 <<< 10 ||| trigger flags)] })) tables.cpus
    pure true
  | _ => pure true

def madtSetup (t : Madt) (tables : ApicTables) (fuel : ℕ) : Comp ApicSetup Bool :=
  madtWalk t (madtSetupEntry tables) fuel t.firstEntry

/-! The walk along the entries. -/

/-- A pass over given entries, which stops where it gives up. -/
def visitAll {σ α : Type} (visit : α → Comp σ Bool) : List α → Comp σ Bool
  | [] => pure true
  | a :: as => do
    let go ← visit a
    if go then visitAll visit as else pure false

/-- The entries that the loop comes to, from `e` on to its end. -/
abbrev Madt.Visits (t : Madt) : ℕ → List ℕ → Prop := Walk (fun e => ¬ e < t.stop) fun e => some (t.next e)

/-- The bytes of an entry of each type that the passes interpret. -/
def countFields : ℕ → ℕ
  | 0 => 8
  | 1 => 12
  | 2 => 10
  | 3 => 8
  | 4 => 6
  | 5 => 12
  | 9 => 16
  | _ => 2

def storeFields : ℕ → ℕ
  | 0 => 8
  | 1 => 12
  | _ => 2

def setupFields : ℕ → ℕ
  | 2 => 10
  | 3 => 8
  | 4 => 6
  | _ => 2

/-- The end of an entry, by its length and by the fields that are interpreted. -/
def Madt.entryEnd (t : Madt) (fields : ℕ → ℕ) (e : ℕ) : ℕ := e + max (t.entryLength e) (fields (t.entryType e).toNat)

/-- A pass comes to an end, goes on with each entry and interprets only entries that lie in the table. -/
def Madt.Walks (t : Madt) {σ : Type} (visit : MadtEntry → Comp σ Bool) (fields : ℕ → ℕ) : Prop :=
  ∃ es, (∃ n, ∀ fuel, n ≤ fuel → madtWalk t visit fuel t.firstEntry = visitAll visit (es.map t.entry)) ∧
    t.Visits t.firstEntry es ∧ ∀ e ∈ es, e < t.next e ∧ t.addr ≤ e ∧ t.entryEnd fields e ≤ t.addr + t.length

/-- The table from `e` on is a sequence of entries, none of which is empty or has too little room for its fields. -/
inductive Madt.Filled (t : Madt) : ℕ → Prop
  | done {e : ℕ} (h : t.addr + t.length ≤ e) : t.Filled e
  | entry {e : ℕ} (hlt : e < t.addr + t.length) (hpos : 0 < t.entryLength e)
    (hin : t.entryEnd countFields e ≤ t.addr + t.length) (hrest : t.Filled (e + t.entryLength e)) : t.Filled e

section Walks

variable {t : Madt} {e n : ℕ} {es : List ℕ}

theorem madtWalk_eq {σ : Type} (visit : MadtEntry → Comp σ Bool) (h : t.Visits e es) {fuel : ℕ} (hfuel : es.length < fuel) :
    madtWalk t visit fuel e = visitAll visit (es.map t.entry) := by
  induction h generalizing fuel with
  | done hstop =>
    obtain ⟨fuel, rfl⟩ := Nat.exists_eq_succ_of_ne_zero (Nat.ne_of_gt hfuel)
    exact if_neg hstop
  | @step e e' es hgo hnext hrest ih =>
    obtain ⟨fuel, rfl⟩ := Nat.exists_eq_succ_of_ne_zero (Nat.ne_of_gt (Nat.zero_lt_of_lt hfuel))
    obtain rfl : t.next e = e' := Option.some.inj hnext
    have hrun := ih (Nat.lt_of_succ_lt_succ hfuel)
    rw [madtWalk, if_pos (not_not.mp hgo), List.map_cons, visitAll, hrun]

/-- A table that the end of the address space cuts off is not walked along. -/
theorem Madt.stop_of_wrap (h : 4294967296 ≤ t.addr + t.length) : ¬ t.firstEntry < t.stop := by
  have hheader := t.header
  have hlen : t.length < 4294967296 := readLe_lt t.mem (fun i => w32 (t.addr + 4 + i)) 4
  unfold Madt.stop Madt.firstEntry w32
  omega

theorem Madt.stop_eq (h : t.addr + t.length < 4294967296) : t.stop = t.addr + t.length := w32_of_lt h

/-- The walk along a table that is filled. -/
theorem Madt.Filled.visits (h : t.Filled e) (hfit : t.addr + t.length < 4294967296) (hle : t.addr ≤ e) :
    ∃ es, t.Visits e es ∧ ∀ e ∈ es, e < t.next e ∧ t.addr ≤ e ∧ t.entryEnd countFields e ≤ t.addr + t.length := by
  induction h with
  | done h =>
    refine ⟨[], .done ?_, fun e he => absurd he List.not_mem_nil⟩
    rw [Madt.stop_eq hfit]
    omega
  | @entry e hlt hpos hin _ ih =>
    have hend : e + t.entryLength e ≤ t.addr + t.length := by
      unfold Madt.entryEnd at hin
      omega
    have hnext : t.next e = e + t.entryLength e := w32_of_lt (by omega)
    obtain ⟨es, hes, hall⟩ := ih (by omega)
    refine ⟨e :: es, .step (not_not_intro ?_) (congrArg some hnext) hes, fun e' he' => ?_⟩
    · rw [Madt.stop_eq hfit]
      exact hlt
    · rcases List.mem_cons.mp he' with rfl | he'
      · exact ⟨by omega, hle, hin⟩
      · exact hall e' he'

/-- A walk that stays in the table shows that it is filled. -/
theorem Madt.filled_of_visits (h : t.Visits e es) (hfit : t.addr + t.length < 4294967296)
    (hall : ∀ e ∈ es, e < t.next e ∧ t.addr ≤ e ∧ t.entryEnd countFields e ≤ t.addr + t.length) : t.Filled e := by
  induction h with
  | done hstop =>
    rw [Madt.stop_eq hfit] at hstop
    exact .done (Nat.le_of_not_lt hstop)
  | @step e e' es hgo hnext _ ih =>
    obtain ⟨hadv, -, hin⟩ := hall e List.mem_cons_self
    have hend : e + t.entryLength e ≤ t.addr + t.length := by
      unfold Madt.entryEnd at hin
      omega
    have heq : t.next e = e + t.entryLength e := w32_of_lt (by omega)
    have hlt := not_not.mp hgo
    rw [Madt.stop_eq hfit] at hlt
    obtain rfl : t.next e = e' := Option.some.inj hnext
    have hrest := ih fun e' he' => hall e' (List.mem_cons_of_mem _ he')
    rw [heq] at hrest
    exact .entry hlt (by omega) hin hrest

/-- Each pass interprets some of the fields that the first one does. -/
theorem fields_le (type : ℕ) : storeFields type ≤ countFields type ∧ setupFields type ≤ countFields type := by
  unfold storeFields setupFields countFields
  constructor <;> split <;> first | exact Nat.le_refl _ | (split <;> decide)

theorem Madt.Filled.walks {σ : Type} {visit : MadtEntry → Comp σ Bool} {fields : ℕ → ℕ}
    (h : 4294967296 ≤ t.addr + t.length ∨ t.Filled t.firstEntry) (hfields : ∀ type, fields type ≤ countFields type) :
    t.Walks visit fields := by
  have hwalk : ∃ es, t.Visits t.firstEntry es ∧
      ∀ e ∈ es, e < t.next e ∧ t.addr ≤ e ∧ t.entryEnd countFields e ≤ t.addr + t.length := by
    by_cases hfit : t.addr + t.length < 4294967296
    · exact (h.resolve_left (Nat.not_le_of_lt hfit)).visits hfit (Nat.le_add_right _ _)
    · exact ⟨[], .done (Madt.stop_of_wrap (Nat.le_of_not_lt hfit)), fun e he => absurd he List.not_mem_nil⟩
  obtain ⟨es, hes, hall⟩ := hwalk
  refine ⟨es, ⟨es.length + 1, fun fuel hfuel => madtWalk_eq visit hes hfuel⟩, hes, fun e he => ?_⟩
  obtain ⟨hadv, hle, hin⟩ := hall e he
  have := hfields (t.entryType e).toNat
  refine ⟨hadv, hle, Nat.le_trans ?_ hin⟩
  unfold Madt.entryEnd
  omega

end Walks

/-- The three passes come to an end, advance with every entry and stay in the table exactly when the end of the table is the
end of an entry, no entry has the length 0 and the fields of every entry lie in the table. A table that reaches beyond the
end of the address space has no entries for them. -/
theorem madt_walks_iff (t : Madt) (hw : ApicHardware) (tables : ApicTables) :
    (t.Walks madtCountEntry countFields ∧ t.Walks (madtStoreEntry hw) storeFields ∧
      t.Walks (madtSetupEntry tables) setupFields) ↔
    (4294967296 ≤ t.addr + t.length ∨ t.Filled t.firstEntry) := by
  constructor
  · rintro ⟨⟨es, -, hes, hall⟩, -, -⟩
    by_cases hfit : t.addr + t.length < 4294967296
    · exact .inr (Madt.filled_of_visits hes hfit hall)
    · exact .inl (Nat.le_of_not_lt hfit)
  · intro h
    exact ⟨Madt.Filled.walks h fun _ => Nat.le_refl _, Madt.Filled.walks h fun type => (fields_le type).1,
      Madt.Filled.walks h fun type => (fields_le type).2⟩

/-- A table of 46 bytes, with one entry of the length 0. -/
def emptyEntryMadt : Madt := ⟨fun a => if a = 4100 then 46 else 0, 4096, by decide⟩

theorem madt_walks_empty_entry : ¬ emptyEntryMadt.Walks madtCountEntry countFields := by
  rintro ⟨es, -, hes, hall⟩
  have hlen : emptyEntryMadt.addr + emptyEntryMadt.length = 4142 := by decide
  have hpos : ¬ 0 < emptyEntryMadt.entryLength emptyEntryMadt.firstEntry := by decide
  cases Madt.filled_of_visits hes (by rw [hlen]; decide) hall with
  | done h => exact absurd (hlen ▸ h) (by decide)
  | entry _ h => exact hpos h

end SysX
