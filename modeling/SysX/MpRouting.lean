import SysX.Machine
import Mathlib.Data.List.Induction
import Mathlib.Data.List.Nodup
import Mathlib.Data.Nat.Bitwise

/-!
The interrupt assignment entries of the MP configuration table (`apic_init`, `pci_arch_route_irq`). The one takes
the destination of an entry for an index of `ioapic_info`, the other for an ID. The memory that `apic_init` asks
for is granted here: where it is not, `apic_init` gives up before it programs an IOAPIC.
-/
namespace SysX

/-- `MP_ETYPE_IRQ_ASSIGN` -/
structure IrqAssign where
  type : UInt8
  flags : UInt16
  busSrc : UInt8
  irqSrc : UInt8
  idDest : UInt8
  intinDest : UInt8
deriving DecidableEq, Repr

inductive MpEntry
  | cpu (apicId flags : UInt8)
  | bus (busId : UInt8)
  | ioapic (apicId : UInt8)
  | irqAssign (a : IrqAssign)
  | lintAssign
  | unknown (type : UInt8)
deriving DecidableEq, Repr

structure IoapicInfo where
  id : UInt8
  gsiBase : UInt8
  inputs : UInt8
deriving DecidableEq, Repr

/-- The table, `mp_busid` with its `mp_busid_cnt` bytes, and the version register of each IOAPIC. -/
structure MpTables where
  entries : List MpEntry
  mpBusid : List UInt8
  ioapicVer : ℕ → ℕ
  bspApicId : UInt8

def mpBusNone : UInt8 := 0
def mpBusEisa : UInt8 := 3
def mpBusIsa : UInt8 := 6
def mpBusPci : UInt8 := 13

/-! The part of `apic_init` for an MP configuration table. -/

def MpEntry.isEnabledCpu : MpEntry → Bool
  | .cpu _ flags => flags.toNat.testBit 0
  | _ => false

/-- The first pass, which ends at an entry of an unknown type. -/
def apicCount (counts : MpEntry → Bool) : List MpEntry → ℕ
  | [] => 0
  | .unknown _ :: _ => 0
  | e :: es => (if counts e then 1 else 0) + apicCount counts es

def MpEntry.isIoapic : MpEntry → Bool
  | .ioapic _ => true
  | _ => false

def ioapicInputs (ver : ℕ) : UInt8 := UInt8.ofNat (ver >>> 16 &&& 0xFF) + 1

/-- The second pass, which fills in the records. The result is `none` where it goes beyond one of the tables. -/
def apicFill (ver : ℕ → ℕ) (ioapicCnt cpuCnt : ℕ) :
    List MpEntry → (info : List IoapicInfo) → (cpuI : ℕ) → Option (List IoapicInfo)
  | [], info, _ => some info
  | .cpu _ flags :: es, info, cpuI =>
    if flags.toNat.testBit 0 then
      if cpuI < cpuCnt then apicFill ver ioapicCnt cpuCnt es info (cpuI + 1) else none
    else apicFill ver ioapicCnt cpuCnt es info cpuI
  | .ioapic apicId :: es, info, cpuI =>
    if info.length < ioapicCnt then
      apicFill ver ioapicCnt cpuCnt es (info ++ [⟨apicId, 0, ioapicInputs (ver info.length)⟩]) cpuI
    else none
  | .bus _ :: es, info, cpuI => apicFill ver ioapicCnt cpuCnt es info cpuI
  | .irqAssign _ :: es, info, cpuI => apicFill ver ioapicCnt cpuCnt es info cpuI
  | .lintAssign :: es, info, cpuI => apicFill ver ioapicCnt cpuCnt es info cpuI
  | .unknown _ :: es, info, cpuI => apicFill ver ioapicCnt cpuCnt es info cpuI

/-- `ioapic_info[i].gsi_base = ioapic_info[i - 1].gsi_base + ioapic_info[i - 1].inputs` -/
def gsiBases : UInt8 → List IoapicInfo → List IoapicInfo
  | _, [] => []
  | base, r :: rs => { r with gsiBase := base } :: gsiBases (base + r.inputs) rs

/-- A call of `ioapic_reg_write`. -/
structure IoapicWrite where
  idx : ℕ
  regIdx : UInt8
  val : ℕ
deriving DecidableEq, Repr

structure ApicState where
  ioapicIrqGsi : ℕ → UInt8
  writes : List IoapicWrite

def mpVectBase : ℕ := 0x30

def ioredtblL (x : UInt8) : UInt8 := 0x10 + x * 2
def ioredtblH (x : UInt8) : UInt8 := 0x10 + x * 2 + 1

def lvtMask : ℕ := 1 <<< 16

/-- Every input is given its vector and masked. -/
def apicSetup (bsp : UInt8) (info : List IoapicInfo) : List IoapicWrite :=
  (info.zipIdx).flatMap fun p => (List.range p.1.inputs.toNat).flatMap fun j =>
    [⟨p.2, ioredtblL (UInt8.ofNat j), (0x30 + p.1.gsiBase + UInt8.ofNat j).toNat ||| lvtMask⟩,
      ⟨p.2, ioredtblH (UInt8.ofNat j), bsp.toNat <<< 24⟩]

def lvtTrigger (flags : UInt16) : ℕ :=
  (if flags.toNat.testBit 1 then 1 <<< 13 else 0) ||| (if flags.toNat.testBit 3 then 1 <<< 15 else 0)

/-- What is written for the entry when its GSI is `gsi`. -/
def redirection (a : IrqAssign) (gsi : ℕ) : ℕ :=
  if a.type = 1 then 2 ||| 1 <<< 10 ||| lvtTrigger a.flags
  else if a.type = 3 then 0xFF ||| 7 <<< 8 ||| lvtTrigger a.flags
  else (mpVectBase + gsi) ||| lvtMask ||| lvtTrigger a.flags

/-- The bus is ISA or EISA, or it is not known which bus it is. -/
def IrqAssign.Legacy (mpBusid : List UInt8) (a : IrqAssign) : Prop :=
  match mpBusid[a.busSrc.toNat]? with
  | none => True
  | some b => b = mpBusNone ∨ b = mpBusIsa ∨ b = mpBusEisa

instance (mpBusid : List UInt8) (a : IrqAssign) : Decidable (a.Legacy mpBusid) := by
  unfold IrqAssign.Legacy
  split <;> infer_instance

/-- An interrupt other than an NMI and one of the 8259: its vector is that of a GSI. -/
def IrqAssign.Ordinary (a : IrqAssign) : Prop := a.type ≠ 1 ∧ a.type ≠ 3

instance (a : IrqAssign) : Decidable a.Ordinary := by
  unfold IrqAssign.Ordinary
  infer_instance

/-- One entry of the last pass; `none` for an index outside of `ioapic_info` or `ioapic_irq_gsi`. -/
def apicAssign (mpBusid : List UInt8) (info : List IoapicInfo) (st : ApicState) :
    MpEntry → Option ApicState
  | .irqAssign a => do
    let dest ← info[a.idDest.toNat]?
    let gsis ←
      if a.Legacy mpBusid then
        if a.irqSrc.toNat < 16 then
          some (Function.update st.ioapicIrqGsi a.irqSrc.toNat (dest.gsiBase + a.intinDest))
        else none
      else some st.ioapicIrqGsi
    let gsi ←
      if a.Ordinary then if a.irqSrc.toNat < 16 then some (gsis a.irqSrc.toNat).toNat else none
      else some 0
    some ⟨gsis, st.writes ++ [⟨a.idDest.toNat, ioredtblL a.intinDest, redirection a gsi⟩]⟩
  | _ => some st

/-- `ioapic_info` and the state after the part of `apic_init` for an MP configuration table. -/
def apicInitMp (t : MpTables) : Option (List IoapicInfo × ApicState) := do
  let filled ← apicFill t.ioapicVer (apicCount MpEntry.isIoapic t.entries)
    (apicCount MpEntry.isEnabledCpu t.entries) t.entries [] 0
  let info := gsiBases 0 filled
  let st ← t.entries.foldlM (apicAssign t.mpBusid info) ⟨UInt8.ofNat, apicSetup t.bspApicId info⟩
  some (info, st)

/-! `pci_arch_route_irq` -/

def pciIrqFlags (flags : UInt16) : ℕ :=
  (if flags.toNat.testBit 1 then 2 else 0) ||| (if flags.toNat.testBit 3 then 0 else 1)

/-- The GSI of an entry, with the flags; `none` for `(size_t) -1`. -/
def pciRouteEntry (info : List IoapicInfo) (a : IrqAssign) : Option (ℕ × ℕ) :=
  (info.find? (·.id = a.idDest)).map fun r =>
    (r.gsiBase.toNat + a.intinDest.toNat, pciIrqFlags a.flags)

/-- The pass over the table; the outer `none` is a failed `kassert`. -/
def pciRouteLoop (mpBusid : List UInt8) (info : List IoapicInfo) (bus dev pin : ℕ) :
    List MpEntry → Option (Option (ℕ × ℕ))
  | [] => some none
  | .irqAssign a :: es => do
    let b ← mpBusid[a.busSrc.toNat]?
    if b = mpBusPci ∧ bus = a.busSrc.toNat ∧ dev = a.irqSrc.toNat / 4 ∧ pin = a.irqSrc.toNat % 4 then
      some (pciRouteEntry info a)
    else pciRouteLoop mpBusid info bus dev pin es
  | _ :: es => pciRouteLoop mpBusid info bus dev pin es

/-- Without ACPI and with the APIC enabled. -/
def pciArchRouteIrq (t : MpTables) (info : List IoapicInfo) (bus dev pin : ℕ) : Option (Option (ℕ × ℕ)) :=
  if t.mpBusid = [] then some none else pciRouteLoop t.mpBusid info bus dev pin t.entries

/-! The records of the IOAPICs. -/

/-- The records of the entries from the `i`th IOAPIC on, before the GSI bases are known. -/
def ioapicRecords (ver : ℕ → ℕ) : ℕ → List MpEntry → List IoapicInfo
  | _, [] => []
  | i, .ioapic apicId :: es => ⟨apicId, 0, ioapicInputs (ver i)⟩ :: ioapicRecords ver (i + 1) es
  | i, _ :: es => ioapicRecords ver i es

/-- The IOAPICs of the table in its order, each with its first GSI. -/
def MpTables.ioapics (t : MpTables) : List IoapicInfo := gsiBases 0 (ioapicRecords t.ioapicVer 0 t.entries)

/-- The entries behind the first one of an unknown type. -/
def behindUnknown : List MpEntry → List MpEntry
  | [] => []
  | .unknown _ :: es => es
  | _ :: es => behindUnknown es

theorem apicCount_add (counts : MpEntry → Bool) (hu : ∀ type, counts (.unknown type) = false)
    (es : List MpEntry) : apicCount counts es + (behindUnknown es).countP counts = es.countP counts := by
  induction es with
  | nil => rfl
  | cons e es ih =>
    cases e with
    | unknown type => simp [apicCount, behindUnknown, hu]
    | cpu | bus | ioapic | irqAssign | lintAssign =>
      simp only [apicCount, behindUnknown, List.countP_cons]
      omega

/-- The second pass stays inside of the tables when they have room for all entries. -/
theorem apicFill_eq (ver : ℕ → ℕ) (m n : ℕ) (es : List MpEntry) {info : List IoapicInfo} {cpuI : ℕ}
    (hm : info.length ≤ m) (hn : cpuI ≤ n) :
    apicFill ver m n es info cpuI =
      if info.length + es.countP MpEntry.isIoapic ≤ m ∧ cpuI + es.countP MpEntry.isEnabledCpu ≤ n then
        some (info ++ ioapicRecords ver info.length es) else none := by
  induction es generalizing info cpuI with
  | nil => simp [apicFill, ioapicRecords, hm, hn]
  | cons e es ih =>
    cases e with
    | cpu apicId flags =>
      rw [apicFill]
      by_cases hf : flags.toNat.testBit 0 = true
      · rw [if_pos hf]
        by_cases hlt : cpuI < n
        · rw [if_pos hlt, ih hm (by omega)]
          simp only [List.countP_cons, MpEntry.isIoapic, MpEntry.isEnabledCpu, hf, ioapicRecords]
          congr 1
          simp only [eq_iff_iff, if_true, Bool.false_eq_true, if_false]
          omega
        · rw [if_neg hlt, if_neg]
          simp only [List.countP_cons, MpEntry.isEnabledCpu, hf, if_true]
          omega
      · rw [if_neg hf, ih hm hn]
        simp [MpEntry.isIoapic, MpEntry.isEnabledCpu, hf, ioapicRecords]
    | ioapic apicId =>
      rw [apicFill]
      by_cases hlt : info.length < m
      · rw [if_pos hlt, ih (by rw [List.length_append, List.length_singleton]; omega) hn]
        simp only [List.countP_cons, MpEntry.isIoapic, MpEntry.isEnabledCpu, ioapicRecords,
          List.length_append, List.length_singleton, List.append_assoc, List.singleton_append]
        congr 1
        simp only [eq_iff_iff, if_true, Bool.false_eq_true, if_false]
        omega
      · rw [if_neg hlt, if_neg]
        simp only [List.countP_cons, MpEntry.isIoapic, if_true]
        omega
    | bus | irqAssign | lintAssign | unknown =>
      rw [apicFill, ih hm hn]
      simp [MpEntry.isIoapic, MpEntry.isEnabledCpu, ioapicRecords]

/-- No IOAPIC and no enabled processor stands behind an entry of an unknown type. -/
def MpTables.Counted (t : MpTables) : Prop :=
  ∀ e ∈ behindUnknown t.entries, e.isIoapic = false ∧ e.isEnabledCpu = false

instance (t : MpTables) : Decidable t.Counted := by
  unfold MpTables.Counted
  infer_instance

/-- The state before the last pass. -/
def MpTables.start (t : MpTables) : ApicState := ⟨UInt8.ofNat, apicSetup t.bspApicId t.ioapics⟩

theorem apicInitMp_eq (t : MpTables) : apicInitMp t =
    if t.Counted then
      (t.entries.foldlM (apicAssign t.mpBusid t.ioapics) t.start).map fun st => (t.ioapics, st)
    else none := by
  have hio := apicCount_add MpEntry.isIoapic (fun _ => rfl) t.entries
  have hcpu := apicCount_add MpEntry.isEnabledCpu (fun _ => rfl) t.entries
  have hroom : t.Counted ↔
      ([] : List IoapicInfo).length + t.entries.countP MpEntry.isIoapic ≤
          apicCount MpEntry.isIoapic t.entries ∧
        0 + t.entries.countP MpEntry.isEnabledCpu ≤ apicCount MpEntry.isEnabledCpu t.entries := by
    have hzero : ∀ counts : MpEntry → Bool,
        (behindUnknown t.entries).countP counts = 0 ↔ ∀ e ∈ behindUnknown t.entries, counts e = false := by
      intro counts
      simp [List.countP_eq_zero]
    rw [MpTables.Counted]
    simp only [forall_and, ← hzero, List.length_nil]
    omega
  rw [apicInitMp, apicFill_eq _ _ _ _ (Nat.zero_le _) (Nat.zero_le _)]
  by_cases hc : t.Counted
  · rw [if_pos hc, if_pos (hroom.mp hc)]
    simp only [List.nil_append, Option.bind_eq_bind, Option.bind_some, MpTables.start, MpTables.ioapics,
      List.length_nil]
    exact Option.map_eq_bind.symm
  · rw [if_neg hc, if_neg (fun h => hc (hroom.mpr h))]
    rfl

theorem ids_gsiBases (base : UInt8) (rs : List IoapicInfo) :
    (gsiBases base rs).map IoapicInfo.id = rs.map IoapicInfo.id := by
  induction rs generalizing base with
  | nil => rfl
  | cons r rs ih => rw [gsiBases, List.map_cons, List.map_cons, ih]

def MpEntry.ioapicId? : MpEntry → Option UInt8
  | .ioapic apicId => some apicId
  | _ => none

theorem ids_ioapicRecords (ver : ℕ → ℕ) (i : ℕ) (es : List MpEntry) :
    (ioapicRecords ver i es).map IoapicInfo.id = es.filterMap MpEntry.ioapicId? := by
  induction es generalizing i with
  | nil => rfl
  | cons e es ih =>
    cases e <;> simp [ioapicRecords, MpEntry.ioapicId?, List.filterMap_cons, ih]

theorem MpTables.ids_ioapics (t : MpTables) :
    t.ioapics.map IoapicInfo.id = t.entries.filterMap MpEntry.ioapicId? :=
  (ids_gsiBases _ _).trans (ids_ioapicRecords _ _ _)

/-! What the claim of an entry is, and when it is met. -/

/-- The number of the GSI that the entry stands for. -/
def IrqAssign.gsi (info : List IoapicInfo) (a : IrqAssign) : ℕ :=
  match info.find? (·.id = a.idDest) with
  | none => 0
  | some r => r.gsiBase.toNat + a.intinDest.toNat

/-- `pci_arch_route_irq` passes over the entries before the one for the device and the pin of `a`. -/
def Undecided (mpBusid : List UInt8) (a : IrqAssign) (pre : List MpEntry) : Prop :=
  ∀ b, MpEntry.irqAssign b ∈ pre → ∃ bus, mpBusid[b.busSrc.toNat]? = some bus ∧
    ¬ (bus = mpBusPci ∧ b.busSrc = a.busSrc ∧ b.irqSrc = a.irqSrc)

/-- The entry goes to the IOAPIC with its ID and to the GSI that `pci_arch_route_irq` computes: the mapping of
a legacy interrupt says so, and so does what is written for the entry. -/
def EntryAgrees (t : MpTables) (info : List IoapicInfo) (pre : List MpEntry) (a : IrqAssign)
    (s s' : ApicState) : Prop :=
  ∃ k r, info[k]? = some r ∧ r.id = a.idDest ∧
    (a.Legacy t.mpBusid → (s'.ioapicIrqGsi a.irqSrc.toNat).toNat = r.gsiBase.toNat + a.intinDest.toNat) ∧
    (∃ reg : UInt8, reg.toNat = 0x10 + 2 * a.intinDest.toNat ∧ s'.writes = s.writes ++
      [⟨k, reg, redirection a (r.gsiBase.toNat + a.intinDest.toNat)⟩]) ∧
    pciRouteEntry info a = some (r.gsiBase.toNat + a.intinDest.toNat, pciIrqFlags a.flags) ∧
    (t.mpBusid[a.busSrc.toNat]? = some mpBusPci → Undecided t.mpBusid a pre →
      pciArchRouteIrq t info a.busSrc.toNat (a.irqSrc.toNat / 4) (a.irqSrc.toNat % 4) =
        some (some (r.gsiBase.toNat + a.intinDest.toNat, pciIrqFlags a.flags)))

/-- `apic_init` stays inside of its tables and treats every interrupt assignment entry as
`pci_arch_route_irq` does. -/
def RoutesAlike (t : MpTables) : Prop :=
  ∃ info st, apicInitMp t = some (info, st) ∧ ∀ pre a post, t.entries = pre ++ .irqAssign a :: post →
    ∃ s s', pre.foldlM (apicAssign t.mpBusid info) ⟨UInt8.ofNat, apicSetup t.bspApicId info⟩ = some s ∧
      apicAssign t.mpBusid info s (.irqAssign a) = some s' ∧ EntryAgrees t info pre a s s'

/-- The last legacy entry for an interrupt source. -/
def lastLegacy (mpBusid : List UInt8) (src : UInt8) : List MpEntry → Option IrqAssign :=
  List.foldl (fun last e => match e with
    | .irqAssign b => if b.Legacy mpBusid ∧ b.irqSrc = src then some b else last
    | _ => last) none

/-- The GSI that legacy interrupt `src` has behind these entries. -/
def inheritedGsi (t : MpTables) (pre : List MpEntry) (src : UInt8) : ℕ :=
  match lastLegacy t.mpBusid src pre with
  | none => src.toNat
  | some b => b.gsi t.ioapics

/-- What the entry must be for `apic_init` to treat it right. -/
structure EntryFits (t : MpTables) (pre : List MpEntry) (a : IrqAssign) : Prop where
  /-- The IOAPIC with the ID of the destination has this number in the table as well. -/
  number : t.ioapics[a.idDest.toNat]?.map IoapicInfo.id = some a.idDest
  /-- The registers of the input can be addressed. -/
  input : a.intinDest.toNat < 120
  /-- A legacy interrupt is one of the 16, and its GSI is the number of one. -/
  legacy : a.Legacy t.mpBusid → a.irqSrc.toNat < 16 ∧ a.gsi t.ioapics < 256
  /-- The interrupt of another bus has the number of a legacy interrupt that goes to the same GSI. -/
  other : ¬ a.Legacy t.mpBusid → a.Ordinary →
    a.irqSrc.toNat < 16 ∧ inheritedGsi t pre a.irqSrc = a.gsi t.ioapics

/-- `ioapic_irq_gsi` holds what the entries up to now say. -/
def GsisAt (t : MpTables) (pre : List MpEntry) (s : ApicState) : Prop :=
  ∀ src : UInt8, src.toNat < 16 → (s.ioapicIrqGsi src.toNat).toNat = inheritedGsi t pre src

section Step

variable {t : MpTables} {pre : List MpEntry} {a : IrqAssign} {s s' : ApicState}

theorem lastLegacy_append (mpBusid : List UInt8) (src : UInt8) (pre : List MpEntry) (e : MpEntry) :
    lastLegacy mpBusid src (pre ++ [e]) = match e with
      | .irqAssign b => if b.Legacy mpBusid ∧ b.irqSrc = src then some b else lastLegacy mpBusid src pre
      | _ => lastLegacy mpBusid src pre := by
  rw [lastLegacy, List.foldl_append]
  rfl

/-- The record with the ID of the destination is the one that the search finds. -/
theorem find_of_id {info : List IoapicInfo} (hd : (info.map IoapicInfo.id).Nodup) {k : ℕ} {r : IoapicInfo}
    {id : UInt8} (hk : info[k]? = some r) (hid : r.id = id) : info.find? (·.id = id) = some r := by
  cases hf : info.find? (·.id = id) with
  | none =>
    have := List.find?_eq_none.mp hf r (List.mem_of_getElem? hk)
    simp [hid] at this
  | some q =>
    have hq := List.find?_some hf
    have hinj := List.inj_on_of_nodup_map hd (List.mem_of_find?_eq_some hf) (List.mem_of_getElem? hk)
    rw [hinj (by simpa [hid] using hq)]

theorem redirection_inj (ha : a.Ordinary) {g g' : ℕ} (hg : g < 512) (hg' : g' < 512)
    (h : redirection a g = redirection a g') : g = g' := by
  unfold redirection at h
  rw [if_neg ha.1, if_neg ha.2, if_neg ha.1, if_neg ha.2] at h
  have hlow : ∀ n < 512, ((mpVectBase + n) ||| lvtMask ||| lvtTrigger a.flags) % 2 ^ 13 =
      mpVectBase + n := by
    intro n hn
    have htrig : lvtTrigger a.flags % 2 ^ 13 = 0 := by
      unfold lvtTrigger
      split_ifs <;> decide
    have hmask : lvtMask % 2 ^ 13 = 0 := by decide
    rw [Nat.or_mod_two_pow, Nat.or_mod_two_pow, htrig, hmask, Nat.or_zero, Nat.or_zero]
    exact Nat.mod_eq_of_lt (by unfold mpVectBase; omega)
  have heq := congrArg (· % 2 ^ 13) h
  simp only [hlow g hg, hlow g' hg'] at heq
  exact Nat.add_left_cancel heq

theorem ioredtblL_toNat (x : UInt8) : (ioredtblL x).toNat = 0x10 + 2 * x.toNat ↔ x.toNat < 120 := by
  have hx := x.toNat_lt
  have hval : (ioredtblL x).toNat = (0x10 + x.toNat * 2 % 256) % 256 := by
    simp [ioredtblL, UInt8.toNat_add, UInt8.toNat_mul]
  rw [hval]
  omega

theorem redirection_of_not_ordinary (ha : ¬ a.Ordinary) (g g' : ℕ) : redirection a g = redirection a g' := by
  unfold redirection
  by_cases h1 : a.type = 1
  · rw [if_pos h1, if_pos h1]
  · have h3 : a.type = 3 := by
      by_contra h3
      exact ha ⟨h1, h3⟩
    rw [if_neg h1, if_neg h1, if_pos h3, if_pos h3]

/-- What is mapped when an entry with the record `dest` has been treated. -/
def gsisAfter (t : MpTables) (a : IrqAssign) (dest : IoapicInfo) (s : ApicState) : ℕ → UInt8 :=
  if a.Legacy t.mpBusid then
    Function.update s.ioapicIrqGsi a.irqSrc.toNat (dest.gsiBase + a.intinDest)
  else s.ioapicIrqGsi

theorem apicAssign_eq_some {info : List IoapicInfo} :
    apicAssign t.mpBusid info s (.irqAssign a) = some s' ↔
      ∃ dest, info[a.idDest.toNat]? = some dest ∧ (a.Legacy t.mpBusid ∨ a.Ordinary → a.irqSrc.toNat < 16) ∧
        s' = ⟨gsisAfter t a dest s, s.writes ++ [⟨a.idDest.toNat, ioredtblL a.intinDest,
          redirection a (gsisAfter t a dest s a.irqSrc.toNat).toNat⟩]⟩ := by
  simp only [apicAssign, Option.bind_eq_bind]
  cases hd : info[a.idDest.toNat]? with
  | none => simp
  | some dest =>
    by_cases hl : a.Legacy t.mpBusid <;> by_cases ho : a.Ordinary <;> by_cases hs : a.irqSrc.toNat < 16 <;>
      simp [gsisAfter, hl, ho, hs, eq_comm]
    · rw [redirection_of_not_ordinary ho]
    · rw [redirection_of_not_ordinary ho]
    · rw [redirection_of_not_ordinary ho]

theorem IrqAssign.gsi_eq {info : List IoapicInfo} {r : IoapicInfo}
    (hf : info.find? (·.id = a.idDest) = some r) : a.gsi info = r.gsiBase.toNat + a.intinDest.toNat := by
  rw [IrqAssign.gsi, hf]

theorem pciRouteLoop_eq (info : List IoapicInfo) (hp : t.mpBusid[a.busSrc.toNat]? = some mpBusPci)
    (hu : Undecided t.mpBusid a pre) (post : List MpEntry) :
    pciRouteLoop t.mpBusid info a.busSrc.toNat (a.irqSrc.toNat / 4) (a.irqSrc.toNat % 4)
      (pre ++ .irqAssign a :: post) = some (pciRouteEntry info a) := by
  induction pre with
  | nil => simp [pciRouteLoop, hp]
  | cons e es ih =>
    have hrest : Undecided t.mpBusid a es := fun b hb => hu b (List.mem_cons_of_mem _ hb)
    cases e with
    | irqAssign b =>
      obtain ⟨bus, hbus, hne⟩ := hu b List.mem_cons_self
      rw [List.cons_append, pciRouteLoop, hbus]
      simp only [Option.bind_eq_bind, Option.bind_some]
      rw [if_neg, ih hrest]
      rintro ⟨hpci, hsame, hdev, hpin⟩
      refine hne ⟨hpci, UInt8.toNat_inj.mp hsame.symm, UInt8.toNat_inj.mp ?_⟩
      omega
    | cpu | bus | ioapic | lintAssign | unknown =>
      simp only [List.cons_append, pciRouteLoop]
      exact ih hrest

/-- An entry that fits is treated right, and no other is. -/
theorem entryAgrees_iff (hd : (t.ioapics.map IoapicInfo.id).Nodup) {post : List MpEntry}
    (hsplit : t.entries = pre ++ .irqAssign a :: post) (hg : GsisAt t pre s) :
    (∃ s', apicAssign t.mpBusid t.ioapics s (.irqAssign a) = some s' ∧
      EntryAgrees t t.ioapics pre a s s') ↔ EntryFits t pre a := by
  constructor
  · rintro ⟨s', hs', k, r, hk, hid, hmap, ⟨reg, hreg, hwrites⟩, -, -⟩
    obtain ⟨dest, hdest, hsrc, rfl⟩ := apicAssign_eq_some.mp hs'
    have hw := List.append_cancel_left hwrites
    simp only [List.cons.injEq, IoapicWrite.mk.injEq, and_true] at hw
    obtain ⟨rfl, rfl, hval⟩ := hw
    obtain rfl : dest = r := Option.some.inj (hdest.symm.trans hk)
    have hgsi := IrqAssign.gsi_eq (find_of_id hd hk hid)
    have hlt := dest.gsiBase.toNat_lt
    have hlt' := a.intinDest.toNat_lt
    refine ⟨by rw [hk, Option.map_some, hid], (ioredtblL_toNat _).mp hreg, fun hl => ?_, fun hl ho => ?_⟩
    · have hm := hmap hl
      have hbyte := (gsisAfter t a dest s a.irqSrc.toNat).toNat_lt
      exact ⟨hsrc (.inl hl), by rw [hgsi, ← hm]; exact hbyte⟩
    · have hlt16 := hsrc (.inr ho)
      have hkeep : gsisAfter t a dest s = s.ioapicIrqGsi := if_neg hl
      have hbyte := (s.ioapicIrqGsi a.irqSrc.toNat).toNat_lt
      rw [hkeep] at hval
      have heq := redirection_inj ho (by omega) (by omega) hval
      exact ⟨hlt16, by rw [hgsi, ← heq, hg _ hlt16]⟩
  · intro hfit
    obtain ⟨dest, hdest, hid⟩ := Option.map_eq_some_iff.mp hfit.number
    have hfind := find_of_id hd hdest hid
    have hgsi := IrqAssign.gsi_eq hfind
    have hsrc : a.Legacy t.mpBusid ∨ a.Ordinary → a.irqSrc.toNat < 16 := by
      intro h
      by_cases hl : a.Legacy t.mpBusid
      · exact (hfit.legacy hl).1
      · exact (hfit.other hl (h.resolve_left hl)).1
    have hafter : a.Legacy t.mpBusid ∨ a.Ordinary →
        (gsisAfter t a dest s a.irqSrc.toNat).toNat = dest.gsiBase.toNat + a.intinDest.toNat := by
      intro h
      by_cases hl : a.Legacy t.mpBusid
      · have hlt := (hfit.legacy hl).2
        rw [gsisAfter, if_pos hl, Function.update_self, UInt8.toNat_add]
        omega
      · have ho := hfit.other hl (h.resolve_left hl)
        rw [gsisAfter, if_neg hl, hg _ ho.1, ho.2, hgsi]
    refine ⟨_, apicAssign_eq_some.mpr ⟨dest, hdest, hsrc, rfl⟩, a.idDest.toNat, dest, hdest, hid,
      fun hl => hafter (.inl hl), ⟨_, (ioredtblL_toNat _).mpr hfit.input, ?_⟩, ?_, fun hp hu => ?_⟩
    · by_cases ho : a.Ordinary
      · rw [hafter (.inr ho)]
      · rw [redirection_of_not_ordinary ho]
    · rw [pciRouteEntry, hfind, Option.map_some]
    · have hne : t.mpBusid ≠ [] := by
        intro h
        rw [h] at hp
        cases hp
      rw [pciArchRouteIrq, if_neg hne, hsplit, pciRouteLoop_eq _ hp hu, pciRouteEntry, hfind, Option.map_some]

/-- An entry that fits leaves behind the mapping that the entries up to it say. -/
theorem GsisAt.irqAssign (hd : (t.ioapics.map IoapicInfo.id).Nodup) (hg : GsisAt t pre s)
    (hfit : EntryFits t pre a) (hs' : apicAssign t.mpBusid t.ioapics s (.irqAssign a) = some s') :
    GsisAt t (pre ++ [.irqAssign a]) s' := by
  obtain ⟨dest, hdest, -, rfl⟩ := apicAssign_eq_some.mp hs'
  obtain ⟨r, hr, hid⟩ := Option.map_eq_some_iff.mp hfit.number
  obtain rfl : dest = r := Option.some.inj (hdest.symm.trans hr)
  have hgsi := IrqAssign.gsi_eq (find_of_id hd hdest hid)
  intro src hsrc
  rw [inheritedGsi, lastLegacy_append]
  by_cases hl : a.Legacy t.mpBusid
  · simp only [gsisAfter, if_pos hl]
    by_cases he : a.irqSrc = src
    · subst he
      have hlt := (hfit.legacy hl).2
      rw [if_pos ⟨hl, rfl⟩, Function.update_self, UInt8.toNat_add]
      dsimp only
      omega
    · have hne : src.toNat ≠ a.irqSrc.toNat := fun h => he (UInt8.toNat_inj.mp h.symm)
      rw [if_neg (fun h => he h.2), Function.update_of_ne hne]
      exact hg src hsrc
  · simp only [gsisAfter, if_neg hl]
    rw [if_neg (fun h => hl h.1)]
    exact hg src hsrc

/-- The runs over the first entries, when each entry is treated right in its place. -/
theorem gsisAt_run (es : List MpEntry)
    (h : ∀ pre a post, es = pre ++ .irqAssign a :: post → ∀ s, GsisAt t pre s →
      pre.foldlM (apicAssign t.mpBusid t.ioapics) t.start = some s →
      ∃ s', apicAssign t.mpBusid t.ioapics s (.irqAssign a) = some s' ∧ GsisAt t (pre ++ [.irqAssign a]) s')
    (pre post : List MpEntry) (hsplit : es = pre ++ post) :
    ∃ s, pre.foldlM (apicAssign t.mpBusid t.ioapics) t.start = some s ∧ GsisAt t pre s := by
  induction pre using List.reverseRecOn generalizing post with
  | nil =>
    refine ⟨t.start, rfl, fun src _ => ?_⟩
    simp [MpTables.start, inheritedGsi, lastLegacy]
  | append_singleton pre e ih =>
    obtain ⟨s, hs, hg⟩ := ih (e :: post) (by rw [hsplit, List.append_assoc]; rfl)
    have hrun : ∀ s', apicAssign t.mpBusid t.ioapics s e = some s' →
        (pre ++ [e]).foldlM (apicAssign t.mpBusid t.ioapics) t.start = some s' := by
      intro s' hs'
      rw [List.foldlM_append, hs]
      simp [hs']
    cases e with
    | irqAssign a =>
      obtain ⟨s', hs', hg'⟩ := h pre a post (by rw [hsplit, List.append_assoc]; rfl) s hg hs
      exact ⟨s', hrun s' hs', hg'⟩
    | cpu | bus | ioapic | lintAssign | unknown =>
      refine ⟨s, hrun s rfl, fun src hsrc => ?_⟩
      rw [inheritedGsi, lastLegacy_append]
      exact hg src hsrc

end Step

/-- The condition on the whole table. -/
structure TableFits (t : MpTables) : Prop where
  counted : t.Counted
  entries : ∀ pre a post, t.entries = pre ++ .irqAssign a :: post → EntryFits t pre a

/-- `apic_init` and `pci_arch_route_irq` agree on the tables in which the number of an IOAPIC is its ID, as far
as an entry names it, and in which the source of a PCI interrupt happens to be mapped to its GSI. -/
theorem routes_alike_iff {t : MpTables} (hd : (t.entries.filterMap MpEntry.ioapicId?).Nodup) :
    RoutesAlike t ↔ TableFits t := by
  rw [← t.ids_ioapics] at hd
  constructor
  · rintro ⟨info, st, hinit, hall⟩
    rw [apicInitMp_eq] at hinit
    by_cases hc : t.Counted
    · rw [if_pos hc] at hinit
      obtain ⟨st', hst', heq⟩ := Option.map_eq_some_iff.mp hinit
      cases heq
      have hfit : ∀ pre a post, t.entries = pre ++ .irqAssign a :: post → ∀ s, GsisAt t pre s →
          pre.foldlM (apicAssign t.mpBusid t.ioapics) t.start = some s → EntryFits t pre a := by
        intro pre a post hsplit s hg hs
        obtain ⟨u, s', hu, hs', hag⟩ := hall pre a post hsplit
        obtain rfl : s = u := Option.some.inj (hs.symm.trans hu)
        exact (entryAgrees_iff hd hsplit hg).mp ⟨s', hs', hag⟩
      refine ⟨hc, fun pre a post hsplit => ?_⟩
      obtain ⟨s, hs, hg⟩ := gsisAt_run (t := t) t.entries (fun pre a post hsp s hg hs => by
        obtain ⟨u, s', hu, hs', -⟩ := hall pre a post hsp
        obtain rfl : s = u := Option.some.inj (hs.symm.trans hu)
        exact ⟨s', hs', hg.irqAssign hd (hfit pre a post hsp s hg hs) hs'⟩) pre _ hsplit
      exact hfit pre a post hsplit s hg hs
    · rw [if_neg hc] at hinit
      cases hinit
  · intro hfit
    have hrun := gsisAt_run (t := t) t.entries fun pre a post hsp s hg hs => by
      obtain ⟨s', hs', -⟩ := (entryAgrees_iff hd hsp hg).mpr (hfit.entries pre a post hsp)
      exact ⟨s', hs', hg.irqAssign hd (hfit.entries pre a post hsp) hs'⟩
    obtain ⟨st, hst, -⟩ := hrun t.entries [] (List.append_nil _).symm
    refine ⟨t.ioapics, st, ?_, fun pre a post hsplit => ?_⟩
    · rw [apicInitMp_eq, if_pos hfit.counted, hst, Option.map_some]
    · obtain ⟨s, hs, hg⟩ := hrun pre _ hsplit
      obtain ⟨s', hs', hag⟩ := (entryAgrees_iff hd hsplit hg).mpr (hfit.entries pre a post hsplit)
      exact ⟨s, s', hs, hs', hag⟩

/-- One IOAPIC of 24 inputs and one interrupt of the bus 0. -/
def oneInterrupt (bus id : UInt8) (a : IrqAssign) : MpTables where
  entries := [.ioapic id, .irqAssign a]
  mpBusid := [bus]
  ioapicVer := fun _ => 0x170011
  bspApicId := 0

/-- Device 1 of a PCI bus, whose source number 4 is also the number of its GSI. -/
theorem routes_alike_iff_sample :
    (RoutesAlike (oneInterrupt mpBusPci 0 ⟨0, 0, 0, 4, 0, 4⟩) ↔
      TableFits (oneInterrupt mpBusPci 0 ⟨0, 0, 0, 4, 0, 4⟩)) ∧
    TableFits (oneInterrupt mpBusPci 0 ⟨0, 0, 0, 4, 0, 4⟩) := by
  refine ⟨routes_alike_iff (by decide), by decide, fun pre a post hsplit => ?_⟩
  rcases pre with _ | ⟨e, _ | ⟨e', pre⟩⟩
  · simp [oneInterrupt] at hsplit
  · simp only [oneInterrupt, List.cons_append, List.nil_append, List.cons.injEq, MpEntry.irqAssign.injEq] at hsplit
    obtain ⟨rfl, rfl, rfl⟩ := hsplit
    exact ⟨by decide, by decide, fun h => absurd h (by decide), fun _ _ => by decide⟩
  · simp [oneInterrupt] at hsplit

/-- The keyboard interrupt of a machine whose only IOAPIC has the ID 2: the record with the index 2 is not in
the table. -/
theorem apic_init_indexes_by_id :
    ((oneInterrupt mpBusIsa 2 ⟨0, 0, 0, 1, 2, 1⟩).entries.filterMap MpEntry.ioapicId?).Nodup ∧
    (∀ a, MpEntry.irqAssign a ∈ (oneInterrupt mpBusIsa 2 ⟨0, 0, 0, 1, 2, 1⟩).entries →
      MpEntry.ioapic a.idDest ∈ (oneInterrupt mpBusIsa 2 ⟨0, 0, 0, 1, 2, 1⟩).entries) ∧
    ¬ RoutesAlike (oneInterrupt mpBusIsa 2 ⟨0, 0, 0, 1, 2, 1⟩) := by
  refine ⟨by decide, fun a ha => ?_, ?_⟩
  · simp only [oneInterrupt, List.mem_cons, reduceCtorEq, MpEntry.irqAssign.injEq, List.not_mem_nil, or_false,
      false_or] at ha
    subst ha
    exact List.mem_cons_self
  · rintro ⟨info, st, hinit, -⟩
    rw [apicInitMp_eq, if_pos (by decide)] at hinit
    cases hinit

end SysX
