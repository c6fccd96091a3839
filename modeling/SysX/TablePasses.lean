import SysX.Madt

/-!
The first two passes of `apic_init` over a MADT or an MP configuration table: the first one counts the records of processors
and of IOAPICs, and the second one stores them in tables of these sizes.
-/
namespace SysX

/-! The passes over an MP configuration table. -/

/-- The first pass, which ends at an entry of an unknown type. -/
def mpCounts (lapicBase : ℕ) (entries : List MpEntry) : ApicCounts :=
  ⟨apicCount MpEntry.isEnabledCpu entries, apicCount MpEntry.isIoapic entries, lapicBase⟩

/-- The second pass, which does not. The GSI bases are not known yet. -/
def mpStoreEntry (hw : ApicHardware) : MpEntry → Comp ApicTables Bool
  | .cpu apicId flags =>
    if flags.toNat.testBit 0 then do
      let cpuI ← Comp.read (·.cpus.length)
      storeCpu hw cpuI apicId
      pure true
    else pure true
  | .ioapic apicId => storeIoapic hw apicId 0
  | _ => pure true

def mpStore (hw : ApicHardware) (entries : List MpEntry) : Comp ApicTables Bool := visitAll (mpStoreEntry hw) entries

/-- The tables before the second pass. -/
def ApicTables.start : ApicTables := ⟨[], [], none, 0⟩

/-! What the second pass makes of an entry, in either table. -/

inductive StoreItem
  | cpu (cpuId : Option ℕ) (apicId : UInt8)
  | ioapic (id gsiBase : UInt8)
  | skip
deriving DecidableEq

def MadtEntry.item (e : MadtEntry) : StoreItem :=
  match e with
  | .cpuLapic cpuId apicId _ => if e.usableCpu = true then .cpu (some cpuId.toNat) apicId else .skip
  | .ioapic ioapicId _ gsiBase => .ioapic ioapicId (UInt8.ofNat gsiBase)
  | _ => .skip

def MpEntry.item : MpEntry → StoreItem
  | .cpu apicId flags => if flags.toNat.testBit 0 then .cpu none apicId else .skip
  | .ioapic apicId => .ioapic apicId 0
  | _ => .skip

def StoreItem.isCpu : StoreItem → Bool
  | .cpu .. => true
  | _ => false

def StoreItem.isIoapic : StoreItem → Bool
  | .ioapic .. => true
  | _ => false

/-- The records of the IOAPICs among the items, from number `i` on. -/
def itemIoapics (ver : ℕ → ℕ) : (i : ℕ) → List StoreItem → List IoapicInfo
  | _, [] => []
  | i, .ioapic id gsiBase :: items => ⟨id, gsiBase, ioapicInputs (ver i)⟩ :: itemIoapics ver (i + 1) items
  | i, _ :: items => itemIoapics ver i items

/-- The records of the processors among the items, from number `i` on, which is the ID where none is given. -/
def itemCpus : (i : ℕ) → List StoreItem → List ApicCpuInfo
  | _, [] => []
  | i, .cpu cpuId apicId :: items => ⟨cpuId.getD i, apicId⟩ :: itemCpus (i + 1) items
  | i, _ :: items => itemCpus i items

/-- The pass stays within the two tables, and unless it gives up it stores the records of the items. -/
def StoresExactly (hw : ApicHardware) (items : List StoreItem) (store : Comp ApicTables Bool) : Prop :=
  ∃ done u, store .start = some (done, u) ∧ u.info.length ≤ hw.counts.ioapicCnt ∧ u.cpus.length ≤ hw.counts.cpuCnt ∧
    (done = true → u.info.length = hw.counts.ioapicCnt ∧ u.cpus.length = hw.counts.cpuCnt ∧
      u.info = itemIoapics hw.ioapicVer 0 items ∧ u.cpus = itemCpus 0 items)

/-- When the first pass has come to its end, the second one stores what that has counted. -/
def MadtAgrees (t : Madt) : Prop :=
  ∀ fuel lapicBase counts, madtCount t fuel ⟨0, 0, lapicBase⟩ = some (true, counts) →
    ∃ es, t.Visits t.firstEntry es ∧ ∀ hw : ApicHardware, hw.counts = counts →
      StoresExactly hw ((es.map t.entry).map MadtEntry.item) (madtStore t hw fuel)

/-- The entries in front of the first one of an unknown type. -/
def beforeUnknown : List MpEntry → List MpEntry
  | [] => []
  | .unknown _ :: _ => []
  | e :: es => e :: beforeUnknown es

/-- The second pass stores what the first one has counted. -/
def MpAgrees (entries : List MpEntry) : Prop :=
  ∀ hw : ApicHardware, (∃ lapicBase, hw.counts = mpCounts lapicBase entries) →
    StoresExactly hw ((beforeUnknown entries).map MpEntry.item) (mpStore hw entries)

/-- No IOAPIC and no enabled processor stands behind an entry of an unknown type. -/
def AllCounted (entries : List MpEntry) : Prop :=
  ∀ e ∈ behindUnknown entries, e.isIoapic = false ∧ e.isEnabledCpu = false

section Items

variable {hw : ApicHardware} {items : List StoreItem} {u : ApicTables}

def storeItem (hw : ApicHardware) : StoreItem → Comp ApicTables Bool
  | .cpu cpuId apicId => do
    let cpuI ← Comp.read (·.cpus.length)
    storeCpu hw (cpuId.getD cpuI) apicId
    pure true
  | .ioapic id gsiBase => storeIoapic hw id gsiBase
  | .skip => pure true

theorem madtStoreEntry_eq (e : MadtEntry) : madtStoreEntry hw e = storeItem hw e.item := by
  cases e with
  | cpuLapic cpuId apicId flags =>
    rw [madtStoreEntry, MadtEntry.item]
    split_ifs
    · rfl
    · rfl
  | ioapic | ioapicSrcOverride | ioapicNmi | lapicNmi | lapicBaseOverride | other => rfl

theorem mpStoreEntry_eq (e : MpEntry) : mpStoreEntry hw e = storeItem hw e.item := by
  cases e with
  | cpu apicId flags =>
    rw [mpStoreEntry, MpEntry.item]
    split_ifs
    · rfl
    · rfl
  | bus | ioapic | irqAssign | lintAssign | unknown => rfl

theorem visitAll_map {σ α β : Type} {visit : α → Comp σ Bool} {visit' : β → Comp σ Bool} {f : α → β}
    (h : ∀ a, visit a = visit' (f a)) (as : List α) : visitAll visit as = visitAll visit' (as.map f) := by
  induction as with
  | nil => rfl
  | cons a as ih => rw [visitAll, List.map_cons, visitAll, h, ih]

theorem countP_cpu (cpuId : Option ℕ) (apicId : UInt8) (items : List StoreItem) :
    (StoreItem.cpu cpuId apicId :: items).countP StoreItem.isCpu = items.countP StoreItem.isCpu + 1 ∧
      (StoreItem.cpu cpuId apicId :: items).countP StoreItem.isIoapic = items.countP StoreItem.isIoapic :=
  ⟨List.countP_cons_of_pos rfl, List.countP_cons_of_neg Bool.false_ne_true⟩

theorem countP_ioapic (id gsiBase : UInt8) (items : List StoreItem) :
    (StoreItem.ioapic id gsiBase :: items).countP StoreItem.isIoapic = items.countP StoreItem.isIoapic + 1 ∧
      (StoreItem.ioapic id gsiBase :: items).countP StoreItem.isCpu = items.countP StoreItem.isCpu :=
  ⟨List.countP_cons_of_pos rfl, List.countP_cons_of_neg Bool.false_ne_true⟩

theorem length_itemIoapics (ver : ℕ → ℕ) (i : ℕ) : (itemIoapics ver i items).length = items.countP StoreItem.isIoapic := by
  induction items generalizing i with
  | nil => rfl
  | cons item items ih => cases item <;> simp [itemIoapics, StoreItem.isIoapic, List.countP_cons, ih]

theorem length_itemCpus (i : ℕ) : (itemCpus i items).length = items.countP StoreItem.isCpu := by
  induction items generalizing i with
  | nil => rfl
  | cons item items ih => cases item <;> simp [itemCpus, StoreItem.isCpu, List.countP_cons, ih]

/-- The tables with another processor. -/
def ApicTables.addCpu (u : ApicTables) (hw : ApicHardware) (cpuId : ℕ) (apicId : UInt8) : ApicTables :=
  { u with cpus := u.cpus ++ [⟨cpuId, apicId⟩], bspIdx := if apicId = hw.bspApicId then some u.cpus.length else u.bspIdx }

/-- The tables with another IOAPIC. -/
def ApicTables.addIoapic (u : ApicTables) (hw : ApicHardware) (id gsiBase : UInt8) : ApicTables :=
  let inputs := ioapicInputs (hw.ioapicVer u.info.length)
  { u with info := u.info ++ [⟨id, gsiBase, inputs⟩], maxGsis := max u.maxGsis (gsiBase.toNat + inputs.toNat) }

theorem storeCpu_apply (cpuId : ℕ) (apicId : UInt8) : storeCpu hw cpuId apicId u =
    if u.cpus.length < hw.counts.cpuCnt then some ((), u.addCpu hw cpuId apicId) else none := by
  rw [storeCpu, Comp.read_bind]
  by_cases h : u.cpus.length < hw.counts.cpuCnt
  · rw [if_pos h, if_pos h]
    rfl
  · rw [if_neg h, if_neg h]
    rfl

theorem storeItem_cpu (hw : ApicHardware) (u : ApicTables) (cpuId : Option ℕ) (apicId : UInt8) :
    storeItem hw (.cpu cpuId apicId) u = if u.cpus.length < hw.counts.cpuCnt then
      some (true, u.addCpu hw (cpuId.getD u.cpus.length) apicId) else none := by
  rw [storeItem, Comp.read_bind, Comp.bind_apply, storeCpu_apply]
  split_ifs <;> rfl

theorem storeItem_ioapic (hw : ApicHardware) (u : ApicTables) (id gsiBase : UInt8) : storeItem hw (.ioapic id gsiBase) u =
    if u.info.length < hw.counts.ioapicCnt then
      if hw.mapped u.info.length then some (true, u.addIoapic hw id gsiBase) else some (false, u)
    else none := by
  rw [storeItem, storeIoapic, Comp.read_bind]
  split_ifs <;> rfl

/-- The second pass over items that the tables have room for. -/
theorem storeItems_fit (hio : u.info.length + items.countP StoreItem.isIoapic ≤ hw.counts.ioapicCnt)
    (hcpu : u.cpus.length + items.countP StoreItem.isCpu ≤ hw.counts.cpuCnt) :
    ∃ done v, visitAll (storeItem hw) items u = some (done, v) ∧ v.info.length ≤ hw.counts.ioapicCnt ∧
      v.cpus.length ≤ hw.counts.cpuCnt ∧ (done = true →
        v.info = u.info ++ itemIoapics hw.ioapicVer u.info.length items ∧ v.cpus = u.cpus ++ itemCpus u.cpus.length items) := by
  induction items generalizing u with
  | nil =>
    refine ⟨true, u, rfl, hio, hcpu, fun _ => ⟨?_, ?_⟩⟩
    · rw [itemIoapics, List.append_nil]
    · rw [itemCpus, List.append_nil]
  | cons item items ih =>
    cases item with
    | cpu cpuId apicId =>
      obtain ⟨hcount, hsame⟩ := countP_cpu cpuId apicId items
      rw [hcount] at hcpu
      rw [hsame] at hio
      have hlen : (u.addCpu hw (cpuId.getD u.cpus.length) apicId).cpus.length = u.cpus.length + 1 := List.length_append
      have hstep := storeItem_cpu hw u cpuId apicId
      rw [if_pos (by omega)] at hstep
      obtain ⟨done, v, hrun, hinfo, hcpus, hdone⟩ := ih (u := u.addCpu hw (cpuId.getD u.cpus.length) apicId) hio (by omega)
      refine ⟨done, v, ?_, hinfo, hcpus, fun h => ?_⟩
      · rw [visitAll, Comp.bind_of_eq hstep]
        exact hrun
      · obtain ⟨hi, hc⟩ := hdone h
        rw [hlen] at hc
        refine ⟨hi, hc.trans ?_⟩
        rw [itemCpus]
        exact List.append_assoc _ _ _
    | ioapic id gsiBase =>
      obtain ⟨hcount, hsame⟩ := countP_ioapic id gsiBase items
      rw [hcount] at hio
      rw [hsame] at hcpu
      have hlen : (u.addIoapic hw id gsiBase).info.length = u.info.length + 1 := List.length_append
      have hstep := storeItem_ioapic hw u id gsiBase
      rw [if_pos (by omega)] at hstep
      by_cases hmap : hw.mapped u.info.length = true
      · rw [if_pos hmap] at hstep
        obtain ⟨done, v, hrun, hinfo, hcpus, hdone⟩ := ih (u := u.addIoapic hw id gsiBase) (by omega) hcpu
        refine ⟨done, v, ?_, hinfo, hcpus, fun h => ?_⟩
        · rw [visitAll, Comp.bind_of_eq hstep]
          exact hrun
        · obtain ⟨hi, hc⟩ := hdone h
          rw [hlen] at hi
          refine ⟨hi.trans ?_, hc⟩
          rw [itemIoapics]
          exact List.append_assoc _ _ _
      · rw [if_neg hmap] at hstep
        refine ⟨false, u, ?_, by omega, by omega, fun h => absurd h Bool.false_ne_true⟩
        rw [visitAll, Comp.bind_of_eq hstep]
        rfl
    | skip => exact ih hio hcpu

/-- The second pass over items that one of the tables has no room for. -/
theorem storeItems_overflow (hmap : ∀ i, hw.mapped i = true) (hinfo : u.info.length ≤ hw.counts.ioapicCnt)
    (hcpus : u.cpus.length ≤ hw.counts.cpuCnt)
    (hover : hw.counts.ioapicCnt < u.info.length + items.countP StoreItem.isIoapic ∨
      hw.counts.cpuCnt < u.cpus.length + items.countP StoreItem.isCpu) : visitAll (storeItem hw) items u = none := by
  induction items generalizing u with
  | nil =>
    rw [List.countP_nil, List.countP_nil] at hover
    omega
  | cons item items ih =>
    cases item with
    | cpu cpuId apicId =>
      obtain ⟨hcount, hsame⟩ := countP_cpu cpuId apicId items
      rw [hcount, hsame] at hover
      have hlen : (u.addCpu hw (cpuId.getD u.cpus.length) apicId).cpus.length = u.cpus.length + 1 := List.length_append
      have hstep := storeItem_cpu hw u cpuId apicId
      rw [visitAll, Comp.bind_apply, hstep]
      split_ifs with hlt
      · exact ih (u := u.addCpu hw (cpuId.getD u.cpus.length) apicId) hinfo (by omega) (hover.imp_right (by omega))
      · rfl
    | ioapic id gsiBase =>
      obtain ⟨hcount, hsame⟩ := countP_ioapic id gsiBase items
      rw [hcount, hsame] at hover
      have hlen : (u.addIoapic hw id gsiBase).info.length = u.info.length + 1 := List.length_append
      have hstep := storeItem_ioapic hw u id gsiBase
      rw [if_pos (hmap _)] at hstep
      rw [visitAll, Comp.bind_apply, hstep]
      split_ifs with hlt
      · exact ih (u := u.addIoapic hw id gsiBase) (by omega) hcpus (hover.imp_left (by omega))
      · rfl
    | skip => exact ih hinfo hcpus hover

/-- Tables of the right size take up all items. -/
theorem storesExactly_of_counts {store : Comp ApicTables Bool} {all : List StoreItem}
    (hstore : store = visitAll (storeItem hw) all) (hio : hw.counts.ioapicCnt = items.countP StoreItem.isIoapic)
    (hcpu : hw.counts.cpuCnt = items.countP StoreItem.isCpu) (hinfo : ∀ ver, itemIoapics ver 0 all = itemIoapics ver 0 items)
    (hcpus : itemCpus 0 all = itemCpus 0 items) : StoresExactly hw items store := by
  have hallio : all.countP StoreItem.isIoapic = items.countP StoreItem.isIoapic := by
    rw [← length_itemIoapics hw.ioapicVer 0, hinfo, length_itemIoapics]
  have hallcpu : all.countP StoreItem.isCpu = items.countP StoreItem.isCpu := by
    rw [← length_itemCpus 0, hcpus, length_itemCpus]
  obtain ⟨done, v, hrun, hi, hc, hdone⟩ := @storeItems_fit hw all .start
    (by rw [hio, hallio]; exact (Nat.zero_add _).le) (by rw [hcpu, hallcpu]; exact (Nat.zero_add _).le)
  refine ⟨done, v, hstore ▸ hrun, hi, hc, fun h => ?_⟩
  obtain ⟨hvi, hvc⟩ := hdone h
  have hvi' : v.info = itemIoapics hw.ioapicVer 0 items := hvi.trans (hinfo _)
  have hvc' : v.cpus = itemCpus 0 items := hvc.trans hcpus
  exact ⟨by rw [hvi', length_itemIoapics, hio], by rw [hvc', length_itemCpus, hcpu], hvi', hvc'⟩

end Items

/-! The MADT. -/

section MadtPasses

variable {t : Madt} {s s' : ApicCounts}

/-- The first pass never gives up, and what it counts are the items. -/
theorem madtCountEntry_eq (e : MadtEntry) : ∃ base, madtCountEntry e s = some (true,
    ⟨s.cpuCnt + (if e.item.isCpu then 1 else 0), s.ioapicCnt + (if e.item.isIoapic then 1 else 0), base⟩) := by
  cases e with
  | cpuLapic cpuId apicId flags =>
    by_cases h : (MadtEntry.cpuLapic cpuId apicId flags).usableCpu = true
    · refine ⟨s.lapicBase, ?_⟩
      rw [madtCountEntry, MadtEntry.item, if_pos h]
      simp only [Comp.when_true h]
      rfl
    · refine ⟨s.lapicBase, ?_⟩
      rw [madtCountEntry, MadtEntry.item, if_neg h]
      simp only [Comp.when_false h]
      rfl
  | ioapic => exact ⟨s.lapicBase, rfl⟩
  | lapicBaseOverride base => exact ⟨w32 base, rfl⟩
  | ioapicSrcOverride | ioapicNmi | lapicNmi | other => exact ⟨s.lapicBase, rfl⟩

/-- A first pass that comes to its end has counted the entries of the walk. -/
theorem madtCount_eq_some {fuel e : ℕ} (h : madtWalk t madtCountEntry fuel e s = some (true, s')) :
    ∃ es, t.Visits e es ∧ es.length < fuel ∧
      s'.cpuCnt = s.cpuCnt + ((es.map t.entry).map MadtEntry.item).countP StoreItem.isCpu ∧
      s'.ioapicCnt = s.ioapicCnt + ((es.map t.entry).map MadtEntry.item).countP StoreItem.isIoapic := by
  induction fuel generalizing e s with
  | zero => cases h
  | succ fuel ih =>
    rw [madtWalk] at h
    by_cases hgo : e < t.stop
    · rw [if_pos hgo] at h
      obtain ⟨base, hstep⟩ := madtCountEntry_eq (s := s) (t.entry e)
      rw [Comp.bind_of_eq hstep] at h
      obtain ⟨es, hes, hlen, hcpu, hio⟩ := ih h
      dsimp only at hcpu hio
      refine ⟨e :: es, .step (not_not_intro hgo) rfl hes, Nat.succ_lt_succ hlen, ?_, ?_⟩
      · rw [hcpu, List.map_cons, List.map_cons, List.countP_cons]
        omega
      · rw [hio, List.map_cons, List.map_cons, List.countP_cons]
        omega
    · rw [if_neg hgo] at h
      obtain rfl : s = s' := (Prod.mk.inj (Option.some.inj h)).2
      exact ⟨[], .done hgo, Nat.succ_pos _, rfl, rfl⟩

theorem madtAgrees (t : Madt) : MadtAgrees t := by
  intro fuel lapicBase counts h
  obtain ⟨es, hes, hlen, hcpu, hio⟩ := madtCount_eq_some h
  refine ⟨es, hes, fun hw hcounts => ?_⟩
  refine storesExactly_of_counts ?_ ?_ ?_ (fun _ => rfl) rfl
  · rw [madtStore, madtWalk_eq _ hes hlen, visitAll_map madtStoreEntry_eq]
  · rw [hcounts, hio, Nat.zero_add]
  · rw [hcounts, hcpu, Nat.zero_add]

end MadtPasses

/-! The MP configuration table. -/

section MpPasses

variable {hw : ApicHardware} {entries : List MpEntry}

theorem countP_item (entries : List MpEntry) :
    (entries.map MpEntry.item).countP StoreItem.isIoapic = entries.countP MpEntry.isIoapic ∧
      (entries.map MpEntry.item).countP StoreItem.isCpu = entries.countP MpEntry.isEnabledCpu := by
  have hitem : ∀ e : MpEntry, e.item.isIoapic = e.isIoapic ∧ e.item.isCpu = e.isEnabledCpu := by
    intro e
    cases e with
    | cpu apicId flags =>
      rw [MpEntry.item]
      split_ifs with hflag
      · exact ⟨rfl, hflag.symm⟩
      · exact ⟨rfl, (Bool.eq_false_of_not_eq_true hflag).symm⟩
    | bus | ioapic | irqAssign | lintAssign | unknown => exact ⟨rfl, rfl⟩
  rw [List.countP_map, List.countP_map]
  exact ⟨List.countP_congr fun e _ => by rw [Function.comp_apply, (hitem e).1],
    List.countP_congr fun e _ => by rw [Function.comp_apply, (hitem e).2]⟩

/-- The first pass counts the entries in front of the first one of an unknown type. -/
theorem apicCount_eq (counts : MpEntry → Bool) (entries : List MpEntry) :
    apicCount counts entries = (beforeUnknown entries).countP counts := by
  induction entries with
  | nil => rfl
  | cons e es ih =>
    cases e with
    | unknown => rfl
    | cpu | bus | ioapic | irqAssign | lintAssign =>
      show (if counts _ then 1 else 0) + apicCount counts es = (_ :: beforeUnknown es).countP counts
      rw [List.countP_cons, ih, Nat.add_comm]

/-- Entries that need no record are passed over. -/
theorem records_skip (h : ∀ e ∈ entries, e.isIoapic = false ∧ e.isEnabledCpu = false) :
    (∀ ver i, itemIoapics ver i (entries.map MpEntry.item) = []) ∧ ∀ i, itemCpus i (entries.map MpEntry.item) = [] := by
  have hio : (entries.map MpEntry.item).countP StoreItem.isIoapic = 0 := by
    rw [(countP_item entries).1, List.countP_eq_zero]
    exact fun e he => Bool.eq_false_iff.mp (h e he).1
  have hcpu : (entries.map MpEntry.item).countP StoreItem.isCpu = 0 := by
    rw [(countP_item entries).2, List.countP_eq_zero]
    exact fun e he => Bool.eq_false_iff.mp (h e he).2
  constructor
  · intro ver i
    exact List.length_eq_zero_iff.mp ((length_itemIoapics ver i).trans hio)
  · intro i
    exact List.length_eq_zero_iff.mp ((length_itemCpus i).trans hcpu)

/-- The records of the counted entries are all records. -/
theorem records_beforeUnknown (h : AllCounted entries) :
    (∀ ver i, itemIoapics ver i (entries.map MpEntry.item) = itemIoapics ver i ((beforeUnknown entries).map MpEntry.item)) ∧
      ∀ i, itemCpus i (entries.map MpEntry.item) = itemCpus i ((beforeUnknown entries).map MpEntry.item) := by
  induction entries with
  | nil => exact ⟨fun _ _ => rfl, fun _ => rfl⟩
  | cons e es ih =>
    cases e with
    | unknown type => exact @records_skip es h
    | ioapic apicId =>
      obtain ⟨hio, hcpu⟩ := ih h
      exact ⟨fun ver i => congrArg (_ :: ·) (hio ver (i + 1)), hcpu⟩
    | cpu apicId flags =>
      obtain ⟨hio, hcpu⟩ := ih h
      have hitem : (MpEntry.cpu apicId flags).item = .cpu none apicId ∨ (MpEntry.cpu apicId flags).item = .skip := by
        rw [MpEntry.item]
        split_ifs
        · exact .inl rfl
        · exact .inr rfl
      have hbefore : beforeUnknown (.cpu apicId flags :: es) = .cpu apicId flags :: beforeUnknown es := rfl
      rw [hbefore, List.map_cons, List.map_cons]
      rcases hitem with hitem | hitem
      · rw [hitem]
        exact ⟨hio, fun i => congrArg (_ :: ·) (hcpu (i + 1))⟩
      · rw [hitem]
        exact ⟨hio, hcpu⟩
    | bus | irqAssign | lintAssign => exact ih h

/-- A hardware on which each IOAPIC can be mapped. -/
def mappedHardware (entries : List MpEntry) : ApicHardware := ⟨mpCounts 0 entries, 0, fun _ => true, fun _ => 0⟩

/-- One entry that is not counted is enough for the second pass to leave its tables. -/
theorem mpStore_overflow {e : MpEntry} (he : e ∈ behindUnknown entries) (hrec : e.isIoapic = true ∨ e.isEnabledCpu = true) :
    mpStore (mappedHardware entries) entries .start = none := by
  have hio := apicCount_add MpEntry.isIoapic (fun _ => rfl) entries
  have hcpu := apicCount_add MpEntry.isEnabledCpu (fun _ => rfl) entries
  obtain ⟨hcio, hccpu⟩ := countP_item entries
  rw [mpStore, visitAll_map mpStoreEntry_eq]
  refine storeItems_overflow (fun _ => rfl) (Nat.zero_le _) (Nat.zero_le _) ?_
  rcases hrec with hrec | hrec
  · left
    have hpos : 0 < (behindUnknown entries).countP MpEntry.isIoapic := List.countP_pos_iff.mpr ⟨e, he, hrec⟩
    show apicCount MpEntry.isIoapic entries < 0 + _
    omega
  · right
    have hpos : 0 < (behindUnknown entries).countP MpEntry.isEnabledCpu := List.countP_pos_iff.mpr ⟨e, he, hrec⟩
    show apicCount MpEntry.isEnabledCpu entries < 0 + _
    omega

theorem mpAgrees_iff (entries : List MpEntry) : MpAgrees entries ↔ AllCounted entries := by
  constructor
  · intro h e he
    obtain ⟨done, u, hrun, -⟩ := h (mappedHardware entries) ⟨0, rfl⟩
    constructor
    · by_contra hio
      rw [mpStore_overflow he (.inl (Bool.eq_true_of_not_eq_false hio))] at hrun
      cases hrun
    · by_contra hcpu
      rw [mpStore_overflow he (.inr (Bool.eq_true_of_not_eq_false hcpu))] at hrun
      cases hrun
  · rintro h hw ⟨lapicBase, hcounts⟩
    obtain ⟨hio, hcpu⟩ := records_beforeUnknown h
    obtain ⟨hcio, hccpu⟩ := countP_item (beforeUnknown entries)
    refine storesExactly_of_counts (visitAll_map mpStoreEntry_eq _) ?_ ?_ (fun ver => hio ver 0) (hcpu 0)
    · rw [hcounts, hcio, ← apicCount_eq]
      rfl
    · rw [hcounts, hccpu, ← apicCount_eq]
      rfl

end MpPasses

/-- The second pass over a MADT always stores what the first one has counted; that over an MP configuration table does so
when no IOAPIC and no enabled processor stands behind an entry of an unknown type. -/
theorem two_passes_iff (t : Madt) (entries : List MpEntry) :
    MadtAgrees t ∧ (MpAgrees entries ↔ AllCounted entries) := ⟨madtAgrees t, mpAgrees_iff entries⟩

/-- The first pass misses an IOAPIC behind an entry of an unknown type, and its record is stored all the same. -/
theorem mp_passes_unknown : ¬ MpAgrees [.unknown 5, .ioapic 1] := by
  intro h
  obtain ⟨done, u, hrun, -⟩ := h (mappedHardware [.unknown 5, .ioapic 1]) ⟨0, rfl⟩
  have hover : mpStore (mappedHardware [.unknown 5, .ioapic 1]) [.unknown 5, .ioapic 1] .start = none :=
    mpStore_overflow List.mem_cons_self (.inl rfl)
  rw [hover] at hrun
  cases hrun

end SysX
