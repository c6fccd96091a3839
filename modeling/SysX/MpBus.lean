import SysX.Lib.Largest
import SysX.Lib.PrefixChain
import SysX.MpRouting

/-!
The table of bus types that `mp_init` (`arch/x86/mptab.c`) builds from the bus entries of an MP configuration table. The
memory for it is granted.
-/
namespace SysX

/-- The entries of the table: the bytes from `mp_cfg->first_entry` on, and `base_cnt`. -/
structure MpCfg where
  bytes : ℕ → UInt8
  baseCnt : UInt16

/-- `entry->data.bus` -/
structure MpBus where
  busId : UInt8
  typeStr : List UInt8
deriving DecidableEq

def mpEtypeBus : UInt8 := 1

def mpBusCbus : UInt8 := 1
def mpBusCbus2 : UInt8 := 2

namespace MpCfg

def entryType (c : MpCfg) (entry : ℕ) : UInt8 := c.bytes entry

def bus (c : MpCfg) (entry : ℕ) : MpBus := ⟨c.bytes (entry + 1), (List.range 6).map fun i => c.bytes (entry + 2 + i)⟩

/-- `entry->data.irq_assign.bus_src` -/
def busSrc (c : MpCfg) (entry : ℕ) : UInt8 := c.bytes (entry + 4)

def next (c : MpCfg) (entry : ℕ) : ℕ := entry + if c.entryType entry ≠ 0 then 8 else 20

end MpCfg

/-- The names with their types, in the order of the comparisons. -/
def mpBusNames : List (List UInt8 × UInt8) :=
  [([80, 67, 73], mpBusPci), -- PCI
    ([73, 83, 65], mpBusIsa), -- ISA
    ([80, 67, 77, 67, 73, 65], 14), -- PCMCIA
    ([69, 73, 83, 65], mpBusEisa), -- EISA
    ([73, 78, 84, 69, 82, 78], 5), -- INTERN
    ([86, 76], 16), -- VL
    ([77, 67, 65], 9), -- MCA
    ([67, 66, 85, 83], mpBusCbus), -- CBUS
    ([67, 66, 85, 83, 73, 73], mpBusCbus2), -- CBUSII
    ([70, 85, 84, 85, 82, 69], 4), -- FUTURE
    ([77, 66, 73, 73], 8), -- MBII
    ([77, 66, 73], 7), -- MBI
    ([77, 80, 73], 10), -- MPI
    ([77, 80, 83, 65], 11), -- MPSA
    ([78, 85, 66, 85, 83], 12), -- NUBUS
    ([84, 67], 15), -- TC
    ([86, 77, 69], 17), -- VME
    ([88, 80, 82, 69, 83, 83], 18)] -- XPRESS

/-- The chain of `memcmp` calls. -/
def mpBusType (typeStr : List UInt8) : Option UInt8 := (firstPrefix mpBusNames typeStr).map Prod.snd

/-- The loop that looks for the largest ID, from an entry on. -/
def mpBusidMax (c : MpCfg) : (n entry : ℕ) → (cnt : ℤ) → ℤ
  | 0, _, cnt => cnt
  | n + 1, entry, cnt =>
    mpBusidMax c n (c.next entry)
      (if c.entryType entry = mpEtypeBus ∧ cnt < (c.busSrc entry).toNat then (c.busSrc entry).toNat else cnt)

/-- `mp_busid[entry->data.bus.bus_id] = ...`, where the type is known. The result is `none` beyond the table. -/
def mpBusidStore (busid : List UInt8) (b : MpBus) : Option (List UInt8) :=
  match mpBusType b.typeStr with
  | some type => if b.busId.toNat < busid.length then some (busid.set b.busId.toNat type) else none
  | none => some busid

/-- The loop that stores the types. -/
def mpBusidFill (c : MpCfg) : (n entry : ℕ) → (busid : List UInt8) → Option (List UInt8)
  | 0, _, busid => some busid
  | n + 1, entry, busid =>
    if c.entryType entry = mpEtypeBus then
      (mpBusidStore busid (c.bus entry)).bind (mpBusidFill c n (c.next entry))
    else mpBusidFill c n (c.next entry) busid

/-- `mp_busid_cnt` and `mp_busid`. The table comes from `kcalloc`. -/
def mpInit (c : MpCfg) : Option (ℤ × List UInt8) :=
  let cnt := mpBusidMax c c.baseCnt.toNat 0 (-1) + 1
  if cnt ≠ 0 then (mpBusidFill c c.baseCnt.toNat 0 (List.replicate cnt.toNat 0)).map fun busid => (cnt, busid)
  else some (cnt, [])

/-! What the table should hold. -/

/-- The bus entries of the table in their order. -/
def MpCfg.busesFrom (c : MpCfg) : (n entry : ℕ) → List MpBus
  | 0, _ => []
  | n + 1, entry =>
    if c.entryType entry = mpEtypeBus then c.bus entry :: c.busesFrom n (c.next entry) else c.busesFrom n (c.next entry)

def MpCfg.buses (c : MpCfg) : List MpBus := c.busesFrom c.baseCnt.toNat 0

/-- One more than the largest of the numbers. -/
def boundOf (ids : List ℕ) : ℕ := largest (ids.map (· + 1))

/-- `mp_busid_cnt` as it should be. -/
def MpCfg.idBound (c : MpCfg) : ℕ := boundOf (c.buses.map (·.busId.toNat))

/-- The type by the longest name that the six characters start with. -/
def MpBus.type (b : MpBus) : Option UInt8 := (longestPrefix mpBusNames b.typeStr).map Prod.snd

/-- The last entry for the bus whose name is known. -/
def lastKnown (buses : List MpBus) (id : ℕ) : Option MpBus :=
  (buses.filter fun b => b.busId.toNat = id ∧ b.type.isSome).getLast?

def busType (buses : List MpBus) (id : ℕ) : UInt8 := ((lastKnown buses id).bind MpBus.type).getD mpBusNone

/-- The table has one entry for each ID up to the largest, and in each the type of the bus. -/
def MpCfg.BusTable (c : MpCfg) : Prop :=
  ∃ busid : List UInt8, mpInit c = some ((c.idBound : ℤ), busid) ∧ busid.length = c.idBound ∧
    ∀ id < busid.length, busid[id]? = some (busType c.buses id)

def cbus2Name : List UInt8 := [67, 66, 85, 83, 73, 73]

/-- The third character of a name, which the first loop takes for the ID. -/
def MpBus.thirdChar (b : MpBus) : ℕ := (b.typeStr.getD 2 0).toNat

def MpCfg.charBound (c : MpCfg) : ℕ := boundOf (c.buses.map MpBus.thirdChar)

section Names

variable {w : List UInt8} {b : MpBus}

theorem mpBusNames_ordered : mpBusNames.Pairwise fun p q => p.1 <+: q.1 → q.1 = cbus2Name := by
  decide

theorem mpBusType_eq (h : ¬ cbus2Name <+: w) : mpBusType w = (longestPrefix mpBusNames w).map Prod.snd := by
  have hordered : mpBusNames.Pairwise fun p q => p.1 <+: q.1 → ¬ q.1 <+: w := by
    refine mpBusNames_ordered.imp ?_
    intro p q hname hpre hq
    exact h (hname hpre ▸ hq)
  rw [mpBusType, firstPrefix_eq_longest hordered]

theorem isSome_mpBusType (b : MpBus) : (mpBusType b.typeStr).isSome = b.type.isSome := by
  rw [mpBusType, MpBus.type, Option.isSome_map, Option.isSome_map, isSome_firstPrefix]

theorem eq_cbus2Name (hlen : w.length = 6) (h : cbus2Name <+: w) : w = cbus2Name := (h.eq_of_length hlen.symm).symm

/-- CBUSII is the one name that the chain takes for another. -/
theorem mpBusType_eq_iff (hlen : b.typeStr.length = 6) : mpBusType b.typeStr = b.type ↔ b.typeStr ≠ cbus2Name := by
  constructor
  · intro h heq
    rw [MpBus.type, heq] at h
    exact absurd h (by decide)
  · intro h
    exact mpBusType_eq fun hpre => h (eq_cbus2Name hlen hpre)

end Names

section Passes

variable {c : MpCfg} {buses : List MpBus} {busid : List UInt8} {n entry id : ℕ}

theorem boundOf_cons (i : ℕ) (ids : List ℕ) : boundOf (i :: ids) = max (i + 1) (boundOf ids) := rfl

theorem lt_boundOf {ids : List ℕ} (h : id ∈ ids) : id < boundOf ids := le_largest (List.mem_map_of_mem h)

theorem thirdChar_bus (c : MpCfg) (entry : ℕ) : (c.bus entry).thirdChar = (c.busSrc entry).toNat := rfl

theorem length_typeStr (h : b ∈ c.busesFrom n entry) : b.typeStr.length = 6 := by
  induction n generalizing entry with
  | zero => cases h
  | succ n ih =>
    rw [MpCfg.busesFrom] at h
    split_ifs at h
    · rcases List.mem_cons.mp h with rfl | h
      · rfl
      · exact ih h
    · exact ih h

/-- The first loop bounds the third characters. -/
theorem mpBusidMax_eq (n entry : ℕ) {cnt : ℤ} (hcnt : -1 ≤ cnt) :
    mpBusidMax c n entry cnt + 1 = max (cnt + 1) (boundOf ((c.busesFrom n entry).map MpBus.thirdChar)) := by
  induction n generalizing entry cnt with
  | zero =>
    rw [mpBusidMax, MpCfg.busesFrom]
    have : boundOf (([] : List MpBus).map MpBus.thirdChar) = 0 := rfl
    omega
  | succ n ih =>
    rw [mpBusidMax, MpCfg.busesFrom]
    by_cases hbus : c.entryType entry = mpEtypeBus
    · rw [if_pos hbus, List.map_cons, boundOf_cons, thirdChar_bus]
      by_cases hlt : cnt < (c.busSrc entry).toNat
      · rw [if_pos ⟨hbus, hlt⟩, ih _ (by omega)]
        omega
      · rw [if_neg fun h => hlt h.2, ih _ hcnt]
        omega
    · rw [if_neg fun h => hbus h.1, if_neg hbus, ih _ hcnt]

theorem mpBusidFill_eq (n entry : ℕ) (busid : List UInt8) :
    mpBusidFill c n entry busid = (c.busesFrom n entry).foldlM mpBusidStore busid := by
  induction n generalizing entry busid with
  | zero => rfl
  | succ n ih =>
    rw [mpBusidFill, MpCfg.busesFrom]
    split_ifs
    · rw [List.foldlM_cons]
      exact congrArg _ (funext fun busid => ih _ busid)
    · exact ih _ _

/-- The last entry of a list is the last one for its bus, where its name is known. -/
theorem lastKnown_concat (buses : List MpBus) (b : MpBus) (id : ℕ) : lastKnown (buses ++ [b]) id =
    if b.busId.toNat = id ∧ b.type.isSome then some b else lastKnown buses id := by
  rw [lastKnown, List.filter_append, List.getLast?_append]
  split_ifs with h
  · have hlast : [b].filter (fun b => decide (b.busId.toNat = id ∧ b.type.isSome)) = [b] :=
      List.filter_cons_of_pos (decide_eq_true h)
    rw [hlast]
    rfl
  · have hlast : [b].filter (fun b => decide (b.busId.toNat = id ∧ b.type.isSome)) = [] :=
      List.filter_cons_of_neg fun hd => h (of_decide_eq_true hd)
    rw [hlast]
    rfl

/-- The second loop stays in a table with room for all IDs, and the type of the last known entry is there in the end. -/
theorem mpBusidFill_run (buses : List MpBus) (h : ∀ b ∈ buses, b.busId.toNat < busid.length) :
    ∃ busid', buses.foldlM mpBusidStore busid = some busid' ∧ busid'.length = busid.length ∧ ∀ id < busid.length,
      busid'[id]? = ((lastKnown buses id).map fun b => mpBusType b.typeStr).getD busid[id]? := by
  induction buses using List.reverseRecOn with
  | nil => exact ⟨busid, rfl, rfl, fun id _ => rfl⟩
  | append_singleton buses b ih =>
    obtain ⟨t, hrun, hlen, hget⟩ := ih fun b' hb' => h b' (List.mem_append_left _ hb')
    have hb := h b (List.mem_append_right _ List.mem_cons_self)
    have hsome := isSome_mpBusType b
    rw [List.foldlM_append, hrun]
    cases htype : mpBusType b.typeStr with
    | none =>
      rw [htype] at hsome
      refine ⟨t, ?_, hlen, fun id hid => ?_⟩
      · show mpBusidStore t b >>= pure = _
        rw [mpBusidStore, htype]
        rfl
      · rw [hget id hid, lastKnown_concat, if_neg fun h => Bool.false_ne_true (hsome.trans h.2)]
    | some type =>
      rw [htype] at hsome
      refine ⟨t.set b.busId.toNat type, ?_, by rw [List.length_set, hlen], fun id hid => ?_⟩
      · show mpBusidStore t b >>= pure = _
        rw [mpBusidStore, htype]
        show (if b.busId.toNat < t.length then _ else _) >>= pure = _
        rw [if_pos (hlen ▸ hb)]
        rfl
      · rw [lastKnown_concat]
        by_cases heq : b.busId.toNat = id
        · rw [if_pos ⟨heq, hsome.symm⟩, heq, List.getElem?_set_self (hlen ▸ hid)]
          exact htype.symm
        · rw [if_neg fun h => heq h.1, List.getElem?_set_ne heq, hget id hid]

theorem mpBusidMax_start (c : MpCfg) :
    mpBusidMax c c.baseCnt.toNat 0 (-1) + 1 = (c.charBound : ℤ) := by
  have h := mpBusidMax_eq (c := c) c.baseCnt.toNat 0 (Int.le_refl (-1))
  rw [h]
  exact max_eq_right (Int.natCast_nonneg _)

theorem fst_mpInit {cnt : ℤ} (h : mpInit c = some (cnt, busid)) : cnt = mpBusidMax c c.baseCnt.toNat 0 (-1) + 1 := by
  rw [mpInit] at h
  split_ifs at h
  · obtain ⟨t, -, ht⟩ := Option.map_eq_some_iff.mp h
    exact (Prod.mk.inj ht).1.symm
  · exact (Prod.mk.inj (Option.some.inj h)).1.symm

/-- Where an ID is the largest, the table holds the types that the chain gives to the names. -/
theorem mpInit_run (hsize : c.idBound = c.charBound) :
    ∃ busid : List UInt8, mpInit c = some ((c.idBound : ℤ), busid) ∧ busid.length = c.idBound ∧
      ∀ id < busid.length, busid[id]? = ((lastKnown c.buses id).map fun b => mpBusType b.typeStr).getD (some mpBusNone) := by
  have hcnt : mpBusidMax c c.baseCnt.toNat 0 (-1) + 1 = (c.idBound : ℤ) := by rw [mpBusidMax_start, hsize]
  rw [mpInit, hcnt]
  by_cases hzero : c.idBound = 0
  · rw [hzero]
    exact ⟨[], rfl, rfl, fun id hid => absurd hid (Nat.not_lt_zero _)⟩
  · have hids : ∀ b ∈ c.buses, b.busId.toNat < (List.replicate c.idBound (0 : UInt8)).length := by
      intro b hb
      rw [List.length_replicate]
      exact lt_boundOf (List.mem_map_of_mem hb)
    obtain ⟨busid, hrun, hlen, hget⟩ := mpBusidFill_run c.buses hids
    rw [List.length_replicate] at hlen hget
    refine ⟨busid, ?_, hlen, fun id hid => ?_⟩
    · rw [if_pos fun h => hzero (Int.natCast_eq_zero.mp h), Int.toNat_natCast, mpBusidFill_eq]
      exact congrArg (Option.map _) hrun
    · rw [hlen] at hid
      rw [hget id hid, List.getElem?_replicate_of_lt hid]
      rfl

end Passes

/-- The table is right exactly when the largest ID of a bus is the largest third character of a name, which is what the first
loop reads, and for no bus the last known name is CBUSII, which the chain takes for CBUS. -/
theorem mp_bus_table_iff (c : MpCfg) :
    c.BusTable ↔ c.idBound = c.charBound ∧ ∀ id b, lastKnown c.buses id = some b → b.typeStr ≠ cbus2Name := by
  have htype : ∀ {id : ℕ} {b : MpBus}, lastKnown c.buses id = some b →
      b ∈ c.buses ∧ b.busId.toNat = id ∧ b.type.isSome = true := by
    intro id b h
    obtain ⟨hmem, hb⟩ := List.mem_filter.mp (List.mem_of_getLast? h)
    exact ⟨hmem, of_decide_eq_true hb⟩
  constructor
  · rintro ⟨busid, hrun, hlen, hget⟩
    have hsize : c.idBound = c.charBound := by
      have hcnt := fst_mpInit hrun
      rw [mpBusidMax_start] at hcnt
      exact Int.natCast_inj.mp hcnt
    refine ⟨hsize, fun id b hb => ?_⟩
    obtain ⟨busid', hrun', -, hget'⟩ := mpInit_run hsize
    obtain rfl : busid = busid' := (Prod.mk.inj (Option.some.inj (hrun.symm.trans hrun'))).2
    obtain ⟨hmem, hid, hknown⟩ := htype hb
    have hlt : id < busid.length := by
      rw [hlen, ← hid]
      exact lt_boundOf (List.mem_map_of_mem hmem)
    have heq := (hget' id hlt).symm.trans (hget id hlt)
    rw [busType, hb] at heq
    obtain ⟨type, htype⟩ := Option.isSome_iff_exists.mp hknown
    rw [← mpBusType_eq_iff (length_typeStr hmem), htype]
    simpa [htype] using heq
  · rintro ⟨hsize, hname⟩
    obtain ⟨busid, hrun, hlen, hget⟩ := mpInit_run hsize
    refine ⟨busid, hrun, hlen, fun id hid => ?_⟩
    rw [hget id hid, busType]
    cases hb : lastKnown c.buses id with
    | none => rfl
    | some b =>
      obtain ⟨hmem, -, hknown⟩ := htype hb
      obtain ⟨type, htype⟩ := Option.isSome_iff_exists.mp hknown
      rw [Option.map_some, Option.getD_some, (mpBusType_eq_iff (length_typeStr hmem)).mpr (hname id b hb)]
      simp [htype]

/-- A table with one bus entry: the PCI bus 0. -/
def onePciBus : MpCfg := ⟨fun i => [1, 0, 80, 67, 73, 32, 32, 32].getD i 0, 1⟩

theorem mp_bus_table_pci : ¬ onePciBus.BusTable := by
  rintro ⟨busid, hrun, -⟩
  have hcnt : (onePciBus.idBound : ℤ) = 74 := fst_mpInit hrun
  exact absurd hcnt (by decide)

end SysX
