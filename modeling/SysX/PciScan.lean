import SysX.DeviceTree
import SysX.Lib.CallForest
import SysX.Lib.Comp
import SysX.PciConfig
import Mathlib.Data.Finite.Prod
import Mathlib.Data.Fintype.EquivFin
import Mathlib.Data.Fintype.Option

/-!
The scan of the PCI buses (`drivers/pci.c`): `pci_scan_bus`, `pci_scan_dev` and `pci_scan_func`, which follow the bridges that
they find. The interrupt routing that is printed for the other functions is left out.
-/
namespace SysX

/-- `pci_devtree_t` without its header. -/
structure PciDevtree where
  vid : BitVec 16
  pid : BitVec 16
  cls : BitVec 8
  subclass : BitVec 8
  bus : BitVec 8
  dev : BitVec 8
  func : BitVec 8
deriving DecidableEq

/-- The device tree, what the nodes for functions hold, how many nodes have been asked for, and the buses that a scan has been
started of. -/
structure PciScan where
  nodes : Devtree
  devices : ℕ → Option PciDevtree
  asked : ℕ
  buses : List (BitVec 8)

abbrev PciOp := Comp PciScan

/-! The static nodes. Those that `kcalloc` grants follow. -/

def devtreeRoot : ℕ := 0
def pciDevtreeRoot : ℕ := 1
def pciDevtreeGeoRoot : ℕ := 2
def pciDevtreeIdRoot : ℕ := 3
def pciNode (k : ℕ) : ℕ := 4 + k

/-- `%x` of a number below 16. -/
def hexDigit (n : ℕ) : UInt8 := if n < 10 then UInt8.ofNat (48 + n) else UInt8.ofNat (87 + n)

/-- The last `k` hexadecimal digits. -/
def hexDigits (k n : ℕ) : Str := ((List.range k).map fun i => hexDigit (n / 16 ^ i % 16)).reverse

def colon : UInt8 := 58

/-- `"%02x:%02x.%x"` -/
def PciDevtree.geoName (x : PciDevtree) : Str :=
  hexDigits 2 x.bus.toNat ++ colon :: hexDigits 2 x.dev.toNat ++ dot :: hexDigits 1 x.func.toNat

/-- `"%04x:%04x"` -/
def PciDevtree.idName (x : PciDevtree) : Str := hexDigits 4 x.vid.toNat ++ colon :: hexDigits 4 x.pid.toNat

theorem zero_notMem_hexDigits (k n : ℕ) : 0 ∉ hexDigits k n := by
  intro h
  obtain ⟨i, -, hi⟩ := List.mem_map.mp (List.mem_reverse.mp h)
  have hlt : n / 16 ^ i % 16 < 16 := Nat.mod_lt _ (by decide)
  have hdigit : ∀ m < 16, hexDigit m ≠ 0 := by decide
  exact hdigit _ hlt hi

theorem PciDevtree.zero_notMem_geoName (x : PciDevtree) : 0 ∉ x.geoName := by
  simp only [geoName, List.mem_append, List.mem_cons, not_or]
  exact ⟨⟨zero_notMem_hexDigits _ _, by decide, zero_notMem_hexDigits _ _⟩, by decide, zero_notMem_hexDigits _ _⟩

theorem PciDevtree.zero_notMem_idName (x : PciDevtree) : 0 ∉ x.idName := by
  simp only [idName, List.mem_append, List.mem_cons, not_or]
  exact ⟨zero_notMem_hexDigits _ _, by decide, zero_notMem_hexDigits _ _⟩

/-! The configuration space. -/

def pciReadVid (regs : PciRegisters) (bus dev func : BitVec 8) : BitVec 16 := pciCfgReadWord regs bus dev func 0x00
def pciReadHdrtype (regs : PciRegisters) (bus dev func : BitVec 8) : BitVec 8 := pciCfgReadByte regs bus dev func 0x0E

/-- What `pci_scan_func` reads of a function. -/
def pciDevice (regs : PciRegisters) (bus dev func : BitVec 8) : PciDevtree :=
  let vidPid := pciCfgReadDword regs bus dev func 0x00
  let classSub := pciCfgReadWord regs bus dev func 0x0A
  ⟨vidPid.setWidth 16, (vidPid >>> 16).setWidth 16, (classSub >>> 8).setWidth 8, classSub.setWidth 8, bus, dev, func⟩

/-- `PCI_CLASS_BRIDGE` with `PCI_BRG_PCI_BRIDGE` or `PCI_BRG_PCI_BRIDGE_ALT` -/
def PciDevtree.IsBridge (x : PciDevtree) : Prop := x.cls = 0x06 ∧ (x.subclass = 0x04 ∨ x.subclass = 0x09)

instance (x : PciDevtree) : Decidable x.IsBridge := inferInstanceAs (Decidable (_ ∧ _))

/-- `PCI_CFG_H1_SEC_BUS` -/
def pciSecBus (regs : PciRegisters) (bus dev func : BitVec 8) : BitVec 8 := pciCfgReadByte regs bus dev func 0x19

/-- `PCI_HDRTYPE_MF_MASK` -/
def PciMulti (regs : PciRegisters) (bus dev : BitVec 8) : Prop := pciReadHdrtype regs bus dev 0 &&& 0x80 ≠ 0

instance (regs : PciRegisters) (bus dev : BitVec 8) : Decidable (PciMulti regs bus dev) := inferInstanceAs (Decidable (_ ≠ _))

/-! The scan. -/

/-- A new node below `parent`, unless the memory for it is not granted. -/
def pciAddNode (grants : ℕ → Bool) (parent : ℕ) (x : PciDevtree) (name : {s : Str // 0 ∉ s}) : PciOp Unit := do
  let k ← Comp.read (·.asked)
  Comp.modify fun s => { s with asked := s.asked + 1 }
  Comp.when (grants k = true) (Comp.modify fun s => { s with
    nodes := devtreeAddChild (s.nodes.set (pciNode k) fun _ => ⟨name, none, none, none, name.2⟩) parent (pciNode k)
    devices := Function.update s.devices (pciNode k) (some x) })

def pciScanFunc (regs : PciRegisters) (grants : ℕ → Bool) (scanBus : BitVec 8 → PciOp Unit) (bus dev func : BitVec 8) :
    PciOp Bool := do
  let x := pciDevice regs bus dev func
  if x.vid = 0xFFFF then pure false
  else do
    pciAddNode grants pciDevtreeGeoRoot x ⟨x.geoName, x.zero_notMem_geoName⟩
    pciAddNode grants pciDevtreeIdRoot x ⟨x.idName, x.zero_notMem_idName⟩
    Comp.when x.IsBridge (scanBus (pciSecBus regs bus dev func))
    pure true

def pciScanDev (regs : PciRegisters) (grants : ℕ → Bool) (scanBus : BitVec 8 → PciOp Unit) (bus dev : BitVec 8) :
    PciOp Unit := do
  let found ← pciScanFunc regs grants scanBus bus dev 0
  if found then
    Comp.when (PciMulti regs bus dev) (Comp.forRange (fun func => do
      let _ ← pciScanFunc regs grants scanBus bus dev (BitVec.ofNat 8 func)
      pure ()) 7 1)
  else pure ()

/-- The fuel bounds how many buses are being scanned at a time. -/
def pciScanBus (regs : PciRegisters) (grants : ℕ → Bool) : (fuel : ℕ) → (bus : BitVec 8) → PciOp Unit
  | 0, _ => Comp.fault
  | fuel + 1, bus => do
    Comp.modify fun s => { s with buses := s.buses ++ [bus] }
    Comp.forRange (fun dev => pciScanDev regs grants (pciScanBus regs grants fuel) bus (BitVec.ofNat 8 dev)) 32 0

/-! What there is to scan. -/

/-- A function that is there. The functions behind the first one count on a multifunction device only. -/
structure PciExists (regs : PciRegisters) (bus dev func : BitVec 8) : Prop where
  dev_lt : dev.toNat < 32
  func_lt : func.toNat < 8
  present : pciReadVid regs bus dev func ≠ 0xFFFF
  counts : func = 0 ∨ pciReadVid regs bus dev 0 ≠ 0xFFFF ∧ PciMulti regs bus dev

/-- A bridge to the bus `sec`. -/
def PciBridge (regs : PciRegisters) (bus dev func sec : BitVec 8) : Prop :=
  PciExists regs bus dev func ∧ (pciDevice regs bus dev func).IsBridge ∧ pciSecBus regs bus dev func = sec

/-- The buses that bridges lead to from the host controllers. -/
inductive PciReach (regs : PciRegisters) (hosts : List (BitVec 8)) : BitVec 8 → Prop
  | host {bus : BitVec 8} (h : bus ∈ hosts) : PciReach regs hosts bus
  | bridge {bus dev func sec : BitVec 8} (h : PciReach regs hosts bus) (hb : PciBridge regs bus dev func sec) :
      PciReach regs hosts sec

/-- No bridge leads to a bus of a host controller, and no two bridges lead to the same bus. -/
structure PciForest (regs : PciRegisters) (hosts : List (BitVec 8)) : Prop where
  nodup : hosts.Nodup
  top : ∀ bus dev func sec, PciReach regs hosts bus → PciBridge regs bus dev func sec → sec ∉ hosts
  unique : ∀ bus dev func bus' dev' func' sec, PciReach regs hosts bus → PciReach regs hosts bus' →
    PciBridge regs bus dev func sec → PciBridge regs bus' dev' func' sec → bus = bus' ∧ dev = dev' ∧ func = func'

/-- The scan of a bus comes to an end, and no bus is scanned twice. -/
def ScansOnce (regs : PciRegisters) (grants : ℕ → Bool) (bus : BitVec 8) (s : PciScan) : Prop :=
  ∃ fuel s' scanned, pciScanBus regs grants fuel bus s = some ((), s') ∧ s'.buses = s.buses ++ scanned ∧ scanned.Nodup

/-! The calls that the functions make of each other. -/

inductive PciCall
  | bus (bus : BitVec 8)
  | dev (bus dev : BitVec 8)
  | func (bus dev func : BitVec 8)
deriving DecidableEq

/-- What `pciAddNode` does. -/
def PciScan.addNode (s : PciScan) (grants : ℕ → Bool) (parent : ℕ) (x : PciDevtree) (name : {s : Str // 0 ∉ s}) : PciScan :=
  if grants s.asked = true then
    { s with
      nodes := devtreeAddChild (s.nodes.set (pciNode s.asked) fun _ => ⟨name, none, none, none, name.2⟩) parent
        (pciNode s.asked)
      devices := Function.update s.devices (pciNode s.asked) (some x)
      asked := s.asked + 1 }
  else { s with asked := s.asked + 1 }

namespace PciCall

def next (regs : PciRegisters) : PciCall → List PciCall
  | bus b => (List.range' 0 32).map fun d => dev b (BitVec.ofNat 8 d)
  | dev b d => func b d 0 ::
    if (pciDevice regs b d 0).vid ≠ 0xFFFF ∧ PciMulti regs b d then
      (List.range' 1 7).map fun f => func b d (BitVec.ofNat 8 f)
    else []
  | func b d f =>
    if (pciDevice regs b d f).vid ≠ 0xFFFF ∧ (pciDevice regs b d f).IsBridge then [bus (pciSecBus regs b d f)] else []

def bus? : PciCall → Option (BitVec 8)
  | bus b => some b
  | _ => none

/-- What a call does itself. -/
def effect (regs : PciRegisters) (grants : ℕ → Bool) (call : PciCall) (s : PciScan) : PciScan :=
  match call with
  | bus b => { s with buses := s.buses ++ [b] }
  | dev _ _ => s
  | func b d f =>
    let x := pciDevice regs b d f
    if x.vid = 0xFFFF then s
    else (s.addNode grants pciDevtreeGeoRoot x ⟨x.geoName, x.zero_notMem_geoName⟩).addNode grants pciDevtreeIdRoot x
      ⟨x.idName, x.zero_notMem_idName⟩

def run (regs : PciRegisters) (grants : ℕ → Bool) (fuel : ℕ) : PciCall → PciOp Unit
  | bus b => pciScanBus regs grants fuel b
  | dev b d => pciScanDev regs grants (pciScanBus regs grants fuel) b d
  | func b d f => do
    let _ ← pciScanFunc regs grants (pciScanBus regs grants fuel) b d f
    pure ()

instance : Finite PciCall := by
  have : Finite (BitVec 8) := Finite.of_injective BitVec.toFin fun _ _ h => BitVec.eq_of_toFin_eq h
  let code : PciCall → BitVec 8 × Option (BitVec 8 × Option (BitVec 8)) := fun call =>
    match call with
    | bus b => (b, none)
    | dev b d => (b, some (d, none))
    | func b d f => (b, some (d, some f))
  refine Finite.of_injective code fun x y h => ?_
  cases x <;> cases y <;> simp_all [code]

end PciCall

section Steps

variable {regs : PciRegisters} {grants : ℕ → Bool} {fuel : ℕ} {s s' : PciScan} {b d f : BitVec 8}

theorem forRange_map (call : ℕ → PciCall) (n lo : ℕ) :
    Comp.forRange (fun i => (call i).run regs grants fuel) n lo =
      Comp.forList (PciCall.run regs grants fuel) ((List.range' lo n).map call) := by
  induction n generalizing lo with
  | zero => rfl
  | succ n ih =>
    rw [Comp.forRange_succ, List.range'_succ, List.map_cons, Comp.forList_cons, ih]

theorem pciAddNode_run (parent : ℕ) (x : PciDevtree) (name : {s : Str // 0 ∉ s}) (s : PciScan) :
    pciAddNode grants parent x name s = some ((), s.addNode grants parent x name) := by
  rw [pciAddNode, PciScan.addNode, Comp.read_bind, Comp.modify_bind, Comp.when]
  split_ifs <;> rfl

/-- A scan of a bus makes its calls. -/
theorem run_bus (s : PciScan) : (PciCall.bus b).run regs grants (fuel + 1) s =
    Comp.forList (PciCall.run regs grants fuel) ((PciCall.bus b).next regs) ((PciCall.bus b).effect regs grants s) := by
  rw [PciCall.run, pciScanBus, Comp.modify_bind]
  exact congrFun (forRange_map (fun i => .dev b (BitVec.ofNat 8 i)) 32 0) _

theorem next_func (h : (pciDevice regs b d f).vid ≠ 0xFFFF) : (PciCall.func b d f).next regs =
    if (pciDevice regs b d f).IsBridge then [.bus (pciSecBus regs b d f)] else [] := by
  simp only [PciCall.next, ne_eq, h, not_false_eq_true, true_and]

theorem next_func_absent (h : (pciDevice regs b d f).vid = 0xFFFF) : (PciCall.func b d f).next regs = [] := by
  simp only [PciCall.next, ne_eq, h, not_true_eq_false, false_and, if_false]

theorem effect_func_absent (h : (pciDevice regs b d f).vid = 0xFFFF) (s : PciScan) :
    (PciCall.func b d f).effect regs grants s = s := if_pos h

theorem pciScanFunc_absent (h : (pciDevice regs b d f).vid = 0xFFFF) (s : PciScan) :
    pciScanFunc regs grants (pciScanBus regs grants fuel) b d f s = some (false, s) := by
  rw [pciScanFunc, if_pos h]
  rfl

/-- A function that is present makes its call, if any, when its nodes are there. -/
theorem pciScanFunc_present (h : (pciDevice regs b d f).vid ≠ 0xFFFF) (s : PciScan) :
    pciScanFunc regs grants (pciScanBus regs grants fuel) b d f s =
      (Comp.forList (PciCall.run regs grants fuel) ((PciCall.func b d f).next regs) >>= fun _ => pure true)
        ((PciCall.func b d f).effect regs grants s) := by
  have heffect : (PciCall.func b d f).effect regs grants s = _ := if_neg h
  rw [pciScanFunc, next_func h, heffect, if_neg h, Comp.bind_of_eq (pciAddNode_run _ _ _ s),
    Comp.bind_of_eq (pciAddNode_run _ _ _ _)]
  by_cases hbridge : (pciDevice regs b d f).IsBridge
  · rw [Comp.when_true hbridge, if_pos hbridge, Comp.forList_cons, Comp.forList_nil, bind_pure_unit]
    rfl
  · rw [Comp.when_false hbridge, if_neg hbridge, Comp.forList_nil]

theorem run_func (s : PciScan) : (PciCall.func b d f).run regs grants fuel s =
    Comp.forList (PciCall.run regs grants fuel) ((PciCall.func b d f).next regs) ((PciCall.func b d f).effect regs grants s) := by
  by_cases h : (pciDevice regs b d f).vid = 0xFFFF
  · rw [PciCall.run, Comp.bind_of_eq (pciScanFunc_absent h s), next_func_absent h, effect_func_absent h]
    rfl
  · set rest := Comp.forList (PciCall.run regs grants fuel) ((PciCall.func b d f).next regs) with hrest
    have hassoc : ((rest >>= fun _ => pure true) >>= fun _ => pure ()) = rest := by
      rw [bind_assoc]
      exact bind_pure_unit
    rw [PciCall.run, Comp.bind_congr (pciScanFunc_present h s), ← hrest, hassoc]

theorem run_dev (s : PciScan) : (PciCall.dev b d).run regs grants fuel s =
    Comp.forList (PciCall.run regs grants fuel) ((PciCall.dev b d).next regs) ((PciCall.dev b d).effect regs grants s) := by
  rw [PciCall.run, pciScanDev, PciCall.next, PciCall.effect, Comp.forList_cons]
  by_cases h : (pciDevice regs b d 0).vid = 0xFFFF
  · have hfirst : (PciCall.func b d 0).run regs grants fuel s = some ((), s) := by
      rw [run_func, next_func_absent h, effect_func_absent h]
      rfl
    have hrest : ¬ ((pciDevice regs b d 0).vid ≠ 0xFFFF ∧ PciMulti regs b d) := fun hc => hc.1 h
    rw [Comp.bind_of_eq (pciScanFunc_absent h s), Comp.bind_of_eq hfirst, if_neg hrest]
    rfl
  · have hothers : Comp.when (PciMulti regs b d) (Comp.forRange (fun func => do
        let _ ← pciScanFunc regs grants (pciScanBus regs grants fuel) b d (BitVec.ofNat 8 func)
        pure ()) 7 1) = Comp.forList (PciCall.run regs grants fuel)
          (if (pciDevice regs b d 0).vid ≠ 0xFFFF ∧ PciMulti regs b d then
            (List.range' 1 7).map fun f => .func b d (BitVec.ofNat 8 f) else []) := by
      by_cases hmulti : PciMulti regs b d
      · rw [Comp.when_true hmulti, if_pos ⟨h, hmulti⟩]
        exact forRange_map (fun f => .func b d (BitVec.ofNat 8 f)) 7 1
      · rw [Comp.when_false hmulti, if_neg fun hc => hmulti hc.2]
        rfl
    rw [← hothers, Comp.bind_congr (pciScanFunc_present h s), Comp.bind_congr (run_func s), bind_assoc]
    rfl

end Steps

section Graph

variable {regs : PciRegisters} {b d f : BitVec 8} {call : PciCall}

theorem mem_next_bus : call ∈ (PciCall.bus b).next regs ↔ ∃ d : BitVec 8, d.toNat < 32 ∧ call = .dev b d := by
  rw [PciCall.next, List.mem_map]
  constructor
  · rintro ⟨i, hi, rfl⟩
    have hlt : i < 32 := by simpa using hi
    refine ⟨BitVec.ofNat 8 i, ?_, rfl⟩
    rw [BitVec.toNat_ofNat]
    omega
  · rintro ⟨d, hd, rfl⟩
    exact ⟨d.toNat, by simpa using hd, by rw [BitVec.ofNat_toNat, BitVec.setWidth_eq]⟩

theorem mem_next_dev : call ∈ (PciCall.dev b d).next regs ↔ ∃ f : BitVec 8, f.toNat < 8 ∧
    (f = 0 ∨ (pciDevice regs b d 0).vid ≠ 0xFFFF ∧ PciMulti regs b d) ∧ call = .func b d f := by
  rw [PciCall.next, List.mem_cons]
  constructor
  · rintro (rfl | hmem)
    · exact ⟨0, by decide, .inl rfl, rfl⟩
    · split_ifs at hmem with hmulti
      · obtain ⟨i, hi, rfl⟩ := List.mem_map.mp hmem
        have hlt : 1 ≤ i ∧ i < 8 := by simpa using hi
        refine ⟨BitVec.ofNat 8 i, ?_, .inr hmulti, rfl⟩
        rw [BitVec.toNat_ofNat]
        omega
      · cases hmem
  · rintro ⟨f, hf, hcounts, rfl⟩
    by_cases hzero : f = 0
    · exact .inl (by rw [hzero])
    · right
      rw [if_pos (hcounts.resolve_left hzero), List.mem_map]
      have hpos : f.toNat ≠ 0 := fun h => hzero (BitVec.eq_of_toNat_eq h)
      refine ⟨f.toNat, ?_, by rw [BitVec.ofNat_toNat, BitVec.setWidth_eq]⟩
      rw [List.mem_range'_1]
      omega

theorem mem_next_func : call ∈ (PciCall.func b d f).next regs ↔ (pciDevice regs b d f).vid ≠ 0xFFFF ∧
    (pciDevice regs b d f).IsBridge ∧ call = .bus (pciSecBus regs b d f) := by
  rw [PciCall.next]
  split_ifs with h
  · rw [List.mem_singleton]
    exact ⟨fun hc => ⟨h.1, h.2, hc⟩, fun hc => hc.2.2⟩
  · exact ⟨fun hc => absurd hc List.not_mem_nil, fun hc => absurd ⟨hc.1, hc.2.1⟩ h⟩

theorem eq_bus_of_dev (h : PciCall.dev b d ∈ call.next regs) : call = .bus b := by
  cases call with
  | bus b' =>
    obtain ⟨d', -, heq⟩ := mem_next_bus.mp h
    rw [(PciCall.dev.inj heq).1]
  | dev b' d' =>
    obtain ⟨_, _, _, heq⟩ := mem_next_dev.mp h
    cases heq
  | func b' d' f' => cases (mem_next_func.mp h).2.2

theorem eq_dev_of_func (h : PciCall.func b d f ∈ call.next regs) : call = .dev b d := by
  cases call with
  | bus b' =>
    obtain ⟨_, _, heq⟩ := mem_next_bus.mp h
    cases heq
  | dev b' d' =>
    obtain ⟨f', -, -, heq⟩ := mem_next_dev.mp h
    rw [(PciCall.func.inj heq).1, (PciCall.func.inj heq).2.1]
  | func b' d' f' => cases (mem_next_func.mp h).2.2

theorem nodup_next (call : PciCall) : (call.next regs).Nodup := by
  have hinj : ∀ i j, i < 256 → j < 256 → BitVec.ofNat 8 i = BitVec.ofNat 8 j → i = j := by
    intro i j hi hj heq
    have := congrArg BitVec.toNat heq
    rw [BitVec.toNat_ofNat, BitVec.toNat_ofNat] at this
    omega
  cases call with
  | bus b =>
    refine List.Nodup.map_on (fun i hi j hj heq => ?_) List.nodup_range'
    have hi' := (List.mem_range'_1.mp hi).2
    have hj' := (List.mem_range'_1.mp hj).2
    exact hinj i j (by omega) (by omega) (PciCall.dev.inj heq).2
  | dev b d =>
    rw [PciCall.next, List.nodup_cons]
    split_ifs
    · constructor
      · intro hmem
        obtain ⟨i, hi, heq⟩ := List.mem_map.mp hmem
        have hi' := List.mem_range'_1.mp hi
        have := hinj i 0 (by omega) (by decide) (PciCall.func.inj heq).2.2
        omega
      · refine List.Nodup.map_on (fun i hi j hj heq => ?_) List.nodup_range'
        have hi' := (List.mem_range'_1.mp hi).2
        have hj' := (List.mem_range'_1.mp hj).2
        exact hinj i j (by omega) (by omega) (PciCall.func.inj heq).2.2
    · exact ⟨List.not_mem_nil, List.nodup_nil⟩
  | func b d f =>
    rw [PciCall.next]
    split_ifs
    · exact List.nodup_singleton _
    · exact List.nodup_nil

theorem eq_func_of_mem_next (h : call ∈ (PciCall.dev b d).next regs) : ∃ f, call = .func b d f := by
  obtain ⟨f, -, -, rfl⟩ := mem_next_dev.mp h
  exact ⟨f, rfl⟩

theorem eq_bus_of_mem_next (h : call ∈ (PciCall.func b d f).next regs) : ∃ sec, call = .bus sec :=
  ⟨_, (mem_next_func.mp h).2.2⟩

end Graph

section Runs

variable {regs : PciRegisters} {grants : ℕ → Bool} {fuel : ℕ} {s s' : PciScan} {calls calls' l l' : List PciCall}

/-- What a list of calls does, each by itself. -/
def pciEffects (regs : PciRegisters) (grants : ℕ → Bool) (l : List PciCall) (s : PciScan) : PciScan :=
  l.foldl (fun s call => call.effect regs grants s) s

theorem pciEffects_append (l l' : List PciCall) (s : PciScan) :
    pciEffects regs grants (l ++ l') s = pciEffects regs grants l' (pciEffects regs grants l s) := List.foldl_append

/-- A call of a function or a device makes its calls with the fuel that it has, that of a bus with less. -/
theorem run_call (call : PciCall) (s : PciScan) : ∃ fuel', fuel' ≤ fuel + 1 ∧ fuel ≤ fuel' ∧
    call.run regs grants (fuel + 1) s =
      Comp.forList (PciCall.run regs grants fuel') (call.next regs) (call.effect regs grants s) := by
  cases call with
  | bus b => exact ⟨fuel, Nat.le_succ _, Nat.le_refl _, run_bus s⟩
  | dev b d => exact ⟨fuel + 1, Nat.le_refl _, Nat.le_succ _, run_dev s⟩
  | func b d f => exact ⟨fuel + 1, Nat.le_refl _, Nat.le_succ _, run_func s⟩

/-- Calls that come to an end do so with enough fuel. -/
theorem run_of_calls (h : Calls (PciCall.next regs) calls l) : ∃ N, ∀ fuel, N ≤ fuel → ∀ s,
    Comp.forList (PciCall.run regs grants fuel) calls s = some ((), pciEffects regs grants l s) := by
  induction h with
  | nil => exact ⟨0, fun _ _ _ => rfl⟩
  | @cons call calls l l' _ _ ihsub ihrest =>
    obtain ⟨N, hN⟩ := ihsub
    obtain ⟨N', hN'⟩ := ihrest
    refine ⟨max (N + 1) N', fun fuel hfuel s => ?_⟩
    obtain ⟨fuel, rfl⟩ := Nat.exists_eq_succ_of_ne_zero (show fuel ≠ 0 by omega)
    obtain ⟨fuel', -, hle, hcall⟩ := @run_call regs grants fuel call s
    rw [hN fuel' (by omega)] at hcall
    rw [Comp.forList_cons, Comp.bind_of_eq hcall, hN' _ (by omega)]
    exact congrArg (fun t => some ((), t)) (pciEffects_append l l' _).symm

/-- The calls of the list end in calls of the graph. -/
theorem calls_of_runs (hone : ∀ call ∈ calls, ∀ s s', call.run regs grants fuel s = some ((), s') →
      ∃ l, Calls (PciCall.next regs) [call] l ∧ s' = pciEffects regs grants l s)
    (h : Comp.forList (PciCall.run regs grants fuel) calls s = some ((), s')) :
    ∃ l, Calls (PciCall.next regs) calls l ∧ s' = pciEffects regs grants l s := by
  induction calls generalizing s with
  | nil => exact ⟨[], .nil, (Prod.mk.inj (Option.some.inj h)).2.symm⟩
  | cons call calls ih =>
    obtain ⟨⟨⟩, t, hcall, hrest⟩ := Comp.bind_eq_some.mp h
    obtain ⟨l, hl, rfl⟩ := hone call List.mem_cons_self s t hcall
    obtain ⟨l', hl', rfl⟩ := ih (fun call hmem => hone call (List.mem_cons_of_mem _ hmem)) hrest
    exact ⟨l ++ l', hl.append hl', (pciEffects_append l l' s).symm⟩

/-- The calls of one call, when it is known what it comes to. -/
theorem calls_of_step {fuel' : ℕ} {call : PciCall}
    (hstep : call.run regs grants fuel' s =
      Comp.forList (PciCall.run regs grants fuel) (call.next regs) (call.effect regs grants s))
    (hone : ∀ sub ∈ call.next regs, ∀ s s', sub.run regs grants fuel s = some ((), s') →
      ∃ l, Calls (PciCall.next regs) [sub] l ∧ s' = pciEffects regs grants l s)
    (h : call.run regs grants fuel' s = some ((), s')) :
    ∃ l, Calls (PciCall.next regs) [call] l ∧ s' = pciEffects regs grants l s := by
  obtain ⟨l, hl, rfl⟩ := calls_of_runs hone (hstep.symm.trans h)
  refine ⟨_, .cons hl .nil, ?_⟩
  rw [List.append_nil]
  rfl

theorem calls_of_run_of_bus (hbus : ∀ b s s', (PciCall.bus b).run regs grants fuel s = some ((), s') →
      ∃ l, Calls (PciCall.next regs) [.bus b] l ∧ s' = pciEffects regs grants l s)
    (call : PciCall) (s s' : PciScan) (h : call.run regs grants fuel s = some ((), s')) :
    ∃ l, Calls (PciCall.next regs) [call] l ∧ s' = pciEffects regs grants l s := by
  have hfunc : ∀ b d f s s', (PciCall.func b d f).run regs grants fuel s = some ((), s') →
      ∃ l, Calls (PciCall.next regs) [.func b d f] l ∧ s' = pciEffects regs grants l s := by
    intro b d f s s' h
    refine calls_of_step (run_func s) (fun sub hsub s s' hrun => ?_) h
    obtain ⟨sec, rfl⟩ := eq_bus_of_mem_next hsub
    exact hbus sec s s' hrun
  cases call with
  | bus b => exact hbus b s s' h
  | dev b d =>
    refine calls_of_step (run_dev s) (fun sub hsub s s' hrun => ?_) h
    obtain ⟨f, rfl⟩ := eq_func_of_mem_next hsub
    exact hfunc b d f s s' hrun
  | func b d f => exact hfunc b d f s s' h

/-- A run that returns has made the calls of the graph. -/
theorem calls_of_run (fuel : ℕ) (call : PciCall) (s s' : PciScan) (h : call.run regs grants fuel s = some ((), s')) :
    ∃ l, Calls (PciCall.next regs) [call] l ∧ s' = pciEffects regs grants l s := by
  induction fuel generalizing call s s' with
  | zero => exact calls_of_run_of_bus (fun b s s' hrun => absurd hrun (by rintro ⟨⟩)) call s s' h
  | succ fuel ih =>
    exact calls_of_run_of_bus (fun b s s' hrun => calls_of_step (run_bus s) (fun sub _ => ih sub) hrun) call s s' h

theorem buses_addNode (parent : ℕ) (x : PciDevtree) (name : {s : Str // 0 ∉ s}) (s : PciScan) :
    (s.addNode grants parent x name).buses = s.buses := by
  rw [PciScan.addNode]
  split_ifs <;> rfl

theorem eq_bus_of_bus? {call : PciCall} {b : BitVec 8} (h : b ∈ call.bus?) : call = .bus b := by
  cases call with
  | bus b' => rw [Option.some.inj h]
  | dev | func => cases h

theorem buses_effect (call : PciCall) (s : PciScan) :
    (call.effect regs grants s).buses = s.buses ++ [call].filterMap PciCall.bus? := by
  cases call with
  | bus b => rfl
  | dev b d => exact (List.append_nil _).symm
  | func b d f =>
    show _ = s.buses ++ []
    rw [PciCall.effect, List.append_nil]
    split_ifs
    · rfl
    · rw [buses_addNode, buses_addNode]

theorem buses_pciEffects (l : List PciCall) (s : PciScan) :
    (pciEffects regs grants l s).buses = s.buses ++ l.filterMap PciCall.bus? := by
  induction l generalizing s with
  | nil => exact (List.append_nil _).symm
  | cons call l ih =>
    have hstep := ih (call.effect regs grants s)
    rw [buses_effect, List.append_assoc, ← List.filterMap_append] at hstep
    exact hstep

end Runs

section Forest

variable {regs : PciRegisters} {hosts : List (BitVec 8)} {bus dev func sec : BitVec 8} {call call' : PciCall} {l : List PciCall}

theorem pciReadVid_eq (regs : PciRegisters) (bus dev func : BitVec 8) :
    pciReadVid regs bus dev func = (pciDevice regs bus dev func).vid := by
  simp [pciReadVid, pciDevice, pciCfgReadWord, pciCfgReadDword, offsetOff]

def PciCall.Reached (regs : PciRegisters) (hosts : List (BitVec 8)) : PciCall → Prop
  | .bus bus => PciReach regs hosts bus
  | .dev bus dev => PciReach regs hosts bus ∧ dev.toNat < 32
  | .func bus dev func => PciReach regs hosts bus ∧ dev.toNat < 32 ∧ func.toNat < 8 ∧
    (func = 0 ∨ (pciDevice regs bus dev 0).vid ≠ 0xFFFF ∧ PciMulti regs bus dev)

theorem PciExists.reached (h : PciExists regs bus dev func) (hbus : PciReach regs hosts bus) :
    (PciCall.func bus dev func).Reached regs hosts := by
  refine ⟨hbus, h.dev_lt, h.func_lt, ?_⟩
  have hcounts := h.counts
  rwa [pciReadVid_eq] at hcounts

theorem PciCall.Reached.exists (h : (PciCall.func bus dev func).Reached regs hosts)
    (hvid : (pciDevice regs bus dev func).vid ≠ 0xFFFF) : PciExists regs bus dev func := by
  obtain ⟨-, hdev, hfunc, hcounts⟩ := h
  refine ⟨hdev, hfunc, ?_, ?_⟩
  · rwa [pciReadVid_eq]
  · rwa [pciReadVid_eq]

theorem PciCall.Reached.next (h : call.Reached regs hosts) (hsub : call' ∈ call.next regs) : call'.Reached regs hosts := by
  cases call with
  | bus bus =>
    obtain ⟨dev, hdev, rfl⟩ := mem_next_bus.mp hsub
    exact ⟨h, hdev⟩
  | dev bus dev =>
    obtain ⟨func, hfunc, hcounts, rfl⟩ := mem_next_dev.mp hsub
    exact ⟨h.1, h.2, hfunc, hcounts⟩
  | func bus dev func =>
    obtain ⟨hvid, hbridge, rfl⟩ := mem_next_func.mp hsub
    exact .bridge h.1 ⟨h.exists hvid, hbridge, rfl⟩

/-- The calls that come about are those for buses that bridges lead to. -/
theorem called_iff : Called (PciCall.next regs) (hosts.map .bus) call ↔ call.Reached regs hosts := by
  have hdev : ∀ {bus dev : BitVec 8}, Called (PciCall.next regs) (hosts.map .bus) (.bus bus) → dev.toNat < 32 →
      Called (PciCall.next regs) (hosts.map .bus) (.dev bus dev) :=
    fun hbus hdev => hbus.step (mem_next_bus.mpr ⟨_, hdev, rfl⟩)
  have hbus : ∀ {bus : BitVec 8}, PciReach regs hosts bus → Called (PciCall.next regs) (hosts.map .bus) (.bus bus) := by
    intro bus h
    induction h with
    | host h => exact .root (List.mem_map_of_mem h)
    | @bridge bus dev func sec h hb ih =>
      obtain ⟨hexists, hbridge, rfl⟩ := hb
      have hfunc : PciCall.func bus dev func ∈ (PciCall.dev bus dev).next regs :=
        mem_next_dev.mpr ⟨func, hexists.func_lt, (hexists.reached h).2.2.2, rfl⟩
      have hvid := hexists.present
      rw [pciReadVid_eq] at hvid
      exact ((hdev ih hexists.dev_lt).step hfunc).step (mem_next_func.mpr ⟨hvid, hbridge, rfl⟩)
  constructor
  · rintro ⟨a, ha, hcalls⟩
    induction hcalls with
    | refl =>
      obtain ⟨bus, hbus, rfl⟩ := List.mem_map.mp ha
      exact .host hbus
    | tail _ hsub ih => exact ih.next hsub
  · intro h
    cases call with
    | bus bus => exact hbus h
    | dev bus dev => exact hdev (hbus h.1) h.2
    | func bus dev func =>
      exact (hdev (hbus h.1) h.2.1).step (mem_next_dev.mpr ⟨func, h.2.2.1, h.2.2.2, rfl⟩)

theorem PciBridge.called (h : PciBridge regs bus dev func sec) (hbus : PciReach regs hosts bus) :
    Called (PciCall.next regs) (hosts.map .bus) (.func bus dev func) ∧
      PciCall.bus sec ∈ (PciCall.func bus dev func).next regs := by
  obtain ⟨hexists, hbridge, rfl⟩ := h
  have hvid := hexists.present
  rw [pciReadVid_eq] at hvid
  exact ⟨called_iff.mpr (hexists.reached hbus), mem_next_func.mpr ⟨hvid, hbridge, rfl⟩⟩

/-- Bridges that lead to different buses make a forest of the calls. -/
theorem PciForest.calls (h : PciForest regs hosts) : CallForest (PciCall.next regs) (hosts.map .bus) := by
  have hbridge : ∀ {bus dev func sec : BitVec 8}, Called (PciCall.next regs) (hosts.map .bus) (.func bus dev func) →
      PciCall.bus sec ∈ (PciCall.func bus dev func).next regs → PciReach regs hosts bus ∧ PciBridge regs bus dev func sec := by
    intro bus dev func sec hcalled hmem
    obtain ⟨hvid, hb, heq⟩ := mem_next_func.mp hmem
    have hreached := called_iff.mp hcalled
    exact ⟨hreached.1, hreached.exists hvid, hb, (PciCall.bus.inj heq).symm⟩
  have hparent : ∀ {call : PciCall} {sec : BitVec 8}, PciCall.bus sec ∈ call.next regs →
      ∃ bus dev func, call = .func bus dev func := by
    intro call sec hmem
    cases call with
    | bus bus =>
      obtain ⟨_, _, heq⟩ := mem_next_bus.mp hmem
      cases heq
    | dev bus dev =>
      obtain ⟨_, _, _, heq⟩ := mem_next_dev.mp hmem
      cases heq
    | func bus dev func => exact ⟨bus, dev, func, rfl⟩
  refine ⟨h.nodup.map fun _ _ heq => PciCall.bus.inj heq, fun call sub hcall hsub hmem => ?_, fun call _ => ?_,
    fun call call' sub hcall hcall' hsub hsub' => ?_⟩
  · obtain ⟨sec, hsec, rfl⟩ := List.mem_map.mp hmem
    obtain ⟨bus, dev, func, rfl⟩ := hparent hsub
    obtain ⟨hbus, hb⟩ := hbridge hcall hsub
    exact h.top bus dev func sec hbus hb hsec
  · exact nodup_next call
  · cases sub with
    | bus sec =>
      obtain ⟨bus, dev, func, rfl⟩ := hparent hsub
      obtain ⟨bus', dev', func', rfl⟩ := hparent hsub'
      obtain ⟨hbus, hb⟩ := hbridge hcall hsub
      obtain ⟨hbus', hb'⟩ := hbridge hcall' hsub'
      obtain ⟨rfl, rfl, rfl⟩ := h.unique _ _ _ _ _ _ _ hbus hbus' hb hb'
      rfl
    | dev bus dev => rw [eq_bus_of_dev hsub, eq_bus_of_dev hsub']
    | func bus dev func => rw [eq_dev_of_func hsub, eq_dev_of_func hsub']

/-- Scans of different buses come from such bridges. -/
theorem PciForest.of_calls (h : Calls (PciCall.next regs) (hosts.map .bus) l) (hl : (l.filterMap PciCall.bus?).Nodup) :
    PciForest regs hosts := by
  obtain ⟨hnodup, htop, hunique⟩ := h.observed hl
  have hroots : (hosts.map PciCall.bus).filterMap PciCall.bus? = hosts := by
    rw [List.filterMap_map]
    exact List.filterMap_some
  rw [hroots] at hnodup htop
  have hmem : ∀ {bus dev func sec : BitVec 8}, PciReach regs hosts bus → PciBridge regs bus dev func sec →
      Called (PciCall.next regs) (hosts.map .bus) (.func bus dev func) ∧
        sec ∈ ((PciCall.func bus dev func).next regs).filterMap PciCall.bus? := by
    intro bus dev func sec hbus hb
    obtain ⟨hcalled, hnext⟩ := hb.called hbus
    exact ⟨hcalled, List.mem_filterMap.mpr ⟨_, hnext, rfl⟩⟩
  refine ⟨hnodup, fun bus dev func sec hbus hb => ?_, fun bus dev func bus' dev' func' sec hbus hbus' hb hb' => ?_⟩
  · obtain ⟨hcalled, hsec⟩ := hmem hbus hb
    exact htop _ sec hcalled hsec
  · obtain ⟨hcalled, hsec⟩ := hmem hbus hb
    obtain ⟨hcalled', hsec'⟩ := hmem hbus' hb'
    exact PciCall.func.inj (hunique _ _ sec hcalled hcalled' hsec hsec')

end Forest

section Once

variable {regs : PciRegisters} {grants : ℕ → Bool} {bus : BitVec 8} {s : PciScan}

theorem ScansOnce.forest (h : ScansOnce regs grants bus s) : PciForest regs [bus] := by
  obtain ⟨fuel, s', scanned, hrun, hbuses, hnodup⟩ := h
  obtain ⟨l, hl, rfl⟩ := calls_of_run fuel (.bus bus) s s' hrun
  rw [buses_pciEffects, List.append_cancel_left_eq] at hbuses
  exact PciForest.of_calls hl (hbuses ▸ hnodup)

theorem PciForest.scansOnce (h : PciForest regs [bus]) : ScansOnce regs grants bus s := by
  obtain ⟨l, hl⟩ := h.calls.exists_calls
  obtain ⟨N, hN⟩ := @run_of_calls regs grants _ _ hl
  have hrun : pciScanBus regs grants N bus s = some ((), pciEffects regs grants l s) := by
    have hlist := hN N (Nat.le_refl N) s
    rw [List.map_singleton, Comp.forList_cons, Comp.forList_nil, bind_pure_unit] at hlist
    exact hlist
  refine ⟨N, _, l.filterMap PciCall.bus?, hrun, buses_pciEffects l s, ?_⟩
  refine (h.calls.nodup_calls hl).filterMap fun call call' b hb hb' => ?_
  rw [eq_bus_of_bus? hb, eq_bus_of_bus? hb']

end Once

/-- The scan of a bus comes to an end, without scanning a bus twice, exactly when none of the bridges that it comes to leads
back to the bus where it began and no two of them lead to the same bus. -/
theorem pci_scan_once_iff (regs : PciRegisters) (grants : ℕ → Bool) (bus : BitVec 8) (s : PciScan) :
    ScansOnce regs grants bus s ↔ PciForest regs [bus] := ⟨ScansOnce.forest, PciForest.scansOnce⟩

/-- A bridge at 00:00.0 whose secondary bus number is 0, and nothing else. -/
def loopBridge : PciRegisters := fun a =>
  if a = 0x80000000 then 0x12348086 else if a = 0x80000008 then 0x06040000 else if a = 0x80000018 then 0 else 0xFFFFFFFF

/-- A device tree without names and without links. -/
def emptyScan : PciScan := ⟨fun _ => ⟨[], none, none, none, List.not_mem_nil⟩, fun _ => none, 0, []⟩

theorem pci_scan_loop : ¬ ScansOnce loopBridge (fun _ => true) 0 emptyScan := by
  intro h
  have hbridge : PciBridge loopBridge 0 0 0 0 := ⟨⟨by decide, by decide, by decide, .inl rfl⟩, by decide, by decide⟩
  exact h.forest.top 0 0 0 0 (.host List.mem_cons_self) hbridge List.mem_cons_self

end SysX
