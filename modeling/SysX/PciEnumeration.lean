import SysX.PciScan
import Mathlib.Data.Set.Card

/-!
The enumeration of the PCI functions by `pci_init` (`drivers/pci.c`), and the nodes that it adds to the tree of the functions by
their places.
-/
namespace SysX

/-- The loop over the host controllers. -/
def pciHostLoop (regs : PciRegisters) (grants : ℕ → Bool) (fuel : ℕ) : (n func : ℕ) → PciOp Unit
  | 0, _ => pure ()
  | n + 1, func =>
    if pciReadVid regs 0 0 (BitVec.ofNat 8 func) ≠ 0xFFFF then pure ()
    else do
      pciScanBus regs grants fuel (BitVec.ofNat 8 func)
      pciHostLoop regs grants fuel n (func + 1)

def pciInit (regs : PciRegisters) (grants : ℕ → Bool) (fuel : ℕ) : PciOp Unit := do
  Comp.modify fun s => { s with nodes := devtreeAddChild s.nodes devtreeRoot pciDevtreeRoot }
  if ¬ PciMulti regs 0 0 then pciScanBus regs grants fuel 0 else pciHostLoop regs grants fuel 8 0

/-- The static nodes, in a device tree that is arbitrary elsewhere. -/
def pciStart (d : Devtree) : PciScan where
  nodes v :=
    if v = pciDevtreeRoot then ⟨[112, 99, 105], none, some pciDevtreeGeoRoot, none, by decide⟩
    else if v = pciDevtreeGeoRoot then
      ⟨[98, 121, 45, 103, 101, 111], some pciDevtreeRoot, none, some pciDevtreeIdRoot, by decide⟩
    else if v = pciDevtreeIdRoot then ⟨[98, 121, 45, 105, 100], some pciDevtreeRoot, none, none, by decide⟩
    else d v
  devices _ := none
  asked := 0
  buses := []

/-! What there is to enumerate. -/

/-- Bus 0, or one bus for each function of device 00:00 where that is a multifunction device. -/
def pciHosts (regs : PciRegisters) : List (BitVec 8) :=
  if pciReadVid regs 0 0 0 ≠ 0xFFFF ∧ PciMulti regs 0 0 then
    ((List.range' 0 8).map (BitVec.ofNat 8)).filter fun func => pciReadVid regs 0 0 func ≠ 0xFFFF
  else [0]

/-- The functions that are reached from the host controllers. -/
def pciFunctions (regs : PciRegisters) : Set PciDevtree :=
  { x | ∃ bus dev func, PciReach regs (pciHosts regs) bus ∧ PciExists regs bus dev func ∧ x = pciDevice regs bus dev func }

/-- The children of the tree by places are nodes for these devices, under their names. -/
def HasGeoNodes (s : PciScan) (xs : List PciDevtree) : Prop :=
  ∃ ks, Chained (fun v => (s.nodes v).nextSibling) (s.nodes pciDevtreeGeoRoot).firstChild ks ∧
    ks.map s.devices = xs.map some ∧ ks.map (fun v => (s.nodes v).name) = xs.map PciDevtree.geoName

/-- There is one node for each function, and no other. -/
def Enumerates (regs : PciRegisters) (grants : ℕ → Bool) (d : Devtree) : Prop :=
  ∃ fuel s xs, pciInit regs grants fuel (pciStart d) = some ((), s) ∧ HasGeoNodes s xs ∧ xs.Nodup ∧
    ∀ x, x ∈ xs ↔ x ∈ pciFunctions regs

/-- Device 00:00 is not called a multifunction device. Or there is no such device, and none of the buses that are scanned
beside bus 0 then, up to the first function behind function 0 that is there, has any. -/
def HostsScanned (regs : PciRegisters) : Prop :=
  ¬ PciMulti regs 0 0 ∨ pciReadVid regs 0 0 0 = 0xFFFF ∧ ∀ bus : BitVec 8, bus ≠ 0 → bus.toNat < 8 →
    (∀ func : BitVec 8, func.toNat ≤ bus.toNat → pciReadVid regs 0 0 func = 0xFFFF) → ∀ dev func, ¬ PciExists regs bus dev func

/-- The memory for the nodes is granted: two are asked for with each function, the first for the tree by places. -/
def GeoGranted (regs : PciRegisters) (grants : ℕ → Bool) : Prop := ∀ k < (pciFunctions regs).ncard, grants (2 * k) = true

/-! The nodes that are added. -/

section Nodes

variable {regs : PciRegisters} {grants : ℕ → Bool} {s : PciScan} {x : PciDevtree} {xs : List PciDevtree}
  {name : {s : Str // 0 ∉ s}}

/-- The children are nodes that have been granted. -/
structure GeoNodes (s : PciScan) (xs : List PciDevtree) (ks : List ℕ) : Prop where
  chain : Chained (fun v => (s.nodes v).nextSibling) (s.nodes pciDevtreeGeoRoot).firstChild ks
  devices : ks.map s.devices = xs.map some
  names : ks.map (fun v => (s.nodes v).name) = xs.map PciDevtree.geoName
  granted : ∀ v ∈ ks, v < pciNode s.asked ∧ pciNode 0 ≤ v

theorem Devtree.name_set {d : Devtree} {v : ℕ} {g : DevtreeNode → DevtreeNode} (h : ∀ n, (g n).name = n.name) (w : ℕ) :
    (d.set v g w).name = (d w).name := by
  rw [Devtree.set_apply]
  split_ifs with hw
  · rw [h, hw]
  · rfl

theorem devtreeAddChild_name (d : Devtree) (parent child w : ℕ) : (devtreeAddChild d parent child w).name = (d w).name := by
  have hset : ∀ (d : Devtree) v g, (∀ n, (g n).name = n.name) → (d.set v g w).name = (d w).name :=
    fun d v g h => Devtree.name_set h w
  unfold devtreeAddChild
  rw [hset, hset, hset]
  all_goals exact fun n => rfl

theorem asked_addNode (parent : ℕ) : (s.addNode grants parent x name).asked = s.asked + 1 := by
  rw [PciScan.addNode]
  split_ifs <;> rfl

theorem addNode_of_not (h : ¬ grants s.asked = true) (parent : ℕ) :
    s.addNode grants parent x name = { s with asked := s.asked + 1 } := if_neg h

/-- A node that is asked for elsewhere leaves the children as they are. -/
theorem GeoNodes.keep {s' : PciScan} {ks : List ℕ} (h : GeoNodes s xs ks)
    (hfirst : (s'.nodes pciDevtreeGeoRoot).firstChild = (s.nodes pciDevtreeGeoRoot).firstChild)
    (hold : ∀ v, v < pciNode s.asked → pciNode 0 ≤ v → (s'.nodes v).nextSibling = (s.nodes v).nextSibling ∧
      s'.devices v = s.devices v ∧ (s'.nodes v).name = (s.nodes v).name)
    (hasked : s.asked ≤ s'.asked) : GeoNodes s' xs ks := by
  have hks : ∀ v ∈ ks, _ := fun v hv => hold v (h.granted v hv).1 (h.granted v hv).2
  refine ⟨?_, ?_, ?_, fun v hv => ?_⟩
  · rw [hfirst]
    exact h.chain.congr fun v hv => (hks v hv).1
  · rw [← h.devices]
    exact List.map_congr_left fun v hv => (hks v hv).2.1
  · rw [← h.names]
    exact List.map_congr_left fun v hv => (hks v hv).2.2
  · have hv' := h.granted v hv
    unfold pciNode at hv' ⊢
    omega

/-- The fields of the nodes when one has been added. -/
theorem addNode_fields (hgrant : grants s.asked = true) (parent v : ℕ) :
    ((s.addNode grants parent x name).nodes v).nextSibling =
        (if v = pciNode s.asked then
            ((s.nodes.set (pciNode s.asked) fun _ => ⟨name, none, none, none, name.2⟩) parent).firstChild
          else (s.nodes v).nextSibling) ∧
      ((s.addNode grants parent x name).nodes v).firstChild =
        (if v = parent then some (pciNode s.asked) else if v = pciNode s.asked then none else (s.nodes v).firstChild) ∧
      ((s.addNode grants parent x name).nodes v).name = (if v = pciNode s.asked then name.1 else (s.nodes v).name) ∧
      (s.addNode grants parent x name).devices v = if v = pciNode s.asked then some x else s.devices v := by
  rw [PciScan.addNode, if_pos hgrant]
  dsimp only
  rw [devtreeAddChild_name, (devtreeAddChild_fields parent (pciNode s.asked) v).1,
    (devtreeAddChild_fields parent (pciNode s.asked) v).2.1, Devtree.set_apply, Function.update_apply]
  by_cases hv : v = pciNode s.asked
  · simp [hv, Devtree.set_apply]
  · simp [hv, Devtree.set_apply]

theorem GeoNodes.addId {ks : List ℕ} (h : GeoNodes s xs ks) (grants : ℕ → Bool) (x : PciDevtree) (name : {s : Str // 0 ∉ s}) :
    GeoNodes (s.addNode grants pciDevtreeIdRoot x name) xs ks := by
  by_cases hgrant : grants s.asked = true
  · refine h.keep ?_ (fun v hlt _ => ?_) ?_
    · rw [(addNode_fields hgrant _ _).2.1, if_neg (by decide), if_neg]
      unfold pciDevtreeGeoRoot pciNode
      omega
    · have hne : v ≠ pciNode s.asked := Nat.ne_of_lt hlt
      obtain ⟨hnext, -, hname, hdevice⟩ := @addNode_fields grants s x name hgrant pciDevtreeIdRoot v
      rw [hnext, hname, hdevice, if_neg hne, if_neg hne, if_neg hne]
      exact ⟨rfl, rfl, rfl⟩
    · rw [asked_addNode]
      exact Nat.le_succ _
  · rw [addNode_of_not hgrant]
    exact h.keep rfl (fun v _ _ => ⟨rfl, rfl, rfl⟩) (Nat.le_succ _)

theorem GeoNodes.addGeo {ks : List ℕ} (h : GeoNodes s xs ks) (grants : ℕ → Bool) (x : PciDevtree) : ∃ ks',
    GeoNodes (s.addNode grants pciDevtreeGeoRoot x ⟨x.geoName, x.zero_notMem_geoName⟩)
      (if grants s.asked = true then x :: xs else xs) ks' := by
  by_cases hgrant : grants s.asked = true
  · rw [if_pos hgrant]
    have hfields := @addNode_fields grants s x ⟨x.geoName, x.zero_notMem_geoName⟩ hgrant pciDevtreeGeoRoot
    have hold : ∀ v ∈ ks, v ≠ pciNode s.asked := fun v hv => Nat.ne_of_lt (h.granted v hv).1
    have hgeo : pciDevtreeGeoRoot ≠ pciNode s.asked := by
      unfold pciDevtreeGeoRoot pciNode
      omega
    refine ⟨pciNode s.asked :: ks, ⟨?_, ?_⟩, ?_, ?_, fun v hv => ?_⟩
    · rw [(hfields _).2.1, if_pos rfl]
    · dsimp only
      rw [(hfields _).1, if_pos rfl, Devtree.set_apply, if_neg hgeo]
      exact h.chain.congr fun v hv => by rw [(hfields v).1, if_neg (hold v hv)]
    · rw [List.map_cons, List.map_cons, (hfields _).2.2.2, if_pos rfl, ← h.devices]
      congr 1
      exact List.map_congr_left fun v hv => by rw [(hfields v).2.2.2, if_neg (hold v hv)]
    · rw [List.map_cons, List.map_cons, (hfields _).2.2.1, if_pos rfl, ← h.names]
      congr 1
      exact List.map_congr_left fun v hv => by rw [(hfields v).2.2.1, if_neg (hold v hv)]
    · rw [asked_addNode]
      rcases List.mem_cons.mp hv with rfl | hv
      · unfold pciNode
        omega
      · have hv' := h.granted v hv
        unfold pciNode at hv' ⊢
        omega
  · rw [if_neg hgrant, addNode_of_not hgrant]
    exact ⟨ks, h.keep rfl (fun v _ _ => ⟨rfl, rfl, rfl⟩) (Nat.le_succ _)⟩

/-- The function that a call finds. -/
def PciCall.found (regs : PciRegisters) : PciCall → Option PciDevtree
  | .func b d f => if (pciDevice regs b d f).vid = 0xFFFF then none else some (pciDevice regs b d f)
  | _ => none

def pciFound (regs : PciRegisters) (l : List PciCall) : List PciDevtree := l.filterMap (PciCall.found regs)

/-- Those of the functions whose nodes are granted, from the `k`th node on. -/
def pciGranted (grants : ℕ → Bool) : (k : ℕ) → List PciDevtree → List PciDevtree
  | _, [] => []
  | k, x :: xs => if grants k = true then x :: pciGranted grants (k + 2) xs else pciGranted grants (k + 2) xs

theorem pciGranted_append (k : ℕ) (xs ys : List PciDevtree) :
    pciGranted grants k (xs ++ ys) = pciGranted grants k xs ++ pciGranted grants (k + 2 * xs.length) ys := by
  induction xs generalizing k with
  | nil => rfl
  | cons x xs ih =>
    have hk : k + 2 * (x :: xs).length = k + 2 + 2 * xs.length := by
      rw [List.length_cons]
      omega
    rw [List.cons_append, pciGranted, pciGranted, ih, hk]
    split_ifs <;> rfl

theorem pciFound_append (l l' : List PciCall) : pciFound regs (l ++ l') = pciFound regs l ++ pciFound regs l' := by
  rw [pciFound, List.filterMap_append]
  rfl

theorem pciFound_absent {bus dev func : BitVec 8} (h : (pciDevice regs bus dev func).vid = 0xFFFF) :
    pciFound regs [.func bus dev func] = [] := List.filterMap_cons_none (if_pos h)

theorem pciFound_present {bus dev func : BitVec 8} (h : (pciDevice regs bus dev func).vid ≠ 0xFFFF) :
    pciFound regs [.func bus dev func] = [pciDevice regs bus dev func] := List.filterMap_cons_some (if_neg h)

theorem asked_effect (call : PciCall) (s : PciScan) :
    (call.effect regs grants s).asked = s.asked + 2 * (pciFound regs [call]).length := by
  cases call with
  | bus | dev => rfl
  | func bus dev func =>
    by_cases hvid : (pciDevice regs bus dev func).vid = 0xFFFF
    · rw [effect_func_absent hvid, pciFound_absent hvid]
      rfl
    · have heffect : (PciCall.func bus dev func).effect regs grants s = _ := if_neg hvid
      rw [heffect, pciFound_present hvid, asked_addNode, asked_addNode]
      rfl

/-- A call adds a node for the function that it finds, if its memory is granted. -/
theorem geoNodes_effect (call : PciCall) {ks : List ℕ} (h : GeoNodes s xs ks) :
    ∃ ks', GeoNodes (call.effect regs grants s) ((pciGranted grants s.asked (pciFound regs [call])).reverse ++ xs) ks' := by
  cases call with
  | bus bus => exact ⟨ks, h.keep rfl (fun v _ _ => ⟨rfl, rfl, rfl⟩) (Nat.le_refl _)⟩
  | dev bus dev => exact ⟨ks, h⟩
  | func bus dev func =>
    by_cases hvid : (pciDevice regs bus dev func).vid = 0xFFFF
    · rw [effect_func_absent hvid, pciFound_absent hvid]
      exact ⟨ks, h⟩
    · have heffect : (PciCall.func bus dev func).effect regs grants s = _ := if_neg hvid
      obtain ⟨ks', h'⟩ := h.addGeo grants (pciDevice regs bus dev func)
      have hxs : (pciGranted grants s.asked [pciDevice regs bus dev func]).reverse ++ xs =
          if grants s.asked = true then pciDevice regs bus dev func :: xs else xs := by
        rw [pciGranted]
        split_ifs <;> rfl
      rw [heffect, pciFound_present hvid, hxs]
      exact ⟨ks', h'.addId grants _ _⟩

/-- A list of calls adds a node for each function that it finds, in front of the others. -/
theorem geoNodes_pciEffects (l : List PciCall) {ks : List ℕ} (h : GeoNodes s xs ks) :
    ∃ ks', GeoNodes (pciEffects regs grants l s) ((pciGranted grants s.asked (pciFound regs l)).reverse ++ xs) ks' := by
  induction l generalizing s xs ks with
  | nil => exact ⟨ks, h⟩
  | cons call l ih =>
    obtain ⟨ks₁, h₁⟩ := @geoNodes_effect regs grants _ _ call _ h
    obtain ⟨ks₂, h₂⟩ := ih h₁
    have hfound := @pciFound_append regs [call] l
    rw [List.singleton_append] at hfound
    rw [asked_effect, ← List.append_assoc, ← List.reverse_append, ← pciGranted_append, ← hfound] at h₂
    exact ⟨ks₂, h₂⟩

end Nodes

/-! The buses that are scanned. -/

def pciHostAbsent (regs : PciRegisters) (func : BitVec 8) : Bool := pciReadVid regs 0 0 func = 0xFFFF

/-- Bus 0, or the buses up to the first function of device 00:00 that is there. -/
def pciScannedHosts (regs : PciRegisters) : List (BitVec 8) :=
  if ¬ PciMulti regs 0 0 then [0]
  else ((List.range' 0 8).map (BitVec.ofNat 8)).takeWhile (pciHostAbsent regs)

/-- The state when the root node of the PCI devices is in its place. -/
def pciRooted (d : Devtree) : PciScan :=
  { pciStart d with nodes := devtreeAddChild (pciStart d).nodes devtreeRoot pciDevtreeRoot }

section Hosts

variable {regs : PciRegisters} {grants : ℕ → Bool} {fuel : ℕ} {d : Devtree} {l l' : List PciCall} {x : PciDevtree}
  {hosts : List (BitVec 8)}

theorem pciHostLoop_eq (n func : ℕ) : pciHostLoop regs grants fuel n func = Comp.forList (PciCall.run regs grants fuel)
    ((((List.range' func n).map (BitVec.ofNat 8)).takeWhile (pciHostAbsent regs)).map .bus) := by
  induction n generalizing func with
  | zero => rfl
  | succ n ih =>
    rw [pciHostLoop, List.range'_succ, List.map_cons]
    by_cases hvid : pciReadVid regs 0 0 (BitVec.ofNat 8 func) = 0xFFFF
    · have habsent : pciHostAbsent regs (BitVec.ofNat 8 func) = true := decide_eq_true hvid
      rw [if_neg (not_not_intro hvid), List.takeWhile_cons_of_pos habsent, List.map_cons, Comp.forList_cons, ih]
      rfl
    · have hpresent : ¬ pciHostAbsent regs (BitVec.ofNat 8 func) = true := fun h => hvid (of_decide_eq_true h)
      rw [if_pos hvid, List.takeWhile_cons_of_neg hpresent]
      rfl

theorem pciInit_eq (d : Devtree) : pciInit regs grants fuel (pciStart d) =
    Comp.forList (PciCall.run regs grants fuel) ((pciScannedHosts regs).map .bus) (pciRooted d) := by
  rw [pciInit, Comp.modify_bind, pciScannedHosts, pciHostLoop_eq]
  split_ifs
  · rfl
  · rw [List.map_singleton, Comp.forList_cons, Comp.forList_nil, bind_pure_unit]
    rfl

/-- A run of `pci_init` that returns has made the calls of the graph, and where they come to an end it returns. -/
theorem pciInit_iff (s : PciScan) : (∃ fuel, pciInit regs grants fuel (pciStart d) = some ((), s)) ↔
    ∃ l, Calls (PciCall.next regs) ((pciScannedHosts regs).map .bus) l ∧ s = pciEffects regs grants l (pciRooted d) := by
  constructor
  · rintro ⟨fuel, hrun⟩
    rw [pciInit_eq] at hrun
    exact calls_of_runs (fun call _ => calls_of_run fuel call) hrun
  · rintro ⟨l, hl, rfl⟩
    obtain ⟨N, hN⟩ := @run_of_calls regs grants _ _ hl
    exact ⟨N, (pciInit_eq d).trans (hN N (Nat.le_refl N) _)⟩

theorem geoNodes_pciRooted (d : Devtree) : GeoNodes (pciRooted d) [] [] := by
  refine ⟨?_, rfl, rfl, fun v hv => absurd hv List.not_mem_nil⟩
  exact (devtreeAddChild_fields devtreeRoot pciDevtreeRoot pciDevtreeGeoRoot).2.1

/-- `pci_init` enumerates what the nodes are granted for of what its calls find. -/
theorem enumerates_iff : Enumerates regs grants d ↔ ∃ l, Calls (PciCall.next regs) ((pciScannedHosts regs).map .bus) l ∧
    (pciGranted grants 0 (pciFound regs l)).Nodup ∧
    ∀ x, x ∈ pciGranted grants 0 (pciFound regs l) ↔ x ∈ pciFunctions regs := by
  have hnodes : ∀ l, ∃ ks,
      GeoNodes (pciEffects regs grants l (pciRooted d)) (pciGranted grants 0 (pciFound regs l)).reverse ks := by
    intro l
    obtain ⟨ks, hks⟩ := @geoNodes_pciEffects regs grants _ _ l _ (geoNodes_pciRooted d)
    rw [List.append_nil] at hks
    exact ⟨ks, hks⟩
  constructor
  · rintro ⟨fuel, s, xs, hrun, ⟨ks, hchain, hdevices, -⟩, hnodup, hmem⟩
    obtain ⟨l, hl, rfl⟩ := (pciInit_iff s).mp ⟨fuel, hrun⟩
    obtain ⟨ks', hks'⟩ := hnodes l
    obtain rfl := hchain.unique hks'.chain
    obtain rfl := List.map_injective_iff.mpr (Option.some_injective _) (hdevices.symm.trans hks'.devices)
    refine ⟨l, hl, List.nodup_reverse.mp hnodup, fun x => ?_⟩
    rw [← hmem x, List.mem_reverse]
  · rintro ⟨l, hl, hnodup, hmem⟩
    obtain ⟨ks, hks⟩ := hnodes l
    obtain ⟨fuel, hrun⟩ := (pciInit_iff (pciEffects regs grants l (pciRooted d))).mpr ⟨l, hl, rfl⟩
    refine ⟨fuel, _, _, hrun, ⟨ks, hks.chain, hks.devices, hks.names⟩, List.nodup_reverse.mpr hnodup, fun x => ?_⟩
    rw [List.mem_reverse, hmem x]

theorem mem_pciFound : x ∈ pciFound regs l ↔ ∃ bus dev func, PciCall.func bus dev func ∈ l ∧
    (pciDevice regs bus dev func).vid ≠ 0xFFFF ∧ x = pciDevice regs bus dev func := by
  rw [pciFound, List.mem_filterMap]
  constructor
  · rintro ⟨call, hcall, hx⟩
    cases call with
    | bus | dev => cases hx
    | func bus dev func =>
      by_cases hvid : (pciDevice regs bus dev func).vid = 0xFFFF
      · cases (if_pos hvid).symm.trans hx
      · exact ⟨bus, dev, func, hcall, hvid, Option.some.inj (hx.symm.trans (if_neg hvid))⟩
  · rintro ⟨bus, dev, func, hcall, hvid, rfl⟩
    exact ⟨_, hcall, if_neg hvid⟩

/-- The calls find the functions on the buses that bridges lead to. -/
theorem mem_pciFound_calls (hl : Calls (PciCall.next regs) (hosts.map .bus) l) : x ∈ pciFound regs l ↔
    ∃ bus dev func, PciReach regs hosts bus ∧ PciExists regs bus dev func ∧ x = pciDevice regs bus dev func := by
  rw [mem_pciFound]
  constructor
  · rintro ⟨bus, dev, func, hcall, hvid, rfl⟩
    have hreached := called_iff.mp (hl.mem_iff.mp hcall)
    exact ⟨bus, dev, func, hreached.1, hreached.exists hvid, rfl⟩
  · rintro ⟨bus, dev, func, hbus, hexists, rfl⟩
    have hvid := hexists.present
    rw [pciReadVid_eq] at hvid
    exact ⟨bus, dev, func, hl.mem_iff.mpr (called_iff.mpr (hexists.reached hbus)), hvid, rfl⟩

/-- Different functions are found. -/
theorem nodup_pciFound (h : l.Nodup) : (pciFound regs l).Nodup := by
  have hcall : ∀ {call : PciCall} {x : PciDevtree}, x ∈ call.found regs → call = .func x.bus x.dev x.func := by
    intro call x hx
    cases call with
    | bus | dev => cases hx
    | func bus dev func =>
      by_cases hvid : (pciDevice regs bus dev func).vid = 0xFFFF
      · cases (if_pos hvid).symm.trans hx
      · obtain rfl : x = pciDevice regs bus dev func := Option.some.inj (hx.symm.trans (if_neg hvid))
        rfl
  exact h.filterMap fun call call' x hx hx' => (hcall hx).trans (hcall hx').symm

end Hosts

section Granted

variable {grants : ℕ → Bool} {xs : List PciDevtree}

theorem pciGranted_sublist (k : ℕ) (xs : List PciDevtree) : (pciGranted grants k xs).Sublist xs := by
  induction xs generalizing k with
  | nil => exact List.Sublist.refl _
  | cons x xs ih =>
    rw [pciGranted]
    split_ifs
    · exact (ih _).cons_cons x
    · exact (ih _).cons x

theorem pciGranted_eq_iff (k : ℕ) (xs : List PciDevtree) :
    pciGranted grants k xs = xs ↔ ∀ i < xs.length, grants (k + 2 * i) = true := by
  induction xs generalizing k with
  | nil => exact ⟨fun _ i hi => absurd hi (Nat.not_lt_zero _), fun _ => rfl⟩
  | cons x xs ih =>
    rw [pciGranted]
    constructor
    · intro h i hi
      split_ifs at h with hk
      · cases i with
        | zero => exact hk
        | succ i =>
          have hrest := (ih (k + 2)).mp (List.cons.inj h).2 i (Nat.lt_of_succ_lt_succ hi)
          rwa [Nat.add_assoc, Nat.add_comm 2, ← Nat.mul_succ] at hrest
      · have hlen := (@pciGranted_sublist grants (k + 2) xs).length_le
        rw [h, List.length_cons] at hlen
        omega
    · intro h
      have hk : grants k = true := h 0 (Nat.succ_pos _)
      rw [if_pos hk, (ih (k + 2)).mpr fun i hi => ?_]
      have hrest := h (i + 1) (Nat.succ_lt_succ hi)
      rwa [Nat.mul_succ, Nat.add_comm (2 * i), ← Nat.add_assoc] at hrest

end Granted

section Enumeration

variable {regs : PciRegisters} {grants : ℕ → Bool} {d : Devtree} {hosts : List (BitVec 8)} {bus : BitVec 8}

/-- The buses up to the first one that does not pass the test. -/
theorem mem_takeWhile_range {p : BitVec 8 → Bool} {n lo : ℕ} (h : lo + n ≤ 256) :
    bus ∈ ((List.range' lo n).map (BitVec.ofNat 8)).takeWhile p ↔
      lo ≤ bus.toNat ∧ bus.toNat < lo + n ∧ ∀ func : BitVec 8, lo ≤ func.toNat → func.toNat ≤ bus.toNat → p func = true := by
  induction n generalizing lo with
  | zero =>
    refine ⟨fun hmem => absurd hmem List.not_mem_nil, fun ⟨hle, hlt, _⟩ => ?_⟩
    omega
  | succ n ih =>
    have hlo : (BitVec.ofNat 8 lo).toNat = lo := by
      rw [BitVec.toNat_ofNat]
      omega
    have hself : ∀ func : BitVec 8, func.toNat = lo → func = BitVec.ofNat 8 lo := by
      intro func hfunc
      exact BitVec.eq_of_toNat_eq (hfunc.trans hlo.symm)
    rw [List.range'_succ, List.map_cons]
    by_cases hp : p (BitVec.ofNat 8 lo) = true
    · rw [List.takeWhile_cons_of_pos hp, List.mem_cons, ih (by omega)]
      constructor
      · rintro (rfl | ⟨hle, hlt, hall⟩)
        · refine ⟨hlo.ge, by omega, fun func hle hle' => ?_⟩
          rwa [hself func (by omega)]
        · refine ⟨by omega, by omega, fun func hle' hle'' => ?_⟩
          rcases Nat.eq_or_lt_of_le hle' with heq | hlt'
          · rwa [hself func heq.symm]
          · exact hall func hlt' hle''
      · rintro ⟨hle, hlt, hall⟩
        rcases Nat.eq_or_lt_of_le hle with heq | hlt'
        · exact .inl (hself bus heq.symm)
        · exact .inr ⟨hlt', by omega, fun func hle' => hall func (by omega)⟩
    · rw [List.takeWhile_cons_of_neg hp]
      refine ⟨fun hmem => absurd hmem List.not_mem_nil, fun ⟨hle, _, hall⟩ => ?_⟩
      exact absurd (hall (BitVec.ofNat 8 lo) hlo.ge (hlo.trans_le hle)) hp

theorem pciHosts_of_not (h : ¬ (pciReadVid regs 0 0 0 ≠ 0xFFFF ∧ PciMulti regs 0 0)) : pciHosts regs = [0] := if_neg h

/-- The buses that are scanned where there is no device 00:00. -/
theorem pciScannedHosts_absent (hmulti : PciMulti regs 0 0) (habsent : pciReadVid regs 0 0 0 = 0xFFFF) :
    ∃ extras, pciScannedHosts regs = 0 :: extras ∧ extras.Nodup ∧ ∀ bus, bus ∈ extras ↔ bus ≠ 0 ∧ bus.toNat < 8 ∧
      ∀ func : BitVec 8, func.toNat ≤ bus.toNat → pciReadVid regs 0 0 func = 0xFFFF := by
  have hscan : pciScannedHosts regs = ((List.range' 0 8).map (BitVec.ofNat 8)).takeWhile (pciHostAbsent regs) :=
    if_neg (not_not_intro hmulti)
  have hfirst : pciHostAbsent regs (BitVec.ofNat 8 0) = true := decide_eq_true habsent
  have hnodup : (pciScannedHosts regs).Nodup := by
    rw [hscan]
    exact (List.takeWhile_sublist _).nodup (by decide)
  rw [List.range'_succ, List.map_cons, List.takeWhile_cons_of_pos hfirst] at hscan
  refine ⟨_, hscan, (List.nodup_cons.mp (hscan ▸ hnodup)).2, fun bus => ?_⟩
  rw [mem_takeWhile_range (by decide)]
  have hne : 0 + 1 ≤ bus.toNat ↔ bus ≠ 0 := by
    constructor
    · rintro hpos rfl
      exact absurd hpos (by decide)
    · intro hne
      exact Nat.pos_of_ne_zero fun hzero => hne (BitVec.eq_of_toNat_eq hzero)
  rw [hne]
  refine and_congr_right fun _ => and_congr Iff.rfl ⟨fun hall func hle => ?_, fun hall func _ hle => ?_⟩
  · by_cases hzero : func = 0
    · rwa [hzero]
    · have hpos : func.toNat ≠ 0 := fun h => hzero (BitVec.eq_of_toNat_eq h)
      exact of_decide_eq_true (hall func (by omega) hle)
  · exact decide_eq_true (hall func hle)

/-- From buses without devices no bridge leads anywhere. -/
theorem PciReach.mem_of_empty (h : PciReach regs hosts bus)
    (hempty : ∀ bus ∈ hosts, ∀ dev func, ¬ PciExists regs bus dev func) : bus ∈ hosts := by
  induction h with
  | host h => exact h
  | bridge _ hb ih => exact absurd hb.1 (hempty _ ih _ _)

theorem pciForest_empty (hnodup : hosts.Nodup) (hempty : ∀ bus ∈ hosts, ∀ dev func, ¬ PciExists regs bus dev func) :
    PciForest regs hosts := by
  refine ⟨hnodup, fun bus dev func sec h hb => ?_, fun bus dev func _ _ _ sec h _ hb => ?_⟩
  · exact absurd hb.1 (hempty bus (h.mem_of_empty hempty) dev func)
  · exact absurd hb.1 (hempty bus (h.mem_of_empty hempty) dev func)

/-- Where the right buses are scanned, each function is found once. -/
theorem HostsScanned.calls (h : HostsScanned regs) (hforest : PciForest regs (pciHosts regs)) :
    ∃ l, Calls (PciCall.next regs) ((pciScannedHosts regs).map .bus) l ∧ (pciFound regs l).Nodup ∧
      ∀ x, x ∈ pciFound regs l ↔ x ∈ pciFunctions regs := by
  obtain ⟨l, hl⟩ := hforest.calls.exists_calls
  have hnodup := @nodup_pciFound regs _ (hforest.calls.nodup_calls hl)
  have hmem : ∀ x, x ∈ pciFound regs l ↔ x ∈ pciFunctions regs := fun x => mem_pciFound_calls hl
  by_cases hmulti : PciMulti regs 0 0
  · obtain ⟨habsent, hempty⟩ := h.resolve_left (not_not_intro hmulti)
    obtain ⟨extras, hscan, hextras, hmemExtras⟩ := pciScannedHosts_absent hmulti habsent
    have hnone : ∀ bus ∈ extras, ∀ dev func, ¬ PciExists regs bus dev func := by
      intro bus hbus
      obtain ⟨hne, hlt, hall⟩ := (hmemExtras bus).mp hbus
      exact hempty bus hne hlt hall
    obtain ⟨l', hl'⟩ := (pciForest_empty hextras hnone).calls.exists_calls
    have hfound : pciFound regs l' = [] := by
      refine List.eq_nil_iff_forall_not_mem.mpr fun x hx => ?_
      obtain ⟨bus, dev, func, hreach, hexists, -⟩ := (mem_pciFound_calls hl').mp hx
      exact hnone bus (hreach.mem_of_empty hnone) dev func hexists
    rw [pciHosts_of_not fun hc => hc.1 habsent] at hl
    refine ⟨l ++ l', ?_, ?_⟩
    · rw [hscan]
      exact hl.append hl'
    · rw [pciFound_append, hfound, List.append_nil]
      exact ⟨hnodup, hmem⟩
  · rw [pciHosts_of_not fun hc => hmulti hc.2] at hl
    refine ⟨l, ?_, hnodup, hmem⟩
    rw [pciScannedHosts, if_pos hmulti]
    exact hl

/-- Where the right buses are scanned, the nodes are those of all functions when they are granted. -/
theorem HostsScanned.enumerates_iff (h : HostsScanned regs) (hforest : PciForest regs (pciHosts regs)) :
    Enumerates regs grants d ↔ GeoGranted regs grants := by
  obtain ⟨l, hl, hnodup, hmem⟩ := h.calls hforest
  have hcard : (pciFunctions regs).ncard = (pciFound regs l).length := by
    have hset : pciFunctions regs = ((pciFound regs l).toFinset : Set PciDevtree) := by
      ext x
      rw [List.coe_toFinset]
      exact (hmem x).symm
    rw [hset, Set.ncard_coe_finset, List.toFinset_card_of_nodup hnodup]
  have hgranted : GeoGranted regs grants ↔ pciGranted grants 0 (pciFound regs l) = pciFound regs l := by
    rw [pciGranted_eq_iff, GeoGranted, hcard]
    simp only [Nat.zero_add]
  rw [hgranted, SysX.enumerates_iff]
  constructor
  · rintro ⟨l', hl', -, hmem'⟩
    obtain rfl := hl.unique hl'
    refine (pciGranted_sublist 0 _).eq_of_length_le ?_
    exact (hnodup.subperm fun x hx => (hmem' x).mpr ((hmem x).mp hx)).length_le
  · intro heq
    refine ⟨l, hl, ?_, ?_⟩
    · rwa [heq]
    · rwa [heq]

/-- The right buses are scanned where the nodes are those of all functions. -/
theorem Enumerates.hostsScanned (h : Enumerates regs (fun _ => true) d) : HostsScanned regs := by
  obtain ⟨l, hl, hnodup, hmem⟩ := SysX.enumerates_iff.mp h
  have hall : pciGranted (fun _ => true) 0 (pciFound regs l) = pciFound regs l := (pciGranted_eq_iff _ _).mpr fun _ _ => rfl
  rw [hall] at hnodup hmem
  by_cases hmulti : PciMulti regs 0 0
  · right
    have habsent : pciReadVid regs 0 0 0 = 0xFFFF := by
      by_contra hpresent
      have hscan : pciScannedHosts regs = [] := by
        rw [pciScannedHosts, if_neg (not_not_intro hmulti)]
        exact List.takeWhile_cons_of_neg fun hc => hpresent (of_decide_eq_true hc)
      rw [hscan] at hl
      cases hl
      have hhost : (0 : BitVec 8) ∈ pciHosts regs := by
        rw [pciHosts, if_pos ⟨hpresent, hmulti⟩]
        exact List.mem_filter.mpr ⟨by decide, decide_eq_true hpresent⟩
      exact absurd ((hmem _).mpr ⟨0, 0, 0, .host hhost, ⟨by decide, by decide, hpresent, .inl rfl⟩, rfl⟩) List.not_mem_nil
    refine ⟨habsent, fun bus hne hlt hbus dev func hexists => ?_⟩
    obtain ⟨extras, hscan, -, hmemExtras⟩ := pciScannedHosts_absent hmulti habsent
    rw [hscan] at hl
    obtain ⟨l₁, l₂, hl₁, hl₂, rfl⟩ := @Calls.split _ _ [PciCall.bus 0] _ _ hl
    rw [pciFound_append] at hnodup hmem
    have hin₂ : pciDevice regs bus dev func ∈ pciFound regs l₂ :=
      (mem_pciFound_calls hl₂).mpr ⟨bus, dev, func, .host ((hmemExtras bus).mpr ⟨hne, hlt, hbus⟩), hexists, rfl⟩
    have hexpected := (hmem _).mp (List.mem_append_right _ hin₂)
    have hin₁ : pciDevice regs bus dev func ∈ pciFound regs l₁ := by
      refine (@mem_pciFound_calls regs l₁ _ [0] hl₁).mpr ?_
      rw [← pciHosts_of_not fun hc => hc.1 habsent]
      exact hexpected
    exact (List.nodup_append'.mp hnodup).2.2 hin₁ hin₂
  · exact .inl hmulti

end Enumeration

/-- Where the bridges form a forest, and with enough memory, there is one node for each function exactly when the header of
device 00:00 does not call it a multifunction device, or there is no such device and the buses that are scanned beside bus 0
are empty. In these cases it takes the memory for the node of every function. -/
theorem pci_init_iff (regs : PciRegisters) (d : Devtree) (hforest : PciForest regs (pciHosts regs)) :
    (Enumerates regs (fun _ => true) d ↔ HostsScanned regs) ∧
      (HostsScanned regs → ∀ grants, Enumerates regs grants d ↔ GeoGranted regs grants) :=
  ⟨⟨Enumerates.hostsScanned, fun h => (h.enumerates_iff hforest).mpr fun _ _ => rfl⟩,
    fun h _ => h.enumerates_iff hforest⟩

/-- A function at every place, none of which is a bridge. The header type is that of one function. -/
def plainFunctions : PciRegisters := fun _ => 0

/-- The same with the header type of a multifunction device. -/
def multiFunctions : PciRegisters := fun _ => 0x00800000

theorem pciForest_of_not_bridge {regs : PciRegisters} {hosts : List (BitVec 8)} (hnodup : hosts.Nodup)
    (h : ∀ bus dev func, ¬ (pciDevice regs bus dev func).IsBridge) : PciForest regs hosts :=
  ⟨hnodup, fun bus dev func _ _ hb => absurd hb.2.1 (h bus dev func),
    fun bus dev func _ _ _ _ _ _ hb => absurd hb.2.1 (h bus dev func)⟩

theorem cls_const (c : BitVec 32) (bus dev func : BitVec 8) :
    (pciDevice (fun _ => c) bus dev func).cls = (pciDevice (fun _ => c) 0 0 0).cls := rfl

theorem pci_init_iff_plain : (Enumerates plainFunctions (fun _ => true) emptyScan.nodes ↔ HostsScanned plainFunctions) ∧
    (HostsScanned plainFunctions →
      ∀ grants, Enumerates plainFunctions grants emptyScan.nodes ↔ GeoGranted plainFunctions grants) :=
  pci_init_iff plainFunctions emptyScan.nodes
    (pciForest_of_not_bridge (by decide) fun bus dev func h => absurd ((cls_const 0 bus dev func).symm.trans h.1) (by decide))

/-- With several host controllers no bus is scanned at all. -/
theorem pci_init_multi : PciForest multiFunctions (pciHosts multiFunctions) ∧
    ¬ Enumerates multiFunctions (fun _ => true) emptyScan.nodes := by
  refine ⟨pciForest_of_not_bridge (by decide) fun bus dev func h => ?_, fun h => ?_⟩
  · exact absurd ((cls_const 0x00800000 bus dev func).symm.trans h.1) (by decide)
  rcases h.hostsScanned with hmulti | ⟨habsent, -⟩
  · exact hmulti (by decide)
  · exact absurd habsent (by decide)

end SysX
