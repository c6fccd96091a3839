import SysX.IoapicMask
import SysX.Lib.Largest
import SysX.TablePasses

/-!
The interrupt vectors of the GSIs and of the LAPIC timer (`apic_init`). The memory that it asks for is granted. What follows
the loop over the IOAPICs is modelled for a MADT only: the interrupt assignments of an MP configuration table are treated with
`pci_arch_route_irq`.
-/
namespace SysX

/-- What `apic_init` reads the processors and the IOAPICs from. -/
inductive ApicSource
  | madt (t : Madt)
  | mp (entries : List MpEntry)
  | default

structure ApicMachine where
  bspApicId : UInt8
  mapped : ℕ → Bool
  ioapicVer : ℕ → ℕ

namespace ApicSource

def count (source : ApicSource) (fuel lapicBase : ℕ) : Option ApicCounts :=
  match source with
  | .madt t => (madtCount t fuel ⟨0, 0, lapicBase⟩).map Prod.snd
  | .mp entries => some (mpCounts lapicBase entries)
  | .default => some ⟨2, 1, lapicBase⟩

/-- The second pass. The GSI bases for an MP configuration table are set when `max_gsis` is known. -/
def store (source : ApicSource) (hw : ApicHardware) (fuel : ℕ) : Option (Bool × ApicTables) :=
  match source with
  | .madt t => madtStore t hw fuel .start
  | .mp entries => (mpStore hw entries .start).map fun p => (p.1, { p.2 with info := gsiBases 0 p.2.info })
  | .default =>
    let inputs := ioapicInputs (hw.ioapicVer 0)
    some (hw.mapped 0, ⟨[⟨0, 0, inputs⟩], [⟨0, 0⟩, ⟨1, 1⟩], none, inputs.toNat⟩)

end ApicSource

/-- `ioapic_info`, `lapic_handler_vect_base`, which is the vector of the timer, and the writes to the IOAPICs. -/
structure ApicVectors where
  info : List IoapicInfo
  timerVect : UInt8
  writes : List IoapicWrite

/-- The inner result is `none` where `apic_init` gives up. -/
def apicInitVectors (source : ApicSource) (m : ApicMachine) (fuel lapicBase : ℕ) : Option (Option ApicVectors) := do
  let counts ← source.count fuel lapicBase
  let (done, u) ← source.store ⟨counts, m.bspApicId, m.mapped, m.ioapicVer⟩ fuel
  if done then
    let timerVect := UInt8.ofNat (mpVectBase + u.maxGsis)
    let setup : ApicSetup := ⟨UInt8.ofNat, apicSetup m.bspApicId u.info, []⟩
    match source with
    | .madt t => (madtSetup t u fuel setup).map fun p => some ⟨u.info, timerVect, p.2.writes⟩
    | _ => some (some ⟨u.info, timerVect, setup.writes⟩)
  else some none

/-! What the vectors should be. -/

/-- Not below `IOAPIC_HANDLER_VECT_BASE`, and not the vector of system calls, of yielding or of spurious interrupts. -/
def FreeVector (v : ℕ) : Prop := 0x30 ≤ v ∧ v ≠ 0x80 ∧ v ≠ 0x9F ∧ v ≠ 0xFF

instance (v : ℕ) : Decidable (FreeVector v) := inferInstanceAs (Decidable (_ ∧ _))

/-- A write to the entry of the GSI has this vector. The vector of an NMI, which has bit 10 set, is not used. -/
def ApicVectors.Gives (p : ApicVectors) (gsi v : ℕ) : Prop :=
  ∃ w ∈ p.writes, EntryAt p.info gsi w.idx w.regIdx ∧ w.val.testBit 10 = false ∧ v = w.val % 256

structure ApicVectors.Fit (p : ApicVectors) : Prop where
  distinct : ∀ gsi gsi' v, p.Gives gsi v → p.Gives gsi' v → gsi = gsi'
  free : ∀ gsi v, p.Gives gsi v → FreeVector v
  timer : ∀ gsi v, p.Gives gsi v → v ≠ p.timerVect.toNat
  timerFree : FreeVector p.timerVect.toNat

def GsiServed (info : List IoapicInfo) (gsi : ℕ) : Prop := ∃ r ∈ info, r.Serves gsi

/-- A GSI whose vector is free. -/
def FreeGsi (gsi : ℕ) : Prop := gsi ≠ 80 ∧ gsi ≠ 111 ∧ gsi < 207

/-- `max_gsis`: the end of the GSIs, but the largest number of inputs for an MP configuration table. -/
def ApicSource.maxGsis (source : ApicSource) (info : List IoapicInfo) : ℕ :=
  match source with
  | .mp _ => largest (info.map (·.inputs.toNat))
  | _ => largest (info.map fun r => r.gsiBase.toNat + r.inputs.toNat)

/-! `max_gsis` after the second pass. -/

section MaxGsis

variable {hw : ApicHardware} {u : ApicTables}

/-- The end of the GSIs of the records that have been stored. -/
def gsiEnd (info : List IoapicInfo) : ℕ := largest (info.map fun r => r.gsiBase.toNat + r.inputs.toNat)

theorem gsiEnd_concat (info : List IoapicInfo) (r : IoapicInfo) :
    gsiEnd (info ++ [r]) = max (gsiEnd info) (r.gsiBase.toNat + r.inputs.toNat) := by
  rw [gsiEnd, List.map_append, List.map_singleton, largest_concat]
  rfl

/-- An item whose GSI base satisfies `P` leaves only such records. -/
theorem storeItem_keeps {P : UInt8 → Prop} (item : StoreItem) (hitem : ∀ id gsiBase, item = .ioapic id gsiBase → P gsiBase) :
    Comp.Keeps (fun u : ApicTables => u.maxGsis = gsiEnd u.info ∧ ∀ r ∈ u.info, P r.gsiBase) (storeItem hw item) := by
  cases item with
  | cpu cpuId apicId =>
    intro u go v hu hrun
    rw [storeItem_cpu] at hrun
    split_ifs at hrun
    obtain rfl := (Prod.mk.inj (Option.some.inj hrun)).2
    exact hu
  | ioapic id gsiBase =>
    rintro u go v ⟨hmax, hbase⟩ hrun
    rw [storeItem_ioapic] at hrun
    split_ifs at hrun
    · obtain rfl := (Prod.mk.inj (Option.some.inj hrun)).2
      refine ⟨?_, fun r hr => ?_⟩
      · have hend := gsiEnd_concat u.info ⟨id, gsiBase, ioapicInputs (hw.ioapicVer u.info.length)⟩
        rw [← hmax] at hend
        exact hend.symm
      · rcases List.mem_append.mp hr with hr | hr
        · exact hbase r hr
        · obtain rfl := List.mem_singleton.mp hr
          exact hitem id gsiBase rfl
    · obtain rfl := (Prod.mk.inj (Option.some.inj hrun)).2
      exact ⟨hmax, hbase⟩
  | skip => exact Comp.Keeps.pure _ _

theorem visitAll_keeps {σ α : Type} {I : σ → Prop} {visit : α → Comp σ Bool} (h : ∀ a, Comp.Keeps I (visit a)) (as : List α) :
    Comp.Keeps I (visitAll visit as) := by
  induction as with
  | nil => exact Comp.Keeps.pure _ _
  | cons a as ih => exact Comp.Keeps.bind (h a) fun go => Comp.Keeps.ite (fun _ => ih) fun _ => Comp.Keeps.pure _ _

theorem madtWalk_keeps {σ : Type} {I : σ → Prop} {t : Madt} {visit : MadtEntry → Comp σ Bool}
    (h : ∀ e, Comp.Keeps I (visit e)) (fuel e : ℕ) : Comp.Keeps I (madtWalk t visit fuel e) := by
  induction fuel generalizing e with
  | zero => exact Comp.Keeps.fault _
  | succ fuel ih =>
    refine Comp.Keeps.ite (fun _ => ?_) fun _ => Comp.Keeps.pure _ _
    exact Comp.Keeps.bind (h _) fun go => Comp.Keeps.ite (fun _ => ih _) fun _ => Comp.Keeps.pure _ _

theorem inputs_gsiBases (base : UInt8) (info : List IoapicInfo) :
    (gsiBases base info).map IoapicInfo.inputs = info.map IoapicInfo.inputs := by
  induction info generalizing base with
  | nil => rfl
  | cons r rs ih => exact congrArg (r.inputs :: ·) (ih _)

theorem store_maxGsis {source : ApicSource} {fuel : ℕ} (h : source.store hw fuel = some (true, u)) :
    u.maxGsis = source.maxGsis u.info := by
  cases source with
  | madt t =>
    have hkeeps : Comp.Keeps (fun u : ApicTables => u.maxGsis = gsiEnd u.info ∧ ∀ r ∈ u.info, True) (madtStore t hw fuel) := by
      refine madtWalk_keeps (fun e => ?_) _ _
      rw [madtStoreEntry_eq]
      exact @storeItem_keeps hw (fun _ => True) e.item fun _ _ _ => trivial
    exact (hkeeps _ _ _ ⟨rfl, fun _ _ => trivial⟩ h).1
  | mp entries =>
    obtain ⟨⟨done, v⟩, hrun, hv⟩ := Option.map_eq_some_iff.mp h
    obtain ⟨rfl, rfl⟩ := Prod.mk.inj hv
    have hkeeps : Comp.Keeps (fun u : ApicTables => u.maxGsis = gsiEnd u.info ∧ ∀ r ∈ u.info, r.gsiBase = 0)
        (mpStore hw entries) := by
      refine visitAll_keeps (fun e => ?_) _
      rw [mpStoreEntry_eq]
      refine @storeItem_keeps hw (fun base => base = 0) e.item fun id gsiBase hitem => ?_
      cases e with
      | ioapic apicId => exact (StoreItem.ioapic.inj hitem).2.symm
      | cpu apicId flags =>
        rw [MpEntry.item] at hitem
        split_ifs at hitem
      | bus | irqAssign | lintAssign | unknown => cases hitem
    obtain ⟨hmax, hbase⟩ := hkeeps _ _ _ ⟨rfl, fun r hr => absurd hr List.not_mem_nil⟩ hrun
    have hinputs : v.info.map (fun r => r.gsiBase.toNat + r.inputs.toNat) =
        (v.info.map IoapicInfo.inputs).map UInt8.toNat := by
      rw [List.map_map]
      refine List.map_congr_left fun r hr => ?_
      rw [hbase r hr]
      exact Nat.zero_add _
    show v.maxGsis = largest ((gsiBases 0 v.info).map fun r => r.inputs.toNat)
    have hmap := congrArg (List.map UInt8.toNat) (inputs_gsiBases 0 v.info)
    rw [List.map_map] at hmap
    rw [hmax, gsiEnd, hinputs, ← hmap]
    rfl
  | default =>
    obtain rfl := (Prod.mk.inj (Option.some.inj h)).2
    show _ = max (0 + _) 0
    rw [Nat.zero_add, Nat.max_zero]

end MaxGsis

/-! What is written. -/

/-- A write to the upper half of an entry, one for an NMI, or one of the vector of a GSI to its entry. -/
inductive VectorWrite (info : List IoapicInfo) : IoapicWrite → Prop
  | high {w : IoapicWrite} (h : w.regIdx.toNat % 2 = 1) : VectorWrite info w
  | nmi {w : IoapicWrite} (h : w.val.testBit 10 = true) : VectorWrite info w
  | vector {w : IoapicWrite} {r : IoapicInfo} {gsi : ℕ} (hr : info[w.idx]? = some r) (hserves : r.Serves gsi)
    (hreg : w.regIdx = ioredtblL (UInt8.ofNat (gsi - r.gsiBase.toNat))) (hval : w.val % 256 = (mpVectBase + gsi) % 256) :
    VectorWrite info w

section Writes

variable {info : List IoapicInfo} {bsp : UInt8} {w : IoapicWrite} {i j gsi : ℕ} {r : IoapicInfo}

theorem mem_apicSetup : w ∈ apicSetup bsp info ↔ ∃ (i : ℕ) (r : IoapicInfo) (j : ℕ), info[i]? = some r ∧ j < r.inputs.toNat ∧
    (w = ⟨i, ioredtblL (UInt8.ofNat j), (0x30 + r.gsiBase + UInt8.ofNat j).toNat ||| lvtMask⟩ ∨
      w = ⟨i, ioredtblH (UInt8.ofNat j), bsp.toNat <<< 24⟩) := by
  simp only [apicSetup, List.mem_flatMap, List.mem_range, List.mem_cons, List.not_mem_nil, or_false]
  constructor
  · rintro ⟨⟨r, i⟩, hp, j, hj, hw⟩
    exact ⟨i, r, j, List.mem_zipIdx_iff_getElem?.mp hp, hj, hw⟩
  · rintro ⟨i, r, j, hr, hj, hw⟩
    exact ⟨(r, i), List.mem_zipIdx_iff_getElem?.mpr hr, j, hj, hw⟩

theorem vector_mod (x : ℕ) : (x ||| lvtMask) % 256 = x % 256 := by
  have h : (x ||| lvtMask) % 2 ^ 8 = x % 2 ^ 8 := by
    rw [Nat.or_mod_two_pow, show lvtMask % 2 ^ 8 = 0 from rfl, Nat.or_zero]
  exact h

theorem trigger_mod (flags : ℕ) (x : ℕ) : (x ||| trigger flags) % 256 = x % 256 := by
  have htrigger : trigger flags % 2 ^ 8 = 0 := by
    unfold trigger
    split_ifs <;> rfl
  have h : (x ||| trigger flags) % 2 ^ 8 = x % 2 ^ 8 := by
    rw [Nat.or_mod_two_pow, htrigger, Nat.or_zero]
  exact h

theorem setup_vector (base : UInt8) (j : ℕ) : (0x30 + base + UInt8.ofNat j).toNat = (mpVectBase + (base.toNat + j)) % 256 := by
  rw [UInt8.toNat_add, UInt8.toNat_add, UInt8.toNat_ofNat']
  show ((48 + base.toNat) % 256 + j % 256) % 256 = (48 + (base.toNat + j)) % 256
  omega

theorem toNat_input {x : ℕ} (h : x < 120) : (UInt8.ofNat x).toNat = x :=
  UInt8.toNat_ofNat_of_lt' (Nat.lt_trans h (by decide))

theorem ioredtblH_odd (x : UInt8) : (ioredtblH x).toNat % 2 = 1 := by
  rw [ioredtblH, UInt8.toNat_add, UInt8.toNat_add, UInt8.toNat_mul]
  show ((16 + x.toNat * 2 % 256) % 256 + 1) % 256 % 2 = 1
  omega

theorem vectorWrite_setup (h : w ∈ apicSetup bsp info) : VectorWrite info w := by
  obtain ⟨i, r, j, hr, hj, rfl | rfl⟩ := mem_apicSetup.mp h
  · have hserves : r.Serves (r.gsiBase.toNat + j) := ⟨Nat.le_add_right _ _, Nat.add_lt_add_left hj _⟩
    refine .vector hr hserves ?_ ?_
    · rw [Nat.add_sub_cancel_left]
    · rw [vector_mod, setup_vector, Nat.mod_mod]
  · exact .high (ioredtblH_odd _)

/-- The loop over the IOAPICs writes the entry of the GSI, if anything. -/
theorem writeEntry_keeps {I : ApicSetup → Prop} {val k : ℕ} (h : ∀ (i : ℕ) (r : IoapicInfo) (s : ApicSetup), info[i]? = some r →
    r.Serves gsi → I s → I { s with writes := s.writes ++ [⟨k + i, ioredtblL (UInt8.ofNat (gsi - r.gsiBase.toNat)), val⟩] }) :
    Comp.Keeps I (writeEntry gsi val k info) := by
  induction info generalizing k with
  | nil => exact Comp.Keeps.pure _ _
  | cons r rs ih =>
    rw [writeEntry]
    refine Comp.Keeps.ite (fun hserves => ?_) fun _ => ih fun i r s hr hserves hs => ?_
    · exact Comp.Keeps.modify fun s hs => h 0 r s rfl hserves hs
    · have hstep := h (i + 1) r s hr hserves hs
      rw [← Nat.add_assoc, Nat.add_right_comm] at hstep
      exact hstep

/-- The third pass adds writes of these kinds only. -/
theorem madtSetupEntry_keeps {tables : ApicTables} {ws : List IoapicWrite} (e : MadtEntry) : Comp.Keeps
    (fun s : ApicSetup => (∀ w ∈ ws, w ∈ s.writes) ∧ ∀ w ∈ s.writes, VectorWrite tables.info w) (madtSetupEntry tables e) := by
  have hwrite : ∀ gsi val, (∀ (i : ℕ) (r : IoapicInfo), tables.info[i]? = some r → r.Serves gsi →
      VectorWrite tables.info ⟨i, ioredtblL (UInt8.ofNat (gsi - r.gsiBase.toNat)), val⟩) → Comp.Keeps
      (fun s : ApicSetup => (∀ w ∈ ws, w ∈ s.writes) ∧ ∀ w ∈ s.writes, VectorWrite tables.info w)
      (writeEntry gsi val 0 tables.info) := by
    intro gsi val hval
    refine writeEntry_keeps fun i r s hr hserves hs => ⟨fun w hw => ?_, fun w hw => ?_⟩
    · exact List.mem_append_left _ (hs.1 w hw)
    · rcases List.mem_append.mp hw with hw | hw
      · exact hs.2 w hw
      · obtain rfl := List.mem_singleton.mp hw
        rw [Nat.zero_add]
        exact hval i r hr hserves
  cases e with
  | ioapicSrcOverride busSrc irqSrc gsi flags =>
    refine Comp.Keeps.ite (fun _ => ?_) fun _ => Comp.Keeps.fault _
    refine Comp.Keeps.bind (Comp.Keeps.modify fun s hs => hs) fun _ => ?_
    refine Comp.Keeps.bind (hwrite _ _ fun i r hr hserves => .vector hr hserves rfl ?_) fun _ => Comp.Keeps.pure _ _
    show (w32 (mpVectBase + gsi) ||| lvtMask ||| trigger flags) % 256 = _
    rw [trigger_mod, vector_mod]
    exact Nat.mod_mod_of_dvd _ (by decide)
  | ioapicNmi flags gsi =>
    refine Comp.Keeps.bind (hwrite _ _ fun i r hr hserves => .nmi ?_) fun _ => Comp.Keeps.pure _ _
    show (2 ||| 1 <<< 10 ||| trigger flags).testBit 10 = true
    rw [Nat.testBit_or, show (2 ||| 1 <<< 10).testBit 10 = true from rfl, Bool.true_or]
  | lapicNmi cpuId flags lint =>
    refine Comp.Keeps.bind (Comp.Keeps.forList (fun cpu => Comp.Keeps.when fun _ => ?_) _) fun _ => Comp.Keeps.pure _ _
    exact Comp.Keeps.modify fun s hs => hs
  | cpuLapic | ioapic | lapicBaseOverride | other => exact Comp.Keeps.pure _ _

end Writes

section Vectors

variable {source : ApicSource} {m : ApicMachine} {fuel lapicBase gsi v : ℕ} {p : ApicVectors} {info : List IoapicInfo}
  {r : IoapicInfo}

/-- What a run of `apic_init` leaves: the vector of the timer, and the writes of the first loop, and others like them. -/
theorem apicInitVectors_run (h : apicInitVectors source m fuel lapicBase = some (some p)) :
    p.timerVect = UInt8.ofNat (mpVectBase + source.maxGsis p.info) ∧
      (∀ w ∈ apicSetup m.bspApicId p.info, w ∈ p.writes) ∧ ∀ w ∈ p.writes, VectorWrite p.info w := by
  obtain ⟨counts, -, h⟩ := Option.bind_eq_some_iff.mp h
  obtain ⟨⟨done, u⟩, hstore, h⟩ := Option.bind_eq_some_iff.mp h
  cases done with
  | false => cases h
  | true =>
    have hmax := store_maxGsis hstore
    have hsetup : ∀ w ∈ apicSetup m.bspApicId u.info, VectorWrite u.info w := fun w hw => vectorWrite_setup hw
    cases source with
    | madt t =>
      obtain ⟨⟨done, s⟩, hrun, hp⟩ := Option.map_eq_some_iff.mp h
      obtain rfl := Option.some.inj hp
      have hkeeps : Comp.Keeps (fun s : ApicSetup => (∀ w ∈ apicSetup m.bspApicId u.info, w ∈ s.writes) ∧
          ∀ w ∈ s.writes, VectorWrite u.info w) (madtSetup t u fuel) := madtWalk_keeps madtSetupEntry_keeps _ _
      exact ⟨by rw [hmax], hkeeps _ _ _ ⟨fun w hw => hw, hsetup⟩ hrun⟩
    | mp entries =>
      obtain rfl := Option.some.inj (Option.some.inj h)
      exact ⟨by rw [hmax], fun w hw => hw, hsetup⟩
    | default =>
      obtain rfl := Option.some.inj (Option.some.inj h)
      exact ⟨by rw [hmax], fun w hw => hw, hsetup⟩

/-- One of the first 120 inputs of an IOAPIC is given the vector of its GSI. -/
theorem gives_of_serves {bsp : UInt8} (hsetup : ∀ w ∈ apicSetup bsp p.info, w ∈ p.writes) (hr : r ∈ p.info)
    (hserves : r.Serves gsi) (hinput : gsi - r.gsiBase.toNat < 120) : p.Gives gsi ((mpVectBase + gsi) % 256) := by
  obtain ⟨i, hi⟩ := List.mem_iff_getElem?.mp hr
  obtain ⟨hlo, hhi⟩ := hserves
  have hgsi : r.gsiBase.toNat + (gsi - r.gsiBase.toNat) = gsi := by omega
  have hj : (UInt8.ofNat (gsi - r.gsiBase.toNat)).toNat = gsi - r.gsiBase.toNat := toNat_input hinput
  have hreg := (ioredtblL_toNat (UInt8.ofNat (gsi - r.gsiBase.toNat))).mpr (by omega)
  rw [hj] at hreg
  refine ⟨_, hsetup _ (mem_apicSetup.mpr ⟨i, r, gsi - r.gsiBase.toNat, hi, by omega, .inl rfl⟩),
    ⟨r, hi, ⟨hlo, hhi⟩, hreg⟩, ?_, ?_⟩
  · have hlt := (0x30 + r.gsiBase + UInt8.ofNat (gsi - r.gsiBase.toNat)).toNat_lt
    rw [Nat.testBit_or, Nat.testBit_lt_two_pow (Nat.lt_of_lt_of_le hlt (by decide))]
    rfl
  · rw [vector_mod, setup_vector, hgsi, Nat.mod_mod]

/-- Where the GSIs are free, an IOAPIC has at most 95 inputs. -/
theorem input_lt (hfree : ∀ gsi, GsiServed info gsi → FreeGsi gsi) (hr : r ∈ info) (hserves : r.Serves gsi) :
    gsi - r.gsiBase.toNat < 120 := by
  have hlast := (hfree gsi ⟨r, hr, hserves⟩).2.2
  have hno : ∀ x, ¬ FreeGsi x → ¬ r.Serves x := fun x hx hs => hx (hfree x ⟨r, hr, hs⟩)
  have h80 := hno 80 fun h => h.1 rfl
  have h111 := hno 111 fun h => h.2.1 rfl
  unfold IoapicInfo.Serves at hserves h80 h111
  omega

/-- Where the GSIs are free, each is given one vector. -/
theorem gives_eq (hwrites : ∀ w ∈ p.writes, VectorWrite p.info w) (hfree : ∀ gsi, GsiServed p.info gsi → FreeGsi gsi)
    (h : p.Gives gsi v) : v = mpVectBase + gsi ∧ GsiServed p.info gsi := by
  obtain ⟨w, hw, ⟨r, hr, hserves, hreg⟩, hnmi, rfl⟩ := h
  have hmem := List.mem_of_getElem? hr
  cases hwrites w hw with
  | high hodd => omega
  | nmi h => exact absurd (h.symm.trans hnmi) Bool.noConfusion
  | @vector r' gsi' hr' hserves' hreg' hval =>
    obtain rfl : r = r' := Option.some.inj (hr.symm.trans hr')
    have hinput := input_lt hfree hmem hserves'
    have hj : (UInt8.ofNat (gsi' - r.gsiBase.toNat)).toNat = gsi' - r.gsiBase.toNat := toNat_input hinput
    rw [hreg', (ioredtblL_toNat _).mpr (by omega), hj] at hreg
    have hgsi : gsi' = gsi := by
      unfold IoapicInfo.Serves at hserves hserves'
      omega
    have hlast := (hfree gsi ⟨r, hmem, hserves⟩).2.2
    refine ⟨?_, r, hmem, hserves⟩
    rw [hval, hgsi]
    exact Nat.mod_eq_of_lt (by unfold mpVectBase; omega)

theorem freeVector_iff {x : ℕ} (h : x < 256) : FreeVector ((mpVectBase + x) % 256) ↔ FreeGsi x := by
  unfold FreeVector FreeGsi mpVectBase
  omega

/-- Vectors that are in order come from free GSIs. -/
theorem freeGsi_of_fit {bsp : UInt8} (hsetup : ∀ w ∈ apicSetup bsp p.info, w ∈ p.writes) (hfit : p.Fit)
    (hserved : GsiServed p.info gsi) : FreeGsi gsi := by
  obtain ⟨r, hr, hserves⟩ := hserved
  have hbase := r.gsiBase.toNat_lt
  have hno : ∀ x, x < 256 → ¬ FreeGsi x → x - r.gsiBase.toNat < 120 → ¬ r.Serves x := by
    intro x hx hfree hinput hs
    exact hfree ((freeVector_iff hx).mp (hfit.free x _ (gives_of_serves hsetup hr hs hinput)))
  have h80 := hno 80 (by decide) (fun h => h.1 rfl) (by omega)
  have h111 := hno 111 (by decide) (fun h => h.2.1 rfl) (by omega)
  have h207 := hno 207 (by decide) (fun h => absurd h.2.2 (by decide))
  have hfirst := hno r.gsiBase.toNat hbase
  unfold IoapicInfo.Serves at *
  unfold FreeGsi at *
  omega

/-- A number of GSIs above 255 takes an IOAPIC with the GSI 255. -/
theorem served_of_maxGsis (h : 256 ≤ source.maxGsis info) : GsiServed info 255 := by
  cases source with
  | mp entries =>
    obtain ⟨r, -, heq⟩ := List.mem_map.mp (largest_mem (Nat.lt_of_lt_of_le (by decide) h))
    have hlt := r.inputs.toNat_lt
    rw [heq] at hlt
    exact absurd h (Nat.not_le_of_lt hlt)
  | madt | default =>
    obtain ⟨r, hr, heq⟩ := List.mem_map.mp (largest_mem (Nat.lt_of_lt_of_le (by decide) h))
    have hbase := r.gsiBase.toNat_lt
    refine ⟨r, hr, ?_, ?_⟩
    · omega
    · rw [show r.gsiBase.toNat + r.inputs.toNat = _ from heq]
      exact h

end Vectors

/-- A machine whose IOAPICs have 24 inputs each. -/
def machine24 : ApicMachine := ⟨0, fun _ => true, fun _ => 23 <<< 16⟩

/-- A default configuration on it. -/
def vectors24 : ApicVectors := ⟨[⟨0, 0, 24⟩], 72, apicSetup 0 [⟨0, 0, 24⟩]⟩

/-- Two IOAPICs of an MP configuration table. -/
def vectors48 : ApicVectors := ⟨[⟨0, 0, 24⟩, ⟨1, 24, 24⟩], 72, apicSetup 0 [⟨0, 0, 24⟩, ⟨1, 24, 24⟩]⟩

end SysX
