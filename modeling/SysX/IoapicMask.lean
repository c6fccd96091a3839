import SysX.Lib.Comp
import SysX.MpRouting

/-!
The accesses of `arch/x86cpu/apic.c` to the redirection entry of a GSI: `ioapic_mask`, `ioapic_unmask`, `ioapic_get_mask`
and `ioapic_set_trigger`.
-/
namespace SysX

/-- The registers of the IOAPICs by the index in `ioapic_info`, and the accesses to them in their order. -/
structure Ioapics where
  regs : ℕ → UInt8 → Word
  accesses : List (ℕ × UInt8)

abbrev IoapicOp := Comp Ioapics

def Ioapics.access (s : Ioapics) (idx : ℕ) (regIdx : UInt8) : Ioapics :=
  { s with accesses := s.accesses ++ [(idx, regIdx)] }

def Ioapics.set (s : Ioapics) (idx : ℕ) (regIdx : UInt8) (val : Word) : Ioapics :=
  { s with regs := Function.update s.regs idx (Function.update (s.regs idx) regIdx val) }

def ioapicRegRead (idx : ℕ) (regIdx : UInt8) : IoapicOp Word := do
  Comp.modify (·.access idx regIdx)
  Comp.read fun s => s.regs idx regIdx

def ioapicRegWrite (idx : ℕ) (regIdx : UInt8) (val : Word) : IoapicOp Unit :=
  Comp.modify fun s => (s.access idx regIdx).set idx regIdx val

/-- `APIC_LVT_BM_MASK`, `APIC_LVT_BM_TRIG_MODE` and `APIC_LVT_BM_TRIG_POL` -/
def maskBit : Word := 1#32 <<< 16
def trigModeBit : Word := 1#32 <<< 15
def trigPolBit : Word := 1#32 <<< 13

/-- The loop that the four functions share: `body` for the first IOAPIC that passes the test, `other` where none does. -/
def ioapicFind {α : Type} (test : IoapicInfo → Bool) (body : ℕ → IoapicInfo → IoapicOp α) (other : IoapicOp α) :
    (i : ℕ) → List IoapicInfo → IoapicOp α
  | _, [] => other
  | i, r :: rs => if test r then body i r else ioapicFind test body other (i + 1) rs

/-- `gsi >= gsi_base && gsi <= gsi_base + inputs` -/
def gsiUpToEnd (gsi : UInt8) (r : IoapicInfo) : Bool :=
  r.gsiBase.toNat ≤ gsi.toNat ∧ gsi.toNat ≤ r.gsiBase.toNat + r.inputs.toNat

/-- `gsi >= gsi_base && gsi < gsi_base + inputs` -/
def gsiBeforeEnd (gsi : UInt8) (r : IoapicInfo) : Bool :=
  r.gsiBase.toNat ≤ gsi.toNat ∧ gsi.toNat < r.gsiBase.toNat + r.inputs.toNat

def ioapicMask (info : List IoapicInfo) (gsi : UInt8) : IoapicOp Unit :=
  ioapicFind (gsiUpToEnd gsi) (fun i r => do
    let reg := ioredtblL (gsi - r.gsiBase)
    let val ← ioapicRegRead i reg
    ioapicRegWrite i reg (val ||| maskBit)) (pure ()) 0 info

def ioapicUnmask (info : List IoapicInfo) (gsi : UInt8) : IoapicOp Unit :=
  ioapicFind (gsiUpToEnd gsi) (fun i r => do
    let reg := ioredtblL (gsi - r.gsiBase)
    let val ← ioapicRegRead i reg
    ioapicRegWrite i reg (val &&& ~~~maskBit)) (pure ()) 0 info

def ioapicGetMask (info : List IoapicInfo) (gsi : UInt8) : IoapicOp Bool :=
  ioapicFind (gsiUpToEnd gsi) (fun i r => do
    let val ← ioapicRegRead i (ioredtblL (gsi - r.gsiBase))
    pure (val &&& maskBit ≠ 0)) (pure true) 0 info

def ioapicSetTrigger (info : List IoapicInfo) (gsi : UInt8) (edge activeLow : Bool) : IoapicOp Unit :=
  ioapicFind (gsiBeforeEnd gsi) (fun i r => do
    let reg := ioredtblL (gsi - r.gsiBase)
    let val ← ioapicRegRead i reg
    ioapicRegWrite i reg ((val &&& ~~~(trigModeBit ||| trigPolBit)) ||| (if edge then 0 else trigModeBit) |||
      (if activeLow then trigPolBit else 0))) (pure ()) 0 info

/-! What the functions are for. -/

/-- The GSI is one of the inputs of the IOAPIC. -/
def IoapicInfo.Serves (r : IoapicInfo) (gsi : ℕ) : Prop :=
  r.gsiBase.toNat ≤ gsi ∧ gsi < r.gsiBase.toNat + r.inputs.toNat

instance (r : IoapicInfo) (gsi : ℕ) : Decidable (r.Serves gsi) := inferInstanceAs (Decidable (_ ∧ _))

/-- No GSI belongs to two IOAPICs. -/
def GsisDisjoint (info : List IoapicInfo) : Prop :=
  info.Pairwise fun r r' => ∀ gsi, ¬ (r.Serves gsi ∧ r'.Serves gsi)

/-- The GSI belongs to the IOAPIC with the index `i`, and `reg` is the lower half of its redirection entry there. -/
structure EntryAt (info : List IoapicInfo) (gsi i : ℕ) (reg : UInt8) : Prop where
  served : ∃ r, info[i]? = some r ∧ r.Serves gsi ∧ reg.toNat = 0x10 + 2 * (gsi - r.gsiBase.toNat)

/-- The bit that tells whether an entry is masked. -/
def Ioapics.masked (s : Ioapics) (i : ℕ) (reg : UInt8) : Bool := (s.regs i reg).getLsbD 16

/-- A run of `c` accesses the register `reg` of the IOAPIC `i` only, `n` times, and leaves the mask bits of the other GSIs
as they are. -/
def TouchesOnly {α : Type} (info : List IoapicInfo) (gsi i : ℕ) (reg : UInt8) (n : ℕ) (c : IoapicOp α) (s : Ioapics)
    (a : α) (t : Ioapics) : Prop :=
  c s = some (a, t) ∧ t.accesses = s.accesses ++ List.replicate n (i, reg) ∧
    ∀ gsi' i' reg', gsi' ≠ gsi → EntryAt info gsi' i' reg' → t.masked i' reg' = s.masked i' reg'

/-- The functions access the redirection entry of the IOAPIC with the GSI, and it is masked when it was masked. -/
structure SelectsEntry (info : List IoapicInfo) (gsi : UInt8) (i : ℕ) (reg : UInt8) (s : Ioapics) : Prop where
  mask : ∃ t, TouchesOnly info gsi.toNat i reg 2 (ioapicMask info gsi) s () t ∧
    ∃ u, TouchesOnly info gsi.toNat i reg 1 (ioapicGetMask info gsi) t true u
  unmask : ∃ t, TouchesOnly info gsi.toNat i reg 2 (ioapicUnmask info gsi) s () t ∧
    ∃ u, TouchesOnly info gsi.toNat i reg 1 (ioapicGetMask info gsi) t false u
  getMask : ∃ t, TouchesOnly info gsi.toNat i reg 1 (ioapicGetMask info gsi) s (s.masked i reg) t
  setTrigger : ∀ edge activeLow, ∃ t,
    TouchesOnly info gsi.toNat i reg 2 (ioapicSetTrigger info gsi edge activeLow) s () t

/-- The entry of the IOAPIC with the GSI is accessed, and no register at all where there is no such IOAPIC. -/
def SelectsIoapic (info : List IoapicInfo) (gsi : UInt8) : Prop :=
  (∀ i r, info[i]? = some r → r.Serves gsi.toNat →
    ∃ reg, EntryAt info gsi.toNat i reg ∧ ∀ s, SelectsEntry info gsi i reg s) ∧
  ((∀ r ∈ info, ¬ r.Serves gsi.toNat) → ∀ s : Ioapics, ioapicMask info gsi s = some ((), s) ∧
    ioapicUnmask info gsi s = some ((), s) ∧ ∃ b, ioapicGetMask info gsi s = some (b, s))

/-- An IOAPIC whose last GSI is the one before stands behind the IOAPIC with the GSI, which has an entry for it. -/
structure GsiFits (info : List IoapicInfo) (gsi : UInt8) : Prop where
  behind : ∀ (i : ℕ) (r : IoapicInfo), info[i]? = some r → gsi.toNat = r.gsiBase.toNat + r.inputs.toNat →
    ∃ (j : ℕ) (r' : IoapicInfo), j < i ∧ info[j]? = some r' ∧ r'.Serves gsi.toNat
  input : ∀ r ∈ info, r.Serves gsi.toNat → gsi.toNat - r.gsiBase.toNat < 120

section Find

variable {α : Type} {test : IoapicInfo → Bool} {body : ℕ → IoapicInfo → IoapicOp α} {other : IoapicOp α} {i k : ℕ}
  {r : IoapicInfo} {info : List IoapicInfo}

theorem ioapicFind_none (h : ∀ r ∈ info, test r = false) : ioapicFind test body other k info = other := by
  induction info generalizing k with
  | nil => rfl
  | cons r rs ih =>
    rw [ioapicFind, h r List.mem_cons_self]
    exact ih fun r' hr' => h r' (List.mem_cons_of_mem _ hr')

theorem ioapicFind_first (hr : info[i]? = some r) (htest : test r = true)
    (hfirst : ∀ (j : ℕ) (r' : IoapicInfo), j < i → info[j]? = some r' → test r' = false) :
    ioapicFind test body other k info = body (k + i) r := by
  induction info generalizing k i with
  | nil => cases hr
  | cons r₀ rs ih =>
    rw [ioapicFind]
    cases i with
    | zero =>
      obtain rfl : r₀ = r := Option.some.inj hr
      rw [if_pos htest]
      rfl
    | succ i =>
      have hrest := ih (k := k + 1) hr fun j r' hj => hfirst (j + 1) r' (Nat.succ_lt_succ hj)
      rw [hfirst 0 r₀ (Nat.succ_pos i) rfl, if_neg Bool.false_ne_true, hrest, Nat.add_assoc, Nat.add_comm 1]

/-- Where some IOAPIC passes the test, there is a first one. -/
theorem exists_first (h : ∃ r ∈ info, test r = true) : ∃ (i : ℕ) (r : IoapicInfo), info[i]? = some r ∧ test r = true ∧
    ∀ (j : ℕ) (r' : IoapicInfo), j < i → info[j]? = some r' → test r' = false := by
  have hlt := List.findIdx_lt_length_of_exists h
  refine ⟨info.findIdx test, info[info.findIdx test], List.getElem?_eq_getElem hlt, List.findIdx_getElem, fun j r' hj hr' => ?_⟩
  obtain ⟨hj', rfl⟩ := List.getElem?_eq_some_iff.mp hr'
  exact List.not_of_lt_findIdx hj

end Find

section Entries

variable {info : List IoapicInfo} {gsi gsi' i i' : ℕ} {reg reg' : UInt8} {s : Ioapics} {v : Word}

/-- An entry belongs to one GSI. -/
theorem EntryAt.gsi_inj (h : EntryAt info gsi i reg) (h' : EntryAt info gsi' i reg) : gsi = gsi' := by
  obtain ⟨r, hr, hserves, hreg⟩ := h
  obtain ⟨r', hr', hserves', hreg'⟩ := h'
  obtain rfl : r = r' := Option.some.inj (hr.symm.trans hr')
  unfold IoapicInfo.Serves at hserves hserves'
  omega

theorem Ioapics.masked_set_self : (s.set i reg v).masked i reg = v.getLsbD 16 := by
  simp [Ioapics.masked, Ioapics.set]

theorem Ioapics.masked_set_of_ne (h : ¬ (i' = i ∧ reg' = reg)) : (s.set i reg v).masked i' reg' = s.masked i' reg' := by
  simp only [Ioapics.masked, Ioapics.set]
  by_cases hi : i' = i
  · subst hi
    have hreg : reg' ≠ reg := fun hreg => h ⟨rfl, hreg⟩
    rw [Function.update_self, Function.update_of_ne hreg]
  · rw [Function.update_of_ne hi]

theorem getLsbD_or_maskBit : (v ||| maskBit).getLsbD 16 = true := by
  rw [BitVec.getLsbD_or, show maskBit.getLsbD 16 = true from rfl, Bool.or_true]

theorem getLsbD_and_not_maskBit : (v &&& ~~~maskBit).getLsbD 16 = false := by
  rw [BitVec.getLsbD_and, show (~~~maskBit).getLsbD 16 = false from rfl, Bool.and_false]

theorem and_maskBit_ne_zero : decide (v &&& maskBit ≠ 0) = v.getLsbD 16 := by
  rw [show maskBit = BitVec.twoPow 32 16 from rfl, BitVec.and_twoPow]
  cases v.getLsbD 16 <;> rfl

/-- An entry is read and written. -/
theorem touchesOnly_update (he : EntryAt info gsi i reg) {f : Word → Word} :
    TouchesOnly info gsi i reg 2 (do
      let val ← ioapicRegRead i reg
      ioapicRegWrite i reg (f val)) s () (((s.access i reg).access i reg).set i reg (f (s.regs i reg))) := by
  refine ⟨rfl, List.append_assoc _ _ _, fun gsi' i' reg' hne he' => ?_⟩
  refine Ioapics.masked_set_of_ne ?_
  rintro ⟨rfl, rfl⟩
  exact hne (he'.gsi_inj he)

theorem touchesOnly_getMask : TouchesOnly info gsi i reg 1 (do
    let val ← ioapicRegRead i reg
    pure (decide (val &&& maskBit ≠ 0))) s (s.masked i reg) (s.access i reg) := by
  refine ⟨?_, rfl, fun _ _ _ _ _ => rfl⟩
  rw [Ioapics.masked, ← and_maskBit_ne_zero]
  rfl

/-- The register that is computed for the input of a GSI is its entry. -/
theorem entryAt_ioredtblL {r : IoapicInfo} {gsi : UInt8} (hr : info[i]? = some r) (hserves : r.Serves gsi.toNat)
    (hinput : gsi.toNat - r.gsiBase.toNat < 120) : EntryAt info gsi.toNat i (ioredtblL (gsi - r.gsiBase)) := by
  have hle : r.gsiBase ≤ gsi := UInt8.le_iff_toNat_le.mpr hserves.1
  have hsub : (gsi - r.gsiBase).toNat = gsi.toNat - r.gsiBase.toNat := UInt8.toNat_sub_of_le _ _ hle
  have hreg := (ioredtblL_toNat (gsi - r.gsiBase)).mpr (by rw [hsub]; exact hinput)
  rw [hsub] at hreg
  exact ⟨r, hr, hserves, hreg⟩

end Entries

section Selection

variable {info : List IoapicInfo} {gsi : UInt8} {i : ℕ} {r : IoapicInfo}

/-- The test of three of the functions passes one GSI too many. -/
theorem gsiUpToEnd_eq_true : gsiUpToEnd gsi r = true ↔
    r.Serves gsi.toNat ∨ gsi.toNat = r.gsiBase.toNat + r.inputs.toNat := by
  unfold gsiUpToEnd IoapicInfo.Serves
  rw [decide_eq_true_eq]
  omega

theorem GsisDisjoint.eq {j : ℕ} {r' : IoapicInfo} {g : ℕ} (h : GsisDisjoint info) (hr : info[i]? = some r)
    (hserves : r.Serves g) (hr' : info[j]? = some r') (hserves' : r'.Serves g) : i = j := by
  obtain ⟨hi, rfl⟩ := List.getElem?_eq_some_iff.mp hr
  obtain ⟨hj, rfl⟩ := List.getElem?_eq_some_iff.mp hr'
  rcases Nat.lt_trichotomy i j with hlt | heq | hgt
  · exact absurd ⟨hserves, hserves'⟩ (List.pairwise_iff_getElem.mp h i j hi hj hlt g)
  · exact heq
  · exact absurd ⟨hserves', hserves⟩ (List.pairwise_iff_getElem.mp h j i hj hi hgt g)

/-- The first IOAPIC that passes the test is the one with the GSI. -/
theorem GsiFits.first (h : GsiFits info gsi) (hd : GsisDisjoint info) (hr : info[i]? = some r)
    (hserves : r.Serves gsi.toNat) {j : ℕ} {r' : IoapicInfo} (hj : j < i) (hr' : info[j]? = some r') :
    gsiUpToEnd gsi r' = false := by
  by_contra htest
  rcases gsiUpToEnd_eq_true.mp (Bool.eq_true_of_not_eq_false htest) with hserves' | hend
  · exact absurd (hd.eq hr hserves hr' hserves') hj.ne'
  · obtain ⟨k, r'', hk, hr'', hserves''⟩ := h.behind j r' hr' hend
    exact absurd (hd.eq hr hserves hr'' hserves'') (by omega)

theorem GsiFits.selects (h : GsiFits info gsi) (hd : GsisDisjoint info) : SelectsIoapic info gsi := by
  constructor
  · intro i r hr hserves
    have he := entryAt_ioredtblL hr hserves (h.input r (List.mem_of_getElem? hr) hserves)
    have hup : ∀ {α : Type} {body : ℕ → IoapicInfo → IoapicOp α} {other : IoapicOp α},
        ioapicFind (gsiUpToEnd gsi) body other 0 info = body i r := by
      intro α body other
      rw [ioapicFind_first hr (gsiUpToEnd_eq_true.mpr (.inl hserves)) fun j r' hj hr' => h.first hd hr hserves hj hr',
        Nat.zero_add]
    have hbefore : ∀ {body : ℕ → IoapicInfo → IoapicOp Unit} {other : IoapicOp Unit},
        ioapicFind (gsiBeforeEnd gsi) body other 0 info = body i r := by
      intro body other
      rw [ioapicFind_first hr (decide_eq_true hserves), Nat.zero_add]
      intro j r' hj hr'
      exact decide_eq_false fun hserves' => absurd (hd.eq hr hserves hr' hserves') hj.ne'
    have hget : ∀ {t : Ioapics} {b : Bool}, t.masked i (ioredtblL (gsi - r.gsiBase)) = b →
        ∃ u, TouchesOnly info gsi.toNat i (ioredtblL (gsi - r.gsiBase)) 1 (ioapicGetMask info gsi) t b u := by
      rintro t b rfl
      rw [ioapicGetMask, hup]
      exact ⟨_, touchesOnly_getMask⟩
    refine ⟨_, he, fun s => ⟨?_, ?_, hget rfl, fun edge activeLow => ?_⟩⟩
    · rw [ioapicMask, hup]
      exact ⟨_, touchesOnly_update he, hget (Ioapics.masked_set_self.trans getLsbD_or_maskBit)⟩
    · rw [ioapicUnmask, hup]
      exact ⟨_, touchesOnly_update he, hget (Ioapics.masked_set_self.trans getLsbD_and_not_maskBit)⟩
    · rw [ioapicSetTrigger, hbefore]
      exact ⟨_, touchesOnly_update he⟩
  · intro hnone s
    have htest : ∀ r ∈ info, gsiUpToEnd gsi r = false := by
      intro r hr
      by_contra htest
      rcases gsiUpToEnd_eq_true.mp (Bool.eq_true_of_not_eq_false htest) with hserves | hend
      · exact hnone r hr hserves
      · obtain ⟨i, hi⟩ := List.mem_iff_getElem?.mp hr
        obtain ⟨j, r', -, hr', hserves⟩ := h.behind i r hi hend
        exact hnone r' (List.mem_of_getElem? hr') hserves
    rw [ioapicMask, ioapicUnmask, ioapicGetMask, ioapicFind_none htest, ioapicFind_none htest, ioapicFind_none htest]
    exact ⟨rfl, rfl, true, rfl⟩

/-- An access to another register than the one of the GSI shows that it does not fit. -/
theorem SelectsIoapic.fits (h : SelectsIoapic info gsi) : GsiFits info gsi := by
  obtain ⟨hsome, hnone⟩ := h
  constructor
  · intro i r hr hend
    by_contra hno
    push Not at hno
    have htest : gsiUpToEnd gsi r = true := gsiUpToEnd_eq_true.mpr (.inr hend)
    obtain ⟨k, r', hr', htest', hfirst⟩ := exists_first ⟨r, List.mem_of_getElem? hr, htest⟩
    have hki : k ≤ i := by
      by_contra hlt
      rw [hfirst i r (Nat.lt_of_not_le hlt) hr] at htest
      cases htest
    have hout : ¬ r'.Serves gsi.toNat := by
      rcases Nat.lt_or_eq_of_le hki with hlt | rfl
      · exact hno k r' hlt hr'
      · obtain rfl : r = r' := Option.some.inj (hr.symm.trans hr')
        intro hserves
        exact absurd hserves.2 (by omega)
    -- the register of the IOAPIC `k` is accessed
    have hrun : ∀ s : Ioapics, ∃ t, ioapicMask info gsi s = some ((), t) ∧
        ∃ reg, t.accesses = s.accesses ++ [(k, reg), (k, reg)] := by
      intro s
      rw [ioapicMask, ioapicFind_first hr' htest' hfirst, Nat.zero_add]
      exact ⟨_, rfl, _, List.append_assoc _ _ _⟩
    obtain ⟨t, ht, reg, hacc⟩ := hrun ⟨fun _ _ => 0, []⟩
    by_cases hserved : ∃ (j : ℕ) (r'' : IoapicInfo), info[j]? = some r'' ∧ r''.Serves gsi.toNat
    · obtain ⟨j, r'', hr'', hserves⟩ := hserved
      obtain ⟨reg', -, hsel⟩ := hsome j r'' hr'' hserves
      obtain ⟨t', ⟨ht', hacc', -⟩, -⟩ := (hsel ⟨fun _ _ => 0, []⟩).mask
      obtain rfl : t = t' := (Prod.mk.inj (Option.some.inj (ht.symm.trans ht'))).2
      have heq := (List.cons.inj (hacc.symm.trans hacc')).1
      obtain rfl : k = j := (Prod.mk.inj heq).1
      exact hout (Option.some.inj (hr'.symm.trans hr'') ▸ hserves)
    · have hall : ∀ r ∈ info, ¬ r.Serves gsi.toNat := by
        intro r'' hr'' hserves
        obtain ⟨j, hj⟩ := List.mem_iff_getElem?.mp hr''
        exact hserved ⟨j, r'', hj, hserves⟩
      have hsame := (hnone hall ⟨fun _ _ => 0, []⟩).1
      obtain rfl : t = _ := (Prod.mk.inj (Option.some.inj (ht.symm.trans hsame))).2
      cases hacc
  · intro r hr hserves
    obtain ⟨i, hi⟩ := List.mem_iff_getElem?.mp hr
    obtain ⟨reg, ⟨r', hr', -, hreg⟩, -⟩ := hsome i r hi hserves
    obtain rfl : r = r' := Option.some.inj (hi.symm.trans hr')
    have := reg.toNat_lt
    omega

end Selection

/-- The functions select the entry of the IOAPIC with the GSI unless an IOAPIC whose GSIs end right before it stands in the
table before that one, or it has no entry for the GSI. -/
theorem ioapic_selects_iff {info : List IoapicInfo} (hd : GsisDisjoint info) (gsi : UInt8) :
    SelectsIoapic info gsi ↔ GsiFits info gsi :=
  ⟨SelectsIoapic.fits, fun h => h.selects hd⟩

/-- Two IOAPICs with 24 inputs each. -/
def twoIoapics : List IoapicInfo := [⟨1, 0, 24⟩, ⟨2, 24, 24⟩]

theorem twoIoapics_disjoint : GsisDisjoint twoIoapics := by
  simp only [GsisDisjoint, twoIoapics, List.pairwise_cons, List.mem_singleton, forall_eq, List.not_mem_nil, false_implies,
    implies_true, List.Pairwise.nil, and_true, IoapicInfo.Serves, UInt8.reduceToNat]
  omega

theorem ioapic_selects_iff_two : SelectsIoapic twoIoapics 23 ↔ GsiFits twoIoapics 23 :=
  ioapic_selects_iff twoIoapics_disjoint 23

/-- The first GSI of the second one is looked for at the first one. -/
theorem ioapic_mask_first_gsi : GsisDisjoint twoIoapics ∧ ¬ SelectsIoapic twoIoapics 24 := by
  refine ⟨twoIoapics_disjoint, fun h => ?_⟩
  obtain ⟨j, r', hj, -, -⟩ := h.fits.behind 0 ⟨1, 0, 24⟩ rfl rfl
  exact Nat.not_lt_zero j hj

end SysX
