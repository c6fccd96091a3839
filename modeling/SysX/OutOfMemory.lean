import SysX.ExhaustedUnmapping
import SysX.AllocMap
import SysX.ForeignFrame

/-!
`vmm_pgmap` and `vmm_pgunmap` of a small page when memory runs out: no frame is left, or no window for the page table. Page 0
is not mapped, so that a run that stores through a null page table does not return.
-/
namespace SysX

/-- The calls for one small page of a VMM. -/
inductive SmallCall
  | pgmap (v pa va : ℕ) (flags : Word)
  | pgunmap (v va : ℕ)

namespace SmallCall

def vmm : SmallCall → ℕ
  | pgmap v _ _ _ => v
  | pgunmap v _ => v

def va : SmallCall → ℕ
  | pgmap _ _ va _ => va
  | pgunmap _ va => va

def run (K : Callees) : SmallCall → Kernel Unit
  | pgmap v pa va flags => vmmPgmap K (v * 4096) pa va 0 flags
  | pgunmap v va => vmmPgunmap K (v * 4096) va 0

/-- The directory entry of the page. -/
def entry (c : SmallCall) (s : Machine) : Word := s.mem c.vmm (c.va / 4194304)

/-- What frames the call asks for. In the recursive slot it does nothing. -/
def requests (c : SmallCall) (s : Machine) : List Request :=
  if c.va / 4194304 = 767 then []
  else match c with
    | pgmap v _ va _ =>
      if v = s.cr3 then ownRequests (c.entry s) (propagates s va) (freePages s)
      else mapRequests (c.entry s) (propagates s va) (freePages s)
    | pgunmap v va =>
      if v = s.cr3 then ownUnmapRequests (c.entry s) (propagates s va) (freePages s)
      else unmapRequests (c.entry s) (propagates s va) (freePages s)

/-- `pmm_alloc_free` fails during the call. -/
def Starved (c : SmallCall) (s : Machine) : Prop := (freeFrames s).length < framesFor s [] (c.requests s)

/-- The page table needs a window, and the directories take the last ones. -/
def NoTableWindow (c : SmallCall) (s : Machine) : Prop :=
  c.va / 4194304 ≠ 767 ∧ c.vmm ≠ s.cr3 ∧ match c with
    | pgmap _ _ _ _ => (freePages s).length = 1
    | pgunmap _ _ => if (c.entry s).pgsz then (freePages s).length = 2
        else (c.entry s).HasTable ∧ (freePages s).length = 1

/-- The call returns, and every address of every VMM has the same translation as before. -/
def Survived (c : SmallCall) (K : Callees) (L : Set ℕ) (s : Machine) : Prop :=
  ∃ t, c.run K s = some ((), t) ∧ ∀ w ∈ L, ∀ va, OffSlot va → translateIn t.mem w va = translateIn s.mem w va

/-- The frame that a new page table gets holds what the slot is mapped to. -/
def StaleSame (c : SmallCall) (s : Machine) : Prop :=
  ∃ f, (freeFrames s)[framesFor s [] ((freePages s).map .window)]? = some f ∧ ∀ j < 1024,
    ((viewPte (s.mem f j)).filter fun x => x.2.getLsbD 0).map Prod.fst =
      (transAt s.mem c.vmm (c.va / 4194304 * 1024 + j)).map Prod.fst

end SmallCall

section Calls

variable {D L : Set ℕ} {K : Callees} {s t : Machine} {c : SmallCall}

theorem run_pgmap {v pa va : ℕ} {flags : Word} (hva : OffSlot va) :
    (SmallCall.pgmap v pa va flags).run K = vmmPgmapSmall K (v * 4096) pa va flags := if_neg hva.not_rmap

theorem run_pgunmap {v va : ℕ} (hva : OffSlot va) :
    (SmallCall.pgunmap v va).run K = vmmPgunmapSmall K (v * 4096) va := if_neg hva.not_rmap

/-- A call that returns found all the frames it asked for. -/
theorem SmallCall.served (h : Tables D L s) (hc : s.cr3 ∈ L) (hal : s.vmmCurrent = s.cr3 * 4096) (hn : NullGuard s)
    (hK : K.Closed) (hv : c.vmm ∈ L) (hva : c.va < 4294967296) (hcow : NoCowLeft s c.vmm c.va)
    (hrun : c.run K s = some ((), t)) : ¬ c.Starved s := by
  unfold Starved requests
  split_ifs with hslot
  · exact Nat.not_lt_zero _
  have hoff : OffSlot c.va := ⟨by omega, hslot⟩
  have hps := freeList_freePages s
  have hst := Stock.refl s
  have hw := Windowed.refl h hc
  cases c with
  | pgmap v pa va flags =>
    have hoff : OffSlot va := hoff
    dsimp only
    rw [run_pgmap hoff] at hrun
    split_ifs with hvc
    · rw [hvc, ← hal] at hrun
      have hbound := (vmmPgmapSmall_own_bound h hc hK hst rfl hn (fun _ => hps) hoff pa flags).2 () t hrun
      rw [Nat.zero_add, ← hvc] at hbound
      exact Nat.not_lt.mpr hbound
    · have hbound := (hw.vmmPgmapSmall_bound hK hst rfl hn hps hv hvc hoff pa flags).2 () t hrun
      rw [Nat.zero_add] at hbound
      exact Nat.not_lt.mpr hbound
  | pgunmap v va =>
    have hoff : OffSlot va := hoff
    dsimp only
    rw [run_pgunmap hoff] at hrun
    split_ifs with hvc
    · have hcow' : NoCowLeft s s.cr3 va := hvc ▸ hcow
      rw [hvc, ← hal] at hrun
      have hbound := (vmmPgunmapSmall_own_bound h hc hal hK hst rfl hn hps hoff hcow').2 () t hrun
      rw [Nat.zero_add, ← hvc] at hbound
      exact Nat.not_lt.mpr hbound
    · have hbound := (hw.vmmPgunmapSmall_bound hK hst rfl hn hps hv hvc hoff hcow).2 () t hrun
      rw [Nat.zero_add] at hbound
      exact Nat.not_lt.mpr hbound

/-- Without open windows the VMMs are as the state says. -/
theorem Windowed.views_closed {σ : Machine} (h : Windowed D L σ t fun _ => 0#32) {w p : ℕ} (hw : w ∈ L)
    (hp : Regular p) : view t.mem w p = view σ.mem w p := by
  by_cases hwc : w = σ.cr3
  · rw [hwc]
    exact h.view_cur hp rfl
  · exact h.view_other hw hwc hp

theorem translateIn_congr {m m' : ℕ → ℕ → Word} {w a : ℕ} (h : view m w (a / 4096) = view m' w (a / 4096)) :
    translateIn m w a = translateIn m' w a := by
  unfold translateIn transAt
  rw [h]

/-- The state `σ` is `s` with a page table in slot `i` of `v`, in a frame that was free. -/
structure TablePut (s σ : Machine) (v i f : ℕ) : Prop where
  fresh : ¬ used s f
  current : σ.cr3 = s.cr3
  put : ∃ d : Word, d.HasTable ∧ d.pt = f ∧ ∀ w, σ.mem w = (s.set v i d).mem w

/-- Nothing is changed for anybody exactly when the frame holds what the slot is mapped to. -/
theorem TablePut.survives_iff {σ : Machine} {v i f : ℕ} (hput : TablePut s σ v i f) (h : Tables D L s) (hv : v ∈ L)
    (hi : i < 1024) (hi' : i ≠ 767) (hw : Windowed D L σ t fun _ => 0#32) :
    (∀ w ∈ L, ∀ a, OffSlot a → translateIn t.mem w a = translateIn s.mem w a) ↔
    ∀ j < 1024, ((viewPte (s.mem f j)).filter fun x => x.2.getLsbD 0).map Prod.fst =
      (transAt s.mem v (i * 1024 + j)).map Prod.fst := by
  obtain ⟨d, hd, hpt, hmem⟩ := hput.put
  obtain ⟨hfD, hfL⟩ := h.fresh hput.fresh
  have hDv := h.sub hv
  have hvf : v ≠ f := fun e => hfD (e ▸ hDv)
  have hself : σ.mem v i = d := by
    rw [hmem v]
    exact Machine.set_mem_self _ _ _ _
  have hslot : ∀ p, p / 1024 = i → transAt t.mem v p = (viewPte (s.mem f (p % 1024))).filter fun x => x.2.getLsbD 0 := by
    intro p hp
    have hreg : Regular p := ⟨by omega, by omega⟩
    have hpte : pteAt σ.mem v p = s.mem f (p % 1024) := by
      rw [pteAt_of_hasTable (by rw [hp, hself]; exact hd), hp, hself, hpt, hmem f, Machine.set_mem_of_ne _ _ _ _ hvf.symm]
    rw [transAt, hw.views_closed hv hreg, view_of_not_pgsz (by rw [hp, hself]; exact hd.2), hpte]
  have hother : ∀ w ∈ L, ∀ a, OffSlot a → ¬ (w = v ∧ a / 4096 / 1024 = i) → translateIn t.mem w a = translateIn s.mem w a := by
    intro w hwL a ha hne
    have hreg := ha.page
    have hlt : a / 4096 / 1024 < 1024 := by have := hreg.1; omega
    refine translateIn_congr ((hw.views_closed hwL hreg).trans ?_)
    by_cases hwv : w = v
    · have hji : a / 4096 / 1024 ≠ i := fun e => hne ⟨hwv, e⟩
      have hm : σ.mem w (a / 4096 / 1024) = s.mem w (a / 4096 / 1024) := by
        rw [hmem w, hwv]
        exact s.set_mem_of_ne_index _ _ _ _ hji
      refine view_congr hm fun ht => ?_
      rw [hm] at ht ⊢
      rw [hmem, Machine.set_mem_of_ne _ _ _ _ (h.pt_ne hwL hDv hlt hreg.2 ht)]
    · have hmw : σ.mem w (a / 4096 / 1024) = s.mem w (a / 4096 / 1024) := by
        rw [hmem w, Machine.set_mem_of_ne _ _ _ _ hwv]
      refine view_congr hmw fun ht => ?_
      rw [hmw] at ht ⊢
      rw [hmem, Machine.set_mem_of_ne _ _ _ _ (h.pt_ne hwL hDv hlt hreg.2 ht)]
  constructor
  · intro hsame j hj
    have hoff : OffSlot ((i * 1024 + j) * 4096) := ⟨by omega, by omega⟩
    have htrans := hsame v hv ((i * 1024 + j) * 4096) hoff
    rw [translateIn, translateIn, show (i * 1024 + j) * 4096 / 4096 = i * 1024 + j by omega,
      show (i * 1024 + j) * 4096 % 4096 = 0 by omega, hslot (i * 1024 + j) (by omega),
      show (i * 1024 + j) % 1024 = j by omega] at htrans
    have hinj : Function.Injective fun n : ℕ => n * 4096 + 0 := fun a b hab => by
      have : a * 4096 + 0 = b * 4096 + 0 := hab
      omega
    refine Option.map_injective hinj ?_
    rw [Option.map_map, Option.map_map]
    exact htrans
  · intro hstale w hwL a ha
    by_cases hslot' : w = v ∧ a / 4096 / 1024 = i
    · obtain ⟨rfl, hji⟩ := hslot'
      have hj := hstale (a / 4096 % 1024) (Nat.mod_lt _ (by decide))
      rw [show i * 1024 + a / 4096 % 1024 = a / 4096 by omega, ← hslot (a / 4096) hji] at hj
      have hmap := congrArg (Option.map fun n => n * 4096 + a % 4096) hj
      rw [Option.map_map, Option.map_map] at hmap
      exact hmap
    · exact hother w hwL a ha hslot'

/-- A page table that was there already: the call gives up with everything as it was. -/
theorem SmallCall.refused_table (h : Tables D L s) (hc : s.cr3 ∈ L) (hn : NullGuard s) (hK : K.Closed) (hv : c.vmm ∈ L)
    (hva : c.va < 4294967296) (hserved : ¬ c.Starved s) (hno : c.NoTableWindow s) (he : (c.entry s).HasTable) :
    ∃ t, c.run K s = some ((), t) ∧ Windowed D L s t fun _ => 0#32 := by
  obtain ⟨hslot, hvc, hpages⟩ := hno
  have hps := freeList_freePages s
  have hst := Stock.refl s
  have hw := Windowed.refl h hc
  unfold Starved requests at hserved
  rw [if_neg hslot] at hserved
  cases c with
  | pgmap v pa va flags =>
    have hvc : v ≠ s.cr3 := hvc
    have hoff : OffSlot va := ⟨by have : va < 4294967296 := hva; omega, hslot⟩
    obtain ⟨p, hp⟩ := List.length_eq_one_iff.mp hpages
    dsimp only at hserved
    rw [if_neg hvc, hp, mapRequests, if_pos he] at hserved
    rw [hp] at hps
    obtain ⟨_, t, hrun, hwt, -⟩ := (hw.vmmPgmapSmall_refused_table hK hst rfl hn hps hv hvc hoff he pa flags).total
      (by rw [Nat.zero_add]; exact Nat.not_lt.mp hserved)
    exact ⟨t, by rw [run_pgmap hoff]; exact hrun, hwt⟩
  | pgunmap v va =>
    have hvc : v ≠ s.cr3 := hvc
    have hoff : OffSlot va := ⟨by have : va < 4294967296 := hva; omega, hslot⟩
    dsimp only at hpages hserved
    rw [he.2, if_neg Bool.false_ne_true] at hpages
    obtain ⟨p, hp⟩ := List.length_eq_one_iff.mp hpages.2
    rw [if_neg hvc, hp, unmapRequests, he.2, if_neg Bool.false_ne_true, if_pos he] at hserved
    rw [hp] at hps
    obtain ⟨_, t, hrun, hwt⟩ := (hw.vmmPgunmapSmall_refused_table hK hst rfl hn hps hv hvc hoff he).total
      (by rw [Nat.zero_add]; exact Nat.not_lt.mp hserved)
    exact ⟨t, by rw [run_pgunmap hoff]; exact hrun, hwt⟩

/-- A new one is left in the directory as its frame was. -/
theorem SmallCall.refused_new (h : Tables D L s) (hc : s.cr3 ∈ L) (hn : NullGuard s) (hK : K.Closed) (hv : c.vmm ∈ L)
    (hva : c.va < 4294967296) (hcow : NoCowLeft s c.vmm c.va) (hserved : ¬ c.Starved s) (hno : c.NoTableWindow s)
    (he : ¬ (c.entry s).HasTable) : ∃ f σ t, (freeFrames s)[framesFor s [] ((freePages s).map .window)]? = some f ∧
      c.run K s = some ((), t) ∧ TablePut s σ c.vmm (c.va / 4194304) f ∧ Windowed D L σ t fun _ => 0#32 := by
  obtain ⟨hslot, hvc, hpages⟩ := hno
  have hps := freeList_freePages s
  have hst := Stock.refl s
  have hw := Windowed.refl h hc
  unfold Starved requests at hserved
  rw [if_neg hslot] at hserved
  cases c with
  | pgmap v pa va flags =>
    have hvc : v ≠ s.cr3 := hvc
    have hoff : OffSlot va := ⟨by have : va < 4294967296 := hva; omega, hslot⟩
    obtain ⟨p, hp⟩ := List.length_eq_one_iff.mp hpages
    dsimp only at hserved
    rw [if_neg hvc, hp, mapRequests, if_neg he] at hserved
    rw [hp] at hps ⊢
    have henough : 0 + windowCost s [] p + 1 ≤ (freeFrames s).length := by
      have hle := Nat.not_lt.mp hserved
      simp only [framesFor, List.take_nil, List.map_nil] at hle
      omega
    obtain ⟨_, t, hrun, f, hf, hf', hfree, hwt, -⟩ :=
      (hw.vmmPgmapSmall_refused_new hK hst rfl hn hps hv hvc hoff he pa flags).total henough
    rw [Nat.zero_add] at hf
    have hput : TablePut s ((s.setBitmap f true).set v (va / 4194304) (newTableEntry (s.mem v (va / 4194304)) f)) v
        (va / 4194304) f :=
      ⟨hfree, rfl, _, newTableEntry_hasTable _ f, newTableEntry_pt _ hf', fun _ => rfl⟩
    exact ⟨f, _, t, hf, by rw [run_pgmap hoff]; exact hrun, hput, hwt⟩
  | pgunmap v va =>
    have hvc : v ≠ s.cr3 := hvc
    have hoff : OffSlot va := ⟨by have : va < 4294967296 := hva; omega, hslot⟩
    dsimp only at hpages hserved
    have hpse : ((SmallCall.pgunmap v va).entry s).pgsz = true := by
      by_contra hs
      rw [if_neg hs] at hpages
      exact he hpages.1
    rw [if_pos hpse] at hpages
    obtain ⟨p, r, hp⟩ := List.length_eq_two.mp hpages
    rw [if_neg hvc, hp, unmapRequests, if_pos hpse, mapRequests, if_neg Word.not_hasTable_zero] at hserved
    rw [hp] at hps ⊢
    have henough : 0 + windowCost s [] p + windowCost s [p / 1024] r + 1 ≤ (freeFrames s).length := by
      have hle := Nat.not_lt.mp hserved
      simp only [framesFor, List.take_nil, List.map_nil] at hle
      omega
    obtain ⟨_, t, hrun, f, hf, hf', hfree, hwt⟩ :=
      (hw.vmmPgunmapSmall_refused_split hK hst rfl hn hps hv hvc hoff hcow hpse).total henough
    rw [Nat.zero_add] at hf
    have hset : (staleTableAt s v (va / 4194304) f).mem =
        ((s.set v (va / 4194304) 0#32).set v (va / 4194304) (newTableEntry 0#32 f)).mem := rfl
    rw [Machine.set_set] at hset
    have hput : TablePut s (staleTableAt s v (va / 4194304) f) v (va / 4194304) f :=
      ⟨hfree, rfl, _, newTableEntry_hasTable 0#32 f, newTableEntry_pt 0#32 hf', fun w => congrFun hset w⟩
    exact ⟨f, _, t, hf, by rw [run_pgunmap hoff]; exact hrun, hput, hwt⟩

/-- A call that runs out of memory leaves every translation as it was if and only if it finds the frames that it asks for and
the page table that it cannot map is an old one, or a new one that happens to say the same. -/
theorem out_of_memory_iff (n : ℕ) (h : Tables D L s) (hc : s.cr3 ∈ L) (hal : s.vmmCurrent = s.cr3 * 4096)
    (hn : NullGuard s) (hv : c.vmm ∈ L) (hva : c.va < 4294967296) (hcow : NoCowLeft s c.vmm c.va) :
    (c.Starved s ∨ c.NoTableWindow s → c.Survived (callees (n + 1)) L s) ↔
      ¬ c.Starved s ∧ (c.NoTableWindow s → (c.entry s).HasTable ∨ c.StaleSame s) := by
  have hK : (callees (n + 1)).Closed := ⟨callees n, rfl, rfl⟩
  have hi : c.va / 4194304 < 1024 := by omega
  constructor
  · intro hsurvives
    have hserved : ¬ c.Starved s := by
      intro hstarved
      obtain ⟨t, hrun, -⟩ := hsurvives (.inl hstarved)
      exact SmallCall.served h hc hal hn hK hv hva hcow hrun hstarved
    refine ⟨hserved, fun hno => ?_⟩
    by_cases he : (c.entry s).HasTable
    · exact .inl he
    · obtain ⟨f, σ, t, hf, hrun, hput, hw⟩ := SmallCall.refused_new h hc hn hK hv hva hcow hserved hno he
      obtain ⟨t', hrun', hsame⟩ := hsurvives (.inr hno)
      obtain rfl : t = t' := by
        rw [hrun] at hrun'
        cases hrun'
        rfl
      exact .inr ⟨f, hf, (hput.survives_iff h hv hi hno.1 hw).mp hsame⟩
  · rintro ⟨hserved, hold⟩ (hstarved | hno)
    · exact absurd hstarved hserved
    · by_cases he : (c.entry s).HasTable
      · obtain ⟨t, hrun, hw⟩ := SmallCall.refused_table h hc hn hK hv hva hserved hno he
        exact ⟨t, hrun, fun w hwL a ha => translateIn_congr (hw.views_closed hwL ha.page)⟩
      · obtain ⟨f, σ, t, hf, hrun, hput, hw⟩ := SmallCall.refused_new h hc hn hK hv hva hcow hserved hno he
        obtain ⟨f', hf', hstale⟩ := (hold hno).resolve_left he
        obtain rfl : f = f' := by
          rw [hf] at hf'
          cases hf'
          rfl
        exact ⟨t, hrun, (hput.survives_iff h hv hi hno.1 hw).mpr hstale⟩

end Calls

/-- No frame is left, and the second 4 MiB of the current VMM are one page. -/
def exhaustedSample : Machine := { foreignSample with pmmFrames := 12 }.set 1 1 0x400083#32

theorem exhaustedSample_tables : Tables {1, 3} {1, 3} exhaustedSample := by
  have h : Tables {1, 3} {1, 3} { foreignSample with pmmFrames := 12 } := { foreignSample_tables with frames := by decide }
  exact h.setPde (by decide) (.of_not_hasTable (by decide))

theorem exhaustedSample_noCow (v va : ℕ) : NoCowLeft exhaustedSample v va where
  small := fun _ ⟨_, ht, _⟩ => nomatch ht
  huge := fun _ ⟨_, ht, _⟩ => nomatch ht
  unlocked := rfl

theorem exhaustedSample_guard : NullGuard exhaustedSample := ⟨by decide, by decide⟩

/-- A page of the other VMM is mapped where it has a page table. -/
theorem out_of_memory_sample :
    ((SmallCall.pgmap 3 0x5000 0x12000 3#32).Starved exhaustedSample ∨
      (SmallCall.pgmap 3 0x5000 0x12000 3#32).NoTableWindow exhaustedSample →
      (SmallCall.pgmap 3 0x5000 0x12000 3#32).Survived (callees 2) {1, 3} exhaustedSample) ↔
    ¬ (SmallCall.pgmap 3 0x5000 0x12000 3#32).Starved exhaustedSample ∧
      ((SmallCall.pgmap 3 0x5000 0x12000 3#32).NoTableWindow exhaustedSample →
        ((SmallCall.pgmap 3 0x5000 0x12000 3#32).entry exhaustedSample).HasTable ∨
        (SmallCall.pgmap 3 0x5000 0x12000 3#32).StaleSame exhaustedSample) :=
  out_of_memory_iff 1 exhaustedSample_tables (.inl rfl) rfl exhaustedSample_guard (.inr rfl) (by decide)
    (exhaustedSample_noCow 3 0x12000)

/-- One small page of the 4 MiB page is unmapped. -/
theorem split_page_lost : ¬ ((SmallCall.pgunmap 1 0x400000).Starved exhaustedSample ∨
    (SmallCall.pgunmap 1 0x400000).NoTableWindow exhaustedSample →
    (SmallCall.pgunmap 1 0x400000).Survived (callees 2) {1, 3} exhaustedSample) := by
  intro hsurvives
  have hstarved : (SmallCall.pgunmap 1 0x400000).Starved exhaustedSample := by
    have hframes : freeFrames exhaustedSample = [] := by decide
    unfold SmallCall.Starved
    rw [hframes]
    exact Nat.lt_of_lt_of_le Nat.zero_lt_one (Nat.le_add_right 1 _)
  obtain ⟨t, hrun, -⟩ := hsurvives (.inl hstarved)
  exact SmallCall.served (c := .pgunmap 1 0x400000) exhaustedSample_tables (.inl rfl) rfl exhaustedSample_guard
    (callees_closed 1) (.inl rfl) (by decide) (exhaustedSample_noCow 1 0x400000) hrun hstarved

end SysX
