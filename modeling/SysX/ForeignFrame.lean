import SysX.Unmapping

/-!
What the calls on another VMM leave behind in the current one: the windows they opened are closed
again on every path, except for the directory's window of `vmm_get_pgsz`.
-/
namespace SysX

/-- A call of one of the functions that work on the tables of another VMM. -/
inductive ForeignCall where
  | getPgsz (va : ℕ)
  | getPaddr (va : ℕ)
  | getFlags (va : ℕ)
  | setPaddr (va pa : ℕ)
  | setFlags (va : ℕ) (flags : Word)
  | pgmap (pa va pgszIdx : ℕ) (flags : Word)
  | pgunmap (va pgszIdx : ℕ)

namespace ForeignCall

/-- The address the call is about. -/
def va : ForeignCall → ℕ
  | getPgsz va | getPaddr va | getFlags va | setPaddr va _ | setFlags va _ | pgmap _ va _ _
  | pgunmap va _ => va

def run (K : Callees) (vmm : ℕ) : ForeignCall → Kernel Unit
  | getPgsz va => do
    let _ ← vmmGetPgsz K vmm va
    pure ()
  | getPaddr va => do
    let _ ← vmmGetPaddr K vmm va
    pure ()
  | getFlags va => do
    let _ ← vmmGetFlags K vmm va
    pure ()
  | setPaddr va pa => vmmSetPaddr K vmm va pa
  | setFlags va flags => vmmSetFlags K vmm va flags
  | pgmap pa va pgszIdx flags => vmmPgmap K vmm pa va pgszIdx flags
  | pgunmap va pgszIdx => vmmPgunmap K vmm va pgszIdx

/-- How many windows the call has open at once, given the directory entry of its page. -/
def windows (e : Word) : ForeignCall → ℕ
  | getPgsz _ | getPaddr _ | getFlags _ | setPaddr _ _ | setFlags _ _ => walkWindows e
  | pgmap _ _ 0 _ => 2
  | pgmap _ _ 1 _ => 1
  | pgunmap _ 0 => unmapWindows e
  | pgunmap _ 1 => walkWindows e
  | _ => 0

/-- Frames that are enough for the page tables of the windows and for a new page table. Every page
of a 4 MiB page that is split counts anew. -/
def frames (e : Word) : ForeignCall → ℕ
  | pgunmap _ 0 => if e.pgsz then 4097 else 4
  | _ => 4

/-- The call goes through a page table and leaves the directory's window open. -/
def Leaks (s : Machine) (v : ℕ) : ForeignCall → Prop
  | getPgsz va => (s.mem v (va / 4194304)).HasTable
  | _ => False

/-- The call unmaps a trapped page that a copy-on-write trap is left for. -/
def Resolves (s : Machine) (v : ℕ) : ForeignCall → Prop
  | pgunmap va 0 =>
    (pteAt s.mem v (va / 4096)).trapped = true ∧ HasCow s (v * 4096) va ∨
    (s.mem v (va / 4194304)).pgsz = true ∧ (s.mem v (va / 4194304)).trapped = true ∧
      HasCow s (v * 4096) (va / 4194304 * 4194304)
  | pgunmap va 1 =>
    (s.mem v (va / 4194304)).HasTable ∧ (∃ i < 1024,
      (s.mem (s.mem v (va / 4194304)).pt i).trapped = true ∧ HasCow s (v * 4096) (va ||| i * 4096)) ∨
    (s.mem v (va / 4194304)).pgsz = true ∧ (s.mem v (va / 4194304)).trapped = true ∧
      HasCow s (v * 4096) va
  | _ => False

end ForeignCall

/-- Every page of the current VMM is translated as before. -/
def SameTranslation (s t : Machine) : Prop :=
  ∀ p, Regular p → view t.mem t.cr3 p = view s.mem s.cr3 p

section Frame

variable {D L L' : Set ℕ} {s σ t : Machine} {K : Callees} {v n : ℕ}

theorem Windowed.sameTranslation (h : Windowed D L' σ t fun _ => 0#32) (hap : Apart L v s σ)
    (hc : s.cr3 ∈ L) (hvc : v ≠ s.cr3) : SameTranslation s t := by
  intro p hp
  have hcr : σ.cr3 = s.cr3 := by rw [Machine.cr3, hap.vmmCurrent, Machine.cr3]
  rw [h.cr3_eq, h.view_cur hp rfl, hcr]
  exact hap.view _ hc hvc.symm p hp

/-- A window that was left open. -/
theorem Windowed.not_sameTranslation {W : ℕ → Word} (h : Windowed D L s t W) {p : ℕ}
    (hp : W p ≠ 0#32) : ¬ SameTranslation s t := by
  intro hsame
  obtain ⟨-, hu, hv⟩ := h.clear p hp
  have := hsame p (Windowed.regular_of_user hu)
  rw [h.cr3_eq, h.view_window hp, hv] at this
  cases this

theorem Tables.apart_setPaddrAt (h : Tables D L s) (hv : v ∈ L) {va pa : ℕ} (hva : va < kernelStart) :
    Apart L v s (setPaddrAt s v va pa) := by
  unfold setPaddrAt
  dsimp only
  split_ifs with hs hz
  · exact h.apart_pde (h.sub hv) _ _
  · exact .refl L v s
  · have he : (s.mem v (va / 4194304)).HasTable := by
      by_contra he
      exact hz (pteAt_of_not_hasTable (by rw [va_slot]; exact he))
    exact h.apart (h.sub hv) (h.onlyOf_table hv (slot_of_lt hva) he) rfl fun g _ hg =>
      s.set_mem_of_ne _ _ _ hg

theorem Tables.apart_setFlagsAt (h : Tables D L s) (hv : v ∈ L) {va : ℕ} {flags : Word}
    (hva : va < kernelStart) : Apart L v s (setFlagsAt s v va flags) := by
  unfold setFlagsAt
  dsimp only
  split_ifs with hs hz
  · exact h.apart_pde (h.sub hv) _ _
  · exact .refl L v s
  · have he : (s.mem v (va / 4194304)).HasTable := by
      by_contra he
      exact hz (pteAt_of_not_hasTable (by rw [va_slot]; exact he))
    refine h.apart (h.sub hv) (h.onlyOf_table hv (slot_of_lt hva) he) rfl fun g _ hg => ?_
    rw [Machine.set_mem_of_ne _ _ _ _ hg, s.set_mem_of_ne _ _ _ hg]

end Frame

section Calls

variable {D L : Set ℕ} {s t : Machine} {K : Callees} {ok : Prop} {v : ℕ} (c : ForeignCall)

/-- With its windows in place, a call that neither leaks nor resolves leaves no trace. -/
theorem ForeignCall.same (h : Tables D L s) (hK : K.Closed) (hc : s.cr3 ∈ L) (hv : v ∈ L)
    (hvc : v ≠ s.cr3) (hva : c.va < kernelStart)
    (hroom : Room s (fun _ => 0#32) 0 (c.windows (s.mem v (c.va / 4194304))))
    (hg : Guard ok s s (c.frames (s.mem v (c.va / 4194304))))
    (hleaks : ¬ c.Leaks s v) (hres : ¬ c.Resolves s v) :
    Comp.Wp False (c.run K (v * 4096)) (fun _ t => SameTranslation s t) s := by
  have hw : Windowed D L s s fun _ => 0#32 := .refl h hc
  have same : ∀ {L' : Set ℕ} {σ t}, Windowed D L' σ t (fun _ => 0#32) → Apart L v s σ →
      SameTranslation s t := fun hw' hap => hw'.sameTranslation hap hc hvc
  have hoff : OffSlot c.va := offSlot_of_lt hva
  have hslot : ¬ (rmapStart ≤ c.va ∧ c.va < rmapEnd) := fun hr => Nat.not_le_of_lt hva hr.1
  cases c with
  | getPgsz va =>
    have hnot : ¬ (s.mem v ((ForeignCall.getPgsz va).va / 4194304)).HasTable := hleaks
    refine .bind (hw.vmmGetPgsz_foreign hK hv hvc hoff (n := 2) hg hroom).relax fun _ t ht => .pure ?_
    have ht' := ht.2.1
    rw [if_neg hnot] at ht'
    exact same ht' (.refl L v s)
  | getPaddr va =>
    exact .bind (hw.vmmGetPaddr_foreign hK hv hvc hoff (n := 2) hg hroom).relax fun _ t ht =>
      .pure (same ht.2.1 (.refl L v s))
  | getFlags va =>
    exact .bind (hw.vmmGetFlags_foreign hK hv hvc hoff (n := 2) hg hroom).relax fun _ t ht =>
      .pure (same ht.2.1 (.refl L v s))
  | setPaddr va pa =>
    exact (hw.vmmSetPaddr_foreign hK hv hvc hoff pa (n := 2) hg hroom).relax.mono fun _ t ht =>
      same ht.1 (h.apart_setPaddrAt hv hva)
  | setFlags va flags =>
    exact (hw.vmmSetFlags_foreign hK hv hvc hoff flags (n := 2) False.elim False.elim hg hroom).mono
      fun _ t ht => same ht.2.1 (h.apart_setFlagsAt hv hva)
  | pgmap pa va pgszIdx flags =>
    have hp : propagates s va = false := propagates_of_lt hva
    have hsame : ¬ (rmapStart ≤ va ∧ va < rmapEnd) := hslot
    simp only [ForeignCall.run, vmmPgmap, if_neg hsame]
    rcases pgszIdx with _ | _ | k
    · refine (hw.vmmPgmapSmall_foreign (n := 0) (m := 0) hK hv hvc hoff ?_ hg hroom ?_).relax.mono
        fun _ t ht => ht.elim fun σ hσ => same hσ.2.1 (hσ.1.apart h hv (slot_of_lt hva) hp)
      all_goals
        intro hp'
        cases hp'.symm.trans hp
    · refine (hw.vmmPgmapHuge_foreign (n := 3) hK hv hvc hoff ?_ hp hg hroom).relax.mono
        fun _ t ht => same ht.1 (h.apart_release (h.sub hv) _ _)
      intro h768
      have := slot_of_lt hva
      exact absurd h768 (by omega)
    · exact .pure fun _ _ => rfl
  | pgunmap va pgszIdx =>
    have hsame : ¬ (rmapStart ≤ va ∧ va < rmapEnd) := hslot
    simp only [ForeignCall.run, vmmPgunmap, if_neg hsame]
    rcases pgszIdx with _ | _ | k
    · have hg' : Guard ok s s (0 + (if (s.mem v (va / 4194304)).pgsz then 4 * 1024 else 1) + 1) := by
        refine hg.mono ?_
        change _ ≤ if (s.mem v (va / 4194304)).pgsz then 4097 else 4
        split_ifs <;> omega
      refine (hw.vmmPgunmapSmall_foreign hK hv hvc hva ?_ ?_ hg' hroom).mono
        fun _ t ht => ht.elim fun σ hσ => same hσ.2.2 hσ.2.1
      · exact fun ht hcow => hres (.inl ⟨ht, hcow⟩)
      · exact fun hs ht hcow => hres (.inr ⟨hs, ht, hcow⟩)
    · refine (hw.vmmPgunmapHuge_foreign (n := 2) hK hv hvc hva ?_ ?_ hg hroom).mono
        fun _ t hwt => same hwt (h.apart_release (h.sub hv) _ _)
      · exact fun he i hi ht hcow => hres (.inl ⟨he, i, hi, ht, hcow⟩)
      · exact fun hs ht hcow => hres (.inr ⟨hs, ht, hcow⟩)
    · exact .pure fun _ _ => rfl

/-- `vmm_get_pgsz` of an address with a page table leaves the directory's window behind. -/
theorem ForeignCall.leak (h : Tables D L s) (hK : K.Closed) (hc : s.cr3 ∈ L) (hv : v ∈ L)
    (hvc : v ≠ s.cr3) (hva : c.va < kernelStart)
    (hroom : Room s (fun _ => 0#32) 0 (c.windows (s.mem v (c.va / 4194304))))
    (hg : Guard ok s s (c.frames (s.mem v (c.va / 4194304)))) (hleaks : c.Leaks s v) :
    Comp.Wp False (c.run K (v * 4096)) (fun _ t => ¬ SameTranslation s t) s := by
  have hw : Windowed D L s s fun _ => 0#32 := .refl h hc
  cases c with
  | getPgsz va =>
    have htab : (s.mem v ((ForeignCall.getPgsz va).va / 4194304)).HasTable := hleaks
    refine .bind (hw.vmmGetPgsz_foreign hK hv hvc (offSlot_of_lt hva) (n := 2) hg hroom).relax
      fun _ t ht => .pure ?_
    have ht' := ht.2.1
    rw [if_pos htab] at ht'
    obtain ⟨p, -, hwt⟩ := ht'
    refine hwt.not_sameTranslation (p := p) ?_
    rw [Function.update_self]
    exact windowFlags_read.windowPte_ne_zero _
  | _ => exact hleaks.elim

end Calls

/-- A call on another VMM that could map its windows leaves every page of the current VMM as it was, except when
`vmm_get_pgsz` goes through a page table; unmapping a page whose copy-on-write is still to be resolved apart. -/
theorem foreign_call_frame {n : ℕ} {D L : Set ℕ} {s t : Machine} {v : ℕ} (c : ForeignCall)
    (h : Tables D L s) (hc : s.cr3 ∈ L) (hv : v ∈ L) (hvc : v ≠ s.cr3) (hva : c.va < kernelStart)
    (hroom : Room s (fun _ => 0#32) 0 (c.windows (s.mem v (c.va / 4194304))))
    (hframes : FreeFrames s (c.frames (s.mem v (c.va / 4194304))) ∨ NullGuard s)
    (hrun : c.run (callees (n + 1)) (v * 4096) s = some ((), t)) :
    (¬ c.Leaks s v ∧ ¬ c.Resolves s v → SameTranslation s t) ∧
      (c.Leaks s v → ¬ SameTranslation s t) := by
  obtain ⟨ok, hg⟩ : ∃ ok, Guard ok s s (c.frames (s.mem v (c.va / 4194304))) := by
    rcases hframes with hf | hn
    · exact ⟨True, fun _ => hf, fun hno => absurd trivial hno⟩
    · exact ⟨False, False.elim, fun _ => hn⟩
  have hK := callees_closed n
  refine ⟨fun hno => ?_, fun hleaks => ?_⟩
  · exact (c.same h hK hc hv hvc hva hroom hg hno.1 hno.2).2 () t hrun
  · exact (c.leak h hK hc hv hvc hva hroom hg hleaks).2 () t hrun

/-- The current VMM and another one, each with one page table; the other one maps the page at 64 KiB. -/
def foreignSample : Machine := { (default : Machine) with
  mem := fun f i =>
    match f, i with
    | 1, 0 => 0x2007#32
    | 1, 767 => 0x1003#32
    | 3, 0 => 0x4007#32
    | 3, 767 => 0x3003#32
    | 4, 16 => 0x8007#32
    | _, _ => 0#32
  pmmBitmap := fun i => if i = 0 then 0xFFF#32 else 0#32
  pmmFrames := 32
  vmmCurrent := 0x1000 }

theorem foreignSample_slot {v i : ℕ} (hv : v = 1 ∨ v = 3) (hi : i ≠ 767)
    (ht : (foreignSample.mem v i).HasTable) : i = 0 := by
  by_contra h0
  have hz : foreignSample.mem v i = 0#32 := by
    rcases hv with rfl | rfl
    all_goals
      simp only [foreignSample]
      split <;> simp_all
  rw [hz] at ht
  exact Word.not_hasTable_zero ht

theorem foreignSample_tables : Tables {1, 3} {1, 3} foreignSample := by
  constructor
  case frames => decide
  case sub => exact subset_rfl
  case dir =>
    rintro v (rfl | rfl)
    · exact ⟨by decide, by decide⟩
    · exact ⟨by decide, by decide⟩
  case self =>
    rintro v (rfl | rfl)
    · exact ⟨by decide, by decide, by decide, by decide⟩
    · exact ⟨by decide, by decide, by decide, by decide⟩
  case present =>
    intro v hv i _ hi ht
    obtain rfl := foreignSample_slot hv hi ht
    rcases hv with rfl | rfl <;> decide
  case rw =>
    intro v hv i _ hi ht
    obtain rfl := foreignSample_slot hv hi ht
    rcases hv with rfl | rfl <;> decide
  case used =>
    intro v hv i _ hi ht
    obtain rfl := foreignSample_slot hv hi ht
    rcases hv with rfl | rfl <;> decide
  case notDir =>
    intro v hv i _ hi ht
    obtain rfl := foreignSample_slot hv hi ht
    rcases hv with rfl | rfl <;> decide
  case sep =>
    intro v hv w hw i _ j _ hi hj ht ht' heq
    obtain rfl := foreignSample_slot hv hi ht
    obtain rfl := foreignSample_slot hw hj ht'
    refine ⟨rfl, .inl ?_⟩
    rcases hv with rfl | rfl <;> rcases hw with rfl | rfl
    · rfl
    · exact absurd heq (by decide)
    · exact absurd heq (by decide)
    · rfl

theorem foreignSample_room : Room foreignSample (fun _ => 0#32) 0 2 := by
  refine ⟨[1, 2], rfl, by decide, fun p hp => ⟨Nat.zero_le p, ?_⟩⟩
  rcases List.mem_pair.mp hp with rfl | rfl
  · exact ⟨by decide, by decide, rfl, by decide⟩
  · exact ⟨by decide, by decide, rfl, by decide⟩

theorem foreignSample_guard : NullGuard foreignSample := ⟨by decide, by decide⟩

/-- `vmm_get_paddr` of the page of the other VMM. -/
theorem foreign_call_frame_sample : SameTranslation foreignSample
    (Comp.after ((ForeignCall.getPaddr 0x10000).run (callees 2) 0x3000) foreignSample) := by
  have hrun : ((ForeignCall.getPaddr 0x10000).run (callees 2) 0x3000 foreignSample).map Prod.fst =
      some () := by decide +kernel
  exact (foreign_call_frame (n := 1) (v := 3) (.getPaddr 0x10000) foreignSample_tables (.inl rfl)
    (.inr rfl) (by decide) (by decide) foreignSample_room (.inr foreignSample_guard)
    (Comp.run_after hrun)).1 ⟨id, id⟩

/-- `vmm_get_pgsz` of the same page leaves page 1 of the current VMM mapped. -/
theorem window_left_open : ¬ ∀ (c : ForeignCall) (D L : Set ℕ) (s t : Machine) (v : ℕ), Tables D L s →
    s.cr3 ∈ L → v ∈ L → v ≠ s.cr3 → c.va < kernelStart →
    Room s (fun _ => 0#32) 0 (c.windows (s.mem v (c.va / 4194304))) →
    FreeFrames s (c.frames (s.mem v (c.va / 4194304))) ∨ NullGuard s →
    c.run (callees 2) (v * 4096) s = some ((), t) → SameTranslation s t := by
  intro h
  have hrun : ((ForeignCall.getPgsz 0x10000).run (callees 2) 0x3000 foreignSample).map Prod.fst =
      some () := by decide +kernel
  have hsame := h (.getPgsz 0x10000) {1, 3} {1, 3} foreignSample _ 3 foreignSample_tables (.inl rfl)
    (.inr rfl) (by decide) (by decide) foreignSample_room (.inr foreignSample_guard)
    (Comp.run_after hrun) 1 ⟨by decide, by decide⟩
  have hbefore : view foreignSample.mem foreignSample.cr3 1 = none := by decide
  have hafter : view (Comp.after ((ForeignCall.getPgsz 0x10000).run (callees 2) 0x3000) foreignSample).mem
      (Comp.after ((ForeignCall.getPgsz 0x10000).run (callees 2) 0x3000) foreignSample).cr3 1 ≠ none := by
    decide +kernel
  exact hafter (hsame.trans hbefore)

end SysX
