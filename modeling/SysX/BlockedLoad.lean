import SysX.NoWindow

/-!
`elf_load_phdr` into another VMM when there are no pages for the windows on its page tables. Nothing is mapped then, every page
seems to be behind frame 0, and the bytes of the segments are written there.
-/
namespace SysX

section Refused

variable {D L : Set ℕ} {s σ : Machine} {v i : ℕ}

theorem Refused.elsewhere (hr : Refused s v i σ) (h : Tables D L s) (hv : v ∈ L) (hs : (s.mem v i).pgsz = false) :
    Elsewhere D L (fun w q => w = v ∧ q / 1024 = i) s σ := by
  rcases hr with rfl | ⟨-, f, -, hfree, rfl⟩
  · exact .refl D L _ _
  have hmem : ∀ g, g ≠ v → ((s.setBitmap f true).set v i (newTableEntry (s.mem v i) f)).mem g = s.mem g := fun g hg =>
    Machine.set_mem_of_ne _ _ _ _ hg
  have hslot : ∀ j, j ≠ i → ((s.setBitmap f true).set v i (newTableEntry (s.mem v i) f)).mem v j = s.mem v j := fun j hj =>
    Machine.set_mem_of_ne_index _ _ _ _ _ hj
  have hDv := h.sub hv
  refine ⟨rfl, rfl, rfl, fun w hw q hq _ hno => ?_, fun w hw j _ => ?_, fun g hg hL => hmem g fun he => hL (he ▸ hv), fun g hg => ?_,
    fun g hg => hmem g fun he => hg ?_⟩
  · have hlt : q / 1024 < 1024 := by have := hq.1; omega
    have hdir : ((s.setBitmap f true).set v i (newTableEntry (s.mem v i) f)).mem w (q / 1024) = s.mem w (q / 1024) := by
      by_cases hwv : w = v
      · rw [hwv]
        exact hslot _ fun he => hno ⟨hwv, he⟩
      · rw [hmem w hwv]
    refine view_congr hdir fun ht => ?_
    rw [hdir] at ht ⊢
    rw [hmem _ (h.pt_ne hw hDv hlt hq.2 ht)]
  · by_cases hwv : w = v
    · rw [hwv]
      by_cases hj : j = i
      · rw [hj, Machine.set_mem_self, newTableEntry_pgsz, hs]
      · rw [hslot j hj]
    · rw [hmem w hwv]
  · exact (used_alloc s f g).mpr (.inr hg)
  · rw [he]
    exact (used_alloc s f v).mpr (.inr (h.dir v hDv).1)

/-- The pages of the slot: as they were, or what the frame of the new page table holds. -/
theorem Refused.view (hr : Refused s v i σ) (h : Tables D L s) (hv : v ∈ L) {q : ℕ} (hq : q / 1024 = i) :
    SysX.view σ.mem v q = SysX.view s.mem v q ∨
      ∃ f, ¬ used s f ∧ f < 1048576 ∧ ¬ (s.mem v i).HasTable ∧ SysX.view σ.mem v q = viewPte (s.mem f (q % 1024)) := by
  rcases hr with rfl | ⟨hno, f, hf, hfree, rfl⟩
  · exact .inl rfl
  · have hlt := lt_of_lt_of_le hf h.frames
    have hfv : f ≠ v := fun he => hfree (he ▸ (h.dir v (h.sub hv)).1)
    have hself : ((s.setBitmap f true).set v i (newTableEntry (s.mem v i) f)).mem v (q / 1024) = newTableEntry (s.mem v i) f := by
      rw [hq]
      exact Machine.set_mem_self _ _ _ _
    refine .inr ⟨f, hfree, hlt, hno, ?_⟩
    rw [view_eq_pte (by rw [hself]; exact newTableEntry_hasTable _ f), hself, newTableEntry_pt _ hlt]
    exact congrArg viewPte (congrFun (Machine.set_mem_of_ne _ _ _ _ hfv) _)

end Refused

/-- The windows are missing, and `v` maps no more pages than before, but for what was in the frames of its new page tables. -/
structure Blocked (ok : Prop) (L : Set ℕ) (s₀ : Machine) (v : ℕ) (D : Set ℕ) (m dst : ℕ) (t : Machine) : Prop where
  settled : Settled ok D L m t
  zero : 0 ∈ D
  elsewhere : Elsewhere ∅ L (fun w q => w = v ∨ userPages ≤ q ∧ q * 4096 = dst ∧ dst ≠ 0) s₀ t
  copy : dst = 0 ∨ ∃ q f, dst = q * 4096 ∧ CopyPage t q f
  stale : ∀ q < userPages, view s₀.mem v q = none → view t.mem v q = none ∨
    ∃ f, ¬ used s₀ f ∧ view t.mem v q = viewPte (s₀.mem f (q % 1024))

namespace Blocked

variable {ok : Prop} {A L D D' : Set ℕ} {s₀ t u : Machine} {v m m' dst dst' q va : ℕ} {C : ℕ → ℕ → Prop} {K : Callees}

theorem start {s : Machine} (h : Settled ok D L m s) (hzero : 0 ∈ D) : Blocked ok L s v D m 0 s :=
  ⟨h, hzero, .refl ∅ L _ s, .inl rfl, fun _ _ => .inl⟩

theorem cr3 (h : Blocked ok L s₀ v D m dst t) : t.cr3 = s₀.cr3 := h.elsewhere.cr3

theorem le (h : Blocked ok L s₀ v D m dst t) (hm : m' ≤ m) : Blocked ok L s₀ v D m' dst t :=
  { h with settled := h.settled.le hm }

theorem noRoom (h : Blocked ok L s₀ v D m dst t) (hvc : v ≠ s₀.cr3) (hroom : ¬ Room s₀ (fun _ => 0#32) 0 2) :
    ¬ Room t (fun _ => 0#32) 0 2 := by
  refine fun hr => hroom (hr.congr fun p hp => ?_)
  have hc : s₀.cr3 ∈ L := h.cr3 ▸ h.settled.cur
  rw [h.cr3]
  refine (h.elsewhere.page _ hc p (Windowed.regular_of_user hp) (.inl rfl) ?_).symm
  rintro (he | ⟨hlow, -⟩)
  · exact hvc he.symm
  · omega

/-- The directory entry of a free page is for no page of 4 MiB. -/
theorem small (h : Blocked ok L s₀ v D m dst t) (hv : v ∈ L) (hq : q < userPages) (hno : view s₀.mem v q = none) :
    (t.mem v (q / 1024)).pgsz = false := by
  rw [h.elsewhere.pgsz v hv _ (.inr (userPages_slot hq))]
  exact (view_eq_none.mp hno).1

/-- A step that at most touches the copy page. -/
theorem quiet (h : Blocked ok L s₀ v D m dst t) (hv : v ∈ L) (hset : Settled ok D' L m' u) (hD : D ⊆ D')
    (hin : Elsewhere A L C t u) (hC : ∀ w q, C w q → userPages ≤ q ∧ q * 4096 = dst' ∧ dst' ≠ 0) (hdst : dst = 0 ∨ dst = dst')
    (hcopy : dst' = 0 ∨ ∃ q f, dst' = q * 4096 ∧ CopyPage u q f) : Blocked ok L s₀ v D' m' dst' u := by
  refine ⟨hset, hD h.zero, ?_, hcopy, fun q hq hno => ?_⟩
  · refine (h.elsewhere.mono ?_).trans ((hin.antitone (Set.empty_subset A)).mono fun w q hw => .inr (hC w q hw))
    rintro w q (hw | ⟨hlow, hq, hne⟩)
    · exact .inl hw
    · obtain rfl := hdst.resolve_left hne
      exact .inr ⟨hlow, hq, hne⟩
  · rw [hin.page v hv q (Windowed.regular_of_user hq) (.inr hq) fun hw => absurd (hC v q hw).1 (by omega)]
    exact h.stale q hq hno

/-- A step that does not touch it. -/
theorem still (h : Blocked ok L s₀ v D m dst t) (hv : v ∈ L) (hset : Settled ok D' L m' u) (hD : D ⊆ D')
    (hin : Elsewhere A L (fun _ _ => False) t u) : Blocked ok L s₀ v D' m' dst u :=
  h.quiet hv hset hD hin (fun _ _ => False.elim) (.inr rfl)
    (h.copy.imp_right fun ⟨q, f, hq, hpage⟩ => ⟨q, f, hq, hpage.elsewhere hin h.settled.cur id⟩)

/-- The page seems to be unmapped. -/
theorem getPaddr (h : Blocked ok L s₀ v D (m + 2) dst t) (hK : K.Closed) (hv : v ∈ L) (hvc : v ≠ s₀.cr3)
    (hroom : ¬ Room s₀ (fun _ => 0#32) 0 2) (hva : va < kernelStart) (hno : view s₀.mem v (va / 4096) = none) :
    Comp.Wp ok (vmmGetPaddr K (v * 4096) va) (fun r t' => r = 0 ∧ Blocked ok L s₀ v D m dst t') t := by
  have hq : va / 4096 < userPages := by
    unfold kernelStart rmapStart at hva
    unfold userPages
    omega
  refine (h.settled.getPaddr hK hv (offSlot_of_lt hva)).mono fun r t' ⟨hreach, hblocked, hw, hset⟩ =>
    ⟨?_, h.still hv hset Set.Subset.rfl (hw.elsewhere _)⟩
  by_cases hr : Reach t v va
  · have hwalk := hr.resolve_left fun he => hvc (he.trans h.cr3)
    have htable : ¬ (t.mem v (va / 4194304)).HasTable := by
      intro ht
      rw [walkWindows, if_pos ht] at hwalk
      exact h.noRoom hvc hroom hwalk
    have hs := h.small hv hq hno
    rw [va_slot] at hs
    have hzero : t.mem v (va / 4194304) = 0#32 := by
      by_contra hne
      exact htable ⟨hne, hs⟩
    rw [hreach hr, paddrAt, view_of_slot_zero (by rw [va_slot]; exact hzero)]
  · exact hblocked hr

/-- `vmm_pgmap` does not map the page. -/
theorem pgmap (h : Blocked ok L s₀ v D (m + 3) dst t) (hK : K.Closed) (hv : v ∈ L) (hvc : v ≠ s₀.cr3)
    (hroom : ¬ Room s₀ (fun _ => 0#32) 0 2) (hq : q < userPages) (hno : view s₀.mem v q = none) (pa : ℕ) (flags : Word) :
    Comp.Wp ok (vmmPgmap K (v * 4096) pa (q * 4096) 0 flags) (fun _ t' => Blocked ok L s₀ v D m dst t') t := by
  have hva : q * 4096 < kernelStart := by
    unfold userPages at hq
    unfold kernelStart rmapStart
    omega
  have hvt : v ≠ t.cr3 := by rwa [h.cr3]
  refine (h.settled.mapRefused hK hv hvt (offSlot_of_lt hva) (h.noRoom hvc hroom) pa flags).mono ?_
  rintro _ t' ⟨σ, hr, hw, hset⟩
  rw [page_slot] at hr
  have hin := (hr.elsewhere h.settled.tables hv (h.small hv hq hno)).trans (hw.elsewhere _)
  refine ⟨hset, h.zero, ?_, ?_, fun p hp hnone => ?_⟩
  · exact h.elsewhere.trans ((hin.antitone (Set.empty_subset D)).mono fun w p hC => .inl hC.1)
  · exact h.copy.imp_right fun ⟨q', f, hq', hpage⟩ => ⟨q', f, hq', hpage.elsewhere hin h.settled.cur fun hC => hvt hC.1.symm⟩
  · have hstale := h.stale p hp hnone
    by_cases hpq : p / 1024 = q / 1024
    · rw [hw.views_closed hv (Windowed.regular_of_user hp)]
      rcases hr.view h.settled.tables hv hpq with hsame | ⟨f, hfree, -, -, hview⟩
      · rw [hsame]
        exact hstale
      · refine .inr ⟨f, fun hu => hfree (h.elsewhere.used f hu), ?_⟩
        rw [hview, h.elsewhere.spare f hfree]
    · rw [hin.page v hv p (Windowed.regular_of_user hp) (.inr hp) fun hC => hpq hC.2]
      exact hstale

/-- A frame is taken for every page, and the page is not mapped. -/
theorem mapPages (user : Bool) (p : ElfPhdr) (hK : K.Closed) (hv : v ∈ L) (hvc : v ≠ s₀.cr3)
    (hroom : ¬ Room s₀ (fun _ => 0#32) 0 2) (n : ℕ) :
    ∀ {j : ℕ} {D : Set ℕ} {t : Machine}, Blocked ok L s₀ v D (m + 7 * n) dst t → p.vaddr / 4096 + j + n ≤ userPages →
      (∀ q, p.vaddr / 4096 + j ≤ q → q < p.vaddr / 4096 + j + n → view s₀.mem v q = none) →
      Comp.Wp ok (elfMapPages K (v * 4096) user p n j) (fun r t' => (ok → r = true) ∧ ∃ D', (D ⊆ D' ∧
        (r = true → 0 < n → ∃ f ∈ D', ¬ used s₀ f)) ∧ Blocked ok L s₀ v D' m dst t') t := by
  induction n with
  | zero =>
    intro j D t h _ _
    exact .pure ⟨fun _ => rfl, D, ⟨Set.Subset.rfl, fun _ hlt => absurd hlt (Nat.lt_irrefl 0)⟩, h⟩
  | succ n ih =>
    intro j D t h hend hfree
    have hq : p.vaddr / 4096 + j < userPages := by omega
    have hva : w32 (p.vaddr - p.vaddr % 4096 + j * 4096) = (p.vaddr / 4096 + j) * 4096 := by
      unfold userPages at hend
      rw [w32_of_lt (by omega)]
      omega
    have hlow : (p.vaddr / 4096 + j) * 4096 < kernelStart := by
      unfold userPages at hq
      unfold kernelStart rmapStart
      omega
    have hno := hfree (p.vaddr / 4096 + j) (Nat.le_refl _) (by omega)
    have h' : Blocked ok L s₀ v D (m + 7 * n + 1 + 3 + 1 + 2) dst t := h
    rw [elfMapPages, hva]
    refine .bind (h'.getPaddr hK hv hvc hroom hlow (by rw [page_div]; exact hno)) ?_
    rintro pa t₁ ⟨hpa, h₁⟩
    rw [if_pos hpa]
    refine .bind h₁.settled.allocFrame fun r t₂ hr => ?_
    rcases hr with ⟨rfl, rfl, hok⟩ | ⟨f, rfl, rfl, -, hunused, -, hset₂⟩
    · exact .pure ⟨fun hyes => absurd hyes hok, D, ⟨Set.Subset.rfl, fun hyes => absurd hyes Bool.false_ne_true⟩, h₁.le (by omega)⟩
    · have h₂ := h₁.still hv hset₂ (Set.subset_insert f D) (Elsewhere.setBitmap D L _ t₁ f)
      refine .bind (h₂.pgmap hK hv hvc hroom hq hno _ _) fun _ t₃ h₃ => ?_
      refine (ih (h₃.le (by omega)) (by omega) fun q hlo hhi => hfree q (by omega) (by omega)).mono ?_
      rintro r t' ⟨hyes, D', ⟨hsub, -⟩, hdone⟩
      exact ⟨hyes, D', ⟨(Set.subset_insert f D).trans hsub, fun _ _ => ⟨f, hsub (Set.mem_insert f D), fun hused =>
        hunused (h₁.elsewhere.used f hused)⟩⟩, hdone⟩

/-- Bytes are written to frame 0. -/
theorem storeRun {qc k len : ℕ} (h : Blocked ok L s₀ v D m dst t) (hv : v ∈ L) (h0 : 0 ∉ L) (hpage : CopyPage t qc 0)
    (hk : k + len ≤ 4096) (bytes : ℕ → UInt8) :
    Comp.Wp ok (storeBytes (qc * 4096 + k) bytes len) (fun _ t' => Blocked ok L s₀ v D m dst t' ∧ CopyPage t' qc 0) t := by
  obtain ⟨c, hrun, -⟩ := h.settled.storeBytes h.zero h0 hpage.regular hpage.access hk bytes
  have hin := h.settled.elsewhere_setFrame h.zero h0 c fun _ _ => False
  exact .of_eq hrun ⟨h.still hv (h.settled.setFrame h.zero h0 c) Set.Subset.rfl hin, hpage.elsewhere hin h.settled.cur id⟩

/-- One page of "copy data to the segment", with whatever `vfs_read` gives. -/
theorem copyPage {p : ElfPhdr} {file : ℕ → ℕ → List UInt8} {qc offset sz k : ℕ} (h : Blocked ok L s₀ v D m dst t) (hv : v ∈ L)
    (h0 : 0 ∉ L) (hpage : CopyPage t qc 0) (hk : k + sz ≤ 4096) (hend : offset + sz < 4294967296) :
    Comp.Wp ok (elfCopyPage file p offset sz (qc * 4096 + k)) (fun _ t' => Blocked ok L s₀ v D m dst t') t := by
  have hqc := hpage.high
  unfold elfCopyPage
  rw [w32_of_lt hend]
  generalize hszRead : (if p.filesz ≤ offset then 0 else if offset + sz ≤ p.filesz then sz else p.filesz - offset) = szRead
  have hle : szRead ≤ sz := by
    rw [← hszRead]
    split_ifs <;> omega
  dsimp only
  refine .bind (R := fun _ t' => Blocked ok L s₀ v D m dst t' ∧ CopyPage t' qc 0) (.when (fun _ => ?_) fun _ => ⟨h, hpage⟩)
    fun _ t' ⟨h', hpage'⟩ => .when (fun _ => ?_) fun _ => h'
  · refine h.storeRun hv h0 hpage ?_ _
    have : ((file (w32 (p.offset + offset)) szRead).take szRead).length ≤ szRead := List.length_take_le _ _
    omega
  · rw [w32_of_lt (by omega), Nat.add_assoc]
    exact (h'.storeRun hv h0 hpage' (by omega) _).mono fun _ _ hdone => hdone.1

/-- "copy data to the segment, one page at a time" -/
theorem copyPages {p : ElfPhdr} (file : ℕ → ℕ → List UInt8) (hK : K.Closed) (hv : v ∈ L) (hvc : v ≠ s₀.cr3) (h0 : 0 ∉ L)
    (hroom : ¬ Room s₀ (fun _ => 0#32) 0 2) (hp : p.Below) (hfree : ∀ q, p.Touches q → view s₀.mem v q = none)
    (hne : dst ≠ 0) (fuel : ℕ) :
    ∀ {m offset : ℕ} {t : Machine}, offset ≤ p.memsz → p.pagesFrom offset < fuel →
      Blocked ok L s₀ v D (m + 4 * p.pagesFrom offset) dst t →
      Comp.Wp ok (elfCopyPages K (v * 4096) dst file p fuel offset) (fun _ t' => Blocked ok L s₀ v D m dst t') t := by
  induction fuel with
  | zero => exact fun _ hfuel => absurd hfuel (Nat.not_lt_zero _)
  | succ fuel ih =>
    intro m offset t hle hfuel h
    have hbelow := hp
    unfold ElfPhdr.Below kernelStart rmapStart at hbelow
    rw [elfCopyPages]
    refine .ite (fun hlt => ?_) fun _ => .pure (h.le (by omega))
    have hva : p.vaddr + offset < kernelStart := by
      unfold kernelStart rmapStart
      omega
    have htouch : p.Touches ((p.vaddr + offset) / 4096) := ElfPhdr.touches_of_hasByte hp ⟨by omega, by omega⟩
    have h' : Blocked ok L s₀ v D (m + 4 * (p.pagesFrom offset - 1) + 2 + 2) dst t := by
      have := ElfPhdr.pagesFrom_pos hlt
      exact h.le (by omega)
    rw [w32_of_lt (show p.vaddr + offset < 4294967296 by omega)]
    refine .bind (h'.getPaddr hK hv hvc hroom hva (hfree _ htouch)) ?_
    rintro pa t₁ ⟨hpa, h₁⟩
    refine .read_bind ?_
    obtain ⟨qc, f, rfl, hpage⟩ := h₁.copy.resolve_left hne
    have hlow := hpage.low
    rw [hpa]
    dsimp only
    refine .bind (h₁.settled.moveCopy hK hpage 0) ?_
    rintro _ t₂ ⟨hset₂, _, hin₂, hpage₂⟩
    have h₂ : Blocked ok L s₀ v D (m + 4 * (p.pagesFrom offset - 1)) (qc * 4096) t₂ := by
      refine h₁.quiet hv hset₂ Set.Subset.rfl hin₂ ?_ (.inr rfl) (.inr ⟨qc, _, rfl, hpage₂⟩)
      rintro w q ⟨-, rfl⟩
      exact ⟨by unfold userPages; omega, rfl, hne⟩
    rw [show 0 / 4096 % 1048576 = 0 from rfl] at hpage₂
    rw [show 4096 - 0 % 4096 = 4096 from rfl, w32_of_lt (show offset + 4096 < 4294967296 by omega)]
    generalize hsz : (if p.memsz < offset + 4096 then p.memsz - offset else 4096) = sz
    obtain ⟨hfit, hmem, hstep⟩ : sz ≤ 4096 ∧ offset + sz ≤ p.memsz ∧ (offset + sz = p.memsz ∨ sz = 4096) := by
      rw [← hsz]
      split_ifs <;> omega
    have hqc := hpage.high
    have hnext : p.pagesFrom (offset + sz) < p.pagesFrom offset := ElfPhdr.pagesFrom_next hlt (by omega)
    rw [w32_of_lt (show qc * 4096 + 0 % 4096 < 4294967296 by omega), w32_of_lt (show offset + sz < 4294967296 by omega)]
    refine .bind (h₂.copyPage (k := 0) hv h0 hpage₂ (by omega) (by omega)) fun _ t₃ h₃ => ?_
    exact .bind (ih hmem (by omega) (h₃.le (by omega))) fun _ t₄ h₄ => .pure h₄

theorem krealloc (h : Blocked ok L s₀ v D m dst t) (hv : v ∈ L) :
    Comp.Wp ok krealloc (fun r t' => Blocked ok L s₀ v D m dst t' ∧ ((∀ n, (s₀.heap n).isSome) → r.isSome)) t := by
  have hin : Elsewhere D L (fun _ _ => False) t { t with heapCalls := t.heapCalls + 1 } := .of_mem rfl rfl rfl rfl fun _ => id
  refine .of_eq rfl ⟨h.still hv (h.settled.setTraps t.vmmTraps _) Set.Subset.rfl hin, fun hheap => ?_⟩
  show (t.heap t.heapCalls).isSome
  rw [h.elsewhere.heap]
  exact hheap _

/-- The copy page is there, or it is found now. -/
theorem copyDst (h : Blocked ok L s₀ v D (m + 2) dst t) (hK : K.Closed) (hv : v ∈ L) (hvc : v ≠ s₀.cr3) (hk : KernelEnds s₀) :
    Comp.Wp ok (elfCopyDst K dst) (fun a t' => (a ≠ 0 → Blocked ok L s₀ v D m a t') ∧ (WindowFree s₀ → a ≠ 0)) t := by
  refine .ite (fun hne => .pure ⟨fun _ => h.le (by omega), fun _ => hne⟩) fun hzero => ?_
  obtain rfl : dst = 0 := by simpa using hzero
  have hc : s₀.cr3 ∈ L := h.cr3 ▸ h.settled.cur
  have hend : KernelEnds t := by
    unfold KernelEnds
    rw [h.elsewhere.kernelEnd]
    exact hk
  refine .read_bind (.read_bind ((h.settled.openCopy hK hend).mono ?_))
  rintro a t' (⟨rfl, -, hno⟩ | ⟨q, rfl, hset, -, -, hin, hpage⟩)
  · refine ⟨fun ha => absurd rfl ha, fun hfree => absurd (h.elsewhere.windowFree hc hk ?_ hfree) hno⟩
    rintro q hq (he | ⟨-, -, hne⟩)
    · exact hvc he.symm
    · exact hne rfl
  · have hlow := hpage.low
    refine ⟨fun hne => h.quiet hv hset Set.Subset.rfl hin ?_ (.inl rfl) (.inr ⟨q, 0, rfl, hpage⟩), fun _ => by omega⟩
    rintro w p ⟨-, rfl⟩
    exact ⟨by unfold userPages; omega, rfl, hne⟩

end Blocked

end SysX
