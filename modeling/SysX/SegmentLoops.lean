import SysX.LoadedImage

/-!
The two loops of `elf_load_phdr` over a segment: its pages are mapped, then its bytes are copied.
-/
namespace SysX

/-- The byte `i` of a segment, where `content` is what the file holds. -/
def ElfPhdr.contentAt (content : ℕ → UInt8) (p : ElfPhdr) (i : ℕ) : UInt8 :=
  if i < p.filesz then content (p.offset + i) else 0

/-- The segment ends below the kernel. -/
def ElfPhdr.Below (p : ElfPhdr) : Prop := p.vaddr + p.memsz ≤ kernelStart

def ElfPhdr.segment (content : ℕ → UInt8) (p : ElfPhdr) : Segment UInt8 where
  first := p.vaddr / 4096
  count := p.pages
  writable := p.writable
  lo := p.vaddr
  hi := p.vaddr + p.memsz
  data a := p.contentAt content (a - p.vaddr)

theorem ElfPhdr.pages_eq {p : ElfPhdr} (h : p.Below) : p.pages = (p.memsz + p.vaddr % 4096 + 4095) / 4096 := by
  unfold ElfPhdr.Below kernelStart rmapStart at h
  rw [ElfPhdr.pages, w32_of_lt (by omega)]

theorem ElfPhdr.lastPage {p : ElfPhdr} (h : p.Below) : p.vaddr / 4096 + p.pages ≤ userPages := by
  rw [ElfPhdr.pages_eq h]
  unfold ElfPhdr.Below kernelStart rmapStart at h
  unfold userPages
  omega

namespace Loading

variable {ok : Prop} {D₀ L D : Set ℕ} {s₀ t u : Machine} {v m m' n dst dst' q f pa : ℕ} {F : ℕ → ℕ} {user w : Bool}
  {I : Image UInt8} {K : Callees} {p : ElfPhdr}

theorem reach (h : Loading ok D₀ L s₀ v user D F m dst I t) (va : ℕ) : Reach t v va := by
  refine h.room.imp_right fun hroom => hroom.mono ?_
  unfold walkWindows
  split_ifs <;> omega

/-- One pass of the first loop. -/
theorem mapPage (h : Loading ok D₀ L s₀ v user D F (m + 7) dst I t) (hK : K.Closed) (hv : v ∈ L) (hq : q < userPages)
    (hfree : I.perm q = none → view s₀.mem v q = none) (hnull : ¬ ok → v = s₀.cr3 → q ≠ 0) {rest : Kernel Bool}
    {Q : Bool → Machine → Prop} (hfail : ¬ ok → ∀ t, Q false t)
    (hrest : ∀ D' F' t', Loading ok D₀ L s₀ v user D' F' m dst (I.mapPages w q 1) t' → Comp.Wp ok rest Q t') :
    Comp.Wp ok (do
      let pa ← vmmGetPaddr K (v * 4096) (q * 4096)
      if pa = 0 then do
        let frame ← pmmAllocFree 1
        match frame with
        | none => pure false
        | some frame => do
          vmmPgmap K (v * 4096) (w32 (frame * 4096)) (q * 4096) 0 (segmentFlags user w)
          rest
      else do
        Comp.when w do
          let flags ← vmmGetFlags K (v * 4096) (q * 4096)
          Comp.when (flags.getLsbD 1 = false) (vmmSetFlags K (v * 4096) (q * 4096) (flags ||| flagRw))
        rest) Q t := by
  have hreg := Windowed.regular_of_user hq
  have hoff := hreg.offSlot
  refine .bind (h.settled.getPaddr hK hv hoff) ?_
  rintro pa t₁ ⟨hpa, _, hw₁, hset₁⟩
  have h₁ := h.closed hv hw₁ hset₁
  rw [hpa (h.reach _), paddrAt, page_div]
  cases hperm : I.perm q with
  | none =>
    rw [h.free q hq hperm (hfree hperm), if_pos rfl]
    refine .bind h₁.settled.allocFrame fun r t₂ hr => ?_
    rcases hr with ⟨rfl, rfl, hok⟩ | ⟨f, rfl, rfl, hlt, hunused, -, hset₂⟩
    · exact .pure (hfail hok _)
    · have hnone := h₁.free q hq hperm (hfree hperm)
      have hfr : w32 (f * 4096) = f * 4096 := w32_of_lt (by omega)
      have hroom : v = (t₁.setBitmap f true).cr3 ∨ Room (t₁.setBitmap f true) (fun _ => 0#32) 0 2 := h₁.room
      refine .bind (hset₂.mapUser hK hv hq hnone hroom (fun hno hvc => hnull hno (hvc.trans h₁.cr3)) (w32 (f * 4096))
        (segmentFlags user w)) ?_
      rintro _ t₃ ⟨hset₃, hrest₃, hin₃, e, he⟩
      have hbits := segmentFlags_bits user w
      refine hrest _ _ t₃ (h₁.mapped hv hq hperm hnone hunused (hset₃.le (by omega)) ?_ ?_)
      · exact (Elsewhere.setBitmap _ _ _ _ _).trans hin₃
      · rw [he, viewPte, if_neg (Word.ne_zero_of_present (by rw [Word.fillPte_present]; exact hbits.1)), Word.fillPte_pt,
          Word.getFlags_fillPte, canonFlags_segmentFlags, hfr, page_div, Nat.mod_eq_of_lt hlt]
  | some w' =>
    have hview := h.page q w' hperm
    have hne : F q * 4096 + q * 4096 % 4096 ≠ 0 := by
      have := (h.frame q w' hperm).2.2
      omega
    rw [hview]
    dsimp only
    rw [if_neg hne]
    refine .bind (R := fun _ t' => Loading ok D₀ L s₀ v user D F m dst (I.mapPages w q 1) t') ?_ fun _ t' ht' => hrest _ _ t' ht'
    refine .when (fun hwrite => ?_) fun hwrite => ?_
    · have hset₁' : Settled ok D L (m + 3 + 2) t₁ := hset₁
      refine .bind (hset₁'.getFlags hK hv hoff) ?_
      rintro fl t₂ ⟨hfl, hw₂, hset₂⟩
      have h₂ := h₁.closed hv hw₂ hset₂
      rw [hfl (h₁.reach _), flagsAt, page_div, h₁.page q w' hperm]
      dsimp only
      have hbits := segmentFlags_bits user w'
      refine .when (fun hrw => ?_) fun hrw => ?_
      · obtain rfl : w' = false := hbits.2.1.symm.trans hrw
        rw [segmentFlags_rw]
        have htrue := segmentFlags_bits user true
        have hset₂' : Settled ok D L (m + 1 + 2) t₂ := hset₂
        refine (hset₂'.grantUser hK hv hq h₂.room (h₂.small q _ hperm) (h₂.page q _ hperm) hbits.2.2.2 htrue.2.2.2 htrue.1).mono ?_
        rintro _ t₃ ⟨hset₃, hrest₃, hin₃, hview₃⟩
        rw [canonFlags_segmentFlags] at hview₃
        rw [show w = true from hwrite]
        exact h₂.granted hv hperm (hset₃.le (by omega)) hin₃ hview₃
      · have hw' : w' = true := by
          rw [hbits.2.1] at hrw
          simpa using hrw
        rw [Image.mapPages_one_eq_self hperm fun _ => hw']
        exact { h₂ with settled := h₂.settled.le (by omega) }
    · have hno : w = false := by simpa using hwrite
      rw [Image.mapPages_one_eq_self hperm fun hyes => absurd hyes (by rw [hno]; exact Bool.false_ne_true)]
      exact { h₁ with settled := h₁.settled.le (by omega) }

/-- "allocate memory for the segment": the pages from number `j` on. -/
theorem mapPages (hK : K.Closed) (hv : v ∈ L) (n : ℕ) :
    ∀ {j : ℕ} {D : Set ℕ} {F : ℕ → ℕ} {I : Image UInt8} {t : Machine}, Loading ok D₀ L s₀ v user D F (m + 7 * n) dst I t →
      p.vaddr / 4096 + j + n ≤ userPages →
      (∀ q, p.vaddr / 4096 + j ≤ q → q < p.vaddr / 4096 + j + n →
        (I.perm q = none → view s₀.mem v q = none) ∧ (¬ ok → v = s₀.cr3 → q ≠ 0)) →
      Comp.Wp ok (elfMapPages K (v * 4096) user p n j) (fun r t' => (ok → r = true) ∧ (r = true → ∃ D' F',
        Loading ok D₀ L s₀ v user D' F' m dst (I.mapPages p.writable (p.vaddr / 4096 + j) n) t')) t := by
  induction n with
  | zero =>
    intro j D F I t h _ _
    refine .pure ⟨fun _ => rfl, fun _ => ⟨D, F, ?_⟩⟩
    rw [Image.mapPages_zero]
    exact h
  | succ n ih =>
    intro j D F I t h hend hpages
    have hva : w32 (p.vaddr - p.vaddr % 4096 + j * 4096) = (p.vaddr / 4096 + j) * 4096 := by
      unfold userPages at hend
      rw [w32_of_lt (by omega)]
      omega
    rw [elfMapPages, hva]
    obtain ⟨hfree, hnull⟩ := hpages (p.vaddr / 4096 + j) (Nat.le_refl _) (by omega)
    refine mapPage (m := m + 7 * n) h hK hv (by omega) hfree hnull (fun hok _ => ⟨fun h => absurd h hok, nofun⟩) ?_
    intro D' F' t' h'
    rw [Image.mapPages_succ, Nat.add_assoc (p.vaddr / 4096)]
    refine ih h' (by omega) fun q hlo hhi => ?_
    obtain ⟨hfree', hnull'⟩ := hpages q (by omega) (by omega)
    refine ⟨fun hno => hfree' ?_, hnull'⟩
    rw [Image.mapPages_one_perm] at hno
    split_ifs at hno
    exact hno

/-- A run of bytes is written through the copy page. -/
theorem storeRun {qc lo hi : ℕ} {g : ℕ → UInt8} (bytes : ℕ → UInt8) (h : Loading ok D₀ L s₀ v user D F m dst I t) (hv : v ∈ L)
    (hq : I.perm q = some w) (hpage : CopyPage t qc (F q)) (hlo : q * 4096 ≤ lo) (hle : lo ≤ hi) (hhi : hi ≤ (q + 1) * 4096)
    (hg : ∀ i < hi - lo, bytes i = g (lo + i)) :
    Comp.Wp ok (storeBytes (qc * 4096 + (lo - q * 4096)) bytes (hi - lo)) (fun _ t' =>
      Loading ok D₀ L s₀ v user D F m dst (I.fill lo hi g) t' ∧ CopyPage t' qc (F q)) t := by
  obtain ⟨hfD, -, -⟩ := h.frame q w hq
  have hL := h.notDir hq
  obtain ⟨c, hrun, hc⟩ := h.settled.storeBytes hfD hL hpage.regular hpage.access
    (show lo - q * 4096 + (hi - lo) ≤ 4096 by omega) bytes
  refine .of_eq hrun ⟨h.filled hv hq hlo hhi fun j hj => ?_, ?_⟩
  · rw [hc]
    by_cases hin : lo ≤ q * 4096 + j ∧ q * 4096 + j < hi
    · rw [if_pos (by omega), if_pos hin, hg _ (by omega)]
      exact congrArg g (by omega)
    · rw [if_neg (by omega), if_neg hin]
  · exact hpage.elsewhere (h.settled.elsewhere_setFrame hfD hL c fun _ _ => False) h.settled.cur id

end Loading

/-- The number of pages the copy of a segment still has to visit. -/
def ElfPhdr.pagesFrom (p : ElfPhdr) (offset : ℕ) : ℕ :=
  if offset < p.memsz then (p.vaddr + p.memsz + 4095) / 4096 - (p.vaddr + offset) / 4096 else 0

theorem ElfPhdr.pagesFrom_pos {p : ElfPhdr} {offset : ℕ} (h : offset < p.memsz) : 0 < p.pagesFrom offset := by
  rw [ElfPhdr.pagesFrom, if_pos h]
  omega

theorem ElfPhdr.pagesFrom_lt_fuel {p : ElfPhdr} (hp : p.Below) (offset : ℕ) : p.pagesFrom offset < loopFuel := by
  unfold ElfPhdr.Below kernelStart rmapStart at hp
  unfold ElfPhdr.pagesFrom loopFuel
  split_ifs <;> omega

/-- The next page of the copy is one page nearer to the end. -/
theorem ElfPhdr.pagesFrom_next {p : ElfPhdr} {offset sz : ℕ} (h : offset < p.memsz)
    (hstep : offset + sz = p.memsz ∨ (p.vaddr + offset) / 4096 < (p.vaddr + (offset + sz)) / 4096) :
    p.pagesFrom (offset + sz) < p.pagesFrom offset := by
  have hpos := ElfPhdr.pagesFrom_pos h
  by_cases hlt : offset + sz < p.memsz
  · have hnext := hstep.resolve_left hlt.ne
    rw [ElfPhdr.pagesFrom, if_pos hlt, ElfPhdr.pagesFrom, if_pos h]
    omega
  · rwa [ElfPhdr.pagesFrom, if_neg hlt]

/-- `vfs_read` returns the data of the segment in full, wherever a read of it starts and ends. -/
def ElfPhdr.Served (file : ℕ → ℕ → List UInt8) (content : ℕ → UInt8) (p : ElfPhdr) : Prop :=
  ∀ offset size, offset + size ≤ p.filesz →
    (file (w32 (p.offset + offset)) size).take size = (List.range size).map fun i => content (p.offset + offset + i)

namespace Loading

variable {ok : Prop} {D₀ L D : Set ℕ} {s₀ t u : Machine} {v m m' n dst q qc offset : ℕ} {F : ℕ → ℕ} {user w : Bool}
  {I : Image UInt8} {K : Callees} {p : ElfPhdr} {file : ℕ → ℕ → List UInt8} {content : ℕ → UInt8}

/-- One page of "copy data to the segment": what the file has of it, and zeros behind that. -/
theorem copyPage (sz : ℕ) (h : Loading ok D₀ L s₀ v user D F m dst I t) (hv : v ∈ L) (hp : p.Below) (hfile : p.Served file content)
    (hq : I.perm q = some w) (hpage : CopyPage t qc (F q)) (hlo : q * 4096 ≤ p.vaddr + offset)
    (hhi : p.vaddr + (offset + sz) ≤ (q + 1) * 4096) (hmem : offset + sz ≤ p.memsz) :
    Comp.Wp ok (elfCopyPage file p offset sz (qc * 4096 + (p.vaddr + offset - q * 4096))) (fun _ t' =>
      Loading ok D₀ L s₀ v user D F m dst
        (I.fill (p.vaddr + offset) (p.vaddr + (offset + sz)) (p.segment content).data) t') t := by
  unfold ElfPhdr.Below kernelStart rmapStart at hp
  have hqc := hpage.high
  unfold elfCopyPage
  rw [w32_of_lt (show offset + sz < 4294967296 by omega)]
  generalize hszRead : (if p.filesz ≤ offset then 0 else if offset + sz ≤ p.filesz then sz else p.filesz - offset) = szRead
  have hread : szRead ≤ sz ∧ offset + szRead ≤ max offset p.filesz ∧ (szRead < sz → p.filesz ≤ offset + szRead) := by
    rw [← hszRead]
    split_ifs <;> omega
  obtain ⟨hle, hfit, hzero⟩ := hread
  dsimp only
  refine .bind (R := fun _ t' => Loading ok D₀ L s₀ v user D F m dst (I.fill (p.vaddr + offset) (p.vaddr + (offset + szRead))
      (p.segment content).data) t' ∧ CopyPage t' qc (F q)) (.when (fun hne => ?_) fun heq => ?_) fun _ t' ⟨h', hpage'⟩ => ?_
  · have hbytes := hfile offset szRead (by omega)
    unfold elfRead
    rw [hbytes]
    dsimp only
    rw [List.length_map, List.length_range]
    have hrun := h.storeRun (fun i => ((List.range szRead).map fun i => content (p.offset + offset + i)).getD i 0)
      (g := (p.segment content).data) hv hq hpage hlo (show p.vaddr + offset ≤ p.vaddr + (offset + szRead) by omega) (by omega)
      fun i hi => ?_
    · rw [show p.vaddr + (offset + szRead) - (p.vaddr + offset) = szRead by omega] at hrun
      exact hrun
    · have hlt : i < szRead := by omega
      have hin : p.vaddr + offset + i - p.vaddr < p.filesz := by omega
      simp only [ElfPhdr.segment, ElfPhdr.contentAt]
      rw [if_pos hin, List.getD_eq_getElem?_getD, List.getElem?_map, List.getElem?_range hlt]
      show content (p.offset + offset + i) = _
      exact congrArg content (by omega)
  · obtain rfl : szRead = 0 := by simpa using heq
    rw [Nat.add_zero, Image.fill_self]
    exact ⟨h, hpage⟩
  · have hmerge : (I.fill (p.vaddr + offset) (p.vaddr + (offset + szRead)) (p.segment content).data).fill
        (p.vaddr + (offset + szRead)) (p.vaddr + (offset + sz)) (p.segment content).data =
        I.fill (p.vaddr + offset) (p.vaddr + (offset + sz)) (p.segment content).data :=
      Image.fill_fill (by omega) (by omega)
    refine .when (fun hne => ?_) fun heq => ?_
    · have haddr : w32 (qc * 4096 + (p.vaddr + offset - q * 4096) + szRead) =
          qc * 4096 + (p.vaddr + (offset + szRead) - q * 4096) := by
        rw [w32_of_lt (by omega)]
        omega
      have hrun := h'.storeRun (fun _ => 0) (g := (p.segment content).data) hv hq hpage'
        (show q * 4096 ≤ p.vaddr + (offset + szRead) by omega) (show p.vaddr + (offset + szRead) ≤ p.vaddr + (offset + sz) by omega)
        hhi fun i hi => ?_
      · rw [haddr, ← hmerge, show sz - szRead = p.vaddr + (offset + sz) - (p.vaddr + (offset + szRead)) by omega]
        exact hrun.mono fun _ _ hdone => hdone.1
      · have hout : ¬ p.vaddr + (offset + szRead) + i - p.vaddr < p.filesz := by omega
        simp only [ElfPhdr.segment, ElfPhdr.contentAt]
        rw [if_neg hout]
    · have hall : szRead = sz := by omega
      rw [← hmerge, hall, Image.fill_self]
      rw [hall] at h'
      exact h'

/-- "copy data to the segment, one page at a time": the bytes from `offset` on. -/
theorem copyPages (hK : K.Closed) (hv : v ∈ L) (hp : p.Below) (hfile : p.Served file content) (hdst : dst = qc * 4096)
    (hne : dst ≠ 0) (hpages : ∀ a, p.vaddr ≤ a → a < p.vaddr + p.memsz → (I.perm (a / 4096)).isSome) (fuel : ℕ) :
    ∀ {m offset : ℕ} {I' : Image UInt8} {t : Machine}, I'.perm = I.perm → offset ≤ p.memsz → p.pagesFrom offset < fuel →
      Loading ok D₀ L s₀ v user D F (m + 4 * p.pagesFrom offset) dst I' t →
      Comp.Wp ok (elfCopyPages K (v * 4096) dst file p fuel offset) (fun written t' =>
        Loading ok D₀ L s₀ v user D F m dst (I'.fill (p.vaddr + offset) (p.vaddr + p.memsz) (p.segment content).data) t' ∧
          ∀ f ∈ written, f ∉ D₀) t := by
  induction fuel with
  | zero => exact fun _ _ hfuel => absurd hfuel (Nat.not_lt_zero _)
  | succ fuel ih =>
    intro m offset I' t hperm hle hfuel h
    have hbelow := hp
    unfold ElfPhdr.Below kernelStart rmapStart at hbelow
    rw [elfCopyPages]
    refine .ite (fun hlt => ?_) fun hge => ?_
    · have hva : p.vaddr + offset < kernelStart := by
        unfold kernelStart rmapStart
        omega
      have hrest : m + 4 * p.pagesFrom offset = m + 4 * (p.pagesFrom offset - 1) + 2 + 2 := by
        have := ElfPhdr.pagesFrom_pos hlt
        omega
      rw [hrest] at h
      rw [w32_of_lt (show p.vaddr + offset < 4294967296 by omega)]
      refine .bind (h.settled.getPaddr hK hv (offSlot_of_lt hva)) ?_
      rintro pa t₁ ⟨hpa, _, hw₁, hset₁⟩
      refine .read_bind ?_
      have h₁ := h.closed hv hw₁ hset₁
      obtain ⟨w, hw⟩ := Option.isSome_iff_exists.mp (hpages (p.vaddr + offset) (by omega) (by omega))
      rw [← hperm] at hw
      have hframe : F ((p.vaddr + offset) / 4096) < 1048576 :=
        (h.settled.tables.dir _ (h.frame _ w hw).1).2
      rw [hpa (h.reach _), paddrAt, h.page _ w hw]
      dsimp only
      obtain ⟨q', f', hq', hpage⟩ := h₁.copy.resolve_left hne
      obtain rfl : q' = qc := by omega
      generalize hq : (p.vaddr + offset) / 4096 = q at hw hframe ⊢
      generalize hk : (p.vaddr + offset) % 4096 = k
      have hsplit : p.vaddr + offset = q * 4096 + k := by omega
      have hklt : k < 4096 := by omega
      have hmod : (F q * 4096 + k) % 4096 = k := by omega
      have hdiv : (F q * 4096 + k) / 4096 = F q := by omega
      rw [hmod, hdiv, hdst]
      refine .bind (h₁.settled.moveCopy hK hpage (F q * 4096 + k)) ?_
      rintro _ t₂ ⟨hset₂, hrest₂, hin₂, hpage₂⟩
      rw [hdiv, Nat.mod_eq_of_lt hframe] at hpage₂
      have h₂ : Loading ok D₀ L s₀ v user D F (m + 4 * (p.pagesFrom offset - 1)) dst I' t₂ := by
        refine h₁.quiet hv hset₂ (hin₂.mono ?_) (.inr rfl) (.inr ⟨q', F q, hq', hpage₂⟩)
        rintro x y ⟨hx, rfl⟩
        exact ⟨hx, hpage.low, hq'.symm⟩
      rw [w32_of_lt (show offset + (4096 - k) < 4294967296 by omega)]
      generalize hsz : (if p.memsz < offset + (4096 - k) then p.memsz - offset else 4096 - k) = sz
      have hszs : sz ≤ 4096 - k ∧ offset + sz ≤ p.memsz ∧ (offset + sz = p.memsz ∨ sz = 4096 - k) ∧ 0 < sz := by
        rw [← hsz]
        split_ifs <;> omega
      obtain ⟨hfit, hmem, hstep, hpos⟩ := hszs
      have hqc := hpage.high
      have haddr : w32 (q' * 4096 + k) = q' * 4096 + (p.vaddr + offset - q * 4096) := by
        rw [w32_of_lt (by omega)]
        omega
      rw [haddr, w32_of_lt (show offset + sz < 4294967296 by omega)]
      refine .bind (h₂.copyPage sz hv hp hfile hw hpage₂ (by omega) (by omega) hmem) fun _ t₃ h₃ => ?_
      have hnext : p.pagesFrom (offset + sz) < p.pagesFrom offset := ElfPhdr.pagesFrom_next hlt (by omega)
      have h₃' : Loading ok D₀ L s₀ v user D F (m + 4 * p.pagesFrom (offset + sz)) dst
          (I'.fill (p.vaddr + offset) (p.vaddr + (offset + sz)) (p.segment content).data) t₃ := by
        exact { h₃ with settled := h₃.settled.le (by omega) }
      rw [← hdst]
      refine .bind (@ih m (offset + sz) (I'.fill (p.vaddr + offset) (p.vaddr + (offset + sz)) (p.segment content).data) t₃ hperm
        hmem (by omega) h₃') ?_
      rintro written t₄ ⟨h₄, hwritten⟩
      refine .pure ⟨?_, fun f hf => ?_⟩
      · rw [Image.fill_fill (by omega) (by omega)] at h₄
        exact h₄
      · rcases List.mem_cons.mp hf with rfl | hin
        · exact (h.frame q w hw).2.1
        · exact hwritten f hin
    · obtain rfl : offset = p.memsz := by omega
      refine .pure ⟨?_, fun f hf => absurd hf List.not_mem_nil⟩
      rw [Image.fill_self]
      exact { h with settled := h.settled.le (by omega) }

end Loading

end SysX
