import SysX.LoadedFrames
import SysX.Unloading

/-!
The loops of `elf_load_phdr` on the current VMM, with an account of the frames, whatever the file holds.
-/
namespace SysX

/-- The page through which segments are copied is the first free one behind the kernel. -/
def FirstVacant (s : Machine) (a : ℕ) : Prop := IsLeast {a | Vacant s s.kernelEnd uintptrMax 4096 a} a

theorem FirstVacant.congr {s t : Machine} {a : ℕ} (hmem : t.mem = s.mem) (hcr3 : t.cr3 = s.cr3) (hend : t.kernelEnd = s.kernelEnd)
    (h : FirstVacant t a) : FirstVacant s a := by
  have hset : {a | Vacant t t.kernelEnd uintptrMax 4096 a} = {a | Vacant s s.kernelEnd uintptrMax 4096 a} := by
    ext a
    rw [Set.mem_ofPred_eq, Set.mem_ofPred_eq, hend]
    constructor
    · exact fun h => ⟨h.aligned, h.lower, h.upper, fun k hk => by rw [← hmem, ← hcr3]; exact h.unmapped k hk⟩
    · exact fun h => ⟨h.aligned, h.lower, h.upper, fun k hk => by rw [hmem, hcr3]; exact h.unmapped k hk⟩
  unfold FirstVacant at h ⊢
  rwa [← hset]

theorem Settled.openFirst {ok : Prop} {D L : Set ℕ} {n : ℕ} {s : Machine} {K : Callees} (h : Settled ok D L (n + 2) s) (hK : K.Closed)
    (hk : KernelEnds s) :
    Comp.Wp ok (vmmAllocMap K s.vmmCurrent 0 4096 s.kernelEnd uintptrMax 0 0 false (flagPresent ||| flagRw))
      (fun a t => a ≠ 0 → FirstVacant s a ∧ MapsThrough s t (a / 4194304)) s := by
  have hlow : 3221225472 ≤ s.kernelEnd := hk.1
  have hhigh : s.kernelEnd ≤ 4294963200 := hk.2
  have hpages : pages 4096 = 1 := rfl
  have htop : uintptrMax / 4096 = 1048575 := rfl
  rw [vmmAllocMap_aligned (by decide) (by decide)]
  obtain ⟨a, hrun, hfirst⟩ := vmmFirstFree_up (K := K) (h.tables.walkable h.cur) hhigh (show uintptrMax < 4294967296 by decide)
    (show 0 < 4096 by decide) (by decide)
  refine .step hrun ?_
  rcases hfirst with ⟨rfl, -⟩ | hleast
  · rw [if_pos rfl]
    exact .pure fun hne => absurd rfl hne
  · have hvacant : Vacant s s.kernelEnd uintptrMax 4096 a := hleast.1
    obtain ⟨q, rfl⟩ : ∃ q, a = q * 4096 := ⟨a / 4096, hvacant.eq_mul⟩
    have hfirst : FirstVacant s (q * 4096) := hleast
    obtain ⟨-, hlower, hupper, -⟩ := hvacant
    rw [hpages, htop] at hupper
    have hreg : Regular q := ⟨by omega, by omega⟩
    have hoff := hreg.offSlot
    have hcall : vmmPgmap K s.vmmCurrent 0 (q * 4096) 0 (flagPresent ||| flagRw) =
        vmmPgmapSmall K s.vmmCurrent 0 (q * 4096) (flagPresent ||| flagRw) := if_neg hoff.not_rmap
    rw [if_neg (show q * 4096 ≠ 0 by omega), vmmMap_one (by decide) (Nat.mul_mod_left q 4096) (by omega), hcall]
    refine .bind (R := fun a t => a = q * 4096 ∧ MapsThrough s t (q * 4096 / 4194304)) (.bind (h.mapOwn hK hoff 0 (flagPresent ||| flagRw)) fun _ t ht => .pure ⟨rfl, ht⟩)
      fun a t ha => .pure fun _ => ?_
    have haddr : w32 (q * 4096) = q * 4096 := w32_of_lt (by omega)
    rw [haddr]
    exact ⟨hfirst, ha.2⟩

/-- What has been loaded, without the bytes, and what has been allocated for it where that is known. -/
structure Placing (ok : Prop) (D₀ L : Set ℕ) (s : Machine) (v : ℕ) (user : Bool) (D : Set ℕ) (F : ℕ → ℕ) (m dst : ℕ)
    (I : Image UInt8) (t : Machine) : Prop where
  loading : Loading ok D₀ L s v user D F m dst I t
  booked : v = s.cr3 → Booked s F I dst t
  bare : ∀ a, I.byte a = none

namespace Placing

variable {ok : Prop} {D₀ L D : Set ℕ} {s t u : Machine} {v m n dst q f pa : ℕ} {F : ℕ → ℕ} {user w : Bool}
  {I I' : Image UInt8} {K : Callees} {p : ElfPhdr} {file : ℕ → ℕ → List UInt8}

theorem own (h : Placing ok D₀ L s v user D F m dst I t) : s.cr3 * 4096 = t.vmmCurrent :=
  h.loading.settled.own h.loading.cr3.symm

theorem le (h : Placing ok D₀ L s v user D F (m + n) dst I t) : Placing ok D₀ L s v user D F m dst I t :=
  ⟨{ h.loading with settled := h.loading.settled.le (Nat.le_add_right m n) }, h.booked, h.bare⟩

theorem userAddress {q : ℕ} (hq : q < userPages) : q * 4096 < kernelStart := by
  unfold userPages at hq
  unfold kernelStart rmapStart
  omega

/-- One pass of the first loop, on the current VMM. -/
theorem mapPage (h : Placing ok D₀ L s s.cr3 user D F (m + 7) dst I t) (hK : K.Closed) (hc : s.cr3 ∈ L) (hq : q < userPages)
    (hfree : I.perm q = none → view s.mem s.cr3 q = none) (hnull : ¬ ok → q ≠ 0) {rest : Kernel Bool} {Q : Bool → Machine → Prop}
    (hfail : ¬ ok → ∀ t, Q false t)
    (hrest : ∀ D' F' t', Placing ok D₀ L s s.cr3 user D' F' m dst (I.mapPages w q 1) t' → Comp.Wp ok rest Q t') :
    Comp.Wp ok (do
      let pa ← vmmGetPaddr K (s.cr3 * 4096) (q * 4096)
      if pa = 0 then do
        let frame ← pmmAllocFree 1
        match frame with
        | none => pure false
        | some frame => do
          vmmPgmap K (s.cr3 * 4096) (w32 (frame * 4096)) (q * 4096) 0 (segmentFlags user w)
          rest
      else do
        Comp.when w do
          let flags ← vmmGetFlags K (s.cr3 * 4096) (q * 4096)
          Comp.when (flags.getLsbD 1 = false) (vmmSetFlags K (s.cr3 * 4096) (q * 4096) (flags ||| flagRw))
        rest) Q t := by
  have hl := h.loading
  have hcr3 := hl.cr3
  have hreg := Windowed.regular_of_user hq
  have hoff := hreg.offSlot
  have hown := h.own
  have hcall : ∀ u : Machine, u.vmmCurrent = t.vmmCurrent → ∀ pa flags, vmmPgmap K (s.cr3 * 4096) pa (q * 4096) 0 flags =
      vmmPgmapSmall K u.vmmCurrent pa (q * 4096) flags := by
    intro u hu pa flags
    rw [hown, hu]
    exact if_neg hoff.not_rmap
  refine .step (by rw [hown]; exact vmmGetPaddr_cur hl.settled.tables hl.settled.cur hoff) ?_
  rw [paddrAt, page_div, hcr3]
  cases hperm : I.perm q with
  | none =>
    rw [hl.free q hq hperm (hfree hperm)]
    dsimp only
    rw [if_pos rfl]
    refine .bind hl.settled.allocFrame fun r t₂ hr => ?_
    rcases hr with ⟨rfl, rfl, hok⟩ | ⟨f, rfl, rfl, hlt, hunused, -, hset₂⟩
    · exact .pure (hfail hok _)
    · have hnone := hl.free q hq hperm (hfree hperm)
      have hfr : w32 (f * 4096) = f * 4096 := w32_of_lt (by omega)
      have hset₂' : Settled ok (insert f D) L (m + 4 + 2) (t.setBitmap f true) := hset₂
      have hmap := hset₂'.mapOwn hK hoff (w32 (f * 4096)) (segmentFlags user w)
      rw [page_slot, ← hcall _ (Machine.setBitmap_vmmCurrent t f true) (w32 (f * 4096)) (segmentFlags user w)] at hmap
      refine .bind ((hset₂.mapUser hK hc hq hnone (.inl hcr3.symm) (fun hno _ => hnull hno) (w32 (f * 4096))
        (segmentFlags user w)).and hmap) ?_
      rintro _ t₃ ⟨⟨hset₃, hrest₃, hin₃, e, he⟩, hthrough⟩
      have hbits := segmentFlags_bits user w
      have hin : Elsewhere (insert f D) L (fun x p => x = s.cr3 ∧ p = q) t t₃ := (Elsewhere.setBitmap _ _ _ _ _).trans hin₃
      refine hrest _ _ t₃ ⟨hl.mapped hc hq hperm hnone hunused (hset₃.le (by omega)) hin ?_, fun _ => ?_, h.bare⟩
      · rw [he, viewPte, if_neg (Word.ne_zero_of_present (by rw [Word.fillPte_present]; exact hbits.1)), Word.fillPte_pt,
          Word.getFlags_fillPte, canonFlags_segmentFlags, hfr, page_div, Nat.mod_eq_of_lt hlt]
      · refine (h.booked rfl).page hl.elsewhere.used (fun p hp => ?_) hperm hunused hcr3 ⟨by have := hreg.1; omega, hreg.2⟩ hthrough
          hin₃.used fun p hp hne => ?_
        · obtain ⟨w', hw'⟩ := Option.isSome_iff_exists.mp hp
          exact (hl.settled.tables.dir _ (hl.frame p w' hw').1).1
        · exact accessAt_congr (hin.page _ hc p (Windowed.regular_of_user hp) (.inr hp) fun hC => hne hC.2)
  | some w' =>
    have hview := hl.page q w' hperm
    have hne : F q * 4096 + q * 4096 % 4096 ≠ 0 := by
      have := (hl.frame q w' hperm).2.2
      omega
    rw [hview]
    dsimp only
    rw [if_neg hne]
    refine .bind (R := fun _ t' => Placing ok D₀ L s s.cr3 user D F m dst (I.mapPages w q 1) t') ?_ fun _ t' ht' => hrest _ _ t' ht'
    refine .when (fun hwrite => ?_) fun hwrite => ?_
    · refine .step (by rw [hown]; exact vmmGetFlags_cur hl.settled.tables hl.settled.cur hoff) ?_
      rw [flagsAt, page_div, hcr3, hview]
      dsimp only
      have hbits := segmentFlags_bits user w'
      refine .when (fun hrw => ?_) fun hrw => ?_
      · obtain rfl : w' = false := hbits.2.1.symm.trans hrw
        rw [segmentFlags_rw]
        have htrue := segmentFlags_bits user true
        have hset : Settled ok D L (m + 5 + 2) t := hl.settled
        have hexact : vmmSetFlags K (s.cr3 * 4096) (q * 4096) (segmentFlags user true) t =
            some ((), setFlagsAt t s.cr3 (q * 4096) (segmentFlags user true)) := by
          rw [hown, vmmSetFlags_cur hl.settled.tables hl.settled.cur hoff, hcr3]
        refine ((hset.grantUser hK hc hq (.inl hcr3.symm) (hl.small q _ hperm) hview hbits.2.2.2 htrue.2.2.2 htrue.1).and
          (.of_eq hexact (Q := fun _ u => u = setFlagsAt t s.cr3 (q * 4096) (segmentFlags user true)) rfl)).mono ?_
        rintro _ t₃ ⟨⟨hset₃, hrest₃, hin₃, hview₃⟩, rfl⟩
        rw [canonFlags_segmentFlags] at hview₃
        have hslot := page_slot q
        have hva := userAddress hq
        obtain ⟨hthere, hentry, -⟩ := hl.settled.tables.granted_setFlagsAt hc hva (by rw [hslot]; exact hl.small q _ hperm)
          (by rw [page_div]; exact hview) hbits.2.2.2 htrue.2.2.2 htrue.1
        have hdir : (setFlagsAt t s.cr3 (q * 4096) (segmentFlags user true)).mem s.cr3 = t.mem s.cr3 :=
          (Tables.setFlagsAt_small hl.settled.tables hc hoff hthere hentry).1
        have hwithin : Within D L (InPage t s.cr3 (q * 4096 / 4096)) t (setFlagsAt t s.cr3 (q * 4096) (segmentFlags user true)) :=
          hl.settled.tables.within_setFlagsAt hl.settled.cur hc hva
        rw [show w = true from hwrite]
        refine ⟨hl.granted hc hperm (hset₃.le (by omega)) hin₃ hview₃, fun _ => ?_, h.bare⟩
        refine (h.booked rfl).same (fun p => ?_) setFlagsAt_bitmap (fun i hi hi767 => by rw [hdir]) fun p hp hno => ?_
        · rw [Image.mapPages_one_perm]
          split_ifs with hpq
          · rw [hpq, hperm]
            exact iff_of_true rfl rfl
          · exact Iff.rfl
        · refine hwithin.access _ hc p (Windowed.regular_of_user hp) (.inr hp) ?_
          rintro ⟨-, hpq | ⟨hbig, -⟩⟩
          · rw [page_div] at hpq
            rw [hpq, hperm] at hno
            cases hno
          · rw [page_div, hl.small q _ hperm] at hbig
            cases hbig
      · have hw' : w' = true := by
          rw [hbits.2.1] at hrw
          simpa using hrw
        rw [Image.mapPages_one_eq_self hperm fun _ => hw']
        exact h.le
    · have hno : w = false := by simpa using hwrite
      rw [Image.mapPages_one_eq_self hperm fun hyes => absurd hyes (by rw [hno]; exact Bool.false_ne_true)]
      exact h.le

theorem mapPagesOwn (hK : K.Closed) (hc : s.cr3 ∈ L) (n : ℕ) :
    ∀ {j : ℕ} {D : Set ℕ} {F : ℕ → ℕ} {I : Image UInt8} {t : Machine}, Placing ok D₀ L s s.cr3 user D F (m + 7 * n) dst I t →
      p.vaddr / 4096 + j + n ≤ userPages →
      (∀ q, p.vaddr / 4096 + j ≤ q → q < p.vaddr / 4096 + j + n →
        (I.perm q = none → view s.mem s.cr3 q = none) ∧ (¬ ok → q ≠ 0)) →
      Comp.Wp ok (elfMapPages K (s.cr3 * 4096) user p n j) (fun r t' => (ok → r = true) ∧ (r = true → ∃ D' F',
        Placing ok D₀ L s s.cr3 user D' F' m dst (I.mapPages p.writable (p.vaddr / 4096 + j) n) t')) t := by
  induction n with
  | zero =>
    intro j D F I t h _ _
    refine .pure ⟨fun _ => rfl, fun _ => ⟨D, F, ?_⟩⟩
    rw [Image.mapPages_zero]
    exact h
  | succ n ih =>
    intro j D F I t h hend hpages
    have hva : w32 (p.vaddr - p.vaddr % 4096 + j * 4096) = (p.vaddr / 4096 + j) * 4096 := by
      unfold userPages at hend
      rw [w32_of_lt (by omega)]
      omega
    rw [elfMapPages, hva]
    obtain ⟨hfree, hnull⟩ := hpages (p.vaddr / 4096 + j) (Nat.le_refl _) (by omega)
    refine mapPage (m := m + 7 * n) h hK hc (by omega) hfree hnull (fun hok _ => ⟨fun h => absurd h hok, by simp⟩) ?_
    intro D' F' t' h'
    rw [Image.mapPages_succ, Nat.add_assoc (p.vaddr / 4096)]
    refine ih h' (by omega) fun q hlo hhi => ?_
    obtain ⟨hfree', hnull'⟩ := hpages q (by omega) (by omega)
    refine ⟨fun hno => hfree' ?_, hnull'⟩
    rw [Image.mapPages_one_perm] at hno
    split_ifs at hno
    exact hno

/-- "allocate memory for the segment": the pages from number `j` on. -/
theorem mapPages (hK : K.Closed) (hv : v ∈ L) (n : ℕ) {j : ℕ} (h : Placing ok D₀ L s v user D F (m + 7 * n) dst I t)
    (hend : p.vaddr / 4096 + j + n ≤ userPages)
    (hpages : ∀ q, p.vaddr / 4096 + j ≤ q → q < p.vaddr / 4096 + j + n →
      (I.perm q = none → view s.mem v q = none) ∧ (¬ ok → v = s.cr3 → q ≠ 0)) :
    Comp.Wp ok (elfMapPages K (v * 4096) user p n j) (fun r t' => (ok → r = true) ∧ (r = true → ∃ D' F',
      Placing ok D₀ L s v user D' F' m dst (I.mapPages p.writable (p.vaddr / 4096 + j) n) t')) t := by
  by_cases hvc : v = s.cr3
  · subst hvc
    exact mapPagesOwn hK hv n h hend fun q hlo hhi => ⟨(hpages q hlo hhi).1, fun hno => (hpages q hlo hhi).2 hno rfl⟩
  · refine (Loading.mapPages hK hv n h.loading hend hpages).mono ?_
    rintro r t' ⟨hyes, hdone⟩
    refine ⟨hyes, fun hr => ?_⟩
    obtain ⟨D', F', h'⟩ := hdone hr
    exact ⟨D', F', h', fun he => absurd he hvc, h.bare⟩

/-- The frame behind a page that has been mapped. -/
theorem getPaddr (h : Placing ok D₀ L s v user D F (m + 2) dst I t) (hK : K.Closed) (hv : v ∈ L) {va : ℕ} (hva : OffSlot va)
    (hq : I.perm (va / 4096) = some w) : Comp.Wp ok (vmmGetPaddr K (v * 4096) va) (fun r t' =>
      r = F (va / 4096) * 4096 + va % 4096 ∧ Placing ok D₀ L s v user D F m dst I t') t := by
  have hl := h.loading
  have hpaddr : paddrAt t.mem v va = F (va / 4096) * 4096 + va % 4096 := by
    rw [paddrAt, hl.page _ w hq]
  by_cases hvc : v = s.cr3
  · subst hvc
    have hrun := vmmGetPaddr_cur (K := K) hl.settled.tables hl.settled.cur hva
    rw [hl.cr3, ← h.own, hpaddr] at hrun
    exact .of_eq hrun ⟨rfl, h.le⟩
  · refine (hl.settled.getPaddr hK hv hva).mono ?_
    rintro r t' ⟨hr, -, hw, hset⟩
    exact ⟨(hr (hl.reach va)).trans hpaddr, hl.closed hv hw hset, fun he => absurd he hvc, h.bare⟩

/-- What is known of the bytes may be forgotten. -/
theorem forget (h : Loading ok D₀ L s v user D F m dst I' t) (hperm : I.perm = I'.perm) (hbare : ∀ a, I.byte a = none) :
    Loading ok D₀ L s v user D F m dst I t := by
  obtain ⟨hdirs, hsub, hset, hres, hin, hroom, hcopy, hlow, hpage, hsmall, hframe, hinj, hfree, -⟩ := h
  rw [← hperm] at hlow hpage hsmall hframe hinj hfree
  refine ⟨hdirs, hsub, hset, hres, hin, hroom, hcopy, hlow, hpage, hsmall, hframe, hinj, hfree, fun a b hb => ?_⟩
  rw [hbare a] at hb
  cases hb

/-- Bytes are written through the copy page. -/
theorem store {qc k len : ℕ} (h : Placing ok D₀ L s v user D F m dst I t) (hv : v ∈ L) (hq : I.perm q = some w)
    (hpage : CopyPage t qc (F q)) (hk : k + len ≤ 4096) (bytes : ℕ → UInt8) :
    Comp.Wp ok (storeBytes (qc * 4096 + k) bytes len) (fun _ t' =>
      Placing ok D₀ L s v user D F m dst I t' ∧ CopyPage t' qc (F q)) t := by
  have hl := h.loading
  obtain ⟨hfD, -, -⟩ := hl.frame q w hq
  have hL := hl.notDir hq
  obtain ⟨c, hrun, -⟩ := hl.settled.storeBytes hfD hL hpage.regular hpage.access hk bytes
  have hin := hl.settled.elsewhere_setFrame hfD hL c fun _ _ => False
  refine .of_eq hrun ⟨⟨?_, fun hvc => ?_, h.bare⟩, hpage.elsewhere hin hl.settled.cur id⟩
  · refine forget (hl.filled (g := fun a => frameByte c (a - q * 4096)) (c := c) hv hq (Nat.le_refl _) (Nat.le_refl _)
      fun j hj => ?_) rfl h.bare
    rw [if_pos (by omega), Nat.add_sub_cancel_left]
  · have hc : s.cr3 ∈ L := hvc ▸ hv
    have hdir : (t.setFrame (F q) c).mem s.cr3 = t.mem s.cr3 := t.setFrame_mem_of_ne _ fun he => hL (he ▸ hc)
    refine (h.booked hvc).same (fun _ => Iff.rfl) rfl (fun i _ _ => by rw [hdir]) fun x hx _ => ?_
    exact accessAt_congr (hin.page _ hc x (Windowed.regular_of_user hx) (.inr hx) id)

/-- One page of "copy data to the segment". -/
theorem copyPage {qc k sz offset : ℕ} (h : Placing ok D₀ L s v user D F m dst I t) (hv : v ∈ L) (hq : I.perm q = some w)
    (hpage : CopyPage t qc (F q)) (hk : k + sz ≤ 4096) (hfit : offset + sz < 4294967296) :
    Comp.Wp ok (elfCopyPage file p offset sz (qc * 4096 + k)) (fun _ t' => Placing ok D₀ L s v user D F m dst I t') t := by
  have hqc := hpage.high
  unfold elfCopyPage
  rw [w32_of_lt hfit]
  generalize hszRead : (if p.filesz ≤ offset then 0 else if offset + sz ≤ p.filesz then sz else p.filesz - offset) = szRead
  have hread : szRead ≤ sz := by
    rw [← hszRead]
    split_ifs <;> omega
  dsimp only
  refine .bind (R := fun _ t' => Placing ok D₀ L s v user D F m dst I t' ∧ CopyPage t' qc (F q)) (.when (fun _ => ?_)
    fun _ => ⟨h, hpage⟩) fun _ t' ht' => .when (fun hne => ?_) fun _ => ht'.1
  · unfold elfRead
    dsimp only
    have hlen := List.length_take_le szRead (file (w32 (p.offset + offset)) szRead)
    exact h.store hv hq hpage (by omega) _
  · have haddr : w32 (qc * 4096 + k + szRead) = qc * 4096 + (k + szRead) := by
      rw [w32_of_lt (by omega)]
      omega
    rw [haddr]
    exact (ht'.1.store hv hq ht'.2 (by omega) _).mono fun _ _ hdone => hdone.1

/-- "copy data to the segment, one page at a time": the bytes from `offset` on. -/
theorem copyPages {qc : ℕ} (hK : K.Closed) (hv : v ∈ L) (hc : s.cr3 ∈ L) (hp : p.Below) (hdst : dst = qc * 4096) (hne : dst ≠ 0)
    (hpages : ∀ a, p.vaddr ≤ a → a < p.vaddr + p.memsz → (I.perm (a / 4096)).isSome) (fuel : ℕ) :
    ∀ {m offset : ℕ} {t : Machine}, offset ≤ p.memsz → p.pagesFrom offset < fuel →
      Placing ok D₀ L s v user D F (m + 4 * p.pagesFrom offset) dst I t →
      Comp.Wp ok (elfCopyPages K (v * 4096) dst file p fuel offset) (fun _ t' => Placing ok D₀ L s v user D F m dst I t') t := by
  induction fuel with
  | zero => exact fun _ hfuel => absurd hfuel (Nat.not_lt_zero _)
  | succ fuel ih =>
    intro m offset t hle hfuel h
    have hbelow := hp
    unfold ElfPhdr.Below kernelStart rmapStart at hbelow
    rw [elfCopyPages]
    refine .ite (fun hlt => ?_) fun _ => .pure h.le
    have hoff : OffSlot (p.vaddr + offset) := offSlot_of_lt (by unfold kernelStart rmapStart; omega)
    have hpos := ElfPhdr.pagesFrom_pos hlt
    obtain ⟨w, hw⟩ := Option.isSome_iff_exists.mp (hpages (p.vaddr + offset) (by omega) (by omega))
    have hcost : Placing ok D₀ L s v user D F (m + 4 * (p.pagesFrom offset - 1) + 2 + 2) dst I t :=
      ⟨{ h.loading with settled := h.loading.settled.le (by omega) }, h.booked, h.bare⟩
    rw [w32_of_lt (show p.vaddr + offset < 4294967296 by omega)]
    refine .bind (hcost.getPaddr hK hv hoff hw) ?_
    rintro pa t₁ ⟨rfl, h₁⟩
    refine .read_bind ?_
    have hl := h₁.loading
    have hframe : F ((p.vaddr + offset) / 4096) < 1048576 := (hl.settled.tables.dir _ (hl.frame _ w hw).1).2
    dsimp only
    obtain ⟨q', f', hq', hpage⟩ := hl.copy.resolve_left hne
    obtain rfl : q' = qc := by omega
    generalize hq : (p.vaddr + offset) / 4096 = q at hw hframe ⊢
    generalize hk : (p.vaddr + offset) % 4096 = k
    have hklt : k < 4096 := by omega
    have hmod : (F q * 4096 + k) % 4096 = k := by omega
    have hdiv : (F q * 4096 + k) / 4096 = F q := by omega
    rw [hmod, hdiv, hdst]
    have hreg := hpage.regular
    have hexact : vmmSetPaddr K t₁.vmmCurrent (q' * 4096) (F q * 4096 + k) t₁ =
        some ((), setPaddrAt t₁ t₁.cr3 (q' * 4096) (F q * 4096 + k)) :=
      vmmSetPaddr_cur hl.settled.tables hl.settled.cur hreg.offSlot _
    refine .bind ((hl.settled.moveCopy hK hpage (F q * 4096 + k)).and
      (.of_eq hexact (Q := fun _ u => u = setPaddrAt t₁ t₁.cr3 (q' * 4096) (F q * 4096 + k)) rfl)) ?_
    rintro _ t₂ ⟨⟨hset₂, hrest₂, hin₂, hpage₂⟩, ht₂⟩
    rw [hdiv, Nat.mod_eq_of_lt hframe] at hpage₂
    have hdir : t₂.mem s.cr3 = t₁.mem s.cr3 := by
      obtain ⟨ht, hpres, -⟩ := hpage.entry
      have hslot : q' * 4096 / 4194304 = q' / 1024 := page_slot q'
      have hi : q' / 1024 < 1024 := by have := hreg.1; omega
      rw [ht₂]
      unfold setPaddrAt
      simp only [page_div, hslot, hpage.small, Bool.false_eq_true, if_false, if_neg (Word.ne_zero_of_present hpres)]
      refine t₁.set_mem_of_ne _ _ _ ?_
      exact (hl.settled.tables.pt_ne hl.settled.cur (hl.settled.tables.sub hc) hi hreg.2 ht).symm
    have h₂ : Placing ok D₀ L s v user D F (m + 4 * (p.pagesFrom offset - 1)) dst I t₂ := by
      refine ⟨hl.quiet hv hset₂ (hin₂.mono ?_) (.inr rfl) (.inr ⟨q', F q, hq', hpage₂⟩), fun hvc => ?_, h.bare⟩
      · rintro x y ⟨hx, rfl⟩
        exact ⟨hx, hpage.low, hq'.symm⟩
      · refine (h₁.booked hvc).same (fun _ => Iff.rfl) (by rw [ht₂]; exact setPaddrAt_bitmap) (fun i _ _ => by rw [hdir]) fun x hx _ => ?_
        refine accessAt_congr (hin₂.page _ hc x (Windowed.regular_of_user hx) (.inr hx) fun hC => ?_)
        have hlow := hpage.low
        have heq : x = q' := hC.2
        unfold userPages at hx
        omega
    rw [w32_of_lt (show offset + (4096 - k) < 4294967296 by omega)]
    generalize hsz : (if p.memsz < offset + (4096 - k) then p.memsz - offset else 4096 - k) = sz
    have hszs : sz ≤ 4096 - k ∧ offset + sz ≤ p.memsz ∧ (offset + sz = p.memsz ∨ sz = 4096 - k) ∧ 0 < sz := by
      rw [← hsz]
      split_ifs <;> omega
    obtain ⟨hfit, hmem, hstep, hszpos⟩ := hszs
    have hqc := hpage.high
    rw [w32_of_lt (show q' * 4096 + k < 4294967296 by omega), w32_of_lt (show offset + sz < 4294967296 by omega)]
    refine .bind (h₂.copyPage hv hw hpage₂ (by omega) (by omega)) fun _ t₃ h₃ => ?_
    have hnext : p.pagesFrom (offset + sz) < p.pagesFrom offset := ElfPhdr.pagesFrom_next hlt (by omega)
    have h₃' : Placing ok D₀ L s v user D F (m + 4 * p.pagesFrom (offset + sz)) dst I t₃ :=
      ⟨{ h₃.loading with settled := h₃.loading.settled.le (by omega) }, h₃.booked, h₃.bare⟩
    rw [← hdst]
    exact .bind (ih hmem (by omega) h₃') fun _ t₄ h₄ => .pure h₄

end Placing

/-! The segments, one after the other. -/

/-- The pages of the segments, with what permission they have. -/
def segmentPages (ps : List ElfPhdr) : Image UInt8 := ps.foldl (fun I p => I.mapPages p.writable (p.vaddr / 4096) p.pages) .empty

theorem segmentPages_concat (ps : List ElfPhdr) (p : ElfPhdr) :
    segmentPages (ps ++ [p]) = (segmentPages ps).mapPages p.writable (p.vaddr / 4096) p.pages := by
  rw [segmentPages, List.foldl_append]
  rfl

theorem segmentPages_perm (ps : List ElfPhdr) (q : ℕ) : ((segmentPages ps).perm q).isSome ↔ ∃ p ∈ ps, p.Touches q := by
  induction ps using List.reverseRecOn with
  | nil => simp [segmentPages, Image.empty]
  | append_singleton ps p ih =>
    rw [segmentPages_concat]
    show (if p.vaddr / 4096 ≤ q ∧ q < p.vaddr / 4096 + p.pages then some (((segmentPages ps).perm q).getD false || p.writable)
      else (segmentPages ps).perm q).isSome ↔ _
    split_ifs with hq
    · exact iff_of_true rfl ⟨p, by simp, hq⟩
    · rw [ih]
      have hp : ¬ p.Touches q := hq
      simp [hp, or_and_right, exists_or]

/-- What the loader relies on for a segment, whatever the file holds. -/
structure ElfPhdr.Placeable (ok : Prop) (s : Machine) (v : ℕ) (p : ElfPhdr) : Prop where
  below : p.Below
  free : ∀ q, p.Touches q → view s.mem v q = none
  null : ¬ ok → v = s.cr3 → ¬ p.Touches 0

namespace Placing

variable {ok : Prop} {D₀ L D : Set ℕ} {s t : Machine} {m dst : ℕ} {F : ℕ → ℕ} {user : Bool} {I : Image UInt8} {K : Callees}
  {p : ElfPhdr} {file : ℕ → ℕ → List UInt8}

/-- The heap is apart from the pages. -/
theorem krealloc (h : Placing ok D₀ L s v user D F m dst I t) (hv : v ∈ L) :
    Comp.Wp ok krealloc (fun r t' => Placing ok D₀ L s v user D F m dst I t' ∧ (t'.mem = t.mem ∧ t'.pmmBitmap = t.pmmBitmap) ∧
      ((∀ n, (s.heap n).isSome) → r.isSome)) t := by
  refine ((h.loading.krealloc hv).and (.of_eq rfl (Q := fun _ t' => t' = { t with heapCalls := t.heapCalls + 1 }) rfl)).mono ?_
  rintro r t' ⟨⟨hl, hr⟩, rfl⟩
  refine ⟨⟨hl, fun hvc => ?_, h.bare⟩, ⟨rfl, rfl⟩, hr⟩
  exact (h.booked hvc).same (fun _ => Iff.rfl) rfl (fun _ _ _ => Iff.rfl) fun _ _ _ => rfl

/-- The copy page is there, or it is opened now. -/
theorem copyDst (h : Placing ok D₀ L s v user D F (m + 2) dst I t) (hK : K.Closed) (hv : v ∈ L) (hc : s.cr3 ∈ L) (hk : KernelEnds s)
    (hfirst : dst ≠ 0 → FirstVacant s dst)
    (hstart : dst = 0 → (∀ q, I.perm q = none) ∧ t.mem = s.mem ∧ t.pmmBitmap = s.pmmBitmap) :
    Comp.Wp ok (elfCopyDst K dst) (fun a t' => (a ≠ 0 → Placing ok D₀ L s v user D F m a I t' ∧ FirstVacant s a) ∧
      (WindowFree s → a ≠ 0)) t := by
  have hl := h.loading
  by_cases hne : dst ≠ 0
  · rw [elfCopyDst, if_pos hne]
    exact .pure ⟨fun _ => ⟨⟨{ hl with settled := hl.settled.le (by omega) }, h.booked, h.bare⟩, hfirst hne⟩, fun _ => hne⟩
  · obtain rfl : dst = 0 := by simpa using hne
    obtain ⟨hI, hmem, hbits⟩ := hstart rfl
    have hcopy := hl.copyDst hK hv hc hk
    have hend : KernelEnds t := by
      unfold KernelEnds
      rw [hl.elsewhere.kernelEnd]
      exact hk
    have hopen : Comp.Wp ok (elfCopyDst K 0) (fun a t' => a ≠ 0 → FirstVacant t a ∧ MapsThrough t t' (a / 4194304) ∧
        ∀ x < userPages, view t'.mem s.cr3 x = view t.mem s.cr3 x) t := by
      rw [elfCopyDst, if_neg (not_not.mpr rfl)]
      refine .read_bind (.read_bind (((hl.settled.openFirst hK hend).and (hl.settled.openCopy hK hend)).mono ?_))
      rintro a t' ⟨hfound, ⟨rfl, -⟩ | ⟨q, rfl, -, -, -, hin, hpage⟩⟩ hne
      · exact absurd rfl hne
      · obtain ⟨hleast, hmap⟩ := hfound hne
        refine ⟨hleast, hmap, fun x hx => hin.page _ hc x (Windowed.regular_of_user hx) (.inr hx) fun hC => ?_⟩
        have hlow := hpage.low
        have heq : x = q := hC.2
        unfold userPages at hx
        omega
    refine (hcopy.and hopen).mono ?_
    rintro a t' ⟨⟨hload, hfound⟩, hbook⟩
    refine ⟨fun ha => ?_, hfound⟩
    obtain ⟨hleast, hmap, hview⟩ := hbook ha
    exact ⟨⟨hload ha, fun _ => .copyPage hmem hbits hl.cr3 hI ha hmap fun x hx => accessAt_congr (hview x hx), h.bare⟩,
      hleast.congr hmem hl.cr3 hl.elsewhere.kernelEnd⟩

/-- The pages of a segment are mapped, and its bytes are copied. -/
theorem segment (h : Placing ok D₀ L s v user D F (m + 4 * p.pagesFrom 0 + 7 * p.pages + 2) dst I t) (hK : K.Closed)
    (hv : v ∈ L) (hc : s.cr3 ∈ L) (hk : KernelEnds s) (hfirst : dst ≠ 0 → FirstVacant s dst)
    (hstart : dst = 0 → (∀ q, I.perm q = none) ∧ t.mem = s.mem ∧ t.pmmBitmap = s.pmmBitmap) (hp : p.Placeable ok s v) :
    Comp.Wp (Supplied ok s) (elfLoadSegment K (v * 4096) user file dst p) (fun r t' => (∀ dst' w, r = some (dst', w) →
      (∃ D' F', Placing ok D₀ L s v user D' F' m dst' (I.mapPages p.writable (p.vaddr / 4096) p.pages) t') ∧ dst' ≠ 0 ∧
        FirstVacant s dst') ∧ (Supplied ok s → r ≠ none)) t := by
  have hok : Supplied ok s → ok := fun hs => hs.1
  refine .bind ((h.copyDst hK hv hc hk hfirst hstart).weaken hok fun _ _ => id) ?_
  rintro a t₁ ⟨h₁, hfound⟩
  refine .ite (fun hzero => .pure ⟨by simp, fun hs => absurd hzero (hfound hs.2.1)⟩) fun hne => ?_
  obtain ⟨h₁, hleast⟩ := h₁ hne
  have hpages := mapPages (p := p) (j := 0) hK hv p.pages h₁ (ElfPhdr.lastPage hp.below) fun q hlo hhi => ?_
  · refine .bind (hpages.weaken hok fun _ _ => id) ?_
    rintro done t₂ ⟨hyes, hdone⟩
    refine .ite (fun hfalse => .pure ⟨by simp, fun hs => absurd (hyes hs.1) (by rw [hfalse]; exact Bool.false_ne_true)⟩) fun htrue => ?_
    obtain ⟨D', F', h₂⟩ := hdone (by simpa using htrue)
    rw [Nat.add_zero] at h₂
    obtain ⟨qc, -, hqc, -⟩ := h₂.loading.copy.resolve_left hne
    have hsome : ∀ x, p.vaddr ≤ x → x < p.vaddr + p.memsz →
        ((I.mapPages p.writable (p.vaddr / 4096) p.pages).perm (x / 4096)).isSome := by
      intro x hlo hhi
      have htouch : p.Touches (x / 4096) := ElfPhdr.touches_of_hasByte hp.below ⟨hlo, hhi⟩
      exact Option.isSome_iff_exists.mpr ⟨_, if_pos htouch⟩
    have hcopy : Comp.Wp ok (elfCopyPages K (v * 4096) a file p loopFuel 0) _ t₂ :=
      copyPages hK hv hc hp.below hqc hne hsome loopFuel (Nat.zero_le _) (ElfPhdr.pagesFrom_lt_fuel hp.below 0) h₂
    refine .bind (hcopy.weaken hok fun _ _ => id) fun written t₃ h₃ => .bind ((h₃.krealloc hv).weaken hok fun _ _ => id) ?_
    rintro block t₄ ⟨h₄, -, hblock⟩
    refine .pure ⟨fun dst' w hw => ?_, fun hs => ?_⟩
    · obtain ⟨b, -, hb⟩ := Option.map_eq_some_iff.mp hw
      cases hb
      exact ⟨⟨D', F', h₄⟩, hne, hleast⟩
    · obtain ⟨b, rfl⟩ := Option.isSome_iff_exists.mp (hblock hs.2.2)
      exact Option.some_ne_none _
  · have htouch : p.Touches q := ⟨hlo, hhi⟩
    refine ⟨fun _ => hp.free q htouch, fun hno hvc h0 => hp.null hno hvc ?_⟩
    rwa [h0] at htouch

/-- What holds between two segments. -/
structure Between (ok : Prop) (D₀ L : Set ℕ) (s : Machine) (v : ℕ) (user : Bool) (m : ℕ) (done rest : List ElfPhdr) (dst : ℕ)
    (t : Machine) : Prop where
  loaded : ∃ D F, Placing ok D₀ L s v user D F (m + loadCost rest) dst (segmentPages done) t
  ready : ∀ p ∈ rest, p.Placeable ok s v
  first : dst ≠ 0 → FirstVacant s dst
  start : dst = 0 → done = [] ∧ t.mem = s.mem ∧ t.pmmBitmap = s.pmmBitmap
  unopened : done = [] → dst = 0

theorem between (hK : K.Closed) (hv : v ∈ L) (hc : s.cr3 ∈ L) (hk : KernelEnds s) (p : ElfPhdr) (done rest : List ElfPhdr) (dst : ℕ)
    (h : Between ok D₀ L s v user m done (p :: rest) dst t) :
    Comp.Wp (Supplied ok s) (elfLoadSegment K (v * 4096) user file dst p) (fun r t' => (∀ dst' w, r = some (dst', w) →
      Between ok D₀ L s v user m (done ++ [p]) rest dst' t') ∧ (Supplied ok s → r ≠ none)) t := by
  obtain ⟨D, F, hloaded⟩ := h.loaded
  rw [loadCost_cons] at hloaded
  refine (hloaded.segment hK hv hc hk h.first (fun hzero => ?_) (h.ready p (by simp))).mono ?_
  · obtain ⟨rfl, hsame⟩ := h.start hzero
    exact ⟨fun _ => rfl, hsame⟩
  · rintro r t' ⟨hr, hsome⟩
    refine ⟨fun dst' w hw => ?_, hsome⟩
    obtain ⟨⟨D', F', h'⟩, hne, hleast⟩ := hr dst' w hw
    refine ⟨⟨D', F', ?_⟩, fun p' hp' => h.ready p' (List.mem_cons_of_mem p hp'), fun _ => hleast, fun hzero => absurd hzero hne,
      fun hnil => absurd hnil (by simp)⟩
    rwa [segmentPages_concat]

end Placing

/-- What `LOAD_OK` leaves: `v` maps the pages of the segments, each to a frame of its own. -/
structure Loaded (ok : Prop) (L : Set ℕ) (s : Machine) (v m : ℕ) (ps : List ElfPhdr) (F : ℕ → ℕ) (dst : ℕ) (t : Machine) : Prop where
  laid : Laid L v {q | ∃ p ∈ ps, p.Touches q} F t
  current : t.vmmCurrent = s.cr3 * 4096
  mapped : ∀ p ∈ ps, ∀ q, p.Touches q → view t.mem v q ≠ none
  mono : ∀ f, used s f → used t f
  other : ∀ w ∈ L, w ≠ v → ∀ q < userPages, accessAt t.mem w q = accessAt s.mem w q
  booked : v = s.cr3 → Booked s F (segmentPages ps) dst t
  first : ps ≠ [] → dst ≠ 0 ∧ FirstVacant s dst
  unopened : ps = [] → dst = 0
  spare : ok → FreeFrames t m
  null : ¬ ok → NullGuard t

section Run

variable {ok : Prop} {D₀ L D : Set ℕ} {s t u : Machine} {v m dst : ℕ} {F : ℕ → ℕ} {user : Bool} {K : Callees} {ps : List ElfPhdr}
  {file : ℕ → ℕ → List UInt8}

theorem Placing.placed (h : Placing ok D₀ L s v user D F m dst (segmentPages ps) t) (hv : v ∈ L) (htables : Tables D L u)
    (hdir : ∀ w ∈ L, u.mem w = t.mem w) (hcur : u.vmmCurrent = t.vmmCurrent) (hbits : u.pmmBitmap = t.pmmBitmap)
    (hframes : u.pmmFrames = t.pmmFrames) (hnull : ¬ ok → NullGuard u)
    (hview : ∀ w ∈ L, ∀ q < userPages, view u.mem w q = view t.mem w q) (hfirst : ps ≠ [] → dst ≠ 0 ∧ FirstVacant s dst)
    (hunopened : ps = [] → dst = 0) : Loaded ok L s v m ps F dst u := by
  have hl := h.loading
  have hperm : ∀ p ∈ ps, ∀ q, p.Touches q → ∃ w, (segmentPages ps).perm q = some w := fun p hp q hq =>
    Option.isSome_iff_exists.mp ((segmentPages_perm ps q).mpr ⟨p, hp, hq⟩)
  have hused : ∀ f, used u f ↔ used t f := by
    intro f
    unfold used
    rw [hbits]
  have hmapped : ∀ p ∈ ps, ∀ q, p.Touches q → ∃ w, view u.mem v q = some (F q, segmentFlags user w) := by
    intro p hp q hq
    obtain ⟨w, hw⟩ := hperm p hp q hq
    exact ⟨w, by rw [hview _ hv q (hl.low q w hw), hl.page q w hw]⟩
  have hframe : ∀ p ∈ ps, ∀ q, p.Touches q → F q ∈ D ∧ F q ≠ 0 ∧ F q ∉ L := by
    intro p hp q hq
    obtain ⟨w, hw⟩ := hperm p hp q hq
    exact ⟨(hl.frame q w hw).1, (hl.frame q w hw).2.2, hl.notDir hw⟩
  refine ⟨⟨htables.antitone (hl.dirs.trans hl.sub) Set.Subset.rfl, hv, ?_, ?_, ?_, ?_, ?_, ?_, ?_⟩, hcur.trans h.own.symm, ?_, ?_,
    fun w hw hwv q hq => ?_, fun hvc => ?_, hfirst, hunopened, fun hok => (hl.settled.guard.frames hok).congr hbits hframes, hnull⟩
  · rintro q ⟨p, hp, hq⟩
    obtain ⟨w, hw⟩ := hperm p hp q hq
    exact hl.low q w hw
  · rintro q ⟨p, hp, hq⟩
    obtain ⟨w, hw⟩ := hperm p hp q hq
    rw [hdir _ hv]
    by_contra hno
    have hgone := hl.page q w hw
    rw [view_of_not_pgsz (hl.small q w hw), pteAt_of_not_hasTable hno] at hgone
    cases hgone
  · rintro q ⟨p, hp, hq⟩
    obtain ⟨w, hw⟩ := hmapped p hp q hq
    exact .inr ⟨_, hw, (segmentFlags_bits user w).2.2.2⟩
  · rintro q ⟨p, hp, hq⟩
    obtain ⟨hD, hzero, hL⟩ := hframe p hp q hq
    exact ⟨hzero, (hl.settled.tables.dir _ hD).2, hL⟩
  · rintro q ⟨p, hp, hq⟩ w hw i hi hne ht he
    exact htables.notDir w hw i hi hne ht (he ▸ (hframe p hp q hq).1)
  · rintro q ⟨p, hp, hq⟩ -
    exact (hused _).mpr (hl.settled.tables.dir _ (hframe p hp q hq).1).1
  · rintro q ⟨p, hp, hq⟩ q' ⟨p', hp', hq'⟩ he
    obtain ⟨w, hw⟩ := hperm p hp q hq
    obtain ⟨w', hw'⟩ := hperm p' hp' q' hq'
    exact hl.inj q q' w w' hw hw' he
  · intro p hp q hq hno
    obtain ⟨w, hw⟩ := hmapped p hp q hq
    rw [hw] at hno
    cases hno
  · exact fun f hf => (hused f).mpr (hl.elsewhere.used f hf)
  · refine accessAt_congr ((hview w hw q hq).trans ?_)
    refine hl.elsewhere.page w hw q (Windowed.regular_of_user hq) (.inr hq) ?_
    rintro (⟨he, -⟩ | ⟨-, hdst, hne⟩)
    · exact hwv he
    · obtain ⟨q', f, hq', hpage⟩ := hl.copy.resolve_left hne
      have hlow := hpage.low
      unfold userPages at hq
      omega
  · have hc : s.cr3 ∈ L := hvc ▸ hv
    exact (h.booked hvc).same (fun _ => Iff.rfl) hbits (fun i _ _ => by rw [hdir _ hc]) fun q hq _ => accessAt_congr (hview _ hc q hq)

/-- The page for copying is closed. -/
theorem Placing.close (hv : v ∈ L) (h : Between ok D₀ L s v user m ps [] dst t) :
    Comp.Wp (Supplied ok s) (Comp.when (dst ≠ 0) (vmmPgunmap K t.vmmCurrent dst 0)) (fun _ u => ∃ F, Loaded ok L s v m ps F dst u) t := by
  obtain ⟨D, F, hl⟩ := h.loaded
  have hload := hl.loading
  have hguard := hload.settled.guard
  refine .when (fun hne => ?_) fun hzero => ?_
  · obtain ⟨q, f, rfl, hpage⟩ := hload.copy.resolve_left hne
    have hreg := hpage.regular
    have hslot := page_slot q
    obtain ⟨ht, -, hflags⟩ := hpage.entry
    have htrap : (pteAt t.mem t.cr3 (q * 4096 / 4096)).trapped = false := by
      rw [page_div, ← Word.getFlags_bit6, hflags]
      decide
    have hcur := hload.settled.cur
    have hi : q / 1024 < 1024 := by have := hreg.1; omega
    have hlow := hpage.low
    rw [vmmPgunmap_small hreg]
    have hclose : Comp.Wp (Supplied ok s) (vmmPgunmapSmall K t.vmmCurrent (q * 4096)) _ t :=
      vmmPgunmapSmall_own hload.settled.tables hcur hreg.offSlot (by rw [hslot]; exact hpage.small) (.of_untrapped htrap)
    refine hclose.mono ?_
    rintro _ u rfl
    rw [hslot, if_pos ht, page_div]
    have hnot := hload.settled.tables.notDir _ hcur _ hi hreg.2 ht
    refine ⟨F, hl.placed hv (hload.settled.tables.set hnot _ _) (fun w hw => ?_) rfl rfl rfl (fun hno => ?_) (fun w hw p hp => ?_)
      (fun _ => ⟨hne, h.first hne⟩) fun hnil => ?_⟩
    · exact t.set_mem_of_ne _ _ _ fun he => hnot (he ▸ hload.settled.tables.sub hw)
    · have hn := hguard.null hno
      refine hn.set 0#32 (fun he => absurd (by rw [he]; exact hload.settled.tables.sub hcur) hnot) fun he => ?_
      have hzero := (hload.settled.tables.sep _ hcur _ hcur _ hi 0 (by decide) hreg.2 (by decide) ht hn.table he).1
      omega
    · refine hload.settled.tables.view_pte hcur hreg (.inl rfl) ht 0#32 hw (Windowed.regular_of_user hp) (.inr hp) fun he => ?_
      have heq : p = q := he.2
      unfold userPages at hp
      omega
    · exact absurd (h.unopened hnil) hne
  · obtain rfl : dst = 0 := by simpa using hzero
    obtain ⟨rfl, -⟩ := h.start rfl
    exact ⟨F, hl.placed hv hload.settled.tables (fun _ _ => rfl) rfl rfl rfl hguard.null (fun _ _ _ _ => rfl) (fun hne => absurd rfl hne)
      fun _ => rfl⟩

/-- `elf_load_phdr` where the page tables can be reached, whatever the file holds. -/
theorem elfLoadPhdr_places {hdr : ElfEhdr} {junk : ℕ → ℕ → UInt8} (user : Bool) (hK : K.Closed)
    (h : Settled ok D₀ L (m + loadCost (hdr.segments file junk s)) s) (hv : v ∈ L) (hk : KernelEnds s) (hzero : used s 0)
    (hroom : v = s.cr3 ∨ Room s (fun _ => 0#32) 0 2) (hready : ∀ p ∈ hdr.segments file junk s, p.Placeable ok s v) :
    Comp.Wp (Supplied ok s) (elfLoadPhdr K file junk hdr (v * 4096) user) (fun r t =>
      (∀ l, r = .ok l → ∃ F dst, Loaded ok L s v m (hdr.segments file junk s) F dst t) ∧ (Supplied ok s → ∃ l, r = .ok l)) s := by
  have hstart : Placing ok D₀ L s v user D₀ (fun _ => 0) (m + loadCost (hdr.segments file junk s)) 0 (segmentPages []) s := by
    refine ⟨.start h hzero hroom, fun _ => ⟨fun q hq => ?_, fun _ _ _ => rfl, fun _ => ⟨fun _ => .inl, fun _ _ _ => Iff.rfl⟩,
      fun hno => absurd ⟨fun q hq => ?_, fun hne => absurd rfl hne⟩ hno⟩, fun _ => rfl⟩
    · exact absurd hq (by simp [segmentPages, Image.empty])
    · exact absurd hq (by simp [segmentPages, Image.empty])
  obtain ⟨hloading, -, -⟩ := (hstart.krealloc hv).2 _ _ rfl
  exact elfLoadPhdr_wp (J := fun done rest dst _ t => Placing.Between ok D₀ L s v user m done rest dst t)
    (R := fun done _ t => ∃ F dst, Loaded ok L s v m done F dst t) (fun hs => hs.2.2 _)
    ⟨⟨D₀, _, hloading⟩, hready, fun hne => absurd rfl hne, fun _ => ⟨rfl, rfl, rfl⟩, fun _ => rfl⟩
    (fun p done rest dst _ t ht => Placing.between hK hv h.cur hk p done rest dst ht)
    fun done dst _ t ht => (Placing.close hv ht).mono fun _ u hu => by
      obtain ⟨F, hF⟩ := hu
      exact ⟨F, dst, hF⟩

end Run

end SysX
