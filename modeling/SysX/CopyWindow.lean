import SysX.CowCopy
import SysX.ForeignRange

/-!
The windows that `vmm_cow_duplicate` leaves open: the one for the copy on every path behind its mapping, and the one that
`vmm_get_pgsz` opens on another VMM's directory.
-/
namespace SysX

/-- A frame that is in use and neither a directory nor a page table. -/
structure DataFrame (L : Set ℕ) (s : Machine) (f : ℕ) : Prop where
  used : used s f
  lt : f < 1048576
  notDir : f ∉ L
  notTable : ∀ v ∈ L, ∀ i < 1024, i ≠ 767 → (s.mem v i).HasTable → (s.mem v i).pt ≠ f

/-- What a copy of a 4 MiB page overwrites, 4 MiB behind its window, meets `P`. -/
def CopyTarget (P : ℕ → Prop) (s : Machine) : Prop :=
  ∀ q f, FirstSpace s q → accessAt s.mem s.cr3 ((q + 1024) % 1048576) = some (f, true) → P f

section Huge

variable {ok : Prop} {D L : Set ℕ} {s t : Machine} {n q w v va f x y : ℕ} {K : Callees}

theorem frameAt_some {r : Bool} {a : ℕ} (h : frameAt r a s = some (f, t)) : s = t ∧ mmu s.mem s.cr3 r a = some f := by
  unfold frameAt at h
  rw [Comp.readOr_apply, Option.map_eq_some_iff] at h
  obtain ⟨g, hg, heq⟩ := h
  cases heq
  exact ⟨rfl, hg⟩

/-- A write that goes through finds a page that may be written. -/
theorem access_of_mmu {m : ℕ → ℕ → Word} {p : ℕ} (hg : mmu m v true (p * 4096) = some f) : accessAt m v p = some (f, true) := by
  unfold mmu at hg
  simp only [page_slot, page_div, true_and] at hg
  split_ifs at hg with hdir hs hpte
  all_goals
    cases hg
    rw [not_or, Bool.not_eq_false, Bool.not_eq_false] at hdir
  · rw [accessAt_of_pgsz hs, if_pos hdir.1, hdir.2]
  · rw [not_or, Bool.not_eq_false, Bool.not_eq_false] at hpte
    have hs : (m v (p / 1024)).pgsz = false := by simpa using hs
    have ht : (m v (p / 1024)).HasTable := ⟨Word.ne_zero_of_present hdir.1, hs⟩
    rw [accessAt_of_pte hs, pteAt_of_hasTable ht, if_pos hpte.1, hpte.2]

/-- The page 4 MiB behind the window at `q` may be written. -/
def TargetMapped (s : Machine) (q : ℕ) : Prop := ∃ g, accessAt s.mem s.cr3 ((q + 1024) % 1048576) = some (g, true)

/-- One frame of a 4 MiB page is copied, to the page 4 MiB behind the window. -/
theorem Settled.copyBehind {D₀ : Set ℕ} (h : Settled ok D L (n + 6) s) (hK : K.Closed) {src : Trap}
    (hsrc : src.vmm = w * 4096) (hw : w ∈ L) (hva : OffSlot src.vaddr) (hq : 786432 ≤ q) (hq1 : q + 1 < 1048576)
    (hwin : WindowAt s.mem s.cr3 q x y) (hD₀ : D₀ ⊆ D) (hL : L ⊆ D₀)
    (htarget : ∀ g, accessAt s.mem s.cr3 ((q + 1024) % 1048576) = some (g, true) → g ∈ D ∧ g ∉ D₀) (frame i : ℕ) :
    Comp.Wp (ok ∧ TargetMapped s q) (cowCopyFrame K (q * 4096) 4194304 frame src i) (fun _ t => Settled ok D L n t ∧
      SameRest s t ∧ Within D₀ L (InWindow s q) s t ∧ KeepsReach L s t ∧ ∃ x y, WindowAt t.mem s.cr3 q x y) s := by
  have hbehind : Regular ((q + 1024) % 1048576) := ⟨by omega, by omega⟩
  have haddr : w32 (q * 4096 + 4194304) = (q + 1024) % 1048576 * 4096 := by
    unfold w32
    omega
  rw [cowCopyFrame_eq]
  refine .read_bind (.bind ((h.moveWindow hK hsrc hw hva hq hq1 hwin frame i).weaken And.left fun _ _ => id)
    fun _ t ⟨hset, hrest, hin, hkeep, pa, _, _, hwin'⟩ => ?_)
  have hc : t.cr3 = s.cr3 := hin.cr3
  have hsame : accessAt t.mem s.cr3 ((q + 1024) % 1048576) = accessAt s.mem s.cr3 ((q + 1024) % 1048576) :=
    hin.access _ h.cur _ hbehind (.inl rfl) fun hp => by have := hp.2; omega
  generalize w32 (pa + i * 4096) / 4096 % 1048576 = g at hwin'
  rw [haddr]
  by_cases hmapped : TargetMapped s q
  · obtain ⟨f, hf⟩ := hmapped
    obtain ⟨hD, hfD₀⟩ := htarget f hf
    have hfL : f ∉ L := fun hin => hfD₀ (hL hin)
    have hdst : PageAt t true ((q + 1024) % 1048576 * 4096) f :=
      hset.tables.pageAt_access hset.cur hbehind (by rw [hc]; exact hsame.trans hf) fun _ => rfl
    have hsrcp : PageAt t false (q * 4096) g :=
      hset.tables.pageAt_access hset.cur ⟨by omega, by omega⟩ (by rw [hc]; exact hwin'.2.2.1) nofun
    have hapart : Tables (insert f D₀) L t :=
      hset.tables.antitone (Set.insert_subset hD hD₀) (hL.trans (Set.subset_insert f D₀))
    have hlast := fun C => hapart.within_setFrame hset.cur hfD₀ hfL (t.mem g) C
    rw [← hc] at hwin'
    have hnext := hwin'.next (hlast fun _ _ => False) hset.cur hq hq1 id id
    rw [hc] at hnext
    exact .of_eq (hdst.memcpyPage hsrcp) ⟨hset.setFrame hD hfL _, hrest.trans rfl, (hin.antitone hD₀).trans (hlast _),
      hkeep.trans (.setFrame hset hD hfL _), _, _, hnext⟩
  · refine ⟨fun _ hno => hmapped hno.2, fun _ u hrun => ?_⟩
    obtain ⟨_, _, hread, hrun⟩ := Comp.bind_eq_some.mp hrun
    obtain ⟨rfl, -⟩ := frameAt_some hread
    obtain ⟨f, _, hwrite, -⟩ := Comp.bind_eq_some.mp hrun
    obtain ⟨rfl, hf⟩ := frameAt_some hwrite
    rw [hc] at hf
    exact absurd ⟨f, hsame.symm.trans (access_of_mmu hf)⟩ hmapped

theorem Settled.antitone {D' : Set ℕ} (h : Settled ok D L n s) (hD : D' ⊆ D) (hL : L ⊆ D') : Settled ok D' L n s where
  tables := h.tables.antitone hD hL
  cur := h.cur
  aligned := h.aligned
  guard := h.guard
  spread := ⟨fun k hk => ⟨hL (h.kernel k hk), (h.spread.dir k hk).2⟩, h.spread.run⟩
  kernel := h.kernel

/-- The frames of a 4 MiB page are allocated. -/
theorem Settled.newFrames {N : ℕ} (h : Settled ok D L (n + N) s) (hN : N ≤ 1024) :
    Comp.Wp ok (pmmAllocFree N) (fun r t => (r = none ∧ t = s) ∨ ∃ f, r = some f ∧ f < s.pmmFrames ∧
      Settled ok D L n t ∧ SameRest s t ∧ t.mem = s.mem ∧ (∀ g, used s g → used t g) ∧
      ∀ g, f ≤ g → g < f + N → ¬ used s g ∧ used t g) s := by
  have hframes := h.tables.frames
  have hbound : s.pmmFrames + N < sizeMax := by unfold sizeMax; omega
  obtain ⟨r, t, hrun⟩ := pmmAllocFree_total hbound
  refine .of_eq hrun ?_
  cases r with
  | none => exact .inl ⟨rfl, pmmAllocFree_none hrun⟩
  | some f =>
    obtain ⟨hlt, hclear, hst, hbits⟩ := pmmAllocFree_some (by unfold sizeMax; omega) hrun
    have hmem : t.mem = s.mem := by
      rw [hst]
    have hrest : SameRest s t := by
      unfold SameButBitmap at hst
      unfold SameRest
      rw [hst]
    have hused : ∀ g, used s g → used t g := by
      intro g hg
      unfold used at hg ⊢
      rw [hbits g, hg, Bool.or_true]
    refine .inr ⟨f, rfl, hlt, h.sameButBitmap hst hused fun hok => ?_, hrest, hmem, hused, fun g hg hg1 => ?_⟩
    · rw [Nat.add_comm] at h
      refine (h.guard.frames hok).of_used (List.range' f N) (by simp) (by rw [hst]) fun g hg => ?_
      unfold used at hg ⊢
      rw [hbits g, Bool.or_eq_true, decide_eq_true_iff] at hg
      rw [List.mem_range'_1]
      exact hg.symm
    · have hfree := hclear (g - f) (by omega)
      rw [Nat.add_sub_cancel' hg] at hfree
      unfold used
      rw [hbits g, hfree, Bool.or_false, decide_eq_true_iff]
      exact ⟨Bool.false_ne_true, hg, hg1⟩

/-- The last frame of the 4 MiB page that `vmm_set_paddr` makes of the frame `f`. -/
def lastFrame (f : ℕ) : ℕ := f / 1024 * 1024 + 1023

/-- What `vmm_cow_duplicate` comes to for a 4 MiB page at `va` of the VMM `v`, shared with the one at `src` of `w`, when it
returns. -/
inductive HugeOutcome (s : Machine) (v va w src : ℕ) : Bool → Machine → Prop
  | noSpace (full : ∀ q, ¬ CopySpace s q) : HugeOutcome s v va w src false { s with vmmTrapsMutex := false }
  | noFrame {q : ℕ} {x : ℕ × Bool} {t : Machine} (space : CopySpace s q) (cr3 : t.cr3 = s.cr3)
      (window : accessAt t.mem s.cr3 q = some x) : HugeOutcome s v va w src false t
  | copied {q f : ℕ} {x : ℕ × Bool} {t : Machine} (space : CopySpace s q) (cr3 : t.cr3 = s.cr3)
      (window : accessAt t.mem s.cr3 q = some x) (spare : ¬ used s (lastFrame f))
      (same : t.mem (lastFrame f) = s.mem (lastFrame f))
      (page : Reach s v va → ¬ InPage s w (src / 4096) v (va / 4096) → ∀ g r, accessAt s.mem v (va / 4096) = some (g, r) →
        accessAt t.mem v (va / 4096) = some (copiedFrame s v va f, true))
      (blocked : ¬ Reach s v va → ¬ InPage s w (src / 4096) v (va / 4096) →
        accessAt t.mem v (va / 4096) = accessAt s.mem v (va / 4096)) : HugeOutcome s v va w src true t

theorem FirstSpace.unique {q' : ℕ} (h : FirstSpace s q) (h' : FirstSpace s q') : q = q' := by
  rcases Nat.lt_trichotomy q q' with hlt | heq | hgt
  · exact absurd h.1 (h'.2 q hlt)
  · exact heq
  · exact absurd h'.1 (h.2 q' hgt)

/-- The frame that the copy overwrites is set apart. -/
theorem CopyTarget.setApart (htarget : CopyTarget (DataFrame L s) s) (h : Settled ok D L n s) :
    ∃ D', Settled ok D' L n s ∧ CopyTarget (fun g => g ∈ D' ∧ g ∉ L) s := by
  by_cases hex : ∃ q g, FirstSpace s q ∧ accessAt s.mem s.cr3 ((q + 1024) % 1048576) = some (g, true)
  · obtain ⟨q, g, hq, hg⟩ := hex
    have hdata := htarget q g hq hg
    refine ⟨insert g D, h.setApart hdata.used hdata.lt hdata.notTable, fun q' g' hq' hg' => ?_⟩
    rw [hq'.unique hq, hg] at hg'
    cases hg'
    exact ⟨.inl rfl, hdata.notDir⟩
  · exact ⟨D, h, fun q g hq hg => absurd ⟨q, g, hq, hg⟩ hex⟩

/-- The pair of the traps `p` and `dst`, for the pages at `va` of `v` and at `src` of `w`, is resolved. The window at `q` is
open behind it. -/
structure PairResolved (ok : Prop) (D L : Set ℕ) (n : ℕ) (s : Machine) (v va w src : ℕ) (p dst : TrapPtr) (q : ℕ)
    (t : Machine) : Prop where
  settled : Settled ok D L n t
  rest : SameRest (trapsResolved s p dst) t
  within : Within L L (fun x y => InWindow s q x y ∨ InPage s v (va / 4096) x y ∨ InPage s w (src / 4096) x y) s t
  window : ∃ x, accessAt t.mem s.cr3 q = some x
  second : ∃ x, accessAt t.mem s.cr3 (q + 1) = some x
  frame : ∃ f < s.pmmFrames, ¬ used s f ∧ used t f

/-- What a call of `vmm_cow_duplicate` for a trapped page leaves to the next one. -/
inductive Pass (ok : Prop) (D L : Set ℕ) (n : ℕ) (s : Machine) (idx v va w src : ℕ) (p dst : TrapPtr) : Bool → Machine → Prop
  | noSpace (full : ∀ q, ¬ CopySpace s q) : Pass ok D L n s idx v va w src p dst false { s with vmmTrapsMutex := false }
  | noFrame {q : ℕ} {t : Machine} (space : FirstSpace s q) (settled : Settled ok D L n t)
      (rest : SameRest { s with vmmTrapsMutex := false } t) (within : Within L L (InWindow s q) s t)
      (window : ∃ x, accessAt t.mem s.cr3 q = some x) (second : ∃ x, accessAt t.mem s.cr3 (q + 1) = some x)
      (hno : idx = 0 → ¬ ok) : Pass ok D L n s idx v va w src p dst false t
  | resolved {q : ℕ} {t : Machine} (space : FirstSpace s q) (h : PairResolved ok D L n s v va w src p dst q t) : Pass ok D L n s idx v va w src p dst true t

/-- The part of `vmm_cow_duplicate` behind the search of the trap table, for a 4 MiB page. -/
theorem Settled.huge (h : Settled ok D L (n + 7182) s) (hK : K.Closed) (hk : KernelEnds s) (hpage : TrapPage ok L s v va)
    {p : TrapPtr} {u : Trap} (hsrc : s.trapAt p = some u) (hvmm : u.vmm = w * 4096) (hpage' : TrapPage ok L s w u.vaddr)
    (htarget : CopyTarget (fun g => g ∈ D ∧ g ∉ L) s) (dst : TrapPtr) :
    Comp.Wp (ok ∧ ∀ q, FirstSpace s q → TargetMapped s q) (cowWindow K (v * 4096) va 4194304 p dst) (fun r t =>
      HugeOutcome s v va w u.vaddr r t ∧ Pass ok D L n s 1 v va w u.vaddr p dst r t) { s with vmmTrapsMutex := true } := by
  unfold cowWindow
  refine .read_bind (.read_bind (.bind (((h.setLock true).copyWindow (n := n + 7178) hK hk).weaken And.left fun _ _ => id) fun a t₁ ha => ?_))
  rcases ha with ⟨rfl, rfl, hfull⟩ | ⟨q, rfl, hspace, hleast, hset₁, hrest₁, hin₁, hkeep₁, hwin₁⟩
  · rw [if_pos rfl]
    have hfull : ∀ q, ¬ CopySpace s q := fun q hq => hfull q ((copySpace_lock hk true).mpr hq)
    exact .of_eq rfl ⟨.noSpace hfull, .noSpace hfull⟩
  have hspace : CopySpace s q := (copySpace_lock hk true).mp hspace
  have hfirst : FirstSpace s q := ⟨hspace, fun p hp hsp => hleast p hp ((copySpace_lock hk true).mpr hsp)⟩
  obtain ⟨hqk, hq1⟩ := hspace.kernel hk
  have hin₁ : Within D L (InWindow s q) s t₁ := hin₁.unlock
  have hkeep₁ : KeepsReach L s t₁ := hkeep₁
  have hc₁ : t₁.cr3 = s.cr3 := hin₁.cr3
  have hregq : Regular q := ⟨by omega, by omega⟩
  rw [if_neg (show q * 4096 ≠ 0 by omega)]
  unfold cowCopy
  rw [show 4194304 / 4096 = 1024 from rfl]
  refine .bind ((hset₁.newFrames (n := n + 6154) (le_refl 1024)).weaken And.left fun _ _ => id) fun r t₂ hr => ?_
  rcases hr with ⟨rfl, rfl⟩ | ⟨f, rfl, hroom, hset₂, hrest₂, hmem₂, hused₂, hrun₂⟩
  · refine .of_eq rfl ⟨.noFrame hspace hc₁ hwin₁.2.2.1, .noFrame hfirst ((hset₁.le (by omega)).setLock false) ?_ ?_
      ⟨_, hwin₁.2.2.1⟩ ⟨_, hwin₁.2.2.2⟩ nofun⟩
    · unfold SameRest at hrest₁ ⊢
      rw [hrest₁]
    · exact (hin₁.antitone h.tables.sub).trans (.of_mem rfl rfl rfl)
  have hf : f < 1048576 := hroom.trans_le hset₁.tables.frames
  have hderef : trapDeref p t₂ = some (u, t₂) := by
    unfold trapDeref
    rw [Comp.readOr_apply, hrest₂.trapAt, hrest₁.trapAt]
    exact congrArg (Option.map fun a => (a, t₂)) hsrc
  have hc₂ : t₂.cr3 = s.cr3 := hrest₂.cr3_eq.trans hc₁
  refine .step hderef ?_
  -- the last frame of the new page is set apart, to see that nothing is copied to it
  obtain ⟨hlo, hhi, hlt⟩ : f ≤ lastFrame f ∧ lastFrame f < f + 1024 ∧ lastFrame f < 1048576 := by
    unfold lastFrame
    omega
  have hnew := hrun₂ f (le_refl f) (by omega)
  obtain ⟨hspare₁, hused⟩ := hrun₂ _ hlo hhi
  have hspare : ¬ used s (lastFrame f) := fun hu => hspare₁ (hin₁.used _ hu)
  have hfresh := hset₁.tables.fresh hspare₁
  have hset₂ : Settled ok (insert (lastFrame f) D) L (n + 6154) t₂ := by
    refine hset₂.setApart hused hlt ?_
    rw [hmem₂]
    exact hfresh.2
  generalize hx : lastFrame f = x at hspare hspare₁ hused hfresh hset₂ hlt
  have hL : L ⊆ insert x L := Set.subset_insert x L
  have hsub : insert x L ⊆ insert x D := Set.insert_subset_insert h.tables.sub
  have hxL : x ∉ L := fun hin => hfresh.1 (h.tables.sub hin)
  have hin₂ : Within (insert x L) L (InWindow s q) s t₂ := by
    have hin : Within D L (InWindow s q) s t₂ := hin₁.trans (.of_used hrest₂.vmmCurrent_eq hmem₂ hused₂)
    refine (hin.antitone h.tables.sub).widen ?_
    rw [hmem₂]
    exact hin₁.spare x hspare₁
  have hkeep₂ : KeepsReach L s t₂ := by
    refine hkeep₁.trans (.of_views hrest₂.cr3_eq (fun p _ => ?_) fun v _ _ i _ => ?_)
    · rw [hmem₂]
    · rw [hmem₂]
  have hq' := user_page hpage.user
  have hq'' := user_page hpage'.user
  have hoff := offSlot_of_lt hpage.user
  have hloop : Comp.Wp (ok ∧ ∀ q, FirstSpace s q → TargetMapped s q) (Comp.forRange (cowCopyFrame K (q * 4096) 4194304 f u) 1024 0) (fun _ t =>
      Settled ok (insert x D) L (n + 10) t ∧ SameRest t₂ t ∧ (used t₂ f → used t f) ∧
      Within (insert x L) L (InWindow s q) s t ∧ KeepsReach L s t ∧ ∃ x y, WindowAt t.mem s.cr3 q x y) t₂ := by
    refine Comp.Wp.forRange (J := fun i t => Settled ok (insert x D) L (n + 10 + 6 * (1024 - i)) t ∧ SameRest t₂ t ∧
      (used t₂ f → used t f) ∧ Within (insert x L) L (InWindow s q) s t ∧ KeepsReach L s t ∧
      ∃ x y, WindowAt t.mem s.cr3 q x y)
      (fun i _ hi t ⟨hset, hrest, hu, hin, hkeep, a, b, hwin⟩ => ?_) ⟨hset₂, .refl t₂, id, hin₂, hkeep₂, 0, 1, ?_⟩
    · have hc : t.cr3 = s.cr3 := hin.cr3
      have hcount : n + 10 + 6 * (1024 - i) = n + 10 + 6 * (1024 - (i + 1)) + 6 := by omega
      rw [hcount] at hset
      refine (hset.copyBehind hK hvmm hpage'.vmm (offSlot_of_lt hpage'.user) hqk (by omega) (by rw [hc]; exact hwin)
        hsub hL (fun g hg => ?_) f i).weaken ?_ ?_
      · rw [hc, hin.access _ h.cur _ ⟨by omega, by omega⟩ (.inl rfl) fun hp => by have := hp.2; omega] at hg
        obtain ⟨hgD, hgL⟩ := htarget q g hfirst hg
        refine ⟨.inr hgD, fun hno => hno.elim (fun he => ?_) hgL⟩
        exact hspare (he ▸ (h.tables.dir g hgD).1)
      · rintro ⟨hok, hmapped⟩
        obtain ⟨g, hg⟩ := hmapped q hfirst
        refine ⟨hok, g, ?_⟩
        rw [hc, hin.access _ h.cur _ ⟨by omega, by omega⟩ (.inl rfl) fun hp => by have := hp.2; omega]
        exact hg
      · rintro _ t' ⟨hset', hrest', hin', hkeep', hwin'⟩
        rw [hc] at hwin'
        exact ⟨hset', hrest.trans hrest', fun hf => hin'.used f (hu hf), hin.trans (hin'.mono fun _ _ hp => ⟨hp.1.trans hc, hp.2⟩), hkeep.trans hkeep',
          hwin'⟩
    · rw [hmem₂]
      exact hwin₁
  refine .bind hloop fun _ t₃ ⟨hset₃, hrest₃, hkept, hin₃, hkeep₃, a, b, hwin₃⟩ => ?_
  refine (hset₃.finish hK (hpage.next hin₃) hvmm (hpage'.next hin₃) hf p dst).weaken And.left ?_
  rintro r t₄ ⟨rfl, hset₄, hrest₄, hin₄, hpage₄, hold₄, -⟩
  have hv₃ : accessAt t₃.mem v (va / 4096) = accessAt s.mem v (va / 4096) :=
    hin₃.access v hpage.vmm _ hoff.page (.inr hq') fun hno => hno.not_user hqk hq'
  have hvreach := hkeep₃ v hpage.vmm va hpage.user
  have hcopied : copiedFrame t₃ v va f = copiedFrame s v va f := by
    rw [copiedFrame, copiedFrame, hin₃.pgsz v hpage.vmm _ (.inr (slot_of_lt hpage.user))]
  have hopen (y : ℕ) : 786432 ≤ y → y < 1048576 → accessAt t₄.mem s.cr3 y = accessAt t₃.mem s.cr3 y :=
    hin₄.kernel_access h.cur hin₃.cr3.symm hq' hq''
  have hwindow := (hopen q hqk (by omega)).trans hwin₃.2.2.1
  have hresolved : PairResolved ok D L n s v va w u.vaddr p dst q t₄ := by
    refine ⟨hset₄.antitone (Set.subset_insert x D) h.tables.sub, ?_, ?_, ⟨_, hwindow⟩,
      ⟨_, (hopen (q + 1) (by omega) (by omega)).trans hwin₃.2.2.2⟩, f, ?_, ?_, ?_⟩
    · rw [← trapsResolved_lock s true]
      exact (((hrest₁.trans hrest₂).trans hrest₃).trapsResolved p dst).trans hrest₄
    · refine (hin₃.next ((hin₄.antitone hsub).mono fun y z hyz => ?_)).antitone hL
      exact hyz.imp (fun hyz => hyz.next hin₃ hpage.vmm hq') fun hyz => hyz.next hin₃ hpage'.vmm hq''
    · rw [hrest₁] at hroom
      exact hroom
    · exact fun hu => hnew.1 (hin₁.used f hu)
    · exact hin₄.used f (hkept hnew.2)
  refine ⟨.copied (f := f) hspace (hin₄.cr3.trans hin₃.cr3) hwindow (hx ▸ hspare) ?_ (fun hr hne g b hg => ?_)
    fun hr hne => ?_, .resolved hfirst hresolved⟩
  · rw [hx, hin₄.content x (.inl rfl) hxL]
    exact hin₃.content x (.inl rfl) hxL
  · rw [← hcopied]
    exact hpage₄ (hvreach.mp hr) (fun hno => hne (hno.next hin₃ hpage'.vmm hq'')) g b (hv₃.trans hg)
  · exact (hold₄ (fun hin => hr (hvreach.mpr hin)) fun hno => hne (hno.next hin₃ hpage'.vmm hq'')).trans hv₃

/-- The first trap for the page at `va` of the VMM `v` leads to the page at `src` of `w`. -/
def Partner (s : Machine) (v va w src : ℕ) : Prop := ∃ i d p u,
  s.vmmTraps.findIdx? (fun t => t.isCowAt (v * 4096) va) = some i ∧ s.vmmTraps[i]? = some d ∧ d.info = some p ∧
    s.trapAt p = some u ∧ u.vmm = w * 4096 ∧ u.vaddr = src

/-- `vmm_cow_duplicate` on a 4 MiB page. -/
theorem Settled.searchHuge (h : Settled ok D L 7182 s) (hK : K.Closed) (hk : KernelEnds s) (hpairs : TrapsPaired s)
    (hpages : CowPages ok L s) (htarget : CopyTarget (fun g => g ∈ D ∧ g ∉ L) s) :
    Comp.Wp ((ok ∧ ∀ q, FirstSpace s q → TargetMapped s q) ∧ s.vmmTrapsMutex = false) (cowSearch K (v * 4096) va 4194304) (fun r t =>
      ¬ HasCow s (v * 4096) va ∧ r = false ∧ t = { s with vmmTrapsMutex := false } ∨
      HasCow s (v * 4096) va ∧ ∃ w src, Partner s v va w src ∧ HugeOutcome s v va w src r t) s := by
  refine cowSearch_wp hpairs hpages And.right (fun hno => .inl ⟨hno, rfl, rfl⟩) ?_
  intro i p d u w hfind hentry hinfo hsrc hvmm hcow hpage hpage'
  refine (h.huge (n := 0) hK hk hpage hsrc hvmm hpage' htarget _).weaken And.left fun r t ht => .inr ⟨hcow, w, u.vaddr, ?_, ht.1⟩
  exact ⟨i, d, p, u, hfind, hentry, hinfo, hsrc, hvmm, rfl⟩

theorem hasCow_of_find {vmm i : ℕ} (h : s.vmmTraps.findIdx? (fun t => t.isCowAt vmm va) = some i) : HasCow s vmm va := by
  obtain ⟨hi, hcow, -⟩ := List.findIdx?_eq_some_iff_getElem.mp h
  exact ⟨_, List.getElem_mem hi, hcow⟩

/-- The window for the copy stays open when there is a trap and space for it. Otherwise nothing happens. -/
theorem Settled.fate {idx : ℕ} (h : Settled ok D L 21 s) (hK : K.Closed) (hk : KernelEnds s) (hpairs : TrapsPaired s)
    (hpages : CowPages ok L s) (hidx : idx < vmmPgszNum)
    (hhuge : idx = 1 → Settled ok D L 7182 s ∧ CopyTarget (fun g => g ∈ D ∧ g ∉ L) s) :
    Comp.Wp False (cowSearch K (v * 4096) va (vmmPgsz idx)) (fun _ t =>
      t = { s with vmmTrapsMutex := false } ∧ ¬ (HasCow s (v * 4096) va ∧ ∃ q, CopySpace s q) ∨
      HasCow s (v * 4096) va ∧ ∃ q x, CopySpace s q ∧ t.cr3 = s.cr3 ∧ accessAt t.mem s.cr3 q = some x) s := by
  unfold vmmPgszNum at hidx
  obtain rfl | rfl : idx = 0 ∨ idx = 1 := by omega
  · refine (h.search (n := 0) hK hk hpairs hpages).relax.mono fun r t ht => ?_
    cases ht with
    | absent hno => exact .inl ⟨rfl, fun hin => hno hin.1⟩
    | noSpace _ hfull => exact .inl ⟨rfl, fun ⟨_, q, hq⟩ => hfull q hq⟩
    | noFrame hcow hspace _ hin hwindow _ _ _ => exact .inr ⟨hcow, _, _, hspace.1, hin.cr3, hwindow⟩
    | resolved hspace hfind _ _ _ _ _ _ hin hwindow =>
      exact .inr ⟨hasCow_of_find hfind, _, _, hspace.1, hin.cr3, hwindow.choose_spec⟩
  · obtain ⟨hset, htarget⟩ := hhuge rfl
    refine (hset.searchHuge hK hk hpairs hpages htarget).relax.mono ?_
    rintro r t (⟨hno, -, ht⟩ | ⟨hcow, w, src, -, hout⟩)
    · exact .inl ⟨ht, fun hin => hno hin.1⟩
    · cases hout with
      | noSpace hfull => exact .inl ⟨rfl, fun ⟨_, q, hq⟩ => hfull q hq⟩
      | noFrame hspace hc hwindow => exact .inr ⟨hcow, _, _, hspace, hc, hwindow⟩
      | copied hspace hc hwindow => exact .inr ⟨hcow, _, _, hspace, hc, hwindow⟩

end Huge

/-- The size of the page that `vmm_cow_duplicate` is called for: the one given, or what `vmm_get_pgsz` finds. -/
def PageSize (s : Machine) (v va : ℕ) (pg : Option ℕ) (idx : ℕ) : Prop :=
  pg = some idx ∨ pg = none ∧ Reach s v va ∧ pgszAt s.mem v (va / 4096) = some idx

/-- A trap stands for the page, and there is space for the window. -/
def CopiesPage (s : Machine) (v va : ℕ) (pg : Option ℕ) : Prop :=
  ∃ idx, PageSize s v va pg idx ∧ HasCow s (v * 4096) (va - va % vmmPgsz idx) ∧ ∃ q, CopySpace s q

/-- `vmm_get_pgsz` looks into a page table of another VMM. -/
def AsksForeign (s : Machine) (v va : ℕ) (pg : Option ℕ) : Prop :=
  pg = none ∧ v ≠ s.cr3 ∧ Reach s v va ∧ (s.mem v (va / 4194304)).HasTable

/-- Every page of the current VMM other than the resolved one has the frame that it had. -/
def KeepsFrames (s t : Machine) (v va : ℕ) (pg : Option ℕ) : Prop :=
  ∀ p, Regular p → ¬ (v = s.cr3 ∧ ∃ idx, PageSize s v va pg idx ∧ p * 4096 / vmmPgsz idx = va / vmmPgsz idx) →
    (accessAt t.mem t.cr3 p).map Prod.fst = (accessAt s.mem s.cr3 p).map Prod.fst

section Released

variable {ok : Prop} {D L : Set ℕ} {s t : Machine} {n v va p : ℕ} {W : ℕ → Word} {pg : Option ℕ} {K : Callees}

theorem Windowed.access_open (h : Windowed D L s t W) (hp : (W p).present = true) :
    accessAt t.mem s.cr3 p = some ((W p).pt, (W p).rw) ∧ p < userPages ∧ view s.mem s.cr3 p = none := by
  have hz := Word.ne_zero_of_present hp
  obtain ⟨-, huser, hfree⟩ := h.clear p hz
  have hs : (t.mem s.cr3 (p / 1024)).pgsz = false := (h.pgsz_eq _).trans (view_eq_none.mp hfree).1
  have hpte := h.pte p huser
  rw [if_neg hz] at hpte
  exact ⟨by rw [accessAt_of_pte hs, hpte, if_pos hp], huser, hfree⟩

/-- The first step of `vmm_cow_duplicate`. -/
theorem Settled.lookup (h : Settled ok D L (n + 2) s) (hK : K.Closed) (hv : v ∈ L) (hva : OffSlot va) (pg : Option ℕ) :
    Comp.Wp ok (if pg = none then vmmGetPgsz K (v * 4096) va else pure pg) (fun r t =>
      (∀ idx, r = some idx ↔ PageSize s v va pg idx) ∧ Settled ok D L n t ∧ SameRest s t ∧
      Within D L (fun w p => w = s.cr3 ∧ p < userPages) s t ∧
      (AsksForeign s v va pg → ∃ p x, Regular p ∧ view s.mem s.cr3 p = none ∧ accessAt t.mem s.cr3 p = some x) ∧
      (¬ AsksForeign s v va pg → ∀ p, Regular p → view t.mem s.cr3 p = view s.mem s.cr3 p) ∧
      ∀ p f, Regular p → accessAt t.mem s.cr3 p = some (f, true) → accessAt s.mem s.cr3 p = some (f, true)) s := by
  have hsize : ∀ {r : Option ℕ}, (Reach s v va → r = pgszAt s.mem v (va / 4096)) → (¬ Reach s v va → r = none) →
      ∀ idx, r = some idx ↔ PageSize s v va none idx := by
    intro r hin hout idx
    constructor
    · rintro rfl
      by_cases hr : Reach s v va
      · exact .inr ⟨rfl, hr, (hin hr).symm⟩
      · cases hout hr
    · rintro (hno | ⟨-, hr, hp⟩)
      · cases hno
      · rw [hin hr, hp]
  cases pg with
  | some idx =>
    rw [if_neg (Option.some_ne_none idx)]
    refine .pure ⟨fun idx' => ⟨fun he => .inl he, fun he => he.elim id fun hno => absurd hno.1 (Option.some_ne_none idx)⟩,
      h.le (by omega), .refl s, .refl D L _ s, fun hno => absurd hno.1 (Option.some_ne_none idx), fun _ _ _ => rfl,
      fun _ _ _ => id⟩
  | none =>
    rw [if_pos rfl]
    by_cases hvc : v = s.cr3
    · rw [h.own hvc]
      refine .of_eq (vmmGetPgsz_cur h.tables h.cur hva) ⟨hsize (fun _ => by rw [hvc]) fun hno => absurd (.inl hvc) hno,
        h.le (by omega), .refl s, .refl D L _ s, fun hno => absurd hvc hno.2.1, fun _ _ _ => rfl, fun _ _ _ => id⟩
    · have hclosed : ∀ {t}, Windowed D L s t (fun _ => 0#32) → Within D L (fun w p => w = s.cr3 ∧ p < userPages) s t ∧
          (∀ p, Regular p → view t.mem s.cr3 p = view s.mem s.cr3 p) ∧
          ∀ p f, Regular p → accessAt t.mem s.cr3 p = some (f, true) → accessAt s.mem s.cr3 p = some (f, true) := fun hw =>
        ⟨hw.within_closed _, fun p hp => hw.views_closed h.cur hp, fun p f hp hf =>
          (accessAt_congr (hw.views_closed h.cur hp)).symm.trans hf⟩
      by_cases hroom : Room s (fun _ => 0#32) 0 (walkWindows (s.mem v (va / 4194304)))
      · refine (h.refl.vmmGetPgsz_foreign hK hv hvc hva h.guard hroom).mono ?_
        rintro r t ⟨hr, hw, hg⟩
        by_cases he : (s.mem v (va / 4194304)).HasTable
        · rw [if_pos he] at hw
          obtain ⟨p, hfree, hw⟩ := hw
          have hopen := hw.access_open (p := p) (by rw [Function.update_self, windowPte_present]; rfl)
          refine ⟨hsize (fun _ => hr) fun hno => absurd (.inr hroom) hno, h.windowed (.refl s) hw hg, hw.rest, ?_,
            fun _ => ⟨p, _, Windowed.regular_of_user hopen.2.1, hopen.2.2, hopen.1⟩,
            fun hno => absurd ⟨rfl, hvc, .inr hroom, he⟩ hno, fun y g hy hg => ?_⟩
          · exact hw.within.mono fun x y hxy => ⟨hxy.1, (hw.clear y hxy.2).2.1⟩
          · by_cases hyp : y = p
            · rw [hyp, hopen.1, Function.update_self, windowPte_rw] at hg
              cases hg
            · rw [← accessAt_congr (hw.view_cur hy (Function.update_of_ne hyp _ _))]
              exact hg
        · rw [if_neg he] at hw
          exact ⟨hsize (fun _ => hr) fun hno => absurd (.inr hroom) hno, h.windowed (.refl s) hw hg, hw.rest,
            (hclosed hw).1, fun hin => absurd hin.2.2.2 he, fun _ => (hclosed hw).2.1, (hclosed hw).2.2⟩
      · have hno : ¬ Reach s v va := fun hin => hin.elim hvc hroom
        unfold vmmGetPgsz
        refine h.refl.foreign_walk_blocked windowFlags_read windowFlags_read hK hv hvc hva.lt h.guard hroom
          ⟨hsize (fun hin => absurd hin hno) fun _ => rfl, h.le (by omega), .refl s, .refl D L _ s,
            fun hin => absurd hin.2.2.1 hno, fun _ _ _ => rfl, fun _ _ _ => id⟩ fun p t hd => ?_
        refine .bind (hd.close windowFlags_read hK (h.foreign hvc)) fun _ u hu => .pure ?_
        exact ⟨hsize (fun hin => absurd hin hno) fun _ => rfl, h.windowed (.refl s) hu.1 (hu.2.mono (by omega)), hu.1.rest,
          (hclosed hu.1).1, fun hin => absurd hin.2.2.1 hno, fun _ => (hclosed hu.1).2.1, (hclosed hu.1).2.2⟩

theorem Settled.enough {m : ℕ} (h : Settled ok D L n s) (hf : ok → FreeFrames s m) : Settled ok D L m s :=
  ⟨h.tables, h.cur, h.aligned, ⟨hf, h.guard.null⟩, h.spread, h.kernel⟩

theorem SameRest.vmmTraps_eq (h : SameRest s t) : t.vmmTraps = s.vmmTraps := by
  rw [h]

theorem SameRest.hasCow {vmm : ℕ} (h : SameRest s t) : HasCow t vmm va ↔ HasCow s vmm va := by
  unfold HasCow
  rw [h.vmmTraps_eq]

theorem SameRest.trapsPaired (h : SameRest s t) (hpairs : TrapsPaired s) : TrapsPaired t := by
  rw [h]
  exact hpairs

theorem SameRest.kernelEnds (h : SameRest s t) (hk : KernelEnds s) : KernelEnds t := by
  rw [h]
  exact hk

theorem CowPages.next {C : ℕ → ℕ → Prop} (h : CowPages ok L s) (hrest : SameRest s t) (hin : Within D L C s t) :
    CowPages ok L t := by
  intro d hd hcow
  rw [hrest.vmmTraps_eq] at hd
  obtain ⟨v, hv, hpage⟩ := h d hd hcow
  exact ⟨v, hv, hpage.next hin⟩

/-- A call that leaves the pages of a window alone leaves it as free as it was. -/
theorem Within.copySpace_iff {C : ℕ → ℕ → Prop} {q : ℕ} (hin : Within D L C s t) (hend : t.kernelEnd = s.kernelEnd)
    (hk : KernelEnds s) (hC : ∀ p, userPages ≤ p → q ≤ p → p ≤ q + 1 → ¬ C s.cr3 p) : CopySpace t q ↔ CopySpace s q := by
  have hlow : 3221225472 ≤ s.kernelEnd := hk.1
  have hk' : KernelEnds t := by
    unfold KernelEnds
    rw [hend]
    exact hk
  rw [SysX.copySpace_iff hk', SysX.copySpace_iff hk, hin.cr3, hend]
  have hvacant : ∀ p, q ≤ p → p ≤ q + 1 → 786432 ≤ p → p < 1048576 →
      (view t.mem s.cr3 p = none ↔ view s.mem s.cr3 p = none) := by
    intro p hpq hpq1 hp hp1
    have huser : userPages ≤ p := by
      unfold userPages
      omega
    exact hin.vacant p ⟨by omega, by omega⟩ huser (hC p huser hpq hpq1)
  constructor
  · rintro ⟨hq, hq1, h0, h1⟩
    exact ⟨hq, hq1, (hvacant q (by omega) (by omega) (by omega) (by omega)).mp h0,
      (hvacant (q + 1) (by omega) (by omega) (by omega) (by omega)).mp h1⟩
  · rintro ⟨hq, hq1, h0, h1⟩
    exact ⟨hq, hq1, (hvacant q (by omega) (by omega) (by omega) (by omega)).mpr h0,
      (hvacant (q + 1) (by omega) (by omega) (by omega) (by omega)).mpr h1⟩

theorem CopySpace.free {q : ℕ} (h : CopySpace s q) (hk : KernelEnds s) : accessAt s.mem s.cr3 q = none := by
  rw [accessAt_eq, transAt, ((copySpace_iff hk).mp h).2.2.1]
  rfl

/-- Where nothing happens behind the lookup, its window decides. -/
theorem keepsFrames_iff (hopen : AsksForeign s v va pg → ∃ p x, Regular p ∧ view s.mem s.cr3 p = none ∧
      accessAt t.mem s.cr3 p = some x)
    (hclosed : ¬ AsksForeign s v va pg → ∀ p, Regular p → view t.mem s.cr3 p = view s.mem s.cr3 p) (hc : t.cr3 = s.cr3) :
    KeepsFrames s t v va pg ↔ ¬ AsksForeign s v va pg := by
  constructor
  · intro hkeeps hasks
    obtain ⟨p, x, hp, hfree, hx⟩ := hopen hasks
    have hsame := hkeeps p hp fun hno => hasks.2.1 hno.1
    rw [hc, hx, accessAt_eq, transAt, hfree] at hsame
    cases hsame
  · intro hno p hp _
    rw [hc, accessAt_congr (hclosed hno p hp)]

/-- The window for the copy is no part of the page that is resolved. -/
theorem CopySpace.not_kept {q idx : ℕ} {x : ℕ × Bool} (h : CopySpace s q) (hk : KernelEnds s) (hc : t.cr3 = s.cr3)
    (hidx : idx < vmmPgszNum) (hsize : ∀ j, PageSize s v va pg j → j = idx) (huser : va - va % vmmPgsz idx < kernelStart)
    (hx : accessAt t.mem s.cr3 q = some x) : ¬ KeepsFrames s t v va pg := by
  obtain ⟨hq, hq1⟩ := h.kernel hk
  intro hkeeps
  have hsame := hkeeps q ⟨by omega, by omega⟩ ?_
  · rw [hc, hx, h.free hk] at hsame
    cases hsame
  · rintro ⟨-, j, hj, hpage⟩
    obtain rfl := hsize j hj
    unfold kernelStart rmapStart at huser
    unfold vmmPgszNum at hidx
    obtain rfl | rfl : j = 0 ∨ j = 1 := by omega
    · rw [show vmmPgsz 0 = 4096 from rfl] at hpage huser
      omega
    · rw [show vmmPgsz 1 = 4194304 from rfl] at hpage huser
      omega

/-- A call of `vmm_cow_duplicate` leaves the frames of all other pages of the current VMM as they are if and only if it does
not look up a small page of another VMM and finds no trap or no space for its window. -/
theorem copy_window_released_iff (n : ℕ) {r : Bool} (h : Settled ok D L 23 s) (hk : KernelEnds s) (hpairs : TrapsPaired s)
    (hpages : CowPages ok L s) (hv : v ∈ L) (hva : OffSlot va) (hpg : ∀ idx, pg = some idx → idx < vmmPgszNum)
    (hhuge : PageSize s v va pg 1 → (ok → FreeFrames s 7184) ∧ CopyTarget (DataFrame L s) s)
    (hrun : vmmCowDuplicate (callees (n + 1)) (v * 4096) va pg s = some (r, t)) :
    KeepsFrames s t v va pg ↔ ¬ AsksForeign s v va pg ∧ ¬ CopiesPage s v va pg := by
  have hK := callees_closed n
  obtain ⟨D', m, hm, hset, hlarge⟩ : ∃ D' m, 21 ≤ m ∧ Settled ok D' L (m + 2) s ∧
      (PageSize s v va pg 1 → 7182 ≤ m ∧ CopyTarget (fun g => g ∈ D' ∧ g ∉ L) s) := by
    by_cases hsize : PageSize s v va pg 1
    · obtain ⟨hframes, htarget⟩ := hhuge hsize
      obtain ⟨D', hset, htarget'⟩ := htarget.setApart (h.enough hframes)
      exact ⟨D', 7182, by omega, hset, fun _ => ⟨le_refl _, htarget'⟩⟩
    · exact ⟨D, 21, le_refl _, h, fun hin => absurd hin hsize⟩
  have hcall : Comp.Wp False (vmmCowDuplicate (callees (n + 1)) (v * 4096) va pg)
      (fun _ t => KeepsFrames s t v va pg ↔ ¬ AsksForeign s v va pg ∧ ¬ CopiesPage s v va pg) s := by
    rw [vmmCowDuplicate_eq]
    refine .bind (hset.lookup hK hv hva pg).relax fun o t₁ ⟨hsize, hset₁, hrest₁, hin₁, hopen, hclosed, hback⟩ => ?_
    have hc₁ : t₁.cr3 = s.cr3 := hin₁.cr3
    have huser : ∀ p, userPages ≤ p → ¬ (s.cr3 = s.cr3 ∧ p < userPages) := fun p hp hno => absurd hno.2 (by omega)
    have hend₁ : t₁.kernelEnd = s.kernelEnd := by
      rw [hrest₁]
    have hspace : ∀ q, CopySpace t₁ q ↔ CopySpace s q := fun q => hin₁.copySpace_iff hend₁ hk fun p hp _ _ => huser p hp
    cases o with
    | none =>
      refine .pure ((keepsFrames_iff hopen hclosed hc₁).trans ⟨fun hno => ⟨hno, ?_⟩, fun hno => hno.1⟩)
      rintro ⟨idx, hidx, -⟩
      cases (hsize idx).mpr hidx
    | some idx =>
      have hpsize : PageSize s v va pg idx := (hsize idx).mp rfl
      have honly : ∀ j, PageSize s v va pg j → j = idx := fun j hj => by
        cases (hsize j).mpr hj
        rfl
      have hidx : idx < vmmPgszNum := by
        rcases hpsize with hpg' | ⟨-, -, hp⟩
        · exact hpg idx hpg'
        · unfold pgszAt at hp
          split_ifs at hp <;> cases hp <;> decide
      have hpages₁ : CowPages ok L t₁ := hpages.next hrest₁ hin₁
      have hhuge₁ : idx = 1 → Settled ok D' L 7182 t₁ ∧ CopyTarget (fun g => g ∈ D' ∧ g ∉ L) t₁ := by
        rintro rfl
        obtain ⟨hm', htarget⟩ := hlarge hpsize
        refine ⟨hset₁.le hm', fun q f hq hf => ?_⟩
        obtain ⟨hqk, hq1⟩ := hq.1.kernel (hrest₁.kernelEnds hk)
        rw [hc₁] at hf
        exact htarget q f ⟨(hspace q).mp hq.1, fun p hp hsp => hq.2 p hp ((hspace p).mpr hsp)⟩
          (hback _ f ⟨by omega, by omega⟩ hf)
      refine ((hset₁.le hm).fate hK (hrest₁.kernelEnds hk) (hrest₁.trapsPaired hpairs) hpages₁ hidx hhuge₁).mono ?_
      rintro _ t (⟨rfl, hno⟩ | ⟨hcow, q, x, hq, hc, hx⟩)
      · refine (keepsFrames_iff hopen hclosed hc₁).trans ⟨fun hasks => ⟨hasks, ?_⟩, fun hasks => hasks.1⟩
        rintro ⟨j, hj, hcow, q, hq⟩
        obtain rfl := honly j hj
        exact hno ⟨hrest₁.hasCow.mpr hcow, q, (hspace q).mpr hq⟩
      · have hcow : HasCow s (v * 4096) (va - va % vmmPgsz idx) := hrest₁.hasCow.mp hcow
        obtain ⟨d, hd, hat⟩ := hcow
        rw [hc₁] at hx
        refine iff_of_false (((hspace q).mp hq).not_kept hk (hc.trans hc₁) hidx honly (hpages.page hd hat).user hx) fun hno => ?_
        exact hno.2 ⟨idx, hpsize, ⟨d, hd, hat⟩, q, (hspace q).mp hq⟩
  exact hcall.2 r t hrun

end Released

/-- Two VMMs share the page at 4 MiB. -/
def cowSample : Machine := { (default : Machine) with
  mem := fun f i =>
    match f, i with
    | 1, 0 => 0x2007#32
    | 1, 1 => 0x5007#32
    | 1, 767 => 0x1003#32
    | 3, 1 => 0x6007#32
    | 3, 767 => 0x3003#32
    | 5, 0 => 0x8205#32
    | 6, 0 => 0x8205#32
    | _, _ => 0#32
  pmmBitmap := fun i => if i = 0 then 0xFFF#32 else 0#32
  pmmFrames := 128
  vmmCurrent := 0x1000
  kernelEnd := 0xC0001000
  vmmTraps := [⟨.cow, 0x1000, 0x400000, some ⟨1, 1⟩⟩, ⟨.cow, 0x3000, 0x400000, some ⟨1, 0⟩⟩]
  vmmTrapsBase := 1 }

theorem cowSample_slot {v i : ℕ} (hv : v = 1 ∨ v = 3) (hi : i ≠ 767) (ht : (cowSample.mem v i).HasTable) :
    v = 1 ∧ i = 0 ∨ v = 1 ∧ i = 1 ∨ v = 3 ∧ i = 1 := by
  by_contra hno
  have hz : cowSample.mem v i = 0#32 := by
    rcases hv with rfl | rfl
    all_goals
      simp only [cowSample]
      split <;> simp_all
  rw [hz] at ht
  exact Word.not_hasTable_zero ht

theorem cowSample_tables : Tables {1, 3, 8} {1, 3} cowSample := by
  constructor
  case frames => decide
  case sub =>
    rintro v (rfl | rfl)
    · exact .inl rfl
    · exact .inr (.inl rfl)
  case dir =>
    rintro v (rfl | rfl | rfl)
    all_goals exact ⟨by decide, by decide⟩
  case self =>
    rintro v (rfl | rfl)
    all_goals exact ⟨by decide, by decide, by decide, by decide⟩
  case present =>
    intro v hv i _ hi ht
    rcases cowSample_slot hv hi ht with ⟨rfl, rfl⟩ | ⟨rfl, rfl⟩ | ⟨rfl, rfl⟩ <;> decide
  case rw =>
    intro v hv i _ hi ht
    rcases cowSample_slot hv hi ht with ⟨rfl, rfl⟩ | ⟨rfl, rfl⟩ | ⟨rfl, rfl⟩ <;> decide
  case used =>
    intro v hv i _ hi ht
    rcases cowSample_slot hv hi ht with ⟨rfl, rfl⟩ | ⟨rfl, rfl⟩ | ⟨rfl, rfl⟩ <;> decide
  case notDir =>
    intro v hv i _ hi ht
    rcases cowSample_slot hv hi ht with ⟨rfl, rfl⟩ | ⟨rfl, rfl⟩ | ⟨rfl, rfl⟩ <;> decide
  case sep =>
    intro v hv w hw i _ j _ hi hj ht ht' heq
    rcases cowSample_slot hv hi ht with ⟨rfl, rfl⟩ | ⟨rfl, rfl⟩ | ⟨rfl, rfl⟩
    all_goals rcases cowSample_slot hw hj ht' with ⟨rfl, rfl⟩ | ⟨rfl, rfl⟩ | ⟨rfl, rfl⟩
    all_goals first | exact ⟨rfl, .inl rfl⟩ | exact absurd heq (by decide)

theorem cowSample_frames : FreeFrames cowSample 84 := by
  refine ⟨List.range' 32 84, List.length_range', List.nodup_range', fun f hf => ?_⟩
  obtain ⟨hlo, hhi⟩ := List.mem_range'_1.mp hf
  have hword : cowSample.pmmBitmap (f / 32) = 0#32 := if_neg (by omega)
  have hframes : cowSample.pmmFrames = 128 := rfl
  refine ⟨by omega, ?_⟩
  unfold used pmmBit
  rw [hword]
  simp

theorem cowSample_settled (ok : Prop) : Settled ok {1, 3, 8} {1, 3} 84 cowSample where
  tables := cowSample_tables
  cur := .inl rfl
  aligned := rfl
  guard := ⟨fun _ => cowSample_frames, fun _ => ⟨by decide, by decide⟩⟩
  spread := ⟨fun k hk => (by cases hk), fun _ hno => absurd rfl hno⟩
  kernel k hk := by cases hk

theorem cowSample_pages (ok : Prop) : CowPages ok {1, 3} cowSample := by
  intro d hd _
  rcases List.mem_pair.mp hd with rfl | rfl
  · exact ⟨1, rfl, .inl rfl, by decide, fun _ hne => absurd rfl hne, fun _ _ => by decide⟩
  · exact ⟨3, rfl, .inr rfl, by decide, fun _ _ => by decide, fun _ _ => by decide⟩

theorem cowSample_paired : TrapsPaired cowSample := by
  intro i d hd _
  rcases i with _ | _ | i
  · cases hd
    exact ⟨_, _, rfl, rfl, rfl, rfl⟩
  · cases hd
    exact ⟨_, _, rfl, rfl, rfl, rfl⟩
  · cases hd

/-- The page of the current VMM is resolved: the window at 0xC0001000 stays. -/
theorem copy_window_released_sample : ¬ KeepsFrames cowSample
    (Comp.after (vmmCowDuplicate (callees 2) 0x1000 0x400000 (some 0)) cowSample) 1 0x400000 (some 0) := by
  have hrun : (vmmCowDuplicate (callees 2) 0x1000 0x400000 (some 0) cowSample).map Prod.fst = some true := by
    decide +kernel
  have hk : KernelEnds cowSample := ⟨by decide, by decide⟩
  have hsize : ¬ PageSize cowSample 1 0x400000 (some 0) 1 := by
    rintro (hno | ⟨hno, -⟩) <;> cases hno
  have hiff := copy_window_released_iff (v := 1) 1 ((cowSample_settled True).le (by decide)) hk cowSample_paired (cowSample_pages True)
    (.inl rfl) ⟨by decide, by decide⟩ (fun idx hidx => by cases hidx; decide) (fun hno => absurd hno hsize)
    (Comp.run_after hrun)
  refine fun hkeeps => (hiff.mp hkeeps).2 ⟨0, .inl rfl, ⟨_, List.mem_cons_self, by decide⟩, 0xC0001, ?_⟩
  exact (copySpace_iff hk).mpr ⟨by decide, by decide, by decide, by decide⟩

/-- Page 0xC0001 of the current VMM is unmapped before the call and mapped after it. -/
theorem copy_window_left_open : ¬ ∀ (ok : Prop) (D L : Set ℕ) (s t : Machine) (v va : ℕ) (pg : Option ℕ) (r : Bool),
    Settled ok D L 23 s → KernelEnds s → TrapsPaired s → CowPages ok L s → v ∈ L → OffSlot va →
    (∀ idx, pg = some idx → idx < vmmPgszNum) → vmmCowDuplicate (callees 2) (v * 4096) va pg s = some (r, t) →
    KeepsFrames s t v va pg := by
  intro h
  have hrun : (vmmCowDuplicate (callees 2) 0x1000 0x400000 (some 0) cowSample).map Prod.fst = some true := by
    decide +kernel
  have hkeeps := h True {1, 3, 8} {1, 3} cowSample _ 1 0x400000 (some 0) true ((cowSample_settled True).le (by decide))
    ⟨by decide, by decide⟩ cowSample_paired (cowSample_pages True) (.inl rfl) ⟨by decide, by decide⟩
    (fun idx hidx => by cases hidx; decide) (Comp.run_after hrun) 0xC0001 ⟨by decide, by decide⟩ ?_
  · have hbefore : (accessAt cowSample.mem cowSample.cr3 0xC0001).map Prod.fst = none := by decide
    have hafter : (accessAt (Comp.after (vmmCowDuplicate (callees 2) 0x1000 0x400000 (some 0)) cowSample).mem
        (Comp.after (vmmCowDuplicate (callees 2) 0x1000 0x400000 (some 0)) cowSample).cr3 0xC0001).map Prod.fst ≠ none := by
      decide +kernel
    exact hafter (hkeeps.trans hbefore)
  · rintro ⟨-, idx, hidx | ⟨hno, -⟩, hpage⟩
    · cases hidx
      exact absurd hpage (by decide)
    · cases hno

end SysX
