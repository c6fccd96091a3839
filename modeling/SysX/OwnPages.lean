import SysX.Translation

/-!
One page of the current VMM mapped or unmapped, outside of the recursive slot and with memory for page tables.
-/
namespace SysX

/-- The current VMM with tables as the kernel builds them. New entries of the kernel half find the VMM they are copied to. -/
structure OwnVmm (D : Set ℕ) (s : Machine) : Prop where
  tables : Tables D {s.cr3} s
  aligned : s.vmmCurrent = s.cr3 * 4096
  spread : Propagates True D s

/-- No page of slot `j` of the current VMM is marked as trapped. -/
def Untrapped (s : Machine) (j : ℕ) : Prop :=
  ∀ p ∈ regular, p / 1024 = j → ∀ x ∈ view s.mem s.cr3 p, x.2.getLsbD 6 = false

/-- The pages of `P` were mapped with `flags`, to the frames `frame`. -/
structure Mapped (D : Set ℕ) (s t : Machine) (flags : Word) (P : Set ℕ) (frame : ℕ → ℕ) : Prop where
  vmm : OwnVmm D t
  rest : SameRest s t
  placed : Override regular (transAt s.mem s.cr3) (transAt t.mem s.cr3) P fun p => pageOf flags (frame p)
  gone : ∀ p ∈ regular, p ∉ P → view s.mem s.cr3 p = none → view t.mem s.cr3 p = none
  quiet : flags.getLsbD 6 = false → ∀ j, Untrapped s j → Untrapped t j

/-- The pages of `P` were unmapped. -/
structure Unmapped (D : Set ℕ) (s t : Machine) (P : Set ℕ) : Prop where
  vmm : OwnVmm D t
  rest : SameRest s t
  here : ∀ p ∈ regular, p ∈ P → view t.mem s.cr3 p = none
  others : ∀ p ∈ regular, p ∉ P → transAt t.mem s.cr3 p = transAt s.mem s.cr3 p
  gone : ∀ p ∈ regular, view s.mem s.cr3 p = none → view t.mem s.cr3 p = none
  quiet : ∀ j, Untrapped s j → Untrapped t j

section Steps

variable {D : Set ℕ} {s t u : Machine} {K : Callees} {n q pa : ℕ} {flags : Word} {P Q : Set ℕ} {frame : ℕ → ℕ}

theorem SameRest.vmmCurrent_eq (h : SameRest s t) : t.vmmCurrent = s.vmmCurrent := by
  unfold SameRest at h
  rw [h]

theorem SameRest.cr3_eq (h : SameRest s t) : t.cr3 = s.cr3 := by
  rw [Machine.cr3, h.vmmCurrent_eq, Machine.cr3]

theorem Mapped.trans (h : Mapped D s t flags P frame) (h' : Mapped D t u flags Q frame) :
    Mapped D s u flags (P ∪ Q) frame := by
  have hpages := h'.placed
  have hgone := h'.gone
  rw [h.rest.cr3_eq] at hpages hgone
  refine ⟨h'.vmm, h.rest.trans h'.rest, h.placed.trans hpages, fun p hp hPQ hs => ?_,
    fun hf j hs => h'.quiet hf j (h.quiet hf j hs)⟩
  exact hgone p hp (fun hQ => hPQ (.inr hQ)) (h.gone p hp (fun hP => hPQ (.inl hP)) hs)

theorem Unmapped.trans (h : Unmapped D s t P) (h' : Unmapped D t u Q) : Unmapped D s u (P ∪ Q) := by
  have hc := h.rest.cr3_eq
  have hhere := h'.here
  have hothers := h'.others
  have hgone := h'.gone
  rw [hc] at hhere hothers hgone
  refine ⟨h'.vmm, h.rest.trans h'.rest, fun p hp hPQ => ?_, fun p hp hPQ => ?_,
    fun p hp hs => hgone p hp (h.gone p hp hs), fun j hs => h'.quiet j (h.quiet j hs)⟩
  · rcases hPQ with hP | hQ
    · exact hgone p hp (h.here p hp hP)
    · exact hhere p hp hQ
  · rw [hothers p hp fun hQ => hPQ (.inr hQ), h.others p hp fun hP => hPQ (.inl hP)]

theorem Mapped.congr {frame' : ℕ → ℕ} (h : Mapped D s t flags P frame) (hP : ∀ p ∈ regular, p ∈ Q ↔ p ∈ P)
    (hframe : ∀ p ∈ P, frame p = frame' p) : Mapped D s t flags Q frame' := by
  refine { h with
    placed := h.placed.congr hP fun p _ hp => by rw [hframe p hp]
    gone := fun p hp hpQ => h.gone p hp fun hpP => hpQ ((hP p hp).mpr hpP) }

theorem Unmapped.congr (h : Unmapped D s t P) (hP : ∀ p ∈ regular, p ∈ Q ↔ p ∈ P) : Unmapped D s t Q :=
  { h with
    here := fun p hp hpQ => h.here p hp ((hP p hp).mp hpQ)
    others := fun p hp hpQ => h.others p hp fun hpP => hpQ ((hP p hp).mpr hpP) }

theorem Mapped.empty (h : OwnVmm D s) (flags : Word) (frame : ℕ → ℕ) (hP : ∀ p ∈ regular, p ∉ P) :
    Mapped D s s flags P frame :=
  ⟨h, rfl, ⟨fun p hp hpP => absurd hpP (hP p hp), fun _ _ _ => rfl⟩, fun _ _ _ hs => hs, fun _ _ hs => hs⟩

theorem Unmapped.empty (h : OwnVmm D s) (hP : ∀ p ∈ regular, p ∉ P) : Unmapped D s s P :=
  ⟨h, rfl, fun p hp hpP => absurd hpP (hP p hp), fun _ _ _ => rfl, fun _ _ hp => hp, fun _ hs => hs⟩

/-- The tables and the rest of the machine after a call whose windows are closed again. -/
theorem OwnVmm.windowed (h : OwnVmm D s) {σ : Machine} (hrest : SameRest s σ)
    (hw : Windowed D {s.cr3} σ t fun _ => 0#32) : OwnVmm D t ∧ SameRest s t := by
  have hσt : SameRest s t := hrest.trans hw.rest
  have hc := hσt.cr3_eq
  refine ⟨⟨?_, ?_, ?_⟩, hσt⟩
  · rw [hc]
    exact hw.actual
  · rw [hσt.vmmCurrent_eq, hc, h.aligned]
  · refine h.spread.congr ?_ ?_
    · rw [hσt]
      rfl
    · rw [hσt]

/-- The entries and the windows of one call together. -/
theorem Windowed.views {σ : Machine} (hrest : SameRest s σ) (hw : Windowed D {s.cr3} σ t fun _ => 0#32) :
    ∀ p ∈ regular, view t.mem s.cr3 p = view σ.mem s.cr3 p := by
  intro p hp
  rw [← hrest.cr3_eq]
  exact hw.view_cur hp rfl

theorem Untrapped.of_view {j : ℕ} (h : Untrapped s j) (hc : t.cr3 = s.cr3) (hv : ∀ p ∈ regular,
    view t.mem s.cr3 p = view s.mem s.cr3 p ∨ ∀ x ∈ view t.mem s.cr3 p, x.2.getLsbD 6 = false) : Untrapped t j := by
  intro p hp hpj x hx
  rw [hc] at hx
  rcases hv p hp with hsame | hnew
  · rw [hsame] at hx
    exact h p hp hpj x hx
  · exact hnew x hx

theorem viewPte_fillPte_trapped {e : Word} {x : ℕ × Word} (hx : x ∈ viewPte (Word.fillPte e flags pa)) :
    x.2.getLsbD 6 = flags.getLsbD 6 := by
  unfold viewPte at hx
  split_ifs at hx with hz
  · cases hx
  obtain rfl := Option.mem_some_iff.mp hx
  rw [Word.getFlags_bit6, Word.fillPte_trapped]

theorem PgmapOwn.mapped {σ : Machine} (hm : PgmapOwn s pa (q * 4096) flags σ) (h : OwnVmm D s) (hq : Regular q)
    (hw : Windowed D {s.cr3} σ t fun _ => 0#32) :
    Mapped D s t flags {q} (fun _ => pa / 4096 % 1048576) ∧ (t.mem t.cr3 (q / 1024)).HasTable := by
  obtain ⟨hvmm, hrest⟩ := h.windowed hm.rest hw
  have hpages := hm.pageMapped h.tables rfl hq.offSlot fun _ => h.spread
  have hviews := hw.views hm.rest
  refine ⟨⟨hvmm, hrest, ?_, fun p hp hpq hs => ?_, fun hflags j hs => ?_⟩, ?_⟩
  · have hover := hpages.override
    rw [page_div] at hover
    exact hover.result fun p hp => congrArg (Option.filter _) (hviews p hp)
  · rw [hviews p hp]
    rcases hpages.other p hp (by rw [page_div]; exact hpq) with hsame | ⟨hgone, -⟩
    · rw [hsame, hs]
    · exact hgone
  · refine hs.of_view hrest.cr3_eq fun p hp => ?_
    rw [hviews p hp]
    by_cases hpq : p = q * 4096 / 4096
    · obtain ⟨e, he⟩ := hpages.own
      refine .inr fun x hx => ?_
      rw [hpq, he] at hx
      rw [viewPte_fillPte_trapped hx, hflags]
    · rcases hpages.other p hp hpq with hsame | ⟨hgone, -⟩
      · exact .inl hsame
      · refine .inr fun x hx => ?_
        rw [hgone] at hx
        cases hx
  · have hslot := hm.slot h.tables rfl hq.offSlot fun _ => h.spread
    rw [page_slot, ← hm.rest.cr3_eq] at hslot
    rw [hrest.cr3_eq, ← hm.rest.cr3_eq, hw.slot_of_ne_zero hslot.1]
    exact hslot

/-- One small page. -/
theorem OwnVmm.pgmapSmall (h : OwnVmm D s) (hK : K.Closed) (hq : Regular q)
    (hf : FreeFrames s (n + slotCost s (q * 4096))) (pa : ℕ) (flags : Word) :
    ∃ t, vmmPgmap K s.vmmCurrent pa (q * 4096) 0 flags s = some ((), t) ∧
      Mapped D s t flags {q} (fun _ => pa / 4096 % 1048576) ∧ FreeFrames t n ∧
      (t.mem t.cr3 (q / 1024)).HasTable := by
  have hoff := hq.offSlot
  have hwp : Comp.Wp True (vmmPgmapSmall K s.vmmCurrent pa (q * 4096) flags) _ s :=
    vmmPgmapSmall_own h.tables rfl h.aligned hK hoff (fun _ => h.spread) (fun _ => hf) fun _ hno => absurd trivial hno
  obtain ⟨_, t, hrun, σ, hm, hw, hframes⟩ := hwp.total trivial
  obtain ⟨hmapped, hslot⟩ := hm.mapped h hq hw
  refine ⟨t, ?_, hmapped, hframes trivial, hslot⟩
  unfold vmmPgmap
  rw [if_neg hoff.not_rmap]
  exact hrun

/-- A 4 MiB page. -/
theorem OwnVmm.pgmapHuge (h : OwnVmm D s) (hK : K.Closed) (hq : Regular q)
    (hf : FreeFrames s (n + 1)) (pa : ℕ) (flags : Word) :
    ∃ t, vmmPgmap K s.vmmCurrent pa (q * 4096) 1 flags s = some ((), t) ∧
      Mapped D s t flags {p | p / 1024 = q / 1024} (fun p => pa / 4194304 % 1024 * 1024 + p % 1024) ∧
      FreeFrames t n := by
  have hoff := hq.offSlot
  have hown : Owned {s.cr3} s s.cr3 (q * 4096 / 4194304) := fun _ w hw hne => absurd hw hne
  have hwp : Comp.Wp True (vmmPgmapHuge K s.vmmCurrent pa (q * 4096) flags) _ s :=
    vmmPgmapHuge_own h.tables rfl h.aligned hK hoff hown (fun _ => h.spread)
      ⟨fun _ => hf, fun hno => absurd trivial hno⟩
  obtain ⟨_, t, hrun, σ, hm, hw, hframes⟩ := hwp.total trivial
  have hrest : SameRest s σ := by
    have hrel : SameRest s (releaseAt s s.cr3 (q * 4096 / 4194304) (Word.fillPse flags pa)) := releaseAt_rest ..
    unfold PgmapHugeOwn at hm
    dsimp only at hm
    split_ifs at hm
    · exact hrel.trans hm.rest
    · rw [hm]
      exact hrel
  obtain ⟨hvmm, hrest'⟩ := h.windowed hrest hw
  have hviews := hw.views hrest
  have hview := fun p hp => (hviews p hp).trans (hm.view h.tables rfl (fun _ => h.spread) hp)
  rw [page_slot] at hview
  refine ⟨t, ?_, ⟨hvmm, hrest', ?_, fun p hp hpq hs => ?_, fun hflags j hs => ?_⟩, hframes trivial⟩
  · unfold vmmPgmap
    rw [if_neg hoff.not_rmap]
    exact hrun
  · have hover := hm.override h.tables rfl fun _ => h.spread
    rw [page_slot] at hover
    exact hover.result fun p hp => congrArg (Option.filter _) (hviews p hp)
  · rw [hview p hp, if_neg (show ¬ p / 1024 = q / 1024 from hpq), hs]
  · refine hs.of_view hrest'.cr3_eq fun p hp => ?_
    rw [hview p hp]
    split_ifs
    · refine .inr fun x hx => ?_
      obtain rfl := Option.mem_some_iff.mp hx
      rw [Word.canonFlags_bit6, hflags]
    · exact .inl rfl

/-! Unmapping. -/

theorem OwnVmm.releaseAt (h : OwnVmm D s) (hq : Regular q) : Unmapped D s (releaseAt s s.cr3 (q / 1024) 0#32)
    {p | p / 1024 = q / 1024} := by
  have hrest : SameRest s (SysX.releaseAt s s.cr3 (q / 1024) 0#32) := releaseAt_rest ..
  have hview : ∀ p, Regular p → view (SysX.releaseAt s s.cr3 (q / 1024) 0#32).mem s.cr3 p =
      if p / 1024 = q / 1024 then none else view s.mem s.cr3 p := by
    intro p hp
    split_ifs with hpq
    · exact view_of_slot_zero (by rw [hpq, releaseAt_slot])
    · exact h.tables.view_release (Set.mem_singleton _) _ _ hp hpq
  have hslot : q / 1024 < 1024 := by have := hq.1; omega
  refine ⟨⟨?_, ?_, ?_⟩, hrest, fun p hp hpq => ?_, fun p hp hpq => ?_, fun p hp hs => ?_, fun j hs => ?_⟩
  · rw [hrest.cr3_eq]
    exact h.tables.release rfl hslot hq.2 (fun _ w hw hne => absurd hw hne) Word.not_hasTable_zero
  · rw [hrest.vmmCurrent_eq, hrest.cr3_eq, h.aligned]
  · refine h.spread.congr ?_ ?_
    · rw [hrest]
      rfl
    · rw [hrest]
  · rw [Set.mem_ofPred_eq] at hpq
    rw [hview p hp, if_pos hpq]
  · rw [Set.mem_ofPred_eq] at hpq
    rw [transAt, hview p hp, if_neg hpq, transAt]
  · rw [hview p hp, hs, ite_self]
  · refine hs.of_view hrest.cr3_eq fun p hp => ?_
    rw [hview p hp]
    split_ifs
    · exact .inr fun x hx => by cases hx
    · exact .inl rfl

theorem Untrapped.pte {p : ℕ} (h : Untrapped s (p / 1024)) (hp : Regular p) (he : (s.mem s.cr3 (p / 1024)).HasTable) :
    (s.mem (s.mem s.cr3 (p / 1024)).pt (p % 1024)).trapped = false := by
  have hview := view_eq_pte he
  by_cases hz : s.mem (s.mem s.cr3 (p / 1024)).pt (p % 1024) = 0#32
  · rw [hz, Word.zero_trapped]
  · rw [viewPte, if_neg hz] at hview
    have hx := h p hp rfl _ (Option.mem_def.mpr hview)
    rw [Word.getFlags_bit6] at hx
    exact hx

theorem Untrapped.pse {p : ℕ} (h : Untrapped s (p / 1024)) (hp : Regular p) (hs : (s.mem s.cr3 (p / 1024)).pgsz = true) :
    (s.mem s.cr3 (p / 1024)).trapped = false := by
  have hx := h p hp rfl _ (Option.mem_def.mpr (view_of_pgsz hs))
  rw [Word.getFlags_bit6] at hx
  exact hx

theorem Regular.sameSlot {i : ℕ} (hq : Regular q) (hi : i < 1024) : Regular (q / 1024 * 1024 + i) ∧
    (q / 1024 * 1024 + i) / 1024 = q / 1024 ∧ (q / 1024 * 1024 + i) % 1024 = i := by
  obtain ⟨hlt, hslot⟩ := hq
  have hpi : (q / 1024 * 1024 + i) / 1024 = q / 1024 := by omega
  exact ⟨⟨by omega, by rw [hpi]; exact hslot⟩, hpi, by omega⟩

theorem NoResolve.of_untrapped {ok : Prop} {e : Word} {vmm va : ℕ} (h : e.trapped = false) : NoResolve ok s e vmm va :=
  fun ht => absurd (h.symm.trans ht) Bool.false_ne_true

theorem FreeFrames.releaseAt (h : FreeFrames s n) (v i : ℕ) (d : Word) : FreeFrames (releaseAt s v i d) n := by
  unfold SysX.releaseAt
  split_ifs
  · exact h.free _
  · exact h

theorem OwnVmm.pgunmapHuge_run (h : OwnVmm D s) (hs : Untrapped s (q / 1024)) (hq : Regular q) :
    vmmPgunmap K s.vmmCurrent (q * 4096) 1 s = some ((), SysX.releaseAt s s.cr3 (q / 1024) 0#32) := by
  have hoff := hq.offSlot
  have hslot := page_slot q
  have hres : (s.mem s.cr3 (q * 4096 / 4194304)).HasTable → ∀ i < 1024, NoResolve True s
      (s.mem (s.mem s.cr3 (q * 4096 / 4194304)).pt i) s.vmmCurrent (q * 4096 ||| i * 4096) := by
    intro he i hi
    rw [hslot] at he ⊢
    obtain ⟨hp, hpi, hidx⟩ := hq.sameSlot hi
    have hpte := Untrapped.pte (by rw [hpi]; exact hs) hp (by rw [hpi]; exact he)
    rw [hpi, hidx] at hpte
    exact .of_untrapped hpte
  have hres' : (s.mem s.cr3 (q * 4096 / 4194304)).pgsz = true →
      NoResolve True s (s.mem s.cr3 (q * 4096 / 4194304)) s.vmmCurrent (q * 4096) := by
    intro hsz
    rw [hslot] at hsz ⊢
    exact .of_untrapped (hs.pse hq hsz)
  obtain ⟨_, t, hrun, ht⟩ := (vmmPgunmapHuge_own (K := K) h.tables rfl hoff hres hres').total trivial
  rw [hslot] at ht
  subst ht
  unfold vmmPgunmap
  rw [if_neg hoff.not_rmap]
  exact hrun

/-- A slot of 4 MiB, whatever is there. -/
theorem OwnVmm.pgunmapHuge (h : OwnVmm D s) (hs : Untrapped s (q / 1024)) (hq : Regular q) (hf : FreeFrames s n) :
    ∃ t, vmmPgunmap K s.vmmCurrent (q * 4096) 1 s = some ((), t) ∧ Unmapped D s t {p | p / 1024 = q / 1024} ∧
      FreeFrames t n :=
  ⟨_, h.pgunmapHuge_run hs hq, h.releaseAt hq, hf.releaseAt _ _ _⟩

/-- Frames that unmapping a small page may take, for the page table that takes over a 4 MiB page and for a window. -/
def splitCost (s : Machine) (q : ℕ) : ℕ := if (s.mem s.cr3 (q / 1024)).pgsz then 2 else 0

theorem OwnVmm.clear (h : OwnVmm D s) (hq : Regular q) (he : (s.mem s.cr3 (q / 1024)).HasTable) :
    Unmapped D s (s.set (s.mem s.cr3 (q / 1024)).pt (q % 1024) 0#32) {q} := by
  have hview : ∀ p, Regular p → view (s.set (s.mem s.cr3 (q / 1024)).pt (q % 1024) 0#32).mem s.cr3 p =
      if p = q then none else view s.mem s.cr3 p := fun p hp => h.tables.view_setPte rfl hq he 0#32 hp
  have hslot : q / 1024 < 1024 := by have := hq.1; omega
  refine ⟨⟨?_, h.aligned, h.spread.congr rfl rfl⟩, rfl, fun p hp hpq => ?_, fun p hp hpq => ?_, fun p hp hs => ?_,
    fun j hs => ?_⟩
  · exact h.tables.set (h.tables.notDir _ rfl _ hslot hq.2 he) _ _
  · rw [Set.mem_singleton_iff] at hpq
    rw [hview p hp, if_pos hpq]
  · rw [Set.mem_singleton_iff] at hpq
    rw [transAt, hview p hp, if_neg hpq, transAt]
  · rw [hview p hp, hs, ite_self]
  · refine hs.of_view rfl fun p hp => ?_
    rw [hview p hp]
    split_ifs
    · exact .inr fun x hx => by cases hx
    · exact .inl rfl

/-- The state while the other pages of a 4 MiB page are mapped again: those up to the `k`th are. -/
structure Splitting (D : Set ℕ) (s : Machine) (q k : ℕ) (w : Machine) : Prop where
  vmm : OwnVmm D w
  rest : SameRest s w
  back : ∀ p ∈ regular, p ≠ q → (p / 1024 = q / 1024 → p % 1024 < k) →
    transAt w.mem s.cr3 p = transAt s.mem s.cr3 p
  own : view w.mem s.cr3 q = none
  gone : ∀ p ∈ regular, view s.mem s.cr3 p = none → view w.mem s.cr3 p = none
  quiet : ∀ j, Untrapped s j → Untrapped w j
  small : (w.mem s.cr3 (q / 1024)).pgsz = false

theorem Splitting.start (h : OwnVmm D s) (hq : Regular q)
    (hsz : (s.mem s.cr3 (q / 1024)).pgsz = true) : Splitting D s q 0 (s.set s.cr3 (q / 1024) 0#32) := by
  have hrel := h.releaseAt hq
  rw [releaseAt, if_neg fun ht => ht.not_pgsz hsz] at hrel
  refine ⟨hrel.vmm, hrel.rest, fun p hp _ hk => hrel.others p hp fun hpq => ?_, hrel.here q hq rfl, hrel.gone,
    hrel.quiet, ?_⟩
  · exact absurd (hk hpq) (Nat.not_lt_zero _)
  · rw [s.set_mem_self]
    rfl

/-- The page to be unmapped is passed over. -/
theorem Splitting.skip {k : ℕ} {w : Machine} (h : Splitting D s q k w) (hkq : q / 1024 * 1024 + k = q) :
    Splitting D s q (k + 1) w := by
  refine { h with back := fun p hp hpq hpk => h.back p hp hpq fun hpi => ?_ }
  have := hpk hpi
  omega

theorem Splitting.next {k : ℕ} {w : Machine} (h : Splitting D s q k w) (hs : Untrapped s (q / 1024)) (hq : Regular q)
    (hsz : (s.mem s.cr3 (q / 1024)).pgsz = true) (hk : k < 1024) (hkq : q / 1024 * 1024 + k ≠ q)
    (hm : Mapped D w t (s.mem s.cr3 (q / 1024)).mapFlags {q / 1024 * 1024 + k}
      fun _ => (s.mem s.cr3 (q / 1024)).psePa * 1024 + k)
    (ht : (t.mem t.cr3 (q / 1024)).HasTable) : Splitting D s q (k + 1) t := by
  have hc := h.rest.cr3_eq
  obtain ⟨hr, hri, hrk⟩ := hq.sameSlot hk
  have hflags := Word.mapFlags_eq (hs.pse hq hsz)
  have hpages := hm.placed
  have hgone := hm.gone
  rw [hc] at hpages hgone
  refine ⟨hm.vmm, h.rest.trans hm.rest, fun p hp hpq hpk => ?_, ?_, fun p hp hps => ?_,
    fun j hj => hm.quiet (Word.mapFlags_bit6 _) j (h.quiet j hj), ?_⟩
  · by_cases hpr : p = q / 1024 * 1024 + k
    · rw [hpages.inside p hp hpr, hpr, transAt_pgsz (by rw [hri]; exact hsz), hri, hrk, pageOf, Word.mapFlags_bit0,
        Word.canonFlags_mapFlags, hflags]
    · rw [hpages.outside p hp hpr]
      refine h.back p hp hpq fun hpi => ?_
      have := hpk hpi
      omega
  · exact hgone q hq (Ne.symm hkq) h.own
  · refine hgone p hp (fun hpr => ?_) (h.gone p hp hps)
    rw [Set.mem_singleton_iff] at hpr
    rw [hpr, view_of_pgsz (by rw [hri]; exact hsz)] at hps
    cases hps
  · rw [hm.rest.cr3_eq, hc] at ht
    exact ht.2

theorem vmmPgunmap_small (hq : Regular q) (vmm : ℕ) :
    vmmPgunmap K vmm (q * 4096) 0 = vmmPgunmapSmall K vmm (q * 4096) := by
  unfold vmmPgunmap
  rw [if_neg hq.offSlot.not_rmap]
  rfl

/-- A small page of a slot without a 4 MiB page. -/
theorem OwnVmm.pgunmapSmall_run (h : OwnVmm D s) (hs : Untrapped s (q / 1024)) (hq : Regular q)
    (hsz : (s.mem s.cr3 (q / 1024)).pgsz = false) : vmmPgunmap K s.vmmCurrent (q * 4096) 0 s = some ((),
      if (s.mem s.cr3 (q / 1024)).HasTable then s.set (s.mem s.cr3 (q / 1024)).pt (q % 1024) 0#32 else s) := by
  have hslot := page_slot q
  have hres : NoResolve True s (pteAt s.mem s.cr3 (q * 4096 / 4096)) s.vmmCurrent (q * 4096) := by
    rw [page_div]
    refine .of_untrapped ?_
    by_cases he : (s.mem s.cr3 (q / 1024)).HasTable
    · rw [pteAt_of_hasTable he]
      exact hs.pte hq he
    · rw [pteAt_of_not_hasTable he, Word.zero_trapped]
  obtain ⟨_, t, hrun, ht⟩ := (vmmPgunmapSmall_own (K := K) h.tables rfl hq.offSlot (by rw [hslot]; exact hsz)
    hres).total trivial
  rw [hslot, page_div] at ht
  rw [vmmPgunmap_small hq, hrun, ht]

/-- A small page, which may be part of a 4 MiB page. -/
theorem OwnVmm.pgunmapSmall (h : OwnVmm D s) (hs : Untrapped s (q / 1024)) (hK : K.Closed) (hq : Regular q)
    (hf : FreeFrames s (n + splitCost s q)) :
    ∃ t, vmmPgunmap K s.vmmCurrent (q * 4096) 0 s = some ((), t) ∧ Unmapped D s t {q} ∧ FreeFrames t n ∧
      (t.mem t.cr3 (q / 1024)).pgsz = false := by
  have hoff := hq.offSlot
  have hslot := page_slot q
  cases hsz : (s.mem s.cr3 (q / 1024)).pgsz with
  | false =>
    rw [splitCost, hsz, if_neg Bool.false_ne_true] at hf
    refine ⟨_, h.pgunmapSmall_run hs hq hsz, ?_⟩
    split_ifs with he
    · refine ⟨h.clear hq he, hf, ?_⟩
      have hslot' : q / 1024 < 1024 := by have := hq.1; omega
      have hne := (h.tables.pt_ne rfl (h.tables.sub rfl) hslot' hq.2 he).symm
      rw [show (s.set (s.mem s.cr3 (q / 1024)).pt (q % 1024) 0#32).cr3 = s.cr3 from rfl, s.set_mem_of_ne _ _ _ hne]
      exact hsz
    · refine ⟨⟨h, rfl, fun p hp hpq => ?_, fun _ _ _ => rfl, fun _ _ hp => hp, fun _ hs => hs⟩, hf, hsz⟩
      rw [Set.mem_singleton_iff] at hpq
      have hz : s.mem s.cr3 (p / 1024) = 0#32 := by
        by_contra hne
        rw [hpq] at hne
        exact he ⟨hne, hsz⟩
      exact view_of_slot_zero hz
  | true =>
    rw [splitCost, hsz, if_pos rfl] at hf
    have hres : NoResolve True s (s.mem s.cr3 (q * 4096 / 4194304)) s.vmmCurrent
        (q * 4096 / 4194304 * 4194304) := by
      rw [hslot]
      exact .of_untrapped (hs.pse hq hsz)
    have hpse : (s.mem s.cr3 (q * 4096 / 4194304)).pgsz = true := by rw [hslot]; exact hsz
    have hsplit := pgunmapSplit_own (I := fun k w => Splitting D s q k w) (n := n) h.tables rfl h.aligned
      hK hoff hpse (fun _ => h.spread) (fun ho : True => ho) hres ⟨fun _ => hf, fun hno => absurd trivial hno⟩
      (by rw [hslot]; exact .start h hq hsz) (fun k w hk hw => ?_) fun k hk w σ t hne hw _ _ hm hwt => ?_
    · obtain ⟨_, t, hrun, ht⟩ := (vmmPgunmapSmall_split (Q := fun _ t => Splitting D s q 1024 t ∧ FreeFrames t n)
        h.tables rfl hoff hpse (hsplit.mono fun _ t ⟨hI, _, hrest, hframes⟩ =>
          ⟨hrest, hI, hframes trivial⟩)).total trivial
      obtain ⟨hI, hframes⟩ := ht
      rw [vmmPgunmap_small hq]
      refine ⟨t, hrun, ⟨hI.vmm, hI.rest, fun p _ hpq => ?_, fun p hp hpq => ?_, hI.gone, hI.quiet⟩,
        hframes, ?_⟩
      · rw [Set.mem_singleton_iff] at hpq
        rw [hpq]
        exact hI.own
      · exact hI.back p hp hpq fun _ => Nat.mod_lt _ (by decide)
      · rw [hI.rest.cr3_eq]
        exact hI.small
    · exact hw.skip (by omega)
    · have hpage : q * 4096 - q * 4096 % 4194304 + k * 4096 = (q / 1024 * 1024 + k) * 4096 := by omega
      have hlt := (s.mem s.cr3 (q / 1024)).psePa_lt
      have hframe : ((s.mem s.cr3 (q / 1024)).psePa * 4194304 + k * 4096) / 4096 % 1048576 =
          (s.mem s.cr3 (q / 1024)).psePa * 1024 + k := by omega
      have hc := hw.rest.cr3_eq
      rw [hslot, hpage] at hm
      rw [← hc] at hwt
      have hmapped := hm.mapped hw.vmm (hq.sameSlot hk).1 hwt
      rw [(hq.sameSlot hk).2.1, hframe] at hmapped
      exact hw.next hs hq hsz hk (by omega) hmapped.1 hmapped.2

end Steps

end SysX
