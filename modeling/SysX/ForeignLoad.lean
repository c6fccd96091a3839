import SysX.LoadedPages
import SysX.ForeignUnload
import SysX.ElfLoad

/-!
What `elf_load_phdr` leaves for `elf_unload_prg` in another VMM than the current one, whether its page tables could be reached or not.
-/
namespace SysX

/-- `elf_unload_prg` can be called in the state `t`, where the user half of the current VMM is as it was in `s`. -/
structure Returned (ok : Prop) (L : Set ℕ) (s : Machine) (v : ℕ) (ps : List ElfPhdr) (F : ℕ → ℕ) (t : Machine) : Prop where
  laid : ForeignLaid ok L v {q | ∃ p ∈ ps, p.Touches q} F t fun _ => 0#32
  windowed : Windowed L L t t fun _ => 0#32
  cr3 : t.cr3 = s.cr3
  access : ∀ q < userPages, accessAt t.mem s.cr3 q = accessAt s.mem s.cr3 q
  left : ∀ p ∈ ps, ∀ q, p.Touches q → view t.mem v q ≠ none ∨ ∃ f, ¬ used s f ∧ used t f

/-- What holds between two segments where nothing can be mapped: a frame has been taken for each page. -/
structure Blocked.Losing (ok : Prop) (L : Set ℕ) (s : Machine) (v m : ℕ) (done rest : List ElfPhdr) (dst : ℕ) (t : Machine) : Prop where
  blocked : ∃ D, Blocked ok L s v D (m + loadCost rest) dst t ∧ ∀ p ∈ done, 0 < p.pages → ∃ f ∈ D, ¬ used s f
  ready : ∀ p ∈ rest, p.Placeable ok s v

section Returned

variable {ok : Prop} {D D₀ L : Set ℕ} {s t : Machine} {v m dst : ℕ} {F : ℕ → ℕ} {user : Bool} {ps : List ElfPhdr} {K : Callees}
  {file : ℕ → ℕ → List UInt8}

theorem Loaded.returned (h : Loaded ok L s v (767 + 4) ps F dst t) (hvc : v ≠ s.cr3) (hc : s.cr3 ∈ L) : Returned ok L s v ps F t := by
  have hcr3 : t.cr3 = s.cr3 := by
    rw [Machine.cr3, h.current]
    exact page_div s.cr3
  refine ⟨⟨by rwa [hcr3], h.laid.mem, fun q hq => (h.laid.table q hq).2, h.spare, h.null, fun _ => h.laid⟩,
    .refl h.laid.tables (by rwa [hcr3]), hcr3, fun q hq => ?_, fun p hp q hq => .inl (h.mapped p hp q hq)⟩
  exact h.other _ hc hvc.symm q hq

theorem Blocked.losing (hK : K.Closed) (hv : v ∈ L) (hvc : v ≠ s.cr3) (h0 : 0 ∉ L) (hroom : ¬ Room s (fun _ => 0#32) 0 2)
    (hk : KernelEnds s) (p : ElfPhdr) (done rest : List ElfPhdr) (dst : ℕ) (t : Machine)
    (h : Losing ok L s v m done (p :: rest) dst t) :
    Comp.Wp (Supplied ok s) (elfLoadSegment K (v * 4096) user file dst p) (fun r t' => (∀ dst' w, r = some (dst', w) →
      Losing ok L s v m (done ++ [p]) rest dst' t') ∧ (Supplied ok s → r ≠ none)) t := by
  obtain ⟨⟨D, hb, hlost⟩, hready⟩ := h
  rw [loadCost_cons] at hb
  have hp := hready p List.mem_cons_self
  refine (hb.segment hK hv hvc h0 hroom hk hp.below hp.free).mono ?_
  rintro r t' ⟨hr, hsome⟩
  refine ⟨fun dst' w hw => ?_, hsome⟩
  obtain ⟨D', ⟨hsub, hmine⟩, hb'⟩ := hr dst' w hw
  refine ⟨⟨D', hb', fun p' hp' hpos => ?_⟩, fun p' hp' => hready p' (List.mem_cons_of_mem p hp')⟩
  rcases List.mem_append.mp hp' with hp' | hp'
  · obtain ⟨f, hf, hfree⟩ := hlost p' hp' hpos
    exact ⟨f, hsub hf, hfree⟩
  · rw [List.mem_singleton.mp hp'] at hpos
    exact hmine hpos

theorem Blocked.returned (h : Losing ok L s v (767 + 4) ps [] dst t) (hv : v ∈ L) (hvc : v ≠ s.cr3) (hroom : ¬ Room s (fun _ => 0#32) 0 2) :
    Comp.Wp (Supplied ok s) (Comp.when (dst ≠ 0) (vmmPgunmap K t.vmmCurrent dst 0)) (fun _ u =>
      (∀ p ∈ ps, p.Placeable ok s v) → Returned ok L s v ps F u) t := by
  obtain ⟨⟨D, hb, hlost⟩, -⟩ := h
  have hset := hb.settled
  have hcur := hset.cur
  have hc : s.cr3 ∈ L := hb.cr3 ▸ hcur
  have haccess : ∀ q < userPages, view t.mem s.cr3 q = view s.mem s.cr3 q := by
    intro q hq
    refine hb.elsewhere.page _ hc q (Windowed.regular_of_user hq) (.inr hq) ?_
    rintro (he | ⟨hlow, -⟩)
    · exact hvc he.symm
    · omega
  -- no page of the user half is any different in `u`
  have hdone : ∀ u : Machine, Tables L L u → u.vmmCurrent = t.vmmCurrent → u.pmmBitmap = t.pmmBitmap → (∀ w ∈ L, u.mem w = t.mem w) →
      (∀ q < userPages, view u.mem s.cr3 q = view t.mem s.cr3 q) → (ok → FreeFrames u (767 + 4)) → (¬ ok → NullGuard u) →
      (∀ p ∈ ps, p.Placeable ok s v) → Returned ok L s v ps F u := by
    intro u htables hvmm hbits hdir hview hspare hnull hready
    have hcr3 : u.cr3 = s.cr3 := by rw [Machine.cr3, hvmm, ← Machine.cr3, hb.cr3]
    refine ⟨⟨by rwa [hcr3], hv, ?_, hspare, hnull, fun hr => ?_⟩, .refl htables (by rwa [hcr3]), hcr3,
      fun q hq => accessAt_congr ((hview q hq).trans (haccess q hq)), fun p hp q hq => .inr ?_⟩
    · rintro q ⟨p, hp, hq⟩
      rw [hdir v hv]
      exact hb.small hv (lt_of_lt_of_le hq.2 (ElfPhdr.lastPage (hready p hp).below)) ((hready p hp).free q hq)
    · refine absurd (hr.congr fun q hq => ?_) (hb.noRoom hvc hroom)
      rw [hcr3, hb.cr3, hview q hq]
    · obtain ⟨hlo, hhi⟩ := hq
      obtain ⟨f, hf, hfree⟩ := hlost p hp (by omega)
      refine ⟨f, hfree, ?_⟩
      unfold used
      rw [hbits]
      exact (hset.tables.dir f hf).1
  have htables : Tables L L t := hset.tables.antitone hset.tables.sub Set.Subset.rfl
  refine .when (fun hne => ?_) fun _ => hdone t htables rfl rfl (fun _ _ => rfl) (fun _ _ => rfl) hset.guard.frames hset.guard.null
  obtain ⟨q, f, rfl, hpage⟩ := hb.copy.resolve_left hne
  have hreg := hpage.regular
  have hslot := page_slot q
  obtain ⟨ht, -, hflags⟩ := hpage.entry
  have htrap : (pteAt t.mem t.cr3 (q * 4096 / 4096)).trapped = false := by
    rw [page_div, ← Word.getFlags_bit6, hflags]
    decide
  have hi : q / 1024 < 1024 := by have := hreg.1; omega
  have hlow := hpage.low
  rw [vmmPgunmap_small hreg]
  have hclose : Comp.Wp (Supplied ok s) (vmmPgunmapSmall K t.vmmCurrent (q * 4096)) _ t :=
    vmmPgunmapSmall_own hset.tables hcur hreg.offSlot (by rw [hslot]; exact hpage.small) (.of_untrapped htrap)
  refine hclose.mono ?_
  rintro _ u rfl
  rw [hslot, if_pos ht, page_div]
  have hnot := hset.tables.notDir _ hcur _ hi hreg.2 ht
  refine hdone _ (htables.set (fun hin => hnot (hset.tables.sub hin)) _ _) rfl rfl (fun w hw => ?_) (fun p hp => ?_) hset.guard.frames
    fun hno => ?_
  · exact t.set_mem_of_ne _ _ _ fun he => hnot (he ▸ hset.tables.sub hw)
  · refine hset.tables.view_pte hcur hreg (.inl rfl) ht 0#32 hc (Windowed.regular_of_user hp) (.inr hp) fun he => ?_
    have heq : p = q := he.2
    unfold userPages at hp
    omega
  · have hn := hset.guard.null hno
    refine hn.set 0#32 (fun he => absurd (by rw [he]; exact hset.tables.sub hcur) hnot) fun he => ?_
    have hzero := (hset.tables.sep _ hcur _ hcur _ hi 0 (by decide) hreg.2 (by decide) ht hn.table he).1
    omega

/-- `elf_load_phdr` with another VMM than the current one. -/
theorem elfLoadPhdr_returned {hdr : ElfEhdr} {junk : ℕ → ℕ → UInt8} (user : Bool) (hK : K.Closed)
    (h : Settled ok D L (767 + 4 + loadCost (hdr.segments file junk s)) s) (hv : v ∈ L) (hvc : v ≠ s.cr3) (hk : KernelEnds s)
    (hzero : 0 ∈ D) (h0 : 0 ∉ L) (hready : ∀ p ∈ hdr.segments file junk s, p.Placeable ok s v) :
    Comp.Wp (Supplied ok s) (elfLoadPhdr K file junk hdr (v * 4096) user) (fun r t =>
      ∀ l, r = .ok l → ∃ F, Returned ok L s v (hdr.segments file junk s) F t) s := by
  by_cases hroom : Room s (fun _ => 0#32) 0 2
  · refine (elfLoadPhdr_places user hK h hv hk (h.tables.dir 0 hzero).1 (.inr hroom) hready).mono ?_
    rintro r t ⟨hr, -⟩ l hl
    obtain ⟨F, dst, ht⟩ := hr l hl
    exact ⟨F, ht.returned hvc h.cur⟩
  · obtain ⟨hstart, -⟩ := ((Blocked.start (v := v) h hzero).krealloc hv).2 _ _ rfl
    refine (elfLoadPhdr_wp (J := fun done rest dst _ t => Blocked.Losing ok L s v (767 + 4) done rest dst t)
      (R := fun done _ t => (∀ p ∈ done, p.Placeable ok s v) → Returned ok L s v done (fun _ => 0) t) (fun hs => hs.2.2 _)
      ⟨⟨D, hstart, by simp⟩, hready⟩ (fun p done rest dst _ t ht => Blocked.losing hK hv hvc h0 hroom hk p done rest dst t ht)
      fun _ _ _ _ ht => Blocked.returned ht hv hvc hroom).mono ?_
    rintro r t ⟨hr, -⟩ l hl
    exact ⟨fun _ => 0, hr l hl hready⟩

end Returned

end SysX
