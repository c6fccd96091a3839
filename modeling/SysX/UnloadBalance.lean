import SysX.ForeignLoad

/-!
What `elf_unload_prg` leaves of the segments that `elf_load_phdr` has loaded.
-/
namespace SysX

/-! The list that the loader returns. -/

section Prgload

variable {K : Callees} {vmm vmm' phentsize n i dst : ℕ} {user : Bool} {file : ℕ → ℕ → List UInt8} {phdr : ℕ → UInt8} {l : ElfLoaded}
  {p : ElfPhdr} {s t : Machine} {hdr : ElfEhdr} {junk : ℕ → ℕ → UInt8}

/-- The list has the segments in their order. -/
def Lists (rs : List ElfPrgload) (ps : List ElfPhdr) : Prop := rs.map (fun r => (r.vaddr, r.size)) = ps.map fun p => (p.vaddr, p.memsz)

theorem elfLoadSegments_lists (n : ℕ) : ∀ {i dst : ℕ} {l : ElfLoaded} {done : List ElfPhdr} {t : Machine}, Lists l.prgload done →
    Comp.Wp False (elfLoadSegments K vmm user file phdr phentsize n i dst l) (fun r _ =>
      ∀ l', r = .ok l' → Lists l'.prgload (done ++ loadHeaders phdr phentsize n i)) t := by
  induction n with
  | zero =>
    intro i dst l done t h
    refine .read_bind (.bind (R := fun _ _ => True) (.const trivial) fun _ _ _ => .pure fun l' hl => ?_)
    obtain rfl : l = l' := by simpa using hl
    rw [show loadHeaders phdr phentsize 0 i = [] from rfl, List.append_nil]
    exact h
  | succ n ih =>
    intro i dst l done t h
    rw [loadHeaders_succ]
    by_cases htype : (elfPhdr phdr phentsize i).type = ptLoad
    · rw [if_pos htype, elfLoadSegments_load htype]
      refine .bind (R := fun _ _ => True) (.const trivial) fun r t₁ _ => ?_
      cases r with
      | none => exact .bind (R := fun _ _ => True) (.const trivial) fun _ _ _ => .pure (by simp)
      | some x =>
        have hnext : Lists (l.prgload ++ [⟨i, (elfPhdr phdr phentsize i).vaddr, (elfPhdr phdr phentsize i).memsz⟩])
            (done ++ [elfPhdr phdr phentsize i]) := by
          unfold Lists at h ⊢
          rw [List.map_append, List.map_append, h]
          rfl
        have hrest := @ih (i + 1) x.1 ⟨_, l.written ++ x.2⟩ _ t₁ hnext
        rw [List.append_assoc, List.singleton_append] at hrest
        exact hrest
    · rw [if_neg htype, elfLoadSegments_skip htype]
      exact ih h

theorem elfLoadPhdr_lists (hrun : elfLoadPhdr K file junk hdr vmm user s = some (.ok l, t)) :
    Lists l.prgload (hdr.segments file junk s) := by
  have hblock : loadBlock file junk hdr.phoff (w32 (hdr.phentsize * hdr.phnum)) s =
      some ((s.heap s.heapCalls).map fun _ => hdr.table file junk s, { s with heapCalls := s.heapCalls + 1 }) := rfl
  rw [elfLoadPhdr, Comp.bind_of_eq hblock] at hrun
  cases hheap : s.heap s.heapCalls with
  | none =>
    rw [hheap] at hrun
    cases hrun
  | some b =>
    rw [hheap] at hrun
    have hlists := @elfLoadSegments_lists K vmm hdr.phentsize user file (hdr.table file junk s) hdr.phnum 0 0 ⟨[], []⟩ []
      { s with heapCalls := s.heapCalls + 1 } rfl
    exact hlists.2 _ _ hrun l rfl

/-! Segments without a page. -/

theorem ElfPhdr.pages_eq_zero (hp : p.Below) (h : ∀ q, ¬ p.Touches q) : p.pages = 0 ∧ p.memsz = 0 := by
  have hzero : p.pages = 0 := by
    by_contra hne
    exact h (p.vaddr / 4096) ⟨Nat.le_refl _, by omega⟩
  refine ⟨hzero, ?_⟩
  rw [ElfPhdr.pages_eq hp] at hzero
  omega

theorem elfLoadSegment_untouched (hpages : p.pages = 0) (hsize : p.memsz = 0) (vmm vmm' : ℕ) :
    elfLoadSegment K vmm user file dst p = elfLoadSegment K vmm' user file dst p := by
  have hmap : ∀ x, elfMapPages K x user p p.pages 0 = pure true := by
    intro x
    rw [hpages]
    rfl
  have hcopy : ∀ x a, elfCopyPages K x a file p loopFuel 0 = pure [] := by
    intro x a
    rw [show loopFuel = (loopFuel - 1) + 1 from rfl, elfCopyPages, hsize]
    rfl
  unfold elfLoadSegment
  simp only [hmap, hcopy]

theorem elfFreePrg_empty (rs : List ElfPrgload) (h : ∀ r ∈ rs, r.size = 0) : elfFreePrg K vmm rs = pure [] := by
  induction rs with
  | nil => rfl
  | cons r rs ih =>
    have hfirst : elfFreePages K vmm r.size loopFuel 0 r.vaddr = pure [] := by
      rw [show loopFuel = (loopFuel - 1) + 1 from rfl, elfFreePages, h r List.mem_cons_self]
      rfl
    rw [elfFreePrg, hfirst, ih fun r' hr' => h r' (List.mem_cons_of_mem r hr')]
    rfl

theorem Lists.empty {rs : List ElfPrgload} {ps : List ElfPhdr} (h : Lists rs ps) (hps : ∀ p ∈ ps, p.memsz = 0) :
    ∀ r ∈ rs, r.size = 0 := by
  intro r hr
  have hmem : (r.vaddr, r.size) ∈ ps.map fun p => (p.vaddr, p.memsz) := h ▸ List.mem_map_of_mem hr
  obtain ⟨p, hp, heq⟩ := List.mem_map.mp hmem
  rw [← (Prod.mk.inj heq).2]
  exact hps p hp

/-- The VMM does not matter where no segment has a page. -/
theorem elfLoadSegments_untouched (n : ℕ) : ∀ {i dst : ℕ} {l : ElfLoaded},
    (∀ p ∈ loadHeaders phdr phentsize n i, p.pages = 0 ∧ p.memsz = 0) → (∀ r ∈ l.prgload, r.size = 0) →
    elfLoadSegments K vmm user file phdr phentsize n i dst l = elfLoadSegments K vmm' user file phdr phentsize n i dst l := by
  induction n with
  | zero => exact fun _ _ => rfl
  | succ n ih =>
    intro i dst l hps hrs
    rw [loadHeaders_succ] at hps
    by_cases htype : (elfPhdr phdr phentsize i).type = ptLoad
    · rw [if_pos htype, List.forall_mem_cons] at hps
      obtain ⟨⟨hpages, hsize⟩, hrest⟩ := hps
      rw [elfLoadSegments_load htype, elfLoadSegments_load htype, elfLoadSegment_untouched hpages hsize vmm vmm']
      refine congrArg _ (funext fun r => ?_)
      cases r with
      | none => simp only [elfUnloadPrg_frees, elfFreePrg_empty l.prgload hrs]
      | some x =>
        refine ih hrest fun r hr => ?_
        rcases List.mem_append.mp hr with hr | hr
        · exact hrs r hr
        · rw [List.mem_singleton.mp hr]
          exact hsize
    · rw [if_neg htype] at hps
      rw [elfLoadSegments_skip htype, elfLoadSegments_skip htype]
      exact ih hps hrs

theorem elfLoadPhdr_untouched (h : ∀ p ∈ hdr.segments file junk s, p.pages = 0 ∧ p.memsz = 0) (vmm vmm' : ℕ) :
    elfLoadPhdr K file junk hdr vmm user s = elfLoadPhdr K file junk hdr vmm' user s := by
  have hblock : loadBlock file junk hdr.phoff (w32 (hdr.phentsize * hdr.phnum)) s =
      some ((s.heap s.heapCalls).map fun _ => hdr.table file junk s, { s with heapCalls := s.heapCalls + 1 }) := rfl
  rw [elfLoadPhdr, elfLoadPhdr, Comp.bind_of_eq hblock, Comp.bind_of_eq hblock]
  cases s.heap s.heapCalls with
  | none => rfl
  | some b => exact congrFun (elfLoadSegments_untouched hdr.phnum h (by simp)) _

end Prgload

/-! What is claimed, and when it holds. -/

/-- The pages that `elf_unload_prg` comes to: it steps from `vaddr`, not from the first page of the segment. -/
def ElfPhdr.walk (p : ElfPhdr) : List ℕ := List.range' (p.vaddr / 4096) ((p.memsz + 4095) / 4096)

def walkOf (ps : List ElfPhdr) : List ℕ := ps.flatMap ElfPhdr.walk

/-- `u` is what `elf_unload_prg` comes to from `t`, where it frees `frees`, and the load took `s` to `t`. -/
structure Unloaded (L : Set ℕ) (v : ℕ) (ps : List ElfPhdr) (s t : Machine) (frees : List ℕ) (u : Machine) : Prop where
  once : frees.Nodup
  exactly : ∀ f, f ∈ frees ↔ used t f ∧ ¬ used s f
  unmapped : ∀ p ∈ ps, ∀ q, p.Touches q → view u.mem v q = none
  bits : ∀ f, used u f ↔ used s f
  access : ∀ w ∈ L, ∀ q < userPages, accessAt u.mem w q = accessAt s.mem w q

/-- The call returns, and undoes the load. -/
def UnloadBalances (K : Callees) (L : Set ℕ) (v : ℕ) (ps : List ElfPhdr) (rs : List ElfPrgload) (s t : Machine) : Prop :=
  ∃ frees u, elfFreePrg K (v * 4096) rs t = some (frees, u) ∧ Unloaded L v ps s t frees u

/-- The pages are those of the current VMM, no page table was missing, and the walk comes to each page of the segments once. -/
structure WalksBack (s : Machine) (v : ℕ) (ps : List ElfPhdr) : Prop where
  own : ∀ p ∈ ps, ∀ q, p.Touches q → v = s.cr3
  table : ∀ p ∈ ps, ∀ q, p.Touches q → (s.mem v (q / 1024)).HasTable
  window : ps ≠ [] → ∀ a, FirstVacant s a → (s.mem s.cr3 (a / 4194304)).HasTable
  once : (walkOf ps).Nodup
  all : ∀ p ∈ ps, ∀ q, p.Touches q → q ∈ walkOf ps

section Walk

variable {ps : List ElfPhdr} {rs : List ElfPrgload} {p : ElfPhdr} {q : ℕ}

theorem Lists.walk (h : Lists rs ps) : rs.flatMap ElfPrgload.walk = walkOf ps := by
  have hr : rs.flatMap ElfPrgload.walk = (rs.map fun r => (r.vaddr, r.size)).flatMap fun x =>
      List.range' (x.1 / 4096) ((x.2 + 4095) / 4096) := by
    rw [List.flatMap_map]
    rfl
  have hp : walkOf ps = (ps.map fun p => (p.vaddr, p.memsz)).flatMap fun x => List.range' (x.1 / 4096) ((x.2 + 4095) / 4096) := by
    rw [List.flatMap_map]
    rfl
  rw [hr, hp, h]

theorem Lists.below (h : Lists rs ps) (hps : ∀ p ∈ ps, p.Below) : ∀ r ∈ rs, r.Below := by
  intro r hr
  have hmem : (r.vaddr, r.size) ∈ ps.map fun p => (p.vaddr, p.memsz) := h ▸ List.mem_map_of_mem hr
  obtain ⟨p, hp, heq⟩ := List.mem_map.mp hmem
  obtain ⟨hva, hsz⟩ := Prod.mk.inj heq
  unfold ElfPrgload.Below
  rw [← hva, ← hsz]
  exact hps p hp

/-- The walk stays on the pages of the segments. -/
theorem touches_of_walk (hps : ∀ p ∈ ps, p.Below) (hq : q ∈ walkOf ps) : ∃ p ∈ ps, p.Touches q := by
  obtain ⟨p, hp, hq⟩ := List.mem_flatMap.mp hq
  obtain ⟨hlo, hhi⟩ := List.mem_range'_1.mp hq
  refine ⟨p, hp, hlo, ?_⟩
  rw [ElfPhdr.pages_eq (hps p hp)]
  omega

end Walk

section Balance

variable {ok : Prop} {L : Set ℕ} {s t : Machine} {v m dst : ℕ} {ps : List ElfPhdr} {rs : List ElfPrgload} {F : ℕ → ℕ} {K : Callees}

/-- What `elf_unload_prg` does on the current VMM. -/
theorem Loaded.run (h : Loaded ok L s s.cr3 m ps F dst t) (hps : ∀ p ∈ ps, p.Below) (hrs : Lists rs ps) :
    elfFreePrg K (s.cr3 * 4096) rs t = (dropPages s.cr3 F (walkOf ps) t).map fun u => ((walkOf ps).map F, u) := by
  have hrun := h.laid.unload (K := K) rs h.current (hrs.below hps) fun q hq => touches_of_walk hps (hrs.walk ▸ hq)
  rwa [hrs.walk] at hrun

theorem Loaded.tabled_iff (h : Loaded ok L s s.cr3 m ps F dst t) : Tabled s (segmentPages ps) dst ↔
    (∀ p ∈ ps, ∀ q, p.Touches q → (s.mem s.cr3 (q / 1024)).HasTable) ∧
      (ps ≠ [] → ∀ a, FirstVacant s a → (s.mem s.cr3 (a / 4194304)).HasTable) := by
  unfold Tabled
  simp only [segmentPages_perm]
  refine and_congr ⟨fun hall p hp q hq => hall q ⟨p, hp, hq⟩, ?_⟩ ⟨fun hdst hne a ha => ?_, fun hall hne => ?_⟩
  · rintro hall q ⟨p, hp, hq⟩
    exact hall p hp q hq
  · obtain ⟨hd, hfirst⟩ := h.first hne
    rw [le_antisymm (ha.2 hfirst.1) (hfirst.2 ha.1)]
    exact hdst hd
  · have hps : ps ≠ [] := fun hnil => hne (h.unopened hnil)
    exact hall hps dst (h.first hps).2

/-- On the current VMM. -/
theorem Loaded.balances_iff (h : Loaded ok L s s.cr3 m ps F dst t) (hps : ∀ p ∈ ps, p.Below)
    (hfree : ∀ p ∈ ps, ∀ q, p.Touches q → view s.mem s.cr3 q = none) (hrs : Lists rs ps) :
    UnloadBalances K L s.cr3 ps rs s t ↔ WalksBack s s.cr3 ps := by
  have htouch : ∀ q ∈ walkOf ps, ∃ p ∈ ps, p.Touches q := fun q hq => touches_of_walk hps hq
  have hdrops := h.laid.drops_iff (walkOf ps) htouch
  have hmapped : ∀ q ∈ walkOf ps, view t.mem s.cr3 q ≠ none := by
    intro q hq
    obtain ⟨p, hp, hpq⟩ := htouch q hq
    exact h.mapped p hp q hpq
  constructor
  · rintro ⟨frees, u, hrun, hu⟩
    rw [h.run hps hrs, Option.map_eq_some_iff] at hrun
    obtain ⟨u', hdrop, heq⟩ := hrun
    obtain ⟨rfl, rfl⟩ := Prod.mk.inj heq
    obtain ⟨hview, hused⟩ := h.laid.dropped (walkOf ps) htouch hdrop
    have htabled : Tabled s (segmentPages ps) dst := by
      by_contra hno
      obtain ⟨g, hg, hgt, hF⟩ := (h.booked rfl).stray hno
      refine hg ((hu.bits g).mp ((hused g).mpr ⟨fun hin => ?_, hgt⟩))
      obtain ⟨q, hq, hFq⟩ := List.mem_map.mp hin
      exact hF q ((segmentPages_perm ps q).mpr (htouch q hq)) hFq
    obtain ⟨htable, hwindow⟩ := h.tabled_iff.mp htabled
    refine ⟨fun _ _ _ _ => rfl, htable, hwindow, (hdrops.mp ⟨_, hdrop⟩).1, fun p hp q hq => ?_⟩
    by_contra hnot
    have hgone := hu.unmapped p hp q hq
    rw [hview _ h.laid.mem q (h.laid.user q ⟨p, hp, hq⟩), if_neg fun hin => hnot hin.2] at hgone
    exact h.mapped p hp q hq hgone
  · intro hw
    obtain ⟨u, hdrop⟩ := hdrops.mpr ⟨hw.once, hmapped⟩
    obtain ⟨hview, hused⟩ := h.laid.dropped (walkOf ps) htouch hdrop
    have hclean := (h.booked rfl).clean (h.tabled_iff.mpr ⟨hw.table, hw.window⟩)
    have hfresh : ∀ q ∈ walkOf ps, ¬ used s (F q) := fun q hq => (h.booked rfl).fresh q ((segmentPages_perm ps q).mpr (htouch q hq))
    have hexact : ∀ f, f ∈ (walkOf ps).map F ↔ used t f ∧ ¬ used s f := by
      intro f
      constructor
      · intro hf
        obtain ⟨q, hq, rfl⟩ := List.mem_map.mp hf
        obtain ⟨p, hp, hpq⟩ := htouch q hq
        exact ⟨h.laid.taken q ⟨p, hp, hpq⟩ (h.mapped p hp q hpq), hfresh q hq⟩
      · rintro ⟨hf, hnot⟩
        obtain ⟨q, hq, rfl⟩ := (hclean.bits f hf).resolve_left hnot
        obtain ⟨p, hp, hpq⟩ := (segmentPages_perm ps q).mp hq
        exact List.mem_map_of_mem (hw.all p hp q hpq)
    refine ⟨(walkOf ps).map F, u, by rw [h.run hps hrs, hdrop]; rfl, ?_, hexact, fun p hp q hq => ?_, fun f => ?_, fun w hwL q hq => ?_⟩
    · refine List.Nodup.map_on (fun q hq q' hq' he => ?_) hw.once
      exact h.laid.inj q (htouch q hq) q' (htouch q' hq') he
    · rw [hview _ h.laid.mem q (h.laid.user q ⟨p, hp, hq⟩), if_pos ⟨rfl, hw.all p hp q hq⟩]
    · rw [hused f, hexact f]
      exact ⟨fun hin => by_contra fun hno => hin.1 ⟨hin.2, hno⟩, fun hs => ⟨fun hin => hin.2 hs, h.mono f hs⟩⟩
    · by_cases hwc : w = s.cr3
      · subst hwc
        by_cases hqw : q ∈ walkOf ps
        · obtain ⟨p, hp, hpq⟩ := htouch q hqw
          refine accessAt_congr ?_
          rw [hview _ h.laid.mem q hq, if_pos ⟨rfl, hqw⟩, hfree p hp q hpq]
        · have hout : (segmentPages ps).perm q = none := by
            rw [← Option.not_isSome_iff_eq_none, segmentPages_perm]
            rintro ⟨p, hp, hpq⟩
            exact hqw (hw.all p hp q hpq)
          rw [← (h.booked rfl).kept q hq hout]
          refine accessAt_congr ?_
          rw [hview _ h.laid.mem q hq, if_neg fun hin => hqw hin.2]
      · rw [← h.other w hwL hwc q hq]
        refine accessAt_congr ?_
        rw [hview w hwL q hq, if_neg fun hin => hwc hin.1]

/-- On another VMM a window stays open, or a frame is lost. -/
theorem Returned.not_balances (h : Returned ok L s v ps F t) (hK : K.Closed) (hvc : v ≠ s.cr3) (hc : s.cr3 ∈ L) (hrs : Lists rs ps)
    (hps : ∀ p ∈ ps, p.Below) (htouch : ∃ p ∈ ps, ∃ q, p.Touches q) : ¬ UnloadBalances K L v ps rs s t := by
  rintro ⟨frees, u, hrun, hu⟩
  by_cases hsize : ∃ r ∈ rs, 0 < r.size
  · have hwalk := h.laid.unload hK rs h.windowed (hrs.below hps) fun q hq => touches_of_walk hps (hrs.walk ▸ hq)
    obtain ⟨p, hp, hnone, hsome⟩ := (hwalk.2 _ _ hrun).window hsize (by rwa [h.cr3]) (by rwa [h.cr3])
    rw [h.cr3] at hnone hsome
    refine hsome ?_
    rw [hu.access _ hc p hp, ← h.access p hp, accessAt_eq, transAt, hnone]
    rfl
  · push Not at hsize
    have hempty : elfFreePrg K (v * 4096) rs = pure [] := elfFreePrg_empty rs fun r hr => Nat.le_zero.mp (hsize r hr)
    rw [hempty] at hrun
    obtain ⟨rfl, rfl⟩ := Prod.mk.inj (Option.some.inj hrun)
    obtain ⟨p, hp, q, hq⟩ := htouch
    rcases h.left p hp q hq with hmapped | ⟨f, hf, hft⟩
    · exact hmapped (hu.unmapped p hp q hq)
    · exact List.not_mem_nil ((hu.exactly f).mpr ⟨hft, hf⟩)

/-- Where no segment has a page the VMM does not matter. -/
theorem unloadBalances_untouched (hps : ∀ p ∈ ps, p.Below) (hrs : Lists rs ps) (hno : ∀ p ∈ ps, ∀ q, ¬ p.Touches q) (w : ℕ) :
    UnloadBalances K L v ps rs s t ↔ UnloadBalances K L w ps rs s t := by
  have hempty : ∀ r ∈ rs, r.size = 0 := hrs.empty fun p hp => (ElfPhdr.pages_eq_zero (hps p hp) (hno p hp)).2
  unfold UnloadBalances
  rw [elfFreePrg_empty rs hempty, elfFreePrg_empty rs hempty]
  refine exists_congr fun frees => exists_congr fun u => and_congr_right fun _ => ?_
  constructor
  · exact fun h => ⟨h.once, h.exactly, fun p hp q hq => absurd hq (hno p hp q), h.bits, h.access⟩
  · exact fun h => ⟨h.once, h.exactly, fun p hp q hq => absurd hq (hno p hp q), h.bits, h.access⟩

theorem walksBack_untouched (hno : ∀ p ∈ ps, ∀ q, ¬ p.Touches q) (w : ℕ) : WalksBack s v ps ↔ WalksBack s w ps := by
  constructor
  · exact fun h => ⟨fun p hp q hq => absurd hq (hno p hp q), fun p hp q hq => absurd hq (hno p hp q), h.window, h.once, h.all⟩
  · exact fun h => ⟨fun p hp q hq => absurd hq (hno p hp q), fun p hp q hq => absurd hq (hno p hp q), h.window, h.once, h.all⟩

end Balance

/-! The claim. -/

/-- Frames that are enough for the load and, on another VMM, for the windows of `elf_unload_prg`. -/
def balanceCost (s : Machine) (v : ℕ) (ps : List ElfPhdr) : ℕ := (if v = s.cr3 then 0 else 771) + loadCost ps

section Claim

variable {ok : Prop} {D L : Set ℕ} {s t : Machine} {v : ℕ} {K : Callees} {file : ℕ → ℕ → List UInt8} {junk : ℕ → ℕ → UInt8}
  {hdr : ElfEhdr} {l : ElfLoaded}

theorem elfLoadPhdr_balances_own {user : Bool} (hK : K.Closed)
    (h : Settled ok D L (loadCost (hdr.segments file junk s)) s) (hk : KernelEnds s) (hzero : used s 0)
    (hready : ∀ p ∈ hdr.segments file junk s, p.Placeable ok s s.cr3)
    (hrun : elfLoadPhdr K file junk hdr (s.cr3 * 4096) user s = some (.ok l, t)) :
    UnloadBalances K L s.cr3 (hdr.segments file junk s) l.prgload s t ↔ WalksBack s s.cr3 (hdr.segments file junk s) := by
  rw [← Nat.zero_add (loadCost _)] at h
  have hload := elfLoadPhdr_places user hK h h.cur hk hzero (.inl rfl) hready
  obtain ⟨F, dst, ht⟩ := (hload.2 _ _ hrun).1 l rfl
  exact ht.balances_iff (fun p hp => (hready p hp).below) (fun p hp => (hready p hp).free) (elfLoadPhdr_lists hrun)

/-- `elf_unload_prg` undoes `elf_load_phdr` exactly where its walk comes to each page of the segments once, on the current VMM and
with all page tables in place. -/
theorem elf_unload_balances_iff (n : ℕ) {user : Bool} (h : Settled ok D L (balanceCost s v (hdr.segments file junk s)) s) (hv : v ∈ L)
    (hk : KernelEnds s) (hzero : 0 ∈ D) (h0 : 0 ∉ L) (hready : ∀ p ∈ hdr.segments file junk s, p.Placeable ok s v)
    (hrun : elfLoadPhdr (callees (n + 1)) file junk hdr (v * 4096) user s = some (.ok l, t)) :
    UnloadBalances (callees (n + 1)) L v (hdr.segments file junk s) l.prgload s t ↔ WalksBack s v (hdr.segments file junk s) := by
  have hK := callees_closed n
  have hused := (h.tables.dir 0 hzero).1
  have hbelow : ∀ p ∈ hdr.segments file junk s, p.Below := fun p hp => (hready p hp).below
  have hlists := elfLoadPhdr_lists hrun
  by_cases hvc : v = s.cr3
  · subst hvc
    rw [balanceCost, if_pos rfl, Nat.zero_add] at h
    exact elfLoadPhdr_balances_own hK h hk hused hready hrun
  rw [balanceCost, if_neg hvc] at h
  by_cases htouch : ∃ p ∈ hdr.segments file junk s, ∃ q, p.Touches q
  · obtain ⟨F, ht⟩ := (elfLoadPhdr_returned user hK h hv hvc hk hzero h0 hready).2 _ _ hrun l rfl
    refine iff_of_false (ht.not_balances hK hvc h.cur hlists hbelow htouch) fun hw => ?_
    obtain ⟨p, hp, q, hq⟩ := htouch
    exact hvc (hw.own p hp q hq)
  · push Not at htouch
    have hempty : ∀ p ∈ hdr.segments file junk s, p.pages = 0 ∧ p.memsz = 0 := fun p hp =>
      ElfPhdr.pages_eq_zero (hbelow p hp) (htouch p hp)
    rw [elfLoadPhdr_untouched hempty (v * 4096) (s.cr3 * 4096)] at hrun
    rw [unloadBalances_untouched hbelow hlists htouch s.cr3, walksBack_untouched htouch s.cr3]
    refine elfLoadPhdr_balances_own hK (h.le (by omega)) hk hused (fun p hp => ?_) hrun
    exact ⟨hbelow p hp, fun q hq => absurd hq (htouch p hp q), fun _ _ hq => absurd hq (htouch p hp 0)⟩

end Claim

/-- The VMM in frame 1 with a page table for the user half and one for the kernel half, both empty. -/
def unloadSample : Machine := { (default : Machine) with
  mem := fun f i =>
    match f, i with
    | 1, 1 => 0x2007#32
    | 1, 767 => 0x1003#32
    | 1, 768 => 0x4003#32
    | _, _ => 0#32
  pmmBitmap := fun i => if i = 0 then 0xFFFFFFFF#32 else 0#32
  pmmFrames := 128
  vmmCurrent := 0x1000
  kernelEnd := 0xC0001000
  heap := fun _ => some 0xC0000000 }

/-- One program header, of a segment of 4 bytes: on one page or across the end of it. -/
def unloadSampleBytes (across : Bool) (k : ℕ) : UInt8 :=
  ([1, 0, 0, 0, 32, 0, 0, 0, if across then 254 else 0, if across then 15 else 0, 64, 0, 0, 0, 0, 0, 1, 0, 0, 0, 4, 0, 0, 0, 6, 0, 0, 0,
    0, 0, 0, 0, 42] : List UInt8).getD k 0

def unloadSampleFile (across : Bool) (offset size : ℕ) : List UInt8 :=
  (List.range size).map fun i => unloadSampleBytes across (offset + i)

def unloadSampleSegment (across : Bool) : ElfPhdr := ⟨1, 32, if across then 0x400FFE else 0x400000, 1, 4, 6⟩

section Sample

variable (across : Bool)

theorem unloadSample_segments : elfSampleHeader.segments (unloadSampleFile across) (fun _ _ => 0) unloadSample =
    [unloadSampleSegment across] := by
  cases across <;> decide +kernel

theorem unloadSample_slot {i : ℕ} (hi : i ≠ 767) (ht : (unloadSample.mem 1 i).HasTable) : i = 1 ∨ i = 768 := by
  by_contra hno
  obtain ⟨h1, h768⟩ := not_or.mp hno
  have hz : unloadSample.mem 1 i = 0#32 := by
    simp only [unloadSample]
    split <;> simp_all
  rw [hz] at ht
  exact Word.not_hasTable_zero ht

theorem unloadSample_tables : Tables {0, 1} {1} unloadSample := by
  constructor
  case frames => exact show 128 ≤ 1048576 by decide
  case sub => exact Set.subset_insert 0 _
  case dir =>
    rintro v (rfl | rfl)
    · exact ⟨by decide, by decide⟩
    · exact ⟨by decide, by decide⟩
  case self =>
    rintro v rfl
    exact ⟨by decide, by decide, by decide, by decide⟩
  case present =>
    rintro v rfl i - hi ht
    rcases unloadSample_slot hi ht with rfl | rfl <;> decide
  case rw =>
    rintro v rfl i - hi ht
    rcases unloadSample_slot hi ht with rfl | rfl <;> decide
  case used =>
    rintro v rfl i - hi ht
    rcases unloadSample_slot hi ht with rfl | rfl <;> decide
  case notDir =>
    rintro v rfl i - hi ht
    rcases unloadSample_slot hi ht with rfl | rfl
    · exact show ¬ (2 = 0 ∨ 2 = 1) by decide
    · exact show ¬ (4 = 0 ∨ 4 = 1) by decide
  case sep =>
    rintro v rfl w rfl i - j - hi hj ht ht' heq
    refine ⟨?_, .inl rfl⟩
    rcases unloadSample_slot hi ht with rfl | rfl <;> rcases unloadSample_slot hj ht' with rfl | rfl
    · rfl
    · exact absurd heq (by decide)
    · exact absurd heq (by decide)
    · rfl

theorem unloadSample_settled : Settled True {0, 1} {1}
    (balanceCost unloadSample 1 (elfSampleHeader.segments (unloadSampleFile across) (fun _ _ => 0) unloadSample)) unloadSample := by
  have hset : Settled True {0, 1} {1} 24 unloadSample := by
    refine ⟨unloadSample_tables, rfl, rfl, ⟨fun _ => ⟨List.range' 32 24, rfl, List.nodup_range', fun f hf => ?_⟩,
      fun hno => absurd trivial hno⟩, ⟨fun k hk => (by cases hk), fun _ hno => absurd rfl hno⟩, fun k hk => (by cases hk)⟩
    obtain ⟨hlo, hhi⟩ := List.mem_range'_1.mp hf
    have hword : unloadSample.pmmBitmap (f / 32) = 0#32 := if_neg (by omega)
    refine ⟨show f < 128 by omega, ?_⟩
    unfold used pmmBit
    rw [hword]
    simp
  refine hset.le ?_
  rw [unloadSample_segments]
  cases across <;> decide

theorem unloadSample_placeable : ∀ p ∈ elfSampleHeader.segments (unloadSampleFile across) (fun _ _ => 0) unloadSample,
    p.Placeable True unloadSample 1 := by
  rw [unloadSample_segments]
  rintro p hp
  obtain rfl := List.mem_singleton.mp hp
  refine ⟨?_, fun q hq => ?_, fun hno => absurd trivial hno⟩
  · cases across
    · exact show 0x400000 + 4 ≤ 0xBFC00000 by decide
    · exact show 0x400FFE + 4 ≤ 0xBFC00000 by decide
  · have hslot : q / 1024 = 1 := by
      obtain ⟨hlo, hhi⟩ := hq
      cases across
      · have hlo : 1024 ≤ q := hlo
        have hhi : q < 1025 := hhi
        omega
      · have hlo : 1024 ≤ q := hlo
        have hhi : q < 1026 := hhi
        omega
    refine view_eq_none.mpr ?_
    rw [hslot]
    refine ⟨by decide, ?_⟩
    rw [pteAt_of_hasTable (by rw [hslot]; decide), hslot]
    rfl

theorem unloadSample_vacant : Vacant unloadSample unloadSample.kernelEnd uintptrMax 4096 0xC0001000 := by
  refine ⟨by decide, by decide, by decide, fun k hk => ?_⟩
  obtain rfl : k = 0 := by
    have : pages 4096 = 1 := rfl
    omega
  decide

theorem unloadSample_supplied : Supplied True unloadSample := ⟨trivial, ⟨_, unloadSample_vacant⟩, fun _ => rfl⟩

theorem unloadSample_loads : ∃ l t, elfLoadPhdr (callees 2) (unloadSampleFile across) (fun _ _ => 0) elfSampleHeader 0x1000 true unloadSample =
    some (.ok l, t) := by
  have hload := elfLoadPhdr_places (m := 0) (v := 1) true (callees_closed 1) (unloadSample_settled across) rfl ⟨by decide, by decide⟩
    (unloadSample_tables.dir 0 (.inl rfl)).1 (.inl rfl) (unloadSample_placeable across)
  obtain ⟨r, t, hrun, -, hsure⟩ := hload.total unloadSample_supplied
  obtain ⟨l, rfl⟩ := hsure unloadSample_supplied
  exact ⟨l, t, hrun⟩

end Sample

/-- The segment on one page. -/
theorem elf_unload_balances_iff_sample : ∃ l t, elfLoadPhdr (callees 2) (unloadSampleFile false) (fun _ _ => 0) elfSampleHeader 0x1000 true
    unloadSample = some (.ok l, t) ∧
    UnloadBalances (callees 2) {1} 1 [⟨1, 32, 0x400000, 1, 4, 6⟩] l.prgload unloadSample t := by
  obtain ⟨l, t, hrun⟩ := unloadSample_loads false
  have hbalances := (elf_unload_balances_iff 1 (v := 1) (unloadSample_settled false) rfl ⟨by decide, by decide⟩ (.inl rfl) (by simp)
    (unloadSample_placeable false) hrun).mpr
  rw [unloadSample_segments] at hbalances
  refine ⟨l, t, hrun, hbalances ⟨fun _ _ _ _ => rfl, fun p hp q hq => ?_, fun _ a ha => ?_, by decide, fun p hp q hq => ?_⟩⟩
  · obtain rfl := List.mem_singleton.mp hp
    obtain ⟨hlo, hhi⟩ := hq
    have hlo : 1024 ≤ q := hlo
    have hhi : q < 1025 := hhi
    rw [show q / 1024 = 1 by omega]
    decide
  · have hvacant : Vacant unloadSample unloadSample.kernelEnd uintptrMax 4096 a := ha.1
    have hend : unloadSample.kernelEnd = 0xC0001000 := rfl
    have hlo := hvacant.lower
    rw [hend] at hlo
    have hhi : a ≤ 0xC0001000 := ha.2 unloadSample_vacant
    rw [show a / 4194304 = 768 by omega]
    decide
  · obtain rfl := List.mem_singleton.mp hp
    obtain ⟨hlo, hhi⟩ := hq
    have hlo : 1024 ≤ q := hlo
    have hhi : q < 1025 := hhi
    obtain rfl : q = 1024 := by omega
    decide

/-- Across the end of a page the second one stays mapped. -/
theorem elf_unload_missing : ¬ ∀ (ok : Prop) (D L : Set ℕ) (s t : Machine) (v : ℕ) (user : Bool) (file : ℕ → ℕ → List UInt8)
    (junk : ℕ → ℕ → UInt8) (hdr : ElfEhdr) (l : ElfLoaded), Settled ok D L (balanceCost s v (hdr.segments file junk s)) s → v ∈ L →
    KernelEnds s → 0 ∈ D → 0 ∉ L → (∀ p ∈ hdr.segments file junk s, p.Placeable ok s v) →
    ((hdr.segments file junk s).Pairwise fun p p' => ∀ a, ¬ (p.HasByte a ∧ p'.HasByte a)) →
    elfLoadPhdr (callees 2) file junk hdr (v * 4096) user s = some (.ok l, t) →
    UnloadBalances (callees 2) L v (hdr.segments file junk s) l.prgload s t := by
  intro h
  obtain ⟨l, t, hrun⟩ := unloadSample_loads true
  have hpairwise : (elfSampleHeader.segments (unloadSampleFile true) (fun _ _ => 0) unloadSample).Pairwise
      fun p p' => ∀ a, ¬ (p.HasByte a ∧ p'.HasByte a) := by
    rw [unloadSample_segments]
    exact List.pairwise_singleton _ _
  have hset := unloadSample_settled true
  have hbalances := h True {0, 1} {1} unloadSample t 1 true (unloadSampleFile true) (fun _ _ => 0) elfSampleHeader l hset rfl
    ⟨by decide, by decide⟩ (.inl rfl) (by simp) (unloadSample_placeable true) hpairwise hrun
  have hwalk := (elfLoadPhdr_balances_own (callees_closed 1) hset ⟨by decide, by decide⟩ (unloadSample_tables.dir 0 (.inl rfl)).1
    (unloadSample_placeable true) hrun).mp hbalances
  rw [unloadSample_segments] at hwalk
  have hin := hwalk.all _ (List.mem_singleton_self _) 1025 ⟨by decide, by decide⟩
  exact absurd hin (by decide)

end SysX
