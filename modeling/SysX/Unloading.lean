import SysX.ElfSegments
import SysX.OwnPages
import SysX.UserPages
import SysX.HeapGrowth

/-!
The walk of `elf_unload_prg` over the pages of the current VMM, with the frames it gives to `pmm_free`.
-/
namespace SysX

/-- `elf_unload_prg` for one segment, with the frames it frees, which the code does not keep. -/
def elfFreePages (K : Callees) (vmm size : ℕ) : (fuel off vaddr : ℕ) → Kernel (List ℕ)
  | 0, _, _ => Comp.fault
  | fuel + 1, off, vaddr =>
    if off < size then do
      let paddr ← vmmGetPaddr K vmm vaddr
      let pgszIdx ← vmmGetPgsz K vmm vaddr
      match pgszIdx with
      | none => Comp.fault
      | some idx => do
        let pgsz := vmmPgsz idx
        vmmPgunmap K vmm vaddr idx
        let frames := if paddr ≠ 0 then (List.range (pgsz / 4096)).map fun j => w32 (paddr / 4096 + j) else []
        Comp.forList pmmFree frames
        let rest ← elfFreePages K vmm size fuel (w32 (off + pgsz)) (w32 (vaddr + pgsz))
        pure (frames ++ rest)
    else pure []

def elfFreePrg (K : Callees) (vmm : ℕ) : List ElfPrgload → Kernel (List ℕ)
  | [] => pure []
  | r :: rs => do
    let frames ← elfFreePages K vmm r.size loopFuel 0 r.vaddr
    let rest ← elfFreePrg K vmm rs
    pure (frames ++ rest)

section Frees

variable (K : Callees) (vmm size : ℕ)

theorem elfUnloadPages_frees (fuel : ℕ) : ∀ off vaddr,
    elfUnloadPages K vmm size fuel off vaddr = (do let _ ← elfFreePages K vmm size fuel off vaddr; pure ()) := by
  induction fuel with
  | zero => exact fun _ _ => rfl
  | succ fuel ih =>
    intro off vaddr
    rw [elfUnloadPages, elfFreePages]
    split_ifs
    · rw [Comp.bind_assoc]
      refine congrArg _ (funext fun paddr => ?_)
      rw [Comp.bind_assoc]
      refine congrArg _ (funext fun idx => ?_)
      cases idx with
      | none => rfl
      | some idx =>
        simp only [Comp.bind_assoc, Comp.pure_bind]
        refine congrArg _ (funext fun _ => ?_)
        have hframes : Comp.forList pmmFree (if paddr ≠ 0 then (List.range (vmmPgsz idx / 4096)).map fun j => w32 (paddr / 4096 + j)
            else []) = Comp.when (paddr ≠ 0) (Comp.forRange (fun j => pmmFree (w32 (paddr / 4096 + j))) (vmmPgsz idx / 4096) 0) := by
          by_cases h : paddr ≠ 0
          · rw [if_pos h, Comp.when_true h, Comp.forList_map, List.range_eq_range', Comp.forList_range]
          · rw [if_neg h, Comp.when_false h]
            rfl
        rw [hframes]
        refine congrArg _ (funext fun _ => ?_)
        exact ih _ _
    · rfl

/-- What is freed does not matter to the run. -/
theorem elfUnloadPrg_frees (rs : List ElfPrgload) : elfUnloadPrg K vmm rs = (do let _ ← elfFreePrg K vmm rs; pure ()) := by
  induction rs with
  | nil => rfl
  | cons r rs ih =>
    unfold elfUnloadPrg at ih ⊢
    rw [Comp.forList_cons, ih, elfUnloadPages_frees, elfFreePrg]
    simp only [Comp.bind_assoc, Comp.pure_bind]

end Frees

/-! The pages of the walk. -/

/-- The pages that `elf_unload_prg` comes to for a segment: it steps from `vaddr`, not from the first page of it. -/
def ElfPrgload.walk (r : ElfPrgload) : List ℕ := List.range' (r.vaddr / 4096) ((r.size + 4095) / 4096)

/-- The segment ends below the kernel. -/
def ElfPrgload.Below (r : ElfPrgload) : Prop := r.vaddr + r.size ≤ kernelStart

/-- The page `q` of the directory `v` is cleared and the frame `f` is freed. -/
def dropPage (s : Machine) (v q f : ℕ) : Machine :=
  (s.set (s.mem v (q / 1024)).pt (q % 1024) 0#32).setBitmap f false

/-- The walk over the pages `qs`; a page that is not mapped stops it. -/
def dropPages (v : ℕ) (F : ℕ → ℕ) : List ℕ → Machine → Option Machine
  | [], s => some s
  | q :: qs, s => if view s.mem v q = none then none else dropPages v F qs (dropPage s v q (F q))

/-- The VMM `v` maps the pages of `Q` to frames of their own, `F q` behind the page `q`, unless they are unmapped. -/
structure Laid (L : Set ℕ) (v : ℕ) (Q : Set ℕ) (F : ℕ → ℕ) (s : Machine) : Prop where
  tables : Tables L L s
  mem : v ∈ L
  user : ∀ q ∈ Q, q < userPages
  table : ∀ q ∈ Q, (s.mem v (q / 1024)).HasTable
  page : ∀ q ∈ Q, view s.mem v q = none ∨ ∃ fl, view s.mem v q = some (F q, fl) ∧ fl.getLsbD 6 = false
  frame : ∀ q ∈ Q, F q ≠ 0 ∧ F q < 1048576 ∧ F q ∉ L
  data : ∀ q ∈ Q, ∀ w ∈ L, ∀ i < 1024, i ≠ 767 → (s.mem w i).HasTable → (s.mem w i).pt ≠ F q
  taken : ∀ q ∈ Q, view s.mem v q ≠ none → used s (F q)
  inj : ∀ q ∈ Q, ∀ p ∈ Q, F q = F p → q = p

section Drop

variable {L Q : Set ℕ} {v q w p : ℕ} {F : ℕ → ℕ} {s : Machine} {K : Callees}

theorem Laid.dir (h : Laid L v Q F s) (hq : q ∈ Q) (hw : w ∈ L) : (dropPage s v q (F q)).mem w = s.mem w := by
  have hreg := Windowed.regular_of_user (h.user q hq)
  have hi : q / 1024 < 1024 := by have := hreg.1; omega
  exact s.set_mem_of_ne _ _ _ (h.tables.pt_ne h.mem hw hi hreg.2 (h.table q hq)).symm

theorem Laid.view_drop (h : Laid L v Q F s) (hq : q ∈ Q) (hw : w ∈ L) (hp : p < userPages) :
    view (dropPage s v q (F q)).mem w p = if w = v ∧ p = q then none else view s.mem w p := by
  have hreg := Windowed.regular_of_user (h.user q hq)
  split_ifs with heq
  · obtain ⟨rfl, rfl⟩ := heq
    have hview := h.tables.view_setPte h.mem hreg (h.table p hq) 0#32 hreg
    rw [if_pos rfl] at hview
    exact hview
  · exact h.tables.view_pte h.mem hreg (.inr (h.user q hq)) (h.table q hq) 0#32 hw (Windowed.regular_of_user hp) (.inr hp) heq

/-- The walk goes on from the next page. -/
theorem Laid.drop (h : Laid L v Q F s) (hq : q ∈ Q) : Laid L v Q F (dropPage s v q (F q)) := by
  have hdir := fun w (hw : w ∈ L) => h.dir hq hw
  have hused : ∀ f, f ≠ F q → used s f → used (dropPage s v q (F q)) f := fun f hf hu => (used_free _ _ f).mpr ⟨hf, hu⟩
  refine ⟨⟨h.tables.frames, h.tables.sub, fun w hw => ⟨hused w (fun he => (h.frame q hq).2.2 (he ▸ hw)) (h.tables.dir w hw).1,
    (h.tables.dir w hw).2⟩, fun w hw => ?_, fun w hw => ?_, fun w hw => ?_, fun w hw i hi hne ht => ?_, fun w hw => ?_,
    fun w hw x hx => ?_⟩, h.mem, h.user, fun p hp => ?_, fun p hp => ?_, h.frame, fun p hp w hw => ?_, fun p hp hview => ?_,
    h.inj⟩
  · have hs := h.tables.self w hw
    exact ⟨by rw [hdir w hw]; exact hs.present, by rw [hdir w hw]; exact hs.rw, by rw [hdir w hw]; exact hs.pgsz,
      by rw [hdir w hw]; exact hs.pt⟩
  · rw [hdir w hw]
    exact h.tables.present w hw
  · rw [hdir w hw]
    exact h.tables.rw w hw
  · rw [hdir w hw] at ht ⊢
    exact hused _ (h.data q hq w hw i hi hne ht) (h.tables.used w hw i hi hne ht)
  · rw [hdir w hw]
    exact h.tables.notDir w hw
  · rw [hdir w hw, hdir x hx]
    exact h.tables.sep w hw x hx
  · rw [hdir v h.mem]
    exact h.table p hp
  · rw [h.view_drop hq h.mem (h.user p hp)]
    split_ifs
    · exact .inl rfl
    · exact h.page p hp
  · rw [hdir w hw]
    exact h.data p hp w hw
  · rw [h.view_drop hq h.mem (h.user p hp)] at hview
    split_ifs at hview with heq
    · exact absurd rfl hview
    · exact hused _ (fun he => heq ⟨rfl, h.inj p hp q hq he⟩) (h.taken p hp hview)

/-- One pass of the loop, which never comes to an end where the page is not mapped. -/
theorem Laid.pass (h : Laid L v Q F s) (hcur : s.vmmCurrent = v * 4096) {size fuel off va : ℕ} (hq : va / 4096 ∈ Q) (hva : va < kernelStart) (hoff : off < size) :
    elfFreePages K (v * 4096) size (fuel + 1) off va s = if view s.mem v (va / 4096) = none then none else
      (elfFreePages K (v * 4096) size fuel (w32 (off + 4096)) (w32 (va + 4096)) (dropPage s v (va / 4096) (F (va / 4096)))).map
        fun r => (F (va / 4096) :: r.1, r.2) := by
  have hcr3 : s.cr3 = v := by
    rw [Machine.cr3, hcur]
    exact page_div v
  have hc : s.cr3 ∈ L := by
    rw [hcr3]
    exact h.mem
  have hslotva := va_slot va
  have hoffslot := offSlot_of_lt hva
  have ht := h.table _ hq
  rw [elfFreePages, if_pos hoff, ← hcur, Comp.bind_of_eq (vmmGetPaddr_cur h.tables hc hoffslot),
    Comp.bind_of_eq (vmmGetPgsz_cur h.tables hc hoffslot), hcr3]
  rcases h.page _ hq with hnone | ⟨fl, hview, htrap⟩
  · rw [if_pos hnone, pgszAt_eq_none.mpr hnone]
    rfl
  · have hsome : view s.mem v (va / 4096) ≠ none := by
      rw [hview]
      exact Option.some_ne_none _
    have hsize : pgszAt s.mem v (va / 4096) = some 0 := by
      have hpte := mt view_eq_none.mpr hsome
      rw [pgszAt, if_neg ht.not_pgsz, if_neg fun hz => hpte ⟨ht.2, hz⟩]
    rw [if_neg hsome, hsize]
    dsimp only
    have hpte : viewPte (pteAt s.mem v (va / 4096)) = some (F (va / 4096), fl) := by
      rw [← view_of_not_pgsz ht.2, hview]
    have htrapped : (pteAt s.mem s.cr3 (va / 4096)).trapped = false := by
      rw [hcr3]
      unfold viewPte at hpte
      split_ifs at hpte
      have hflags : (pteAt s.mem v (va / 4096)).getFlags = fl := congrArg Prod.snd (Option.some.inj hpte)
      rw [← Word.getFlags_bit6, hflags, htrap]
    rw [hslotva] at ht
    have hunmap : Comp.Wp True (vmmPgunmapSmall K s.vmmCurrent va) _ s :=
      vmmPgunmapSmall_own h.tables hc hoffslot (by rw [hcr3]; exact ht.2) (.of_untrapped htrapped)
    obtain ⟨_, t, hrun, htrun⟩ := hunmap.total trivial
    rw [hcr3, if_pos ht] at htrun
    have hcall : vmmPgunmap K s.vmmCurrent va 0 = vmmPgunmapSmall K s.vmmCurrent va := if_neg hoffslot.not_rmap
    obtain ⟨hzero, hlt, -⟩ := h.frame _ hq
    have hpaddr : paddrAt s.mem v va = F (va / 4096) * 4096 + va % 4096 := by
      rw [paddrAt, hview]
    have hframe : (F (va / 4096) * 4096 + va % 4096) / 4096 = F (va / 4096) := by omega
    have hlist : (List.range (vmmPgsz 0 / 4096)).map (fun j => w32 ((F (va / 4096) * 4096 + va % 4096) / 4096 + j)) =
        [F (va / 4096)] := by
      rw [hframe, show vmmPgsz 0 / 4096 = 1 from rfl, List.range_one, List.map_singleton, Nat.add_zero, w32_of_lt (by omega)]
    have hfree : Comp.forList pmmFree [F (va / 4096)] t = some ((), dropPage s v (va / 4096) (F (va / 4096))) := by
      rw [htrun, ← hslotva]
      rfl
    rw [hcall, Comp.bind_of_eq hrun, hpaddr, if_pos (show F (va / 4096) * 4096 + va % 4096 ≠ 0 by omega), hlist,
      Comp.bind_of_eq hfree, Comp.bind_apply, hcur]
    exact Option.map_eq_bind.symm

theorem vmmCurrent_dropPages (qs : List ℕ) : ∀ {s t : Machine}, dropPages v F qs s = some t → t.vmmCurrent = s.vmmCurrent := by
  induction qs with
  | nil =>
    intro s t hrun
    rw [← Option.some.inj hrun]
  | cons q qs ih =>
    intro s t hrun
    rw [dropPages] at hrun
    split_ifs at hrun
    have hrest := ih hrun
    exact hrest

theorem dropPages_append (v : ℕ) (F : ℕ → ℕ) (ps qs : List ℕ) : ∀ s,
    dropPages v F (ps ++ qs) s = (dropPages v F ps s).bind (dropPages v F qs) := by
  induction ps with
  | nil => exact fun _ => rfl
  | cons p ps ih =>
    intro s
    rw [List.cons_append, dropPages, dropPages]
    split_ifs
    · rfl
    · exact ih _

theorem Laid.drops (qs : List ℕ) : ∀ {s t : Machine}, Laid L v Q F s → (∀ q ∈ qs, q ∈ Q) → dropPages v F qs s = some t →
    Laid L v Q F t := by
  induction qs with
  | nil =>
    intro s t h _ hrun
    obtain rfl := Option.some.inj hrun
    exact h
  | cons q qs ih =>
    intro s t h hqs hrun
    rw [dropPages] at hrun
    split_ifs at hrun
    exact ih (h.drop (hqs q List.mem_cons_self)) (fun p hp => hqs p (List.mem_cons_of_mem q hp)) hrun

/-- The walk over a segment. -/
theorem Laid.pages {size n : ℕ} (hsize : size ≤ kernelStart) (fuel : ℕ) : ∀ {off va : ℕ} {s : Machine}, Laid L v Q F s →
    s.vmmCurrent = v * 4096 → n = (size - off + 4095) / 4096 → n < fuel → va + (size - off) ≤ kernelStart → off < size + 4096 → (∀ q ∈ List.range' (va / 4096) n, q ∈ Q) →
    elfFreePages K (v * 4096) size fuel off va s =
      (dropPages v F (List.range' (va / 4096) n) s).map fun t => ((List.range' (va / 4096) n).map F, t) := by
  induction fuel generalizing n with
  | zero => exact fun _ _ _ hfuel => absurd hfuel (Nat.not_lt_zero _)
  | succ fuel ih =>
    intro off va s h hcur hn hfuel hva hle hQ
    by_cases hoff : off < size
    · obtain ⟨k, rfl⟩ : ∃ k, n = k + 1 := ⟨n - 1, by omega⟩
      rw [List.range'_succ] at hQ ⊢
      have hq := hQ (va / 4096) List.mem_cons_self
      rw [h.pass hcur hq (by omega) hoff, dropPages]
      split_ifs
      · rfl
      · unfold kernelStart rmapStart at hva hsize
        rw [w32_of_lt (show off + 4096 < 4294967296 by omega), w32_of_lt (show va + 4096 < 4294967296 by omega)]
        have hnext : (va + 4096) / 4096 = va / 4096 + 1 := by omega
        by_cases hlast : off + 4096 < size
        · have hrest := @ih k (off + 4096) (va + 4096) _ (h.drop hq) hcur (by omega) (by omega)
            (by unfold kernelStart rmapStart; omega) (by omega) (by
              rw [hnext]
              exact fun p hp => hQ p (List.mem_cons_of_mem _ hp))
          rw [hrest, hnext, Option.map_map]
          rfl
        · obtain rfl : k = 0 := by omega
          obtain ⟨fuel, rfl⟩ : ∃ m, fuel = m + 1 := ⟨fuel - 1, by omega⟩
          rw [elfFreePages, if_neg hlast]
          rfl
    · obtain rfl : n = 0 := by omega
      rw [elfFreePages, if_neg hoff]
      rfl

/-- `elf_unload_prg` on the current VMM: the pages of the walk are cleared and their frames are freed, one after the other. -/
theorem Laid.unload (rs : List ElfPrgload) : ∀ {s : Machine}, Laid L v Q F s → s.vmmCurrent = v * 4096 →
    (∀ r ∈ rs, r.Below) → (∀ q ∈ rs.flatMap ElfPrgload.walk, q ∈ Q) → elfFreePrg K (v * 4096) rs s =
      (dropPages v F (rs.flatMap ElfPrgload.walk) s).map fun t => ((rs.flatMap ElfPrgload.walk).map F, t) := by
  induction rs with
  | nil => exact fun _ _ _ _ => rfl
  | cons r rs ih =>
    intro s h hcur hbelow hQ
    have hr := hbelow r List.mem_cons_self
    have hfit := hr
    unfold ElfPrgload.Below kernelStart rmapStart at hfit
    rw [List.flatMap_cons] at hQ ⊢
    have hwalk : ∀ q ∈ r.walk, q ∈ Q := fun q hq => hQ q (List.mem_append_left _ hq)
    have hfirst : elfFreePages K (v * 4096) r.size loopFuel 0 r.vaddr s =
        (dropPages v F r.walk s).map fun t => (r.walk.map F, t) :=
      h.pages (by unfold kernelStart rmapStart; omega) loopFuel hcur rfl (by unfold loopFuel; omega) hr (by omega) hwalk
    rw [elfFreePrg, dropPages_append]
    cases hdrop : dropPages v F r.walk s with
    | none =>
      rw [hdrop] at hfirst
      rw [Comp.bind_apply, hfirst]
      rfl
    | some t =>
      rw [hdrop] at hfirst
      have hrest := ih (h.drops r.walk hwalk hdrop) ((vmmCurrent_dropPages r.walk hdrop).trans hcur) (fun r' hr' => hbelow r' (List.mem_cons_of_mem r hr'))
        fun q hq => hQ q (List.mem_append_right _ hq)
      rw [Comp.bind_of_eq hfirst, Comp.bind_apply, hrest, Option.bind_some]
      cases dropPages v F (rs.flatMap ElfPrgload.walk) t with
      | none => rfl
      | some u =>
        rw [Option.map_some, Option.map_some, List.map_append]
        rfl

/-! What the walk leaves. -/

theorem Laid.dropped (qs : List ℕ) : ∀ {s t : Machine}, Laid L v Q F s → (∀ q ∈ qs, q ∈ Q) → dropPages v F qs s = some t →
    (∀ w ∈ L, ∀ p < userPages, view t.mem w p = if w = v ∧ p ∈ qs then none else view s.mem w p) ∧
    ∀ f, used t f ↔ f ∉ qs.map F ∧ used s f := by
  induction qs with
  | nil =>
    intro s t _ _ hrun
    obtain rfl := Option.some.inj hrun
    simp
  | cons q qs ih =>
    intro s t h hqs hrun
    rw [dropPages] at hrun
    split_ifs at hrun
    have hq := hqs q List.mem_cons_self
    obtain ⟨hview, hused⟩ := ih (h.drop hq) (fun p hp => hqs p (List.mem_cons_of_mem q hp)) hrun
    refine ⟨fun w hw p hp => ?_, fun f => ?_⟩
    · rw [hview w hw p hp, h.view_drop hq hw hp]
      by_cases hwv : w = v
      · by_cases hpq : p = q
        · simp [hwv, hpq]
        · simp [hwv, hpq]
      · simp [hwv]
    · rw [hused f, dropPage, used_free, List.map_cons, List.mem_cons, not_or]
      tauto

/-- The walk comes to its end if and only if it comes to mapped pages only, and to none of them twice. -/
theorem Laid.drops_iff (qs : List ℕ) : ∀ {s : Machine}, Laid L v Q F s → (∀ q ∈ qs, q ∈ Q) →
    ((∃ t, dropPages v F qs s = some t) ↔ qs.Nodup ∧ ∀ q ∈ qs, view s.mem v q ≠ none) := by
  induction qs with
  | nil => exact fun _ _ => iff_of_true ⟨_, rfl⟩ ⟨List.nodup_nil, by simp⟩
  | cons q qs ih =>
    intro s h hqs
    have hq := hqs q List.mem_cons_self
    have htail : ∀ p ∈ qs, p ∈ Q := fun p hp => hqs p (List.mem_cons_of_mem q hp)
    rw [dropPages]
    split_ifs with hnone
    · exact iff_of_false (by simp) fun hall => hall.2 q List.mem_cons_self hnone
    · have hviews : (∀ p ∈ qs, view (dropPage s v q (F q)).mem v p ≠ none) ↔ q ∉ qs ∧ ∀ p ∈ qs, view s.mem v p ≠ none := by
        refine ⟨fun hall => ⟨fun hin => ?_, fun p hp hno => ?_⟩, ?_⟩
        · have hgone := hall q hin
          rw [h.view_drop hq h.mem (h.user q hq), if_pos ⟨rfl, rfl⟩] at hgone
          exact hgone rfl
        · have hmapped := hall p hp
          rw [h.view_drop hq h.mem (h.user p (htail p hp))] at hmapped
          split_ifs at hmapped
          · exact hmapped rfl
          · exact hmapped hno
        · rintro ⟨hnot, hall⟩ p hp
          have hne : p ≠ q := fun heq => hnot (heq ▸ hp)
          rw [h.view_drop hq h.mem (h.user p (htail p hp)), if_neg fun heq => hne heq.2]
          exact hall p hp
      rw [ih (h.drop hq) htail, hviews, List.nodup_cons, List.forall_mem_cons]
      tauto

end Drop

end SysX


