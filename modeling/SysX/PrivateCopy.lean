import SysX.CopyWindow

/-!
The private page that `vmm_cow_duplicate` makes of a shared one. A 4 KiB page gets a copy when both VMMs' tables can be
reached; the frames of a 4 MiB page are copied to the wrong place.
-/
namespace SysX

/-- The page at `va` of `v` has new frames, aligned to its size, with the content of the page at `src` of `w`; the latter
keeps its frames, and all frames of `D` their content. -/
def PrivateCopy (D L : Set ℕ) (s t : Machine) (v va w src N : ℕ) : Prop :=
  (∃ f, f % N = 0 ∧ ∀ k < N, ¬ used s (f + k) ∧ used t (f + k) ∧ accessAt t.mem v (va / 4096 + k) = some (f + k, true) ∧
    ∀ g r, accessAt s.mem w (src / 4096 + k) = some (g, r) → t.mem (f + k) = s.mem g) ∧
  (∀ k < N, ∀ g r, accessAt s.mem w (src / 4096 + k) = some (g, r) →
    t.mem g = s.mem g ∧ ∃ r', accessAt t.mem w (src / 4096 + k) = some (g, r')) ∧
  ∀ x ∈ D, x ∉ L → t.mem x = s.mem x

/-- Two pages of the size `idx` that share the frames from `g` on, linked by a trap pair. -/
structure SharedPage (D L : Set ℕ) (s : Machine) (v va w src idx g : ℕ) : Prop where
  partner : Partner s v va w src
  vmm : v ∈ L ∧ w ∈ L
  user : va < kernelStart ∧ src < kernelStart
  aligned : va % vmmPgsz idx = 0 ∧ src % vmmPgsz idx = 0
  apart : ¬ (v = w ∧ va = src)
  size : (s.mem v (va / 4194304)).pgsz = decide (idx = 1) ∧ (s.mem w (src / 4194304)).pgsz = decide (idx = 1)
  page : ∃ r, accessAt s.mem v (va / 4096) = some (g, r)
  origin : ∃ r, accessAt s.mem w (src / 4096) = some (g, r)
  data : ∀ k < vmmPgsz idx / 4096, g + k ∈ D ∧ g + k ∉ L

/-- The memory that the copy is taken from, or that the new page gets, has the content of the shared page anyway. -/
def CopyByChance (D L : Set ℕ) (s : Machine) (w src idx g : ℕ) : Prop :=
  idx = 0 ∧ ¬ Reach s w src ∧ (0 ∈ D → 0 ∉ L → s.mem 0 = s.mem g) ∨
    idx = 1 ∧ ∃ x, ¬ used s x ∧ s.mem x = s.mem (g + 1023)

section Copy

variable {ok : Prop} {D L : Set ℕ} {s t : Machine} {v va w src idx g : ℕ} {K : Callees}

theorem Partner.unique {w' src' : ℕ} (h : Partner s v va w src) (h' : Partner s v va w' src') : w = w' ∧ src = src' := by
  obtain ⟨i, d, p, u, hfind, hentry, hinfo, hsrc, hvmm, rfl⟩ := h
  obtain ⟨i', d', p', u', hfind', hentry', hinfo', hsrc', hvmm', rfl⟩ := h'
  cases hfind.symm.trans hfind'
  cases hentry.symm.trans hentry'
  cases hinfo.symm.trans hinfo'
  cases hsrc.symm.trans hsrc'
  exact ⟨by omega, rfl⟩

/-- The two pages do not overlap. -/
theorem SharedPage.not_in (h : SharedPage D L s v va w src idx g) (hidx : idx < vmmPgszNum) :
    ¬ InPage s w (src / 4096) v (va / 4096) ∧ ¬ InPage s v (va / 4096) w (src / 4096) := by
  have haligned := h.aligned
  have hsize := h.size
  unfold vmmPgszNum at hidx
  have hne : v = w → ¬ (va / 4096 = src / 4096 ∨ idx = 1 ∧ va / 4096 / 1024 = src / 4096 / 1024) := by
    intro hvw hpage
    refine h.apart ⟨hvw, ?_⟩
    obtain rfl | rfl : idx = 0 ∨ idx = 1 := by omega
    · rw [show vmmPgsz 0 = 4096 from rfl] at haligned
      omega
    · rw [show vmmPgsz 1 = 4194304 from rfl] at haligned
      omega
  constructor
  · rintro ⟨hvw, hpage | ⟨hs, hpage⟩⟩
    · exact hne hvw (.inl hpage)
    · rw [va_slot, hsize.2, decide_eq_true_iff] at hs
      exact hne hvw (.inr ⟨hs, hpage⟩)
  · rintro ⟨hvw, hpage | ⟨hs, hpage⟩⟩
    · exact hne hvw.symm (.inl hpage.symm)
    · rw [va_slot, hsize.1, decide_eq_true_iff] at hs
      exact hne hvw.symm (.inr ⟨hs, hpage.symm⟩)

/-- A page of 4 MiB has consecutive frames. -/
theorem accessAt_huge {m : ℕ → ℕ → Word} {p k f : ℕ} {r : Bool} (hs : (m v (p / 1024)).pgsz = true) (hp : p % 1024 = 0)
    (hk : k < 1024) (ha : accessAt m v p = some (f, r)) : accessAt m v (p + k) = some (f + k, r) := by
  have hslot : (p + k) / 1024 = p / 1024 := by omega
  rw [accessAt_of_pgsz hs] at ha
  split_ifs at ha with hpres
  cases ha
  rw [accessAt_of_pgsz (by rw [hslot]; exact hs), hslot, if_pos hpres, hp, Nat.add_zero]
  congr 3
  omega

/-- A 4 KiB page that is resolved is a private copy when both VMMs' tables can be reached. -/
theorem CowOutcome.privateCopy {n : ℕ} (h : CowOutcome ok D L n s v va true t) (ht : Tables D L s) (hp : SharedPage D L s v va w src 0 g) :
    (Reach s v va ∧ Reach s w src → PrivateCopy D L s t v va w src 1) ∧
      (PrivateCopy D L s t v va w src 1 → Reach s v va ∧ (Reach s w src ∨ CopyByChance D L s w src 0 g)) := by
  obtain ⟨r, hpage⟩ := hp.page
  obtain ⟨r', horigin⟩ := hp.origin
  obtain ⟨hgD, hgL⟩ := hp.data 0 (by decide)
  obtain ⟨hne, hne'⟩ := hp.not_in (by decide)
  have hsmall : (s.mem v (va / 4194304)).pgsz = false := hp.size.1
  cases h with
  | @resolved q f i w' t p d u _ hfind hentry hinfo hsrc hvmm _ _ hin _ hfresh hcontent hstranger hnew hblocked hkept =>
  obtain ⟨rfl, hsame⟩ := hp.partner.unique ⟨i, d, p, u, hfind, hentry, hinfo, hsrc, hvmm, rfl⟩
  subst hsame
  have hcopied : copiedFrame s v va f = f := by
    rw [copiedFrame, hsmall, if_neg Bool.false_ne_true]
  constructor
  · rintro ⟨hv, hw⟩
    have hacc := hnew hv hne g r hpage
    rw [hcopied] at hacc
    refine ⟨⟨f, Nat.mod_one f, fun k hk => ?_⟩, fun k hk x b hx => ?_, fun x hD hL => hin.content x hD hL⟩
    · obtain rfl : k = 0 := by omega
      refine ⟨hfresh.1, hfresh.2.2, hacc, fun x b hx => ?_⟩
      cases horigin.symm.trans hx
      exact hcontent hw g r' horigin hgD hgL
    · obtain rfl : k = 0 := by omega
      cases horigin.symm.trans hx
      exact ⟨hin.content g hgD hgL, hkept hne' g r' horigin⟩
  · rintro ⟨⟨f', -, hpages⟩, -, -⟩
    obtain ⟨hfree, -, hacc, hmem⟩ := hpages 0 Nat.one_pos
    by_cases hv : Reach s v va
    · refine ⟨hv, or_iff_not_imp_left.mpr fun hw => .inl ⟨rfl, hw, fun h0 h0' => ?_⟩⟩
      have hacc' := hnew hv hne g r hpage
      rw [hcopied] at hacc'
      obtain rfl : f = f' := by
        cases hacc'.symm.trans hacc
        rfl
      rw [← hstranger hw h0 h0']
      exact hmem g r' horigin
    · cases (hpage.symm.trans ((hblocked hv hne).symm.trans hacc))
      exact absurd (ht.dir _ hgD).1 hfree

/-- A 4 MiB page that is resolved gets frames to which nothing is copied. -/
theorem HugeOutcome.not_privateCopy (h : HugeOutcome s v va w src true t) (ht : Tables D L s)
    (hp : SharedPage D L s v va w src 1 g) (hcopy : PrivateCopy D L s t v va w src 1024) : CopyByChance D L s w src 1 g := by
  obtain ⟨r, hpage⟩ := hp.page
  obtain ⟨r', horigin⟩ := hp.origin
  obtain ⟨hgD, hgL⟩ := hp.data 0 (by decide)
  obtain ⟨hne, -⟩ := hp.not_in (by decide)
  have haligned := hp.aligned
  rw [show vmmPgsz 1 = 4194304 from rfl] at haligned
  have hhuge : (s.mem v (va / 4194304)).pgsz = true := hp.size.1
  obtain ⟨⟨f', -, hpages⟩, -, -⟩ := hcopy
  obtain ⟨hfree, -, hacc, -⟩ := hpages 0 (by decide)
  obtain ⟨-, -, -, hlast⟩ := hpages 1023 (by decide)
  cases h with
  | @copied q f x t hspace _ _ hspare hsame hnew hblocked =>
  by_cases hv : Reach s v va
  · have hacc' := hnew hv hne g r hpage
    rw [copiedFrame, hhuge, if_pos rfl, show va / 4096 % 1024 = 0 by omega] at hacc'
    have hframe : f' + 1023 = lastFrame f := by
      cases hacc'.symm.trans hacc
      rfl
    have hend : accessAt s.mem w (src / 4096 + 1023) = some (g + 1023, r') :=
      accessAt_huge (by rw [va_slot]; exact hp.size.2) (by omega) (by decide) horigin
    refine .inr ⟨rfl, lastFrame f, hspare, ?_⟩
    rw [← hsame, ← hframe]
    exact hlast _ _ hend
  · have hold := hpage.symm.trans ((hblocked hv hne).symm.trans hacc)
    cases hold
    exact absurd (ht.dir _ hgD).1 hfree

theorem SharedPage.offSlot (h : SharedPage D L s v va w src idx g) (hidx : idx < vmmPgszNum) {a : ℕ}
    (ha : a - a % vmmPgsz idx = va) : OffSlot a := by
  have huser := h.user.1
  unfold kernelStart rmapStart at huser
  unfold vmmPgszNum at hidx
  unfold OffSlot
  obtain rfl | rfl : idx = 0 ∨ idx = 1 := by omega
  · rw [show vmmPgsz 0 = 4096 from rfl] at ha
    omega
  · rw [show vmmPgsz 1 = 4194304 from rfl] at ha
    omega

/-- `vmm_get_pgsz` finds the size of the page at every address in it. -/
theorem SharedPage.pgszAt (h : SharedPage D L s v va w src idx g) (hidx : idx < vmmPgszNum) {a : ℕ}
    (ha : a - a % vmmPgsz idx = va) : pgszAt s.mem v (a / 4096) = some idx := by
  obtain ⟨r, hpage⟩ := h.page
  have hsize := h.size.1
  unfold vmmPgszNum at hidx
  obtain rfl | rfl : idx = 0 ∨ idx = 1 := by omega
  · rw [show vmmPgsz 0 = 4096 from rfl] at ha
    have hsame : a / 4096 = va / 4096 := by omega
    have hsmall : (s.mem v (va / 4096 / 1024)).pgsz = false := by
      rw [va_slot]
      exact hsize
    obtain ⟨-, hpres, -, -⟩ := accessAt_table hpage hsmall
    rw [hsame, SysX.pgszAt, hsmall, if_neg Bool.false_ne_true, if_neg (Word.ne_zero_of_present hpres)]
  · rw [show vmmPgsz 1 = 4194304 from rfl] at ha
    have hsame : a / 4194304 = va / 4194304 := by omega
    rw [SysX.pgszAt, va_slot, hsame, if_pos (show (s.mem v (va / 4194304)).pgsz = true from hsize)]

/-- `vmm_cow_duplicate`, when it returns true, makes a private copy of a 4 KiB page whose VMM and whose partner's can be
reached. Otherwise the page is no private copy, or only by chance. -/
theorem private_copy_iff (n : ℕ) {a : ℕ} {pg : Option ℕ} (h : Settled ok D L 23 s) (hk : KernelEnds s)
    (hpairs : TrapsPaired s) (hpages : CowPages ok L s) (hidx : idx < vmmPgszNum) (hp : SharedPage D L s v va w src idx g)
    (ha : a - a % vmmPgsz idx = va) (hpg : pg = some idx ∨ pg = none ∧ v = s.cr3)
    (hhuge : idx = 1 → (ok → FreeFrames s 7184) ∧ CopyTarget (DataFrame L s) s)
    (hrun : vmmCowDuplicate (callees (n + 1)) (v * 4096) a pg s = some (true, t)) :
    (idx = 0 ∧ Reach s v va ∧ Reach s w src → PrivateCopy D L s t v va w src (vmmPgsz idx / 4096)) ∧
      (PrivateCopy D L s t v va w src (vmmPgsz idx / 4096) →
        idx = 0 ∧ Reach s v va ∧ Reach s w src ∨ CopyByChance D L s w src idx g) := by
  have hK := callees_closed n
  have hoff : OffSlot a := hp.offSlot hidx ha
  have hlook : (if pg = none then vmmGetPgsz (callees (n + 1)) (v * 4096) a else pure pg) s = some (some idx, s) := by
    rcases hpg with rfl | ⟨rfl, hvc⟩
    · rw [if_neg (Option.some_ne_none idx)]
      rfl
    · rw [if_pos rfl, h.own hvc, vmmGetPgsz_cur h.tables h.cur hoff, ← hvc, hp.pgszAt hidx ha]
  rw [vmmCowDuplicate_eq, Comp.bind_of_eq hlook] at hrun
  have hcall : cowSearch (callees (n + 1)) (v * 4096) va (vmmPgsz idx) s = some (true, t) := by
    rw [← ha]
    exact hrun
  have hsize := hidx
  unfold vmmPgszNum at hsize
  obtain rfl | rfl : idx = 0 ∨ idx = 1 := by omega
  · have hout : CowOutcome ok D L 2 s v va true t := (h.search hK hk hpairs hpages).2 true t hcall
    obtain ⟨hcopy, hno⟩ := hout.privateCopy h.tables hp
    refine ⟨fun hin => hcopy hin.2, fun hin => ?_⟩
    obtain ⟨hv, hw | hchance⟩ := hno hin
    · exact .inl ⟨rfl, hv, hw⟩
    · exact .inr hchance
  · obtain ⟨hframes, htarget⟩ := hhuge rfl
    obtain ⟨D', hset, htarget'⟩ := htarget.setApart (h.enough hframes)
    have hout := ((hset.le (by decide)).searchHuge hK hk hpairs hpages htarget').2 true t hcall
    refine ⟨fun hin => absurd hin.1 (by decide), fun hcopy => .inr ?_⟩
    rcases hout with ⟨-, hno, -⟩ | ⟨-, w', src', hpartner, hout⟩
    · cases hno
    · obtain ⟨rfl, rfl⟩ := hp.partner.unique hpartner
      exact hout.not_privateCopy h.tables hp hcopy

end Copy

theorem cowSample_room : Room cowSample (fun _ => 0#32) 0 2 := by
  refine ⟨[1, 2], rfl, by decide, fun p hp => ⟨Nat.zero_le p, ?_⟩⟩
  rcases List.mem_pair.mp hp with rfl | rfl
  · exact ⟨by decide, by decide, rfl, by decide⟩
  · exact ⟨by decide, by decide, rfl, by decide⟩

theorem cowSample_shared : SharedPage {1, 3, 8} {1, 3} cowSample 1 0x400000 3 0x400000 0 8 where
  partner := ⟨0, _, _, _, rfl, rfl, rfl, rfl, rfl, rfl⟩
  vmm := ⟨.inl rfl, .inr rfl⟩
  user := ⟨by decide, by decide⟩
  aligned := ⟨by decide, by decide⟩
  apart := by decide
  size := ⟨by decide, by decide⟩
  page := ⟨false, by decide⟩
  origin := ⟨false, by decide⟩
  data k hk := by
    obtain rfl : k = 0 := Nat.lt_one_iff.mp hk
    exact ⟨.inr (.inr rfl), by decide⟩

/-- The sample's page becomes a private one of the current VMM. -/
theorem private_copy_sample : PrivateCopy {1, 3, 8} {1, 3} cowSample
    (Comp.after (vmmCowDuplicate (callees 2) 0x1000 0x400123 none) cowSample) 1 0x400000 3 0x400000 1 := by
  have hrun : (vmmCowDuplicate (callees 2) 0x1000 0x400123 none cowSample).map Prod.fst = some true := by
    decide +kernel
  have hroom : Reach cowSample 3 0x400000 := .inr cowSample_room
  exact (private_copy_iff (v := 1) (g := 8) 1 ((cowSample_settled True).le (by decide)) ⟨by decide, by decide⟩
    cowSample_paired (cowSample_pages True) (show 0 < vmmPgszNum by decide) cowSample_shared rfl (.inr ⟨rfl, rfl⟩) (fun hno => absurd hno (by decide))
    (Comp.run_after hrun)).1 ⟨rfl, .inl rfl, hroom⟩

/-- Two pages of the current VMM share 4 MiB. A data page lies 4 MiB behind the first free one of the kernel half. -/
def hugeSample : Machine := { (default : Machine) with
  mem := fun f i =>
    match f, i with
    | 1, 1 => 0x400285#32
    | 1, 2 => 0x400285#32
    | 1, 767 => 0x1003#32
    | 1, 768 => 0x7003#32
    | 1, 769 => 0x6003#32
    | 6, 1 => 0x9003#32
    | 2047, 0 => 7#32
    | _, _ => 0#32
  pmmBitmap := fun i => if i < 64 then 0xFFFFFFFF#32 else 0#32
  pmmFrames := 16384
  vmmCurrent := 0x1000
  kernelEnd := 0xC0001000
  vmmTraps := [⟨.cow, 0x1000, 0x400000, some ⟨1, 1⟩⟩, ⟨.cow, 0x1000, 0x800000, some ⟨1, 0⟩⟩]
  vmmTrapsBase := 1 }

theorem hugeSample_used {f : ℕ} : used hugeSample f ↔ f < 2048 := by
  have hword : hugeSample.pmmBitmap (f / 32) = if f / 32 < 64 then 0xFFFFFFFF#32 else 0#32 := rfl
  unfold used pmmBit
  rw [hword]
  split_ifs with hlt
  · have hbit : BitVec.getLsbD 0xFFFFFFFF#32 (f % 32) = true := by
      rw [show 0xFFFFFFFF#32 = BitVec.allOnes 32 from rfl, BitVec.getLsbD_allOnes, decide_eq_true_iff]
      omega
    exact iff_of_true hbit (by omega)
  · exact iff_of_false (by simp) (by omega)

theorem hugeSample_slot {i : ℕ} (hi : i ≠ 767) (ht : (hugeSample.mem 1 i).HasTable) : i = 768 ∨ i = 769 := by
  by_contra hno
  rw [not_or] at hno
  by_cases h12 : i = 1 ∨ i = 2
  · rcases h12 with rfl | rfl <;> exact absurd ht (by decide)
  · have hz : hugeSample.mem 1 i = 0#32 := by
      simp only [hugeSample]
      split <;> simp_all
    rw [hz] at ht
    exact Word.not_hasTable_zero ht

/-- The directory and the shared frames. -/
def hugeFrames : Set ℕ := {f | f = 1 ∨ 1024 ≤ f ∧ f < 2048}

theorem hugeSample_tables : Tables hugeFrames {1} hugeSample := by
  constructor
  case frames => decide
  case sub => exact fun v hv => .inl hv
  case dir =>
    rintro v (rfl | ⟨hlo, hhi⟩)
    · exact ⟨hugeSample_used.mpr (by decide), by decide⟩
    · exact ⟨hugeSample_used.mpr hhi, by omega⟩
  case self =>
    rintro v rfl
    exact ⟨by decide, by decide, by decide, by decide⟩
  case present =>
    rintro v rfl i _ hi ht
    rcases hugeSample_slot hi ht with rfl | rfl <;> decide
  case rw =>
    rintro v rfl i _ hi ht
    rcases hugeSample_slot hi ht with rfl | rfl <;> decide
  case used =>
    rintro v rfl i _ hi ht
    rcases hugeSample_slot hi ht with rfl | rfl <;> exact hugeSample_used.mpr (by decide)
  case notDir =>
    rintro v rfl i _ hi ht
    have hframes : ∀ f, f ∈ hugeFrames → f = 1 ∨ 1024 ≤ f := fun f hf => hf.imp_right And.left
    rcases hugeSample_slot hi ht with rfl | rfl <;> exact fun hin => absurd (hframes _ hin) (by decide)
  case sep =>
    rintro v rfl w rfl i _ j _ hi hj ht ht' heq
    rcases hugeSample_slot hi ht with rfl | rfl
    all_goals rcases hugeSample_slot hj ht' with rfl | rfl
    all_goals first | exact ⟨rfl, .inl rfl⟩ | exact absurd heq (by decide)

theorem hugeSample_frames : FreeFrames hugeSample 14336 := by
  refine ⟨List.range' 2048 14336, List.length_range', List.nodup_range', fun f hf => ?_⟩
  obtain ⟨hlo, hhi⟩ := List.mem_range'_1.mp hf
  have hframes : hugeSample.pmmFrames = 16384 := rfl
  exact ⟨by omega, fun hu => absurd (hugeSample_used.mp hu) (by omega)⟩

theorem hugeSample_settled : Settled True hugeFrames {1} 14336 hugeSample where
  tables := hugeSample_tables
  cur := rfl
  aligned := rfl
  guard := ⟨fun _ => hugeSample_frames, fun hno => absurd trivial hno⟩
  spread := ⟨fun k hk => (by cases hk), fun _ hno => absurd rfl hno⟩
  kernel k hk := by cases hk

theorem hugeSample_pages : CowPages True {1} hugeSample := by
  intro d hd _
  rcases List.mem_pair.mp hd with rfl | rfl
  · exact ⟨1, rfl, rfl, by decide, fun _ hne => absurd rfl hne, fun hno => absurd trivial hno⟩
  · exact ⟨1, rfl, rfl, by decide, fun _ hne => absurd rfl hne, fun hno => absurd trivial hno⟩

theorem hugeSample_paired : TrapsPaired hugeSample := by
  intro i d hd _
  rcases i with _ | _ | i
  · cases hd
    exact ⟨_, _, rfl, rfl, rfl, rfl⟩
  · cases hd
    exact ⟨_, _, rfl, rfl, rfl, rfl⟩
  · cases hd

theorem hugeSample_shared : SharedPage hugeFrames {1} hugeSample 1 0x400000 1 0x800000 1 1024 where
  partner := ⟨0, _, _, _, rfl, rfl, rfl, rfl, rfl, rfl⟩
  vmm := ⟨rfl, rfl⟩
  user := ⟨by decide, by decide⟩
  aligned := ⟨by decide, by decide⟩
  apart := by decide
  size := ⟨by decide, by decide⟩
  page := ⟨false, by decide⟩
  origin := ⟨false, by decide⟩
  data k hk := by
    have hlt : k < 1024 := hk
    exact ⟨.inr ⟨by omega, by omega⟩, fun hin => absurd (show 1024 + k = 1 from hin) (by omega)⟩

theorem hugeSample_space : FirstSpace hugeSample 0xC0001 := by
  have hk : KernelEnds hugeSample := ⟨by decide, by decide⟩
  refine ⟨(copySpace_iff hk).mpr ⟨by decide, by decide, by decide, by decide⟩, fun p hp hsp => ?_⟩
  have hend : hugeSample.kernelEnd = 0xC0001000 := rfl
  have hle := ((copySpace_iff hk).mp hsp).1
  omega

/-- When there are frames for the copy, `vmm_cow_duplicate` returns true or not at all. -/
theorem cowCopy_true {K : Callees} {s u : Machine} {vmm va pgsz q f : ℕ} {src dst : TrapPtr}
    (hf : pmmAllocFree (pgsz / 4096) s = some (some f, u)) :
    Comp.Wp False (cowCopy K vmm va pgsz q src dst) (fun r _ => r = true) s := by
  have any : ∀ {α : Type} (c : Kernel α) (t : Machine), Comp.Wp False c (fun _ _ => True) t := fun _ _ => .const trivial
  unfold cowCopy
  refine .step hf (.bind (any _ _) fun d _ _ => .bind (any _ _) fun _ _ _ => ?_)
  unfold cowFinish
  refine .bind (any _ _) fun _ _ _ => .bind (any _ _) fun _ _ _ => .bind (any _ _) fun _ _ _ => .read_bind ?_
  exact .bind (any _ _) fun _ _ _ => .bind (any _ _) fun _ _ _ => .bind (any _ _) fun _ _ _ => .bind (any _ _) fun _ _ _ =>
    .pure rfl

theorem hugeSample_window : (vmmAllocMap (callees 2) 0x1000 0 8192 0xC0001000 uintptrMax 0 0 false (flagPresent ||| flagRw)
    { hugeSample with vmmTrapsMutex := true }).map (fun p => (p.1, pmmFirstFreeLoop p.2.pmmBitmap p.2.pmmFrames 1024 loopFuel 0)) =
      some (0xC0001000, some (some 2048)) := by
  decide +kernel

theorem hugeSample_resolves :
    Comp.Wp False (cowSearch (callees 2) 0x1000 0x400000 4194304) (fun r _ => r = true) hugeSample := by
  obtain ⟨⟨a, t⟩, halloc, heq⟩ := Option.map_eq_some_iff.mp hugeSample_window
  obtain ⟨rfl, hloop⟩ := Prod.mk.inj heq
  have hfirst : pmmFirstFree 1024 t = some (some 2048, t) := by
    rw [pmmFirstFree, Comp.readOr_apply, hloop]
    rfl
  obtain ⟨u, hu, -⟩ := pmmAllocRun_run t (f := 2048) 1024 (by decide)
  have hframes : pmmAllocFree (4194304 / 4096) t = some (some 2048, u) := by
    rw [show 4194304 / 4096 = 1024 from rfl, pmmAllocFree, Comp.bind_of_eq hfirst]
    dsimp only
    rw [Comp.bind_of_eq hu]
    rfl
  have hcow : HasCow hugeSample (1 * 4096) 0x400000 := ⟨_, List.mem_cons_self, by decide⟩
  refine cowSearch_wp (v := 1) hugeSample_paired hugeSample_pages False.elim (fun hno => absurd hcow hno)
    fun i p d u w _ _ _ _ _ _ _ _ => ?_
  unfold cowWindow
  refine .read_bind (.read_bind (.step halloc ?_))
  rw [if_neg (by decide)]
  exact cowCopy_true hframes

theorem hugeSample_target : CopyTarget (fun g => g ∈ insert 9 hugeFrames ∧ g ∉ ({1} : Set ℕ)) hugeSample := by
  intro q g hq hg
  have hnine : accessAt hugeSample.mem hugeSample.cr3 ((0xC0001 + 1024) % 1048576) = some (9, true) := by decide
  rw [hq.unique hugeSample_space, hnine] at hg
  cases hg
  exact ⟨.inl rfl, by decide⟩

theorem hugeSample_apart : Settled True (insert 9 hugeFrames) {1} 14336 hugeSample := by
  refine hugeSample_settled.setApart (hugeSample_used.mpr (by decide)) (by decide) ?_
  rintro v rfl i _ hi ht
  rcases hugeSample_slot hi ht with rfl | rfl <;> decide

theorem hugeSample_run : ∃ t, vmmCowDuplicate (callees 2) 0x1000 0x400000 (some 1) hugeSample = some (true, t) ∧
    HugeOutcome hugeSample 1 0x400000 1 0x800000 true t := by
  have hset : Settled True (insert 9 hugeFrames) {1} 7182 hugeSample := hugeSample_apart.le (by decide)
  obtain ⟨r, t, hrun, hout⟩ : ∃ r t, cowSearch (callees 2) (1 * 4096) 0x400000 4194304 hugeSample = some (r, t) ∧ _ :=
    (hset.searchHuge (callees_closed 1) ⟨by decide, by decide⟩ hugeSample_paired hugeSample_pages hugeSample_target).total
      ⟨⟨trivial, fun q hq => ⟨9, (by rw [hq.unique hugeSample_space]; decide)⟩⟩, rfl⟩
  obtain rfl : r = true := hugeSample_resolves.2 r t hrun
  have hlook : (if some 1 = none then vmmGetPgsz (callees 2) 0x1000 0x400000 else pure (some 1)) hugeSample =
      some (some 1, hugeSample) := rfl
  refine ⟨t, ?_, ?_⟩
  · rw [vmmCowDuplicate_eq, Comp.bind_of_eq hlook]
    exact hrun
  · rcases hout with ⟨-, hno, -⟩ | ⟨-, w, src, hpartner, hout⟩
    · cases hno
    · obtain ⟨rfl, rfl⟩ := hugeSample_shared.partner.unique hpartner
      exact hout

/-- The sample's page gets 4 MiB of zeros. -/
theorem huge_page_not_copied : ¬ ∀ (ok : Prop) (D L : Set ℕ) (s t : Machine) (v va w src idx g : ℕ), Settled ok D L 7184 s →
    KernelEnds s → TrapsPaired s → CowPages ok L s → idx < vmmPgszNum → SharedPage D L s v va w src idx g →
    vmmCowDuplicate (callees 2) (v * 4096) va (some idx) s = some (true, t) →
    PrivateCopy D L s t v va w src (vmmPgsz idx / 4096) := by
  intro h
  obtain ⟨t, hrun, hout⟩ := hugeSample_run
  have hcopy := h True hugeFrames {1} hugeSample t 1 0x400000 1 0x800000 1 1024 (hugeSample_settled.le (by decide))
    ⟨by decide, by decide⟩ hugeSample_paired hugeSample_pages (by decide) hugeSample_shared hrun
  rcases hout.not_privateCopy hugeSample_tables hugeSample_shared hcopy with ⟨hno, -⟩ | ⟨-, x, hx, hsame⟩
  · cases hno
  · have hlast : hugeSample.mem (1024 + 1023) 0 = 7#32 := rfl
    have hfree : hugeSample.mem x 0 = 0#32 := by
      have hlt : ¬ x < 2048 := fun hlt => hx (hugeSample_used.mpr hlt)
      simp only [hugeSample]
      split <;> simp_all
    rw [congrFun hsame 0, hlast] at hfree
    exact absurd hfree (by decide)

end SysX
