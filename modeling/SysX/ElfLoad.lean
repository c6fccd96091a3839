import SysX.BlockedLoad

/-!
The image of a file after `elf_load_phdr`, and when it is the one that the program headers ask for.
-/
namespace SysX

namespace Blocked

variable {ok : Prop} {L D : Set ℕ} {s₀ t : Machine} {v m dst : ℕ} {user : Bool} {K : Callees} {p : ElfPhdr}
  {file : ℕ → ℕ → List UInt8}

theorem segment (h : Blocked ok L s₀ v D (m + 4 * p.pagesFrom 0 + 7 * p.pages + 2) dst t) (hK : K.Closed) (hv : v ∈ L)
    (hvc : v ≠ s₀.cr3) (h0 : 0 ∉ L) (hroom : ¬ Room s₀ (fun _ => 0#32) 0 2) (hk : KernelEnds s₀) (hp : p.Below)
    (hfree : ∀ q, p.Touches q → view s₀.mem v q = none) :
    Comp.Wp (Supplied ok s₀) (elfLoadSegment K (v * 4096) user file dst p) (fun r t' => (∀ dst' w, r = some (dst', w) →
      ∃ D', (D ⊆ D' ∧ (0 < p.pages → ∃ f ∈ D', ¬ used s₀ f)) ∧ Blocked ok L s₀ v D' m dst' t') ∧ (Supplied ok s₀ → r ≠ none)) t := by
  have hok : Supplied ok s₀ → ok := fun hs => hs.1
  refine .bind ((h.copyDst hK hv hvc hk).weaken hok fun _ _ => id) fun a t₁ ⟨h₁, hfound⟩ =>
    .ite (fun hzero => .pure ⟨nofun, fun hs => absurd hzero (hfound hs.2.1)⟩) fun hne => ?_
  have hpages := mapPages user p (j := 0) hK hv hvc hroom p.pages (h₁ hne) (ElfPhdr.lastPage hp) fun q hlo hhi =>
    hfree q ⟨hlo, hhi⟩
  refine .bind (hpages.weaken hok fun _ _ => id) fun done t₂ ⟨hyes, D', ⟨hsub, hlost⟩, h₂⟩ =>
    .ite (fun hfalse => .pure ⟨nofun, fun hs => absurd (hyes hs.1) (by rw [hfalse]; exact Bool.false_ne_true)⟩) fun htrue => ?_
  have hcopy := copyPages file hK hv hvc h0 hroom hp hfree hne loopFuel (Nat.zero_le _) (ElfPhdr.pagesFrom_lt_fuel hp 0) h₂
  refine .bind (hcopy.weaken hok fun _ _ => id) fun written t₃ h₃ =>
    .bind ((h₃.krealloc hv).weaken hok fun _ _ => id) fun block t₄ ⟨h₄, hblock⟩ => .pure ⟨fun dst' w hw => ?_, fun hs => ?_⟩
  · obtain ⟨b, -, hb⟩ := Option.map_eq_some_iff.mp hw
    cases hb
    exact ⟨D', ⟨hsub, hlost (by simpa using htrue)⟩, h₄⟩
  · obtain ⟨b, rfl⟩ := Option.isSome_iff_exists.mp (hblock hs.2.2)
    exact Option.some_ne_none _

/-- What holds between two segments. -/
def Between (ok : Prop) (L : Set ℕ) (s₀ : Machine) (v m : ℕ) (_ rest : List ElfPhdr) (dst : ℕ) (_ : List ℕ) (t : Machine) : Prop :=
  (∃ D, Blocked ok L s₀ v D (m + loadCost rest) dst t) ∧ ∀ p ∈ rest, p.Below ∧ ∀ q, p.Touches q → view s₀.mem v q = none

/-- No free page of `v` is mapped, but for what a free frame held. -/
def StillFree (s₀ : Machine) (v : ℕ) (t : Machine) : Prop :=
  ∀ q < userPages, view s₀.mem v q = none →
    view t.mem v q = none ∨ ∃ f, ¬ used s₀ f ∧ view t.mem v q = viewPte (s₀.mem f (q % 1024))

theorem between (hK : K.Closed) (hv : v ∈ L) (hvc : v ≠ s₀.cr3) (h0 : 0 ∉ L) (hroom : ¬ Room s₀ (fun _ => 0#32) 0 2)
    (hk : KernelEnds s₀) (p : ElfPhdr) (done rest : List ElfPhdr) (dst : ℕ) (written : List ℕ) (t : Machine)
    (h : Between ok L s₀ v m done (p :: rest) dst written t) :
    Comp.Wp (Supplied ok s₀) (elfLoadSegment K (v * 4096) user file dst p) (fun r t' => (∀ dst' w, r = some (dst', w) →
      Between ok L s₀ v m (done ++ [p]) rest dst' (written ++ w) t') ∧ (Supplied ok s₀ → r ≠ none)) t := by
  obtain ⟨⟨D, h⟩, hready⟩ := h
  rw [loadCost_cons] at h
  obtain ⟨hp, hfree⟩ := hready p List.mem_cons_self
  refine (h.segment hK hv hvc h0 hroom hk hp hfree).mono ?_
  rintro r t' ⟨hr, hsome⟩
  refine ⟨fun dst' w hw => ?_, hsome⟩
  obtain ⟨D', -, h'⟩ := hr dst' w hw
  exact ⟨⟨D', h'⟩, fun p' hp' => hready p' (List.mem_cons_of_mem p hp')⟩

theorem close {done : List ElfPhdr} {written : List ℕ} (hv : v ∈ L) (h : Between ok L s₀ v m done [] dst written t) :
    Comp.Wp (Supplied ok s₀) (Comp.when (dst ≠ 0) (vmmPgunmap K t.vmmCurrent dst 0)) (fun _ => StillFree s₀ v) t := by
  obtain ⟨⟨D, h⟩, -⟩ := h
  refine .when (fun hne => ?_) fun _ => h.stale
  obtain ⟨q, f, rfl, hpage⟩ := h.copy.resolve_left hne
  refine (h.settled.closeCopy hpage).weaken (fun hs => hs.1) fun _ t' ⟨hin, _⟩ p hp hno => ?_
  have hlow := hpage.low
  rw [hin.page v hv p (Windowed.regular_of_user hp) (.inr hp) fun hC => by unfold userPages at hp; omega]
  exact h.stale p hp hno

end Blocked

section Claim

variable {ok : Prop} {D L : Set ℕ} {s t : Machine} {v m : ℕ} {K : Callees} {file : ℕ → ℕ → List UInt8}
  {content : ℕ → UInt8} {junk : ℕ → ℕ → UInt8} {hdr : ElfEhdr} {l : ElfLoaded}

/-- `elf_load_phdr` where they cannot. -/
theorem elfLoadPhdr_blocked (user : Bool) (hK : K.Closed) (h : Settled ok D L (m + loadCost (hdr.segments file junk s)) s) (hv : v ∈ L)
    (hvc : v ≠ s.cr3) (hk : KernelEnds s) (hzero : 0 ∈ D) (h0 : 0 ∉ L) (hroom : ¬ Room s (fun _ => 0#32) 0 2)
    (hready : ∀ p ∈ hdr.segments file junk s, p.Below ∧ ∀ q, p.Touches q → view s.mem v q = none) :
    Comp.Wp (Supplied ok s) (elfLoadPhdr K file junk hdr (v * 4096) user) (fun r t =>
      (∀ l, r = .ok l → Blocked.StillFree s v t) ∧ (Supplied ok s → ∃ l, r = .ok l)) s := by
  obtain ⟨hstart, -⟩ := ((Blocked.start (v := v) h hzero).krealloc hv).2 _ _ rfl
  exact elfLoadPhdr_wp (J := Blocked.Between ok L s v m) (R := fun _ _ => Blocked.StillFree s v) (fun hs => hs.2.2 _)
    ⟨⟨D, hstart⟩, hready⟩ (Blocked.between hK hv hvc h0 hroom hk) fun _ _ _ _ => Blocked.close hv

/-- The page tables of the VMM can be reached: it is the current one, or there are two free pages for windows. -/
def TablesInReach (s : Machine) (v : ℕ) : Prop := v = s.cr3 ∨ Room s (fun _ => 0#32) 0 2

/-- A free frame holds what reads as the entry of a present page. -/
def StalePage (s : Machine) : Prop := ∃ f, ¬ used s f ∧ ∃ k, (s.mem f k).present = true

/-- After `LOAD_OK` the VMM holds the image of the file where its page tables can be reached, or there is nothing to load. -/
theorem elf_image_iff (n : ℕ) {user : Bool} (h : Settled ok D L (loadCost (hdr.segments file junk s)) s) (hv : v ∈ L) (hk : KernelEnds s)
    (hzero : 0 ∈ D) (h0 : 0 ∉ L) (hload : Loadable s v file content (hdr.segments file junk s))
    (hnull : ¬ ok → v = s.cr3 → ∀ p ∈ hdr.segments file junk s, ¬ p.Touches 0)
    (hrun : elfLoadPhdr (callees (n + 1)) file junk hdr (v * 4096) user s = some (.ok l, t)) :
    (TablesInReach s v ∨ (∀ p ∈ hdr.segments file junk s, ∀ q, ¬ p.Touches q) →
      ImageIn t v user content (hdr.segments file junk s)) ∧
    (ImageIn t v user content (hdr.segments file junk s) →
      TablesInReach s v ∨ (∀ p ∈ hdr.segments file junk s, ∀ q, ¬ p.Touches q) ∨ StalePage s) := by
  have hK := callees_closed n
  have h' : Settled ok D L (0 + loadCost (hdr.segments file junk s)) s := by
    rw [Nat.zero_add]
    exact h
  refine ⟨fun hcond => ?_, fun himage => ?_⟩
  · rcases hcond with hreach | hempty
    · have hready : ∀ p ∈ hdr.segments file junk s, p.Ready ok s v file content := fun p hp =>
        ⟨hload.below p hp, hload.served p hp, hload.free p hp, fun hno hvc => hnull hno hvc p hp⟩
      obtain ⟨⟨D', F, dst, t₁, hdone⟩, -⟩ :=
        ((elfLoadPhdr_loads user hK h' hv hk (h.tables.dir 0 hzero).1 hreach hready).2 _ _ hrun).1 l rfl
      exact hdone.imageIn hv hload.apart
    · exact .of_untouched hload.below hempty
  · by_contra hno
    push Not at hno
    obtain ⟨hblocked, ⟨p, hp, q, hq⟩, hstale⟩ := hno
    obtain ⟨hvc, hroom⟩ := not_or.mp hblocked
    have hfree := ((elfLoadPhdr_blocked user hK h' hv hvc hk hzero h0 hroom fun p hp =>
      ⟨hload.below p hp, hload.free p hp⟩).2 _ _ hrun).1 l rfl
    obtain ⟨f, fl, hview, hpres, -⟩ := himage.page q ⟨p, hp, hq⟩
    have huser := lt_of_lt_of_le hq.2 (ElfPhdr.lastPage (hload.below p hp))
    rcases hfree q huser (hload.free p hp q hq) with hnone | ⟨g, hg, hold⟩
    · rw [hnone] at hview
      cases hview
    · rw [hold, viewPte] at hview
      split_ifs at hview
      obtain ⟨-, rfl⟩ := Prod.mk.inj (Option.some.inj hview)
      rw [Word.getFlags_bit0] at hpres
      exact hstale ⟨g, hg, _, hpres⟩

end Claim

/-- The current VMM in frame 1 and another one in frame 3, with nothing in the user half of either; or all of the current one's is
mapped. -/
def elfSample (full : Bool) : Machine := { (default : Machine) with
  mem := fun f i => if f = 1 ∧ i < 767 then (if full then 0x83#32 else 0#32) else if f = 1 ∧ i = 767 then 0x1003#32
    else if f = 3 ∧ i = 767 then 0x3003#32 else 0#32
  pmmBitmap := fun i => if i = 0 then 0xFFFFFFFF#32 else 0#32
  pmmFrames := 128
  vmmCurrent := 0x1000
  kernelEnd := 0xC0001000
  heap := fun _ => some 0xC0000000 }

/-- One program header, of a segment of 4 bytes on two pages. The file has the first of them. -/
def elfSampleBytes (k : ℕ) : UInt8 :=
  ([1, 0, 0, 0, 32, 0, 0, 0, 254, 15, 64, 0, 0, 0, 0, 0, 1, 0, 0, 0, 4, 0, 0, 0, 6, 0, 0, 0, 0, 0, 0, 0, 42] : List UInt8).getD k 0

def elfSampleFile (offset size : ℕ) : List UInt8 := (List.range size).map fun i => elfSampleBytes (offset + i)

def elfSampleHeader : ElfEhdr := ⟨fun _ => 0, etExec, emI386, 1, 0x400FFE, 0, 32, 1⟩

theorem elfSample_segments (full : Bool) : elfSampleHeader.segments elfSampleFile (fun _ _ => 0) (elfSample full) =
    [⟨1, 32, 0x400FFE, 1, 4, 6⟩] := by
  cases full <;> decide +kernel

theorem elfSample_tables (full : Bool) : Tables {0, 1, 3} {1, 3} (elfSample full) := by
  have hno : ∀ v ∈ ({1, 3} : Set ℕ), ∀ i < 1024, i ≠ 767 → ¬ ((elfSample full).mem v i).HasTable := by
    rintro v hv i - hi ht
    simp only [elfSample] at ht
    split_ifs at ht
    all_goals first | omega | exact absurd ht.2 (by decide) | exact Word.not_hasTable_zero ht
  constructor
  case frames => exact show 128 ≤ 1048576 by decide
  case sub => exact Set.subset_insert 0 _
  case dir =>
    rintro v (rfl | rfl | rfl)
    all_goals exact ⟨by cases full <;> decide, by decide⟩
  case self =>
    rintro v (rfl | rfl)
    all_goals cases full <;> exact ⟨by decide, by decide, by decide, by decide⟩
  case present => exact fun v hv i hi hne ht => absurd ht (hno v hv i hi hne)
  case rw => exact fun v hv i hi hne ht => absurd ht (hno v hv i hi hne)
  case used => exact fun v hv i hi hne ht => absurd ht (hno v hv i hi hne)
  case notDir => exact fun v hv i hi hne ht => absurd ht (hno v hv i hi hne)
  case sep => exact fun v hv w _ i hi j _ hne _ ht => absurd ht (hno v hv i hi hne)

theorem elfSample_settled (full : Bool) : Settled True {0, 1, 3} {1, 3}
    (loadCost (elfSampleHeader.segments elfSampleFile (fun _ _ => 0) (elfSample full))) (elfSample full) where
  tables := elfSample_tables full
  cur := .inl (by cases full <;> rfl)
  aligned := by cases full <;> rfl
  guard := by
    refine ⟨fun _ => ⟨List.range' 32 24, ?_, List.nodup_range', fun f hf => ?_⟩, fun hno => absurd trivial hno⟩
    · rw [elfSample_segments, List.length_range']
      decide
    · obtain ⟨hlo, hhi⟩ := List.mem_range'_1.mp hf
      have hword : (elfSample full).pmmBitmap (f / 32) = 0#32 := if_neg (by omega)
      refine ⟨show f < 128 by omega, ?_⟩
      unfold used pmmBit
      rw [hword]
      simp
  spread := ⟨fun k hk => (by cases hk), fun _ hno => absurd rfl hno⟩
  kernel k hk := by cases hk

theorem elfSample_loadable (full : Bool) : Loadable (elfSample full) 3 elfSampleFile elfSampleBytes
    (elfSampleHeader.segments elfSampleFile (fun _ _ => 0) (elfSample full)) := by
  rw [elfSample_segments]
  refine ⟨?_, ?_, List.pairwise_singleton _ _, ?_⟩
  · rintro p hp
    obtain rfl := List.mem_singleton.mp hp
    exact show 0x400FFE + 4 ≤ 0xBFC00000 by decide
  · rintro p hp offset size hsize
    obtain rfl := List.mem_singleton.mp hp
    have hsize : offset + size ≤ 1 := hsize
    rw [elfSampleFile, w32_of_lt (show 32 + offset < 4294967296 by omega), List.take_of_length_le (by simp)]
  · rintro p hp q ⟨hlo, hhi⟩
    obtain rfl := List.mem_singleton.mp hp
    have hlo : 1024 ≤ q := hlo
    have hhi : q < 1026 := hhi
    refine view_of_slot_zero ?_
    rw [show q / 1024 = 1 by omega]
    cases full <;> rfl

theorem elfSample_supplied (full : Bool) : Supplied True (elfSample full) := by
  refine ⟨trivial, ⟨0xC0001000, by decide, by cases full <;> decide, by decide, fun k hk => ?_⟩, fun _ => rfl⟩
  obtain rfl : k = 0 := by
    have : pages 4096 = 1 := rfl
    omega
  cases full <;> decide

theorem elfSample_full : ¬ Room (elfSample true) (fun _ => 0#32) 0 2 := by
  rintro ⟨ps, hlen, -, hps⟩
  obtain ⟨p, hp⟩ := List.exists_mem_of_length_pos (l := ps) (by omega)
  obtain ⟨-, huser, -, hnone⟩ := (hps p hp).2
  have hentry : (elfSample true).mem 1 (p / 1024) = 0x83#32 := if_pos ⟨rfl, userPages_slot huser⟩
  have hsmall : ((elfSample true).mem 1 (p / 1024)).pgsz = false := (view_eq_none.mp hnone).1
  rw [hentry] at hsmall
  exact absurd hsmall (by decide)

theorem elfSample_room : Room (elfSample false) (fun _ => 0#32) 0 2 := by
  refine ⟨[1, 2], rfl, by decide, fun p hp => ⟨Nat.zero_le p, ?_⟩⟩
  rcases List.mem_pair.mp hp with rfl | rfl
  all_goals exact ⟨by decide, by decide, rfl, by decide⟩

/-- The segment is loaded to the other VMM. -/
theorem elf_image_iff_sample : ∃ l t, elfLoadPhdr (callees 2) elfSampleFile (fun _ _ => 0) elfSampleHeader 0x3000 true
    (elfSample false) = some (.ok l, t) ∧ ImageIn t 3 true elfSampleBytes [⟨1, 32, 0x400FFE, 1, 4, 6⟩] := by
  have hk : KernelEnds (elfSample false) := ⟨by decide, by decide⟩
  have hv : 3 ∈ ({1, 3} : Set ℕ) := .inr rfl
  have hzero : 0 ∈ ({0, 1, 3} : Set ℕ) := .inl rfl
  have hload := elfSample_loadable false
  have hset := elfSample_settled false
  have hready : ∀ p ∈ elfSampleHeader.segments elfSampleFile (fun _ _ => 0) (elfSample false),
      p.Ready True (elfSample false) 3 elfSampleFile elfSampleBytes := fun p hp =>
    ⟨hload.below p hp, hload.served p hp, hload.free p hp, fun hno => absurd trivial hno⟩
  have hruns := elfLoadPhdr_loads (m := 0) true (callees_closed 1) (by rwa [Nat.zero_add]) hv hk
    (hset.tables.dir 0 hzero).1 (.inr elfSample_room) hready
  obtain ⟨r, t, hrun, -, hsure⟩ := hruns.total (elfSample_supplied false)
  obtain ⟨l, rfl⟩ := hsure (elfSample_supplied false)
  have himage := (elf_image_iff 1 hset hv hk hzero (by simp) hload (fun hno => absurd trivial hno) hrun).1
    (.inl (.inr elfSample_room))
  rw [elfSample_segments] at himage
  exact ⟨l, t, hrun, himage⟩

/-- Without windows nothing of the segment is mapped, and the result is `LOAD_OK`. -/
theorem elf_image_missing : ¬ ∀ (ok : Prop) (D L : Set ℕ) (s t : Machine) (v : ℕ) (user : Bool) (file : ℕ → ℕ → List UInt8)
    (content : ℕ → UInt8) (junk : ℕ → ℕ → UInt8) (hdr : ElfEhdr) (l : ElfLoaded),
    Settled ok D L (loadCost (hdr.segments file junk s)) s → v ∈ L → KernelEnds s → 0 ∈ D → 0 ∉ L →
    Loadable s v file content (hdr.segments file junk s) →
    (¬ ok → v = s.cr3 → ∀ p ∈ hdr.segments file junk s, ¬ p.Touches 0) →
    elfLoadPhdr (callees 2) file junk hdr (v * 4096) user s = some (.ok l, t) →
    ImageIn t v user content (hdr.segments file junk s) := by
  intro h
  have hk : KernelEnds (elfSample true) := ⟨by decide, by decide⟩
  have hv : 3 ∈ ({1, 3} : Set ℕ) := .inr rfl
  have hzero : 0 ∈ ({0, 1, 3} : Set ℕ) := .inl rfl
  have hload := elfSample_loadable true
  have hset := elfSample_settled true
  have hruns := elfLoadPhdr_blocked (m := 0) true (callees_closed 1) (by rwa [Nat.zero_add]) hv (by decide) hk
    hzero (by simp) elfSample_full fun p hp => ⟨hload.below p hp, hload.free p hp⟩
  obtain ⟨r, t, hrun, hfree, hsure⟩ := hruns.total (elfSample_supplied true)
  obtain ⟨l, rfl⟩ := hsure (elfSample_supplied true)
  have himage := h True {0, 1, 3} {1, 3} (elfSample true) t 3 true elfSampleFile elfSampleBytes (fun _ _ => 0) elfSampleHeader l hset
    hv hk hzero (by simp) hload (fun hno => absurd trivial hno) hrun
  rw [elfSample_segments] at himage
  obtain ⟨f, fl, hview, -⟩ := himage.page 1024 ⟨_, List.mem_singleton_self _, by decide, by decide⟩
  rcases hfree l rfl 1024 (by decide) (by decide) with hnone | ⟨g, hg, hold⟩
  · rw [hnone] at hview
    cases hview
  · have hzero : (elfSample true).mem g (1024 % 1024) = 0#32 := by
      have hg1 : g ≠ 1 := fun he => hg (he ▸ by decide)
      simp [elfSample, hg1]
    rw [hold, hzero] at hview
    cases hview

end SysX
