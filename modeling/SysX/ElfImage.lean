import SysX.SegmentLoops
import SysX.ElfSegments

/-!
`elf_load_phdr`: the image that a file has in the VMM it is loaded to.
-/
namespace SysX

namespace Loading

variable {ok : Prop} {D₀ L D : Set ℕ} {s₀ t : Machine} {v m dst q f : ℕ} {F : ℕ → ℕ} {user : Bool} {I : Image UInt8} {K : Callees}

/-- Nothing has been loaded yet. -/
theorem start {s : Machine} (h : Settled ok D L m s) (hzero : used s 0) (hroom : v = s.cr3 ∨ Room s (fun _ => 0#32) 0 2) :
    Loading ok D L s v user D F m 0 .empty s where
  dirs := h.tables.sub
  sub := Set.Subset.rfl
  settled := h
  reserved := hzero
  elsewhere := .refl D L _ s
  room := hroom
  copy := .inl rfl
  low _ _ h := by cases h
  page _ _ h := by cases h
  small _ _ h := by cases h
  frame _ _ h := by cases h
  inj _ _ _ _ h := by cases h
  free _ _ _ h := h
  byte _ _ h := by cases h

/-- The heap is apart from the pages of the image. -/
theorem krealloc (h : Loading ok D₀ L s₀ v user D F m dst I t) (hv : v ∈ L) :
    Comp.Wp ok krealloc (fun r t' => Loading ok D₀ L s₀ v user D F m dst I t' ∧ ((∀ n, (s₀.heap n).isSome) → r.isSome)) t := by
  have hin : Elsewhere D L (fun w q => w = t.cr3 ∧ 786432 ≤ q ∧ q * 4096 = dst) t { t with heapCalls := t.heapCalls + 1 } :=
    .of_mem rfl rfl rfl rfl fun _ => id
  refine .of_eq rfl ⟨h.quiet hv (h.settled.setTraps t.vmmTraps _) hin (.inr rfl) ?_, fun hheap => ?_⟩
  · exact h.copy.imp_right fun ⟨q, f, hq, hpage⟩ => ⟨q, f, hq, hpage.low, hpage.high, hpage.small, hpage.view⟩
  · show (t.heap t.heapCalls).isSome
    rw [h.elsewhere.heap]
    exact hheap _

/-- The copy page is there, or it is found now. -/
theorem copyDst (h : Loading ok D₀ L s₀ v user D F (m + 2) dst I t) (hK : K.Closed) (hv : v ∈ L) (hc : s₀.cr3 ∈ L)
    (hk : KernelEnds s₀) : Comp.Wp ok (elfCopyDst K dst) (fun a t' => (a ≠ 0 → Loading ok D₀ L s₀ v user D F m a I t') ∧
      (WindowFree s₀ → a ≠ 0)) t := by
  refine .ite (fun hne => .pure ⟨fun _ => { h with settled := h.settled.le (by omega) }, fun _ => hne⟩) fun hzero => ?_
  obtain rfl : dst = 0 := by simpa using hzero
  have hend : KernelEnds t := by
    unfold KernelEnds
    rw [h.elsewhere.kernelEnd]
    exact hk
  refine .read_bind (.read_bind ((h.settled.openCopy hK hend).mono ?_))
  rintro a t' (⟨rfl, -, hno⟩ | ⟨q, rfl, hset, hrest, -, hin, hpage⟩)
  · refine ⟨fun ha => absurd rfl ha, fun hfree => absurd (h.elsewhere.windowFree hc hk ?_ hfree) hno⟩
    rintro q hq (⟨-, hlow⟩ | ⟨-, -, hne⟩)
    · unfold userPages at hlow
      omega
    · exact hne rfl
  · refine ⟨fun _ => h.quiet hv hset (hin.mono ?_) (.inl rfl) (.inr ⟨q, 0, rfl, hpage⟩), fun _ => ?_⟩
    · rintro x p ⟨hx, rfl⟩
      exact ⟨hx, hpage.low, rfl⟩
    · have := hpage.low
      omega

end Loading

/-! What is promised of a file, and what `LOAD_OK` promises then. -/

/-- The page holds bytes of the segment, or is allocated for it. -/
def ElfPhdr.Touches (p : ElfPhdr) (q : ℕ) : Prop := p.vaddr / 4096 ≤ q ∧ q < p.vaddr / 4096 + p.pages

def ElfPhdr.HasByte (p : ElfPhdr) (a : ℕ) : Prop := p.vaddr ≤ a ∧ a < p.vaddr + p.memsz

/-- The segments lie below the kernel, have no byte in common and touch no page that is mapped already, and `vfs_read` returns
what the file holds of them. -/
structure Loadable (s : Machine) (v : ℕ) (file : ℕ → ℕ → List UInt8) (content : ℕ → UInt8) (ps : List ElfPhdr) : Prop where
  below : ∀ p ∈ ps, p.Below
  served : ∀ p ∈ ps, p.Served file content
  apart : ps.Pairwise fun p p' => ∀ a, ¬ (p.HasByte a ∧ p'.HasByte a)
  free : ∀ p ∈ ps, ∀ q, p.Touches q → view s.mem v q = none

/-- The byte at an address of a VMM. -/
def byteAt (s : Machine) (v a : ℕ) : Option UInt8 := (view s.mem v (a / 4096)).map fun x => frameByte (s.mem x.1) (a % 4096)

/-- `v` holds the image of the segments. -/
structure ImageIn (t : Machine) (v : ℕ) (user : Bool) (content : ℕ → UInt8) (ps : List ElfPhdr) : Prop where
  byte : ∀ p ∈ ps, ∀ i < p.memsz, byteAt t v (p.vaddr + i) = some (p.contentAt content i)
  page : ∀ q, (∃ p ∈ ps, p.Touches q) → ∃ f fl, view t.mem v q = some (f, fl) ∧ fl.getLsbD 0 = true ∧
    fl.getLsbD 2 = user ∧ (fl.getLsbD 1 = true ↔ ∃ p ∈ ps, p.Touches q ∧ p.writable = true)

section Image

variable {ok : Prop} {D₀ L D : Set ℕ} {s₀ t : Machine} {v m dst : ℕ} {F : ℕ → ℕ} {user : Bool} {content : ℕ → UInt8}
  {ps : List ElfPhdr}

/-- Where the segments have no byte in common, the image has the bytes of all. -/
theorem Loading.imageIn (h : Loading ok D₀ L s₀ v user D F m dst (.ofSegments (ps.map (·.segment content))) t)
    (hapart : ps.Pairwise fun p p' => ∀ a, ¬ (p.HasByte a ∧ p'.HasByte a)) : ImageIn t v user content ps where
  byte p hp i hi := by
    have hdisjoint : (ps.map (·.segment content)).Pairwise fun s s' => ∀ a, ¬ (s.HasByte a ∧ s'.HasByte a) :=
      List.pairwise_map.mpr hapart
    have hbyte := Image.byte_of_disjoint hdisjoint (List.mem_map_of_mem hp) (a := p.vaddr + i)
      ⟨Nat.le_add_right _ _, Nat.add_lt_add_left hi _⟩
    obtain ⟨hsome, hval⟩ := h.byte _ _ hbyte
    obtain ⟨w, hw⟩ := Option.isSome_iff_exists.mp hsome
    rw [byteAt, h.page _ w hw, Option.map_some, hval]
    show some (p.contentAt content (p.vaddr + i - p.vaddr)) = _
    rw [Nat.add_sub_cancel_left]
  page q hq := by
    obtain ⟨p, hp, htouch⟩ := hq
    have hsome := Image.perm_isSome.mpr ⟨p.segment content, List.mem_map_of_mem hp, htouch⟩
    obtain ⟨w, hw⟩ := Option.isSome_iff_exists.mp hsome
    have hbits := segmentFlags_bits user w
    refine ⟨_, _, h.page q w hw, hbits.1, hbits.2.2.1, ?_⟩
    rw [hbits.2.1, Image.perm_writable hw]
    constructor
    · rintro ⟨s, hs, hpage, hwrite⟩
      obtain ⟨p', hp', rfl⟩ := List.mem_map.mp hs
      exact ⟨p', hp', hpage, hwrite⟩
    · rintro ⟨p', hp', hpage, hwrite⟩
      exact ⟨_, List.mem_map_of_mem hp', hpage, hwrite⟩

/-- The image does not change where nothing of it does. -/
theorem ImageIn.congr {u : Machine} (h : ImageIn t v user content ps)
    (hview : ∀ p ∈ ps, ∀ q, p.Touches q → view u.mem v q = view t.mem v q)
    (hmem : ∀ p ∈ ps, ∀ q, p.Touches q → ∀ x ∈ view t.mem v q, u.mem x.1 = t.mem x.1)
    (htouch : ∀ p ∈ ps, ∀ i < p.memsz, p.Touches ((p.vaddr + i) / 4096)) : ImageIn u v user content ps where
  byte p hp i hi := by
    have hq := htouch p hp i hi
    rw [← h.byte p hp i hi, byteAt, byteAt, hview p hp _ hq]
    refine Option.map_congr fun x hx => ?_
    rw [hmem p hp _ hq x hx]
  page q hq := by
    obtain ⟨p, hp, htouches⟩ := hq
    rw [hview p hp q htouches]
    exact h.page q ⟨p, hp, htouches⟩

end Image

/-! The run of the loader. -/

/-- Frames that are enough for the page tables behind the pages of the segments and for the windows. -/
def loadCost (ps : List ElfPhdr) : ℕ := (ps.map fun p => 7 * p.pages + 4 * p.pagesFrom 0 + 2).sum

theorem loadCost_cons (m : ℕ) (p : ElfPhdr) (ps : List ElfPhdr) :
    m + loadCost (p :: ps) = m + loadCost ps + 4 * p.pagesFrom 0 + 7 * p.pages + 2 := by
  unfold loadCost
  rw [List.map_cons, List.sum_cons]
  omega

/-- No allocation of the loader fails. -/
def Supplied (ok : Prop) (s : Machine) : Prop := ok ∧ WindowFree s ∧ ∀ n, (s.heap n).isSome

/-- What the loader relies on for a segment. -/
structure ElfPhdr.Ready (ok : Prop) (s : Machine) (v : ℕ) (file : ℕ → ℕ → List UInt8) (content : ℕ → UInt8) (p : ElfPhdr) : Prop where
  below : p.Below
  served : p.Served file content
  free : ∀ q, p.Touches q → view s.mem v q = none
  null : ¬ ok → v = s.cr3 → ¬ p.Touches 0

section Run

variable {ok : Prop} {D₀ L D : Set ℕ} {s₀ t : Machine} {v m dst phentsize : ℕ} {F : ℕ → ℕ} {user : Bool} {content : ℕ → UInt8}
  {ps : List ElfPhdr} {p : ElfPhdr} {file : ℕ → ℕ → List UInt8} {phdr : ℕ → UInt8} {K : Callees} {I : Image UInt8}

theorem ElfPhdr.touches_of_hasByte (hp : p.Below) {a : ℕ} (ha : p.HasByte a) : p.Touches (a / 4096) := by
  obtain ⟨hlo, hhi⟩ := ha
  unfold ElfPhdr.Touches
  rw [ElfPhdr.pages_eq hp]
  omega

/-- There is no image where there is nothing to load. -/
theorem ImageIn.of_untouched (hbelow : ∀ p ∈ ps, p.Below) (h : ∀ p ∈ ps, ∀ q, ¬ p.Touches q) : ImageIn t v user content ps where
  byte p hp i hi := absurd (ElfPhdr.touches_of_hasByte (hbelow p hp) (a := p.vaddr + i) ⟨by omega, by omega⟩) (h p hp _)
  page _ := fun ⟨p, hp, hq⟩ => absurd hq (h p hp _)

/-- The pages of a segment are mapped, and its bytes are copied. -/
theorem Loading.segment (h : Loading ok D₀ L s₀ v user D F (m + 4 * p.pagesFrom 0 + 7 * p.pages + 2) dst I t) (hK : K.Closed)
    (hv : v ∈ L) (hc : s₀.cr3 ∈ L) (hk : KernelEnds s₀) (hp : p.Ready ok s₀ v file content) :
    Comp.Wp (Supplied ok s₀) (elfLoadSegment K (v * 4096) user file dst p) (fun r t' => (∀ dst' w, r = some (dst', w) →
      (∃ D' F', Loading ok D₀ L s₀ v user D' F' m dst' (I.place (p.segment content)) t') ∧ ∀ f ∈ w, f ∉ D₀) ∧
        (Supplied ok s₀ → r ≠ none)) t := by
  have hok : Supplied ok s₀ → ok := fun hs => hs.1
  refine .bind ((h.copyDst hK hv hc hk).weaken hok fun _ _ => id) fun a t₁ ⟨h₁, hfound⟩ =>
    .ite (fun hzero => .pure ⟨nofun, fun hs => absurd hzero (hfound hs.2.1)⟩) fun hne => ?_
  have hpages := Loading.mapPages (p := p) (j := 0) hK hv p.pages (h₁ hne) (ElfPhdr.lastPage hp.below) fun q hlo hhi => ?_
  · refine .bind (hpages.weaken hok fun _ _ => id) fun done t₂ ⟨hyes, hdone⟩ =>
      .ite (fun hfalse => .pure ⟨nofun, fun hs => absurd (hyes hs.1) (by rw [hfalse]; exact Bool.false_ne_true)⟩) fun htrue => ?_
    obtain ⟨D', F', h₂⟩ := hdone (by simpa using htrue)
    rw [Nat.add_zero] at h₂
    obtain ⟨qc, -, hqc, -⟩ := h₂.copy.resolve_left hne
    have hcopy := Loading.copyPages hK hv hp.below hp.served hqc hne (fun a hlo hhi => ?_) loopFuel rfl (Nat.zero_le _)
      (ElfPhdr.pagesFrom_lt_fuel hp.below 0) h₂
    · refine .bind (hcopy.weaken hok fun _ _ => id) fun written t₃ ⟨h₃, hwritten⟩ =>
        .bind ((h₃.krealloc hv).weaken hok fun _ _ => id) fun block t₄ ⟨h₄, hblock⟩ => .pure ⟨fun dst' w hw => ?_, fun hs => ?_⟩
      · obtain ⟨b, -, hb⟩ := Option.map_eq_some_iff.mp hw
        cases hb
        exact ⟨⟨D', F', h₄⟩, hwritten⟩
      · obtain ⟨b, rfl⟩ := Option.isSome_iff_exists.mp (hblock hs.2.2)
        exact Option.some_ne_none _
    · have htouch : (p.segment content).HasPage (a / 4096) := ElfPhdr.touches_of_hasByte hp.below ⟨hlo, hhi⟩
      exact Option.isSome_iff_exists.mpr ⟨_, Image.place_perm_of_page (I := I) htouch⟩
  · have htouch : p.Touches q := ⟨hlo, hhi⟩
    refine ⟨fun _ => hp.free q htouch, fun hno hvc h0 => hp.null hno hvc ?_⟩
    rwa [h0] at htouch

/-- What holds between two segments. -/
def Loading.Between (ok : Prop) (D₀ L : Set ℕ) (s₀ : Machine) (v : ℕ) (user : Bool) (file : ℕ → ℕ → List UInt8)
    (content : ℕ → UInt8) (m : ℕ) (done rest : List ElfPhdr) (dst : ℕ) (written : List ℕ) (t : Machine) : Prop :=
  (∃ D F, Loading ok D₀ L s₀ v user D F (m + loadCost rest) dst (.ofSegments (done.map (·.segment content))) t) ∧
    (∀ p ∈ done ++ rest, p.Ready ok s₀ v file content) ∧ ∀ f ∈ written, f ∉ D₀

theorem Loading.between (hK : K.Closed) (hv : v ∈ L) (hc : s₀.cr3 ∈ L) (hk : KernelEnds s₀) (p : ElfPhdr) (done rest : List ElfPhdr)
    (dst : ℕ) (written : List ℕ) (t : Machine) (h : Between ok D₀ L s₀ v user file content m done (p :: rest) dst written t) :
    Comp.Wp (Supplied ok s₀) (elfLoadSegment K (v * 4096) user file dst p) (fun r t' => (∀ dst' w, r = some (dst', w) →
      Between ok D₀ L s₀ v user file content m (done ++ [p]) rest dst' (written ++ w) t') ∧ (Supplied ok s₀ → r ≠ none)) t := by
  obtain ⟨⟨D, F, h⟩, hready, hwritten⟩ := h
  rw [loadCost_cons] at h
  refine (h.segment hK hv hc hk (hready p (by simp))).mono fun r t' ⟨hr, hsome⟩ => ⟨fun dst' w hw => ?_, hsome⟩
  obtain ⟨⟨D', F', h'⟩, hnew⟩ := hr dst' w hw
  rw [← Image.ofSegments_concat] at h'
  refine ⟨⟨D', F', by rwa [List.map_append]⟩, ?_, fun f hf => (List.mem_append.mp hf).elim (hwritten f) (hnew f)⟩
  rwa [List.append_assoc, List.singleton_append]

/-- What `LOAD_OK` leaves: the segments have been loaded, and the page for copying is closed. -/
structure Loading.Done (ok : Prop) (D₀ L : Set ℕ) (s₀ : Machine) (v : ℕ) (user : Bool) (content : ℕ → UInt8) (ps : List ElfPhdr)
    (D : Set ℕ) (F : ℕ → ℕ) (m dst : ℕ) (t t' : Machine) : Prop where
  loading : Loading ok D₀ L s₀ v user D F m dst (.ofSegments (ps.map (·.segment content))) t
  below : ∀ p ∈ ps, p.Below
  closing : Elsewhere D L (fun w q => w = s₀.cr3 ∧ 786432 ≤ q ∧ q * 4096 = dst) t t'
  closed : ∀ q, q * 4096 = dst → dst ≠ 0 → view t'.mem s₀.cr3 q = none

theorem Loading.close {done : List ElfPhdr} {written : List ℕ}
    (h : Between ok D₀ L s₀ v user file content m done [] dst written t) :
    Comp.Wp (Supplied ok s₀) (Comp.when (dst ≠ 0) (vmmPgunmap K t.vmmCurrent dst 0)) (fun _ t' =>
      (∃ D F dst' t₁, Done ok D₀ L s₀ v user content done D F m dst' t₁ t') ∧ ∀ f ∈ written, f ∉ D₀) t := by
  obtain ⟨⟨D, F, h⟩, hready, hwritten⟩ := h
  have hbelow : ∀ p ∈ done, p.Below := fun p hp => (hready p (List.mem_append_left _ hp)).below
  refine .when (fun hne => ?_) fun hzero => ?_
  · obtain ⟨q, f, rfl, hpage⟩ := h.copy.resolve_left hne
    refine ((h.settled.closeCopy hpage).weaken (fun hs => hs.1) fun _ t' ⟨hin, hnone⟩ => ?_)
    rw [h.cr3] at hnone
    refine ⟨⟨D, F, q * 4096, t, h, hbelow, hin.mono ?_, fun p hp _ => ?_⟩, hwritten⟩
    · rintro w p ⟨hw, rfl⟩
      exact ⟨hw.trans h.cr3, hpage.low, rfl⟩
    · obtain rfl : p = q := by omega
      exact hnone
  · exact ⟨⟨D, F, dst, t, h, hbelow, .refl D L _ t, fun _ _ hne => absurd hne hzero⟩, hwritten⟩

theorem Loading.Done.imageIn {t' : Machine} (h : Done ok D₀ L s₀ v user content ps D F m dst t t') (hv : v ∈ L)
    (hapart : ps.Pairwise fun p p' => ∀ a, ¬ (p.HasByte a ∧ p'.HasByte a)) : ImageIn t' v user content ps := by
  have huser : ∀ p ∈ ps, ∀ q, p.Touches q → q < userPages := fun p hp q hq => lt_of_lt_of_le hq.2 (ElfPhdr.lastPage (h.below p hp))
  refine (h.loading.imageIn hapart).congr (fun p hp q hq => ?_) (fun p hp q hq x hx => ?_) fun p hp i hi => ?_
  · have hlow := huser p hp q hq
    refine h.closing.page v hv q (Windowed.regular_of_user hlow) (.inr hlow) fun hC => ?_
    have := hC.2.1
    unfold userPages at hlow
    omega
  · have hsome := Image.perm_isSome.mpr ⟨p.segment content, List.mem_map_of_mem hp, hq⟩
    obtain ⟨w, hw⟩ := Option.isSome_iff_exists.mp hsome
    rw [h.loading.page q w hw] at hx
    obtain rfl := Option.some.inj hx
    exact h.closing.content _ (h.loading.frame q w hw).1 (h.loading.notDir hw)
  · exact ElfPhdr.touches_of_hasByte (h.below p hp) ⟨by omega, by omega⟩

/-- `elf_load_phdr` where the page tables of the VMM can be reached. -/
theorem elfLoadPhdr_loads {s : Machine} {hdr : ElfEhdr} {junk : ℕ → ℕ → UInt8} (user : Bool) (hK : K.Closed)
    (h : Settled ok D₀ L (m + loadCost (hdr.segments file junk s)) s) (hv : v ∈ L) (hk : KernelEnds s) (hzero : used s 0)
    (hroom : v = s.cr3 ∨ Room s (fun _ => 0#32) 0 2) (hready : ∀ p ∈ hdr.segments file junk s, p.Ready ok s v file content) :
    Comp.Wp (Supplied ok s) (elfLoadPhdr K file junk hdr (v * 4096) user) (fun r t =>
      (∀ l, r = .ok l → (∃ D F dst t₁, Loading.Done ok D₀ L s v user content (hdr.segments file junk s) D F m dst t₁ t) ∧
        ∀ f ∈ l.written, f ∉ D₀) ∧ (Supplied ok s → ∃ l, r = .ok l)) s := by
  have hstart : Loading ok D₀ L s v user D₀ (fun _ => 0) (m + loadCost (hdr.segments file junk s)) 0 .empty s :=
    .start h hzero hroom
  obtain ⟨hloading, -⟩ := (hstart.krealloc hv).2 _ _ rfl
  exact elfLoadPhdr_wp (J := Loading.Between ok D₀ L s v user file content m) (R := fun done written t =>
    (∃ D F dst t₁, Loading.Done ok D₀ L s v user content done D F m dst t₁ t) ∧ ∀ f ∈ written, f ∉ D₀) (fun hs => hs.2.2 _)
    ⟨⟨D₀, _, hloading⟩, hready, nofun⟩ (Loading.between hK hv h.cur hk) fun _ _ _ _ => Loading.close

end Run

end SysX
