import SysX.ElfImage

/-!
The frames that `elf_load_phdr` allocates on the current VMM: those of the pages it maps and, where a page table is missing, of
page tables.
-/
namespace SysX

/-- Slot `i` had its page table, or a frame has been allocated for one. -/
def MapsThrough (s t : Machine) (i : ℕ) : Prop :=
  ((s.mem s.cr3 i).HasTable ∧ t.pmmBitmap = s.pmmBitmap ∧
    ∀ j < 1024, j ≠ 767 → ((t.mem s.cr3 j).HasTable ↔ (s.mem s.cr3 j).HasTable)) ∨
  (¬ (s.mem s.cr3 i).HasTable ∧ ∃ g, ¬ used s g ∧ used t g)

section Map

variable {ok : Prop} {D L : Set ℕ} {s t σ : Machine} {n va pa : ℕ} {flags : Word} {K : Callees}

theorem PgmapOwn.mapsThrough (hm : PgmapOwn s pa va flags σ) (h : Tables D L s) (hc : s.cr3 ∈ L) (hva : OffSlot va)
    (hw : Windowed D L σ t fun _ => 0#32) (hsame : (s.mem s.cr3 (va / 4194304)).HasTable → t = σ) :
    MapsThrough s t (va / 4194304) := by
  rcases hm.cases with ⟨he, rfl⟩ | ⟨he, g, -, hfree, s₂, hs, -, rfl⟩
  · obtain rfl := hsame he
    have hne := (h.pt_ne hc (h.sub hc) hva.lt hva.2 he).symm
    refine .inl ⟨he, rfl, fun j hj hj767 => ?_⟩
    by_cases hji : j = va / 4194304
    · rw [hji]
      exact iff_of_true (pgmapEntryAt_slot hne (h.present _ hc _ hva.lt hva.2 he) he.2) he
    · unfold pgmapEntryAt
      dsimp only
      rw [Machine.set_mem_of_ne _ _ _ _ hne, Machine.set_mem_of_ne_index _ _ _ _ _ hji]
  · refine .inr ⟨he, g, hfree, hw.used g ?_⟩
    show pmmBit s₂.pmmBitmap g = true
    rw [hs.pmmBitmap_eq]
    exact (used_alloc s g g).mpr (.inl rfl)

/-- A page of the current VMM is mapped. -/
theorem Settled.mapOwn (h : Settled ok D L (n + 2) s) (hK : K.Closed) (hva : OffSlot va) (pa : ℕ) (flags : Word) :
    Comp.Wp ok (vmmPgmapSmall K s.vmmCurrent pa va flags) (fun _ t => MapsThrough s t (va / 4194304)) s := by
  by_cases he : (s.mem s.cr3 (va / 4194304)).HasTable
  · have hm : PgmapOwn s pa va flags (pgmapEntryAt s s.cr3 (s.mem s.cr3 (va / 4194304)).pt pa va flags) := by
      unfold PgmapOwn
      rw [if_pos he]
    exact .of_eq (vmmPgmapSmall_cur_table K pa flags h.tables h.cur hva he)
      (hm.mapsThrough h.tables h.cur hva (.refl (h.tables.pgmapEntryAt h.cur hva he rfl) h.cur) fun _ => rfl)
  · refine (vmmPgmapSmall_own (n := n) h.tables h.cur h.aligned hK hva (fun _ => ⟨h.spread.dir, fun _ => h.spread.run trivial⟩)
      (fun hok => ?_) fun _ hno => h.guard.null hno).mono ?_
    · exact (h.guard.frames hok).mono (by have := slotCost_le s va; omega)
    · rintro _ t ⟨σ, hm, hw, -⟩
      exact hm.mapsThrough h.tables h.cur hva hw fun hyes => absurd hyes he

end Map

/-! The account. -/

/-- The page tables for the pages of `I` and for the copy page at `dst` were there. -/
def Tabled (s : Machine) (I : Image UInt8) (dst : ℕ) : Prop :=
  (∀ q, (I.perm q).isSome → (s.mem s.cr3 (q / 1024)).HasTable) ∧ (dst ≠ 0 → (s.mem s.cr3 (dst / 4194304)).HasTable)

/-- Besides the frames of the pages nothing has been allocated. -/
structure Clean (s : Machine) (F : ℕ → ℕ) (I : Image UInt8) (t : Machine) : Prop where
  bits : ∀ f, used t f → used s f ∨ ∃ q, (I.perm q).isSome ∧ F q = f
  slots : ∀ i < 1024, i ≠ 767 → ((t.mem s.cr3 i).HasTable ↔ (s.mem s.cr3 i).HasTable)

/-- A frame has been allocated that is not behind a page of `I`. -/
def Stray (s : Machine) (F : ℕ → ℕ) (I : Image UInt8) (t : Machine) : Prop :=
  ∃ g, ¬ used s g ∧ used t g ∧ ∀ q, (I.perm q).isSome → F q ≠ g

/-- What has been allocated between `s` and `t`, on the current VMM. -/
structure Booked (s : Machine) (F : ℕ → ℕ) (I : Image UInt8) (dst : ℕ) (t : Machine) : Prop where
  fresh : ∀ q, (I.perm q).isSome → ¬ used s (F q)
  kept : ∀ q < userPages, I.perm q = none → accessAt t.mem s.cr3 q = accessAt s.mem s.cr3 q
  clean : Tabled s I dst → Clean s F I t
  stray : ¬ Tabled s I dst → Stray s F I t

namespace Booked

variable {s t u : Machine} {F : ℕ → ℕ} {I I' : Image UInt8} {w : Bool} {dst q f : ℕ}

/-- Nothing is allocated. -/
theorem same (h : Booked s F I dst t) (hI : ∀ q, (I'.perm q).isSome ↔ (I.perm q).isSome) (hbits : u.pmmBitmap = t.pmmBitmap)
    (hslots : ∀ i < 1024, i ≠ 767 → ((u.mem s.cr3 i).HasTable ↔ (t.mem s.cr3 i).HasTable))
    (hkept : ∀ q < userPages, I.perm q = none → accessAt u.mem s.cr3 q = accessAt t.mem s.cr3 q) : Booked s F I' dst u := by
  have hused : ∀ f, used u f ↔ used t f := by
    intro f
    unfold used
    rw [hbits]
  have hnone : ∀ q, I'.perm q = none ↔ I.perm q = none := by
    intro q
    rw [← Option.not_isSome_iff_eq_none, hI, Option.not_isSome_iff_eq_none]
  have htabled : Tabled s I' dst ↔ Tabled s I dst := by
    unfold Tabled
    simp only [hI]
  refine ⟨fun q hq => h.fresh q ((hI q).mp hq), fun q hq hno => ?_, fun hyes => ?_, fun hno => ?_⟩
  · have hno := (hnone q).mp hno
    rw [hkept q hq hno, h.kept q hq hno]
  · have hclean := h.clean (htabled.mp hyes)
    refine ⟨fun f hf => ?_, fun i hi hne => (hslots i hi hne).trans (hclean.slots i hi hne)⟩
    simp only [hI]
    exact hclean.bits f ((hused f).mp hf)
  · obtain ⟨g, hg, hgt, hF⟩ := h.stray fun hyes => hno (htabled.mpr hyes)
    exact ⟨g, hg, (hused g).mpr hgt, fun q hq => hF q ((hI q).mp hq)⟩

/-- A page is mapped to the frame `f`. -/
theorem page (h : Booked s F I dst t) (hmono : ∀ g, used s g → used t g) (hold : ∀ p, (I.perm p).isSome → used t (F p))
    (hq : I.perm q = none) (hf : ¬ used t f) (hc : (t.setBitmap f true).cr3 = s.cr3) (hlast : q / 1024 < 1024 ∧ q / 1024 ≠ 767)
    (hmap : MapsThrough (t.setBitmap f true) u (q / 1024)) (hmono' : ∀ g, used (t.setBitmap f true) g → used u g)
    (hkept : ∀ p < userPages, p ≠ q → accessAt u.mem s.cr3 p = accessAt t.mem s.cr3 p) :
    Booked s (Function.update F q f) (I.mapPages w q 1) dst u := by
  have hperm : ∀ p, ((I.mapPages w q 1).perm p).isSome ↔ p = q ∨ (I.perm p).isSome := by
    intro p
    rw [Image.mapPages_one_perm]
    split_ifs with hpq
    · exact iff_of_true rfl (.inl hpq)
    · exact ⟨.inr, fun hp => hp.resolve_left hpq⟩
  have hne : ∀ p, (I.perm p).isSome → p ≠ q := by
    rintro p hp rfl
    rw [hq] at hp
    cases hp
  have hF : ∀ p, (I.perm p).isSome → Function.update F q f p = F p := fun p hp => Function.update_of_ne (hne p hp) f F
  have hmem : (t.setBitmap f true).mem = t.mem := rfl
  have htabled : Tabled s (I.mapPages w q 1) dst ↔ Tabled s I dst ∧ (s.mem s.cr3 (q / 1024)).HasTable := by
    unfold Tabled
    simp only [hperm]
    constructor
    · rintro ⟨hall, hdst⟩
      exact ⟨⟨fun p hp => hall p (.inr hp), hdst⟩, hall q (.inl rfl)⟩
    · rintro ⟨⟨hall, hdst⟩, hnew⟩
      refine ⟨?_, hdst⟩
      rintro p (rfl | hp)
      · exact hnew
      · exact hall p hp
  refine ⟨fun p hp => ?_, fun p hp hno => ?_, fun hyes => ?_, fun hno => ?_⟩
  · rcases (hperm p).mp hp with rfl | hp
    · rw [Function.update_self]
      exact fun hs => hf (hmono f hs)
    · rw [hF p hp]
      exact h.fresh p hp
  · have hp' := mt (hperm p).mpr (Option.not_isSome_iff_eq_none.mpr hno)
    rw [not_or] at hp'
    rw [hkept p hp hp'.1, h.kept p hp (Option.not_isSome_iff_eq_none.mp hp'.2)]
  · obtain ⟨hold', htable⟩ := htabled.mp hyes
    have hclean := h.clean hold'
    rcases hmap with ⟨-, hbits, hslots⟩ | ⟨hnone, -⟩
    · rw [hc, hmem] at hslots
      refine ⟨fun g hg => ?_, fun i hi hne => (hslots i hi hne).trans (hclean.slots i hi hne)⟩
      have hg : used (t.setBitmap f true) g := by
        unfold used at hg ⊢
        rwa [← hbits]
      rcases (used_alloc t f g).mp hg with rfl | hg
      · exact .inr ⟨q, (hperm q).mpr (.inl rfl), Function.update_self q g F⟩
      · refine (hclean.bits g hg).imp_right ?_
        rintro ⟨p, hp, rfl⟩
        exact ⟨p, (hperm p).mpr (.inr hp), hF p hp⟩
    · rw [hc, hmem] at hnone
      exact absurd ((hclean.slots _ hlast.1 hlast.2).mpr htable) hnone
  · by_cases hold' : Tabled s I dst
    · have hclean := h.clean hold'
      have hmissing : ¬ (t.mem s.cr3 (q / 1024)).HasTable := fun ht =>
        hno (htabled.mpr ⟨hold', (hclean.slots _ hlast.1 hlast.2).mp ht⟩)
      rcases hmap with ⟨hthere, -, -⟩ | ⟨-, g, hg, hgu⟩
      · rw [hc, hmem] at hthere
        exact absurd hthere hmissing
      · have hgf : g ≠ f := fun he => hg ((used_alloc t f g).mpr (.inl he))
        have hgt : ¬ used t g := fun hu => hg ((used_alloc t f g).mpr (.inr hu))
        refine ⟨g, fun hs => hgt (hmono g hs), hgu, fun p hp => ?_⟩
        rcases (hperm p).mp hp with rfl | hp
        · rw [Function.update_self]
          exact hgf.symm
        · rw [hF p hp]
          rintro rfl
          exact hgt (hold p hp)
    · obtain ⟨g, hg, hgt, hgF⟩ := h.stray hold'
      refine ⟨g, hg, hmono' g ((used_alloc t f g).mpr (.inr hgt)), fun p hp => ?_⟩
      rcases (hperm p).mp hp with rfl | hp
      · rw [Function.update_self]
        rintro rfl
        exact hf hgt
      · rw [hF p hp]
        exact hgF p hp

/-- The copy page is opened, before any page is mapped. -/
theorem copyPage (hmem : t.mem = s.mem) (hbits : t.pmmBitmap = s.pmmBitmap) (hcr3 : t.cr3 = s.cr3) (hI : ∀ q, I.perm q = none)
    (hne : dst ≠ 0) (hmap : MapsThrough t u (dst / 4194304))
    (hkept : ∀ p < userPages, accessAt u.mem s.cr3 p = accessAt t.mem s.cr3 p) : Booked s F I dst u := by
  have hno : ∀ q, ¬ (I.perm q).isSome := by
    intro q hq
    rw [hI q] at hq
    cases hq
  have hused : ∀ f, used t f ↔ used s f := by
    intro f
    unfold used
    rw [hbits]
  have htabled : Tabled s I dst ↔ (s.mem s.cr3 (dst / 4194304)).HasTable :=
    ⟨fun h => h.2 hne, fun h => ⟨fun q hq => absurd hq (hno q), fun _ => h⟩⟩
  refine ⟨fun q hq => absurd hq (hno q), fun p hp _ => by rw [hkept p hp, hmem], fun hyes => ?_, fun hnot => ?_⟩
  · rcases hmap with ⟨-, hsame, hslots⟩ | ⟨hmissing, -⟩
    · rw [hcr3, hmem] at hslots
      refine ⟨fun f hf => .inl ?_, hslots⟩
      unfold used at hf ⊢
      rwa [← hbits, ← hsame]
    · rw [hcr3, hmem] at hmissing
      exact absurd (htabled.mp hyes) hmissing
  · rcases hmap with ⟨hthere, -, -⟩ | ⟨-, g, hg, hgu⟩
    · rw [hcr3, hmem] at hthere
      exact absurd (htabled.mpr hthere) hnot
    · exact ⟨g, fun hs => hg ((hused g).mpr hs), hgu, fun q hq => absurd hq (hno q)⟩

end Booked

end SysX
