import SysX.Entry
import Mathlib.Data.Set.Insert

/-!
Well-formed page tables, what they map, and the accesses that go through the recursive slot.
-/
namespace SysX

/-- The frame is marked in the bitmap. -/
def used (s : Machine) (f : ℕ) : Prop := pmmBit s.pmmBitmap f = true

instance (s : Machine) (f : ℕ) : Decidable (used s f) := inferInstanceAs (Decidable (_ = true))

/-- The directory entry points to a page table. -/
def Word.HasTable (e : Word) : Prop := e ≠ 0#32 ∧ e.pgsz = false

instance (e : Word) : Decidable e.HasTable := inferInstanceAs (Decidable (_ ∧ _))

/-- The page table entry of a page, zero where there is no page table. -/
def pteAt (m : ℕ → ℕ → Word) (pd p : ℕ) : Word :=
  if (m pd (p / 1024)).HasTable then m (m pd (p / 1024)).pt (p % 1024) else 0#32

/-- What a page table entry maps its page to: the frame and the flags. -/
def viewPte (t : Word) : Option (ℕ × Word) := if t = 0#32 then none else some (t.pt, t.getFlags)

/-- What a directory maps a page to, whatever the page size. -/
def view (m : ℕ → ℕ → Word) (pd p : ℕ) : Option (ℕ × Word) :=
  let e := m pd (p / 1024)
  if e.pgsz then some (e.psePa * 1024 + p % 1024, e.getFlags) else viewPte (pteAt m pd p)

/-- Pages outside the recursive slot. -/
def Regular (p : ℕ) : Prop := p < 1048576 ∧ p / 1024 ≠ 767

/-- The pages below the recursive slot, in which windows are opened. -/
def userPages : ℕ := 785408

theorem page_div (p : ℕ) : p * 4096 / 4096 = p := Nat.mul_div_cancel p (by decide)

theorem page_slot (p : ℕ) : p * 4096 / 4194304 = p / 1024 := by omega

theorem va_slot (va : ℕ) : va / 4096 / 1024 = va / 4194304 := by omega

theorem viewPte_eq_none {t : Word} : viewPte t = none ↔ t = 0#32 := by
  unfold viewPte
  split_ifs with h <;> simp [h]

theorem Word.HasTable.not_pgsz {e : Word} (h : e.HasTable) : ¬ e.pgsz = true := by
  rw [h.2]
  exact Bool.false_ne_true

@[simp] theorem Word.not_hasTable_zero : ¬ Word.HasTable 0#32 := fun h => h.1 rfl

theorem Word.HasTable.of_present {e : Word} (hp : e.present = true) (hs : e.pgsz = false) :
    e.HasTable := ⟨ne_zero_of_present hp, hs⟩

theorem view_of_not_pgsz {m : ℕ → ℕ → Word} {pd p : ℕ} (h : (m pd (p / 1024)).pgsz = false) :
    view m pd p = viewPte (pteAt m pd p) := by
  unfold view
  simp only [h]
  exact if_neg Bool.false_ne_true

theorem view_of_pgsz {m : ℕ → ℕ → Word} {pd p : ℕ} (h : (m pd (p / 1024)).pgsz = true) :
    view m pd p =
      some ((m pd (p / 1024)).psePa * 1024 + p % 1024, (m pd (p / 1024)).getFlags) := by
  unfold view
  simp only [h, if_true]

theorem pteAt_of_hasTable {m : ℕ → ℕ → Word} {pd p : ℕ} (h : (m pd (p / 1024)).HasTable) :
    pteAt m pd p = m (m pd (p / 1024)).pt (p % 1024) := if_pos h

theorem pteAt_of_not_hasTable {m : ℕ → ℕ → Word} {pd p : ℕ} (h : ¬ (m pd (p / 1024)).HasTable) :
    pteAt m pd p = 0#32 := if_neg h

theorem view_eq_pte {m : ℕ → ℕ → Word} {pd p : ℕ} (ht : (m pd (p / 1024)).HasTable) :
    view m pd p = viewPte (m (m pd (p / 1024)).pt (p % 1024)) := by
  rw [view_of_not_pgsz ht.2, pteAt_of_hasTable ht]

theorem view_eq_none {m : ℕ → ℕ → Word} {pd p : ℕ} :
    view m pd p = none ↔ (m pd (p / 1024)).pgsz = false ∧ pteAt m pd p = 0#32 := by
  cases h : (m pd (p / 1024)).pgsz with
  | false => rw [view_of_not_pgsz h, viewPte_eq_none]; simp
  | true => rw [view_of_pgsz h]; simp

theorem view_of_slot_zero {m : ℕ → ℕ → Word} {pd p : ℕ} (h : m pd (p / 1024) = 0#32) :
    view m pd p = none := by
  rw [view_eq_none, h]
  exact ⟨by decide, pteAt_of_not_hasTable (by rw [h]; exact Word.not_hasTable_zero)⟩

/-- A page is seen alike by two directories whose entries for it agree. -/
theorem view_congr {m m' : ℕ → ℕ → Word} {pd pd' p : ℕ} (he : m pd (p / 1024) = m' pd' (p / 1024))
    (ht : (m pd (p / 1024)).HasTable →
      m (m pd (p / 1024)).pt (p % 1024) = m' (m pd (p / 1024)).pt (p % 1024)) :
    view m pd p = view m' pd' p := by
  have hpte : pteAt m pd p = pteAt m' pd' p := by
    unfold pteAt
    rw [← he]
    split_ifs with h
    · exact ht h
    · rfl
  unfold view
  simp only [he, hpte]

/-! Writing to memory. -/

section Set

variable (s : Machine) (f i : ℕ) (d : Word)

@[simp] theorem Machine.set_mem (g j : ℕ) :
    (s.set f i d).mem g j = if g = f ∧ j = i then d else s.mem g j := rfl

@[simp] theorem Machine.set_vmmCurrent : (s.set f i d).vmmCurrent = s.vmmCurrent := rfl

@[simp] theorem Machine.set_cr3 : (s.set f i d).cr3 = s.cr3 := rfl

@[simp] theorem used_set (g : ℕ) : used (s.set f i d) g ↔ used s g := Iff.rfl

theorem Machine.set_mem_self : (s.set f i d).mem f i = d := if_pos ⟨rfl, rfl⟩

theorem Machine.set_mem_of_ne {g : ℕ} (h : g ≠ f) : (s.set f i d).mem g = s.mem g := by
  funext j
  rw [Machine.set_mem, if_neg fun hg => h hg.1]

theorem Machine.set_mem_of_ne_index {j : ℕ} (g : ℕ) (h : j ≠ i) :
    (s.set f i d).mem g j = s.mem g j := by
  rw [Machine.set_mem, if_neg fun hg => h hg.2]

theorem Machine.setFrame_mem_of_ne {c : ℕ → Word} {g : ℕ} (h : g ≠ f) :
    (s.setFrame f c).mem g = s.mem g := by
  funext j
  exact if_neg h

@[simp] theorem Machine.setFrame_mem_self (c : ℕ → Word) : (s.setFrame f c).mem f = c := by
  funext j
  exact if_pos rfl

@[simp] theorem Machine.setFrame_vmmCurrent (c : ℕ → Word) :
    (s.setFrame f c).vmmCurrent = s.vmmCurrent := rfl

@[simp] theorem used_setFrame (c : ℕ → Word) (g : ℕ) : used (s.setFrame f c) g ↔ used s g :=
  Iff.rfl

theorem Machine.set_set (d' : Word) : (s.set f i d').set f i d = s.set f i d := by
  have : ((s.set f i d').set f i d).mem = (s.set f i d).mem := by
    funext g j
    simp only [Machine.set_mem]
    split_ifs <;> rfl
  exact congrArg (fun m => { s with mem := m }) this

theorem Machine.setFrame_setFrame (c c' : ℕ → Word) :
    (s.setFrame f c').setFrame f c = s.setFrame f c := by
  have : ((s.setFrame f c').setFrame f c).mem = (s.setFrame f c).mem := by
    funext g j
    simp only [Machine.setFrame]
    split_ifs <;> rfl
  exact congrArg (fun m => { s with mem := m }) this

theorem Machine.setFrame_set (c : ℕ → Word) :
    (s.setFrame f c).set f i d = s.setFrame f (Function.update c i d) := by
  have : ((s.setFrame f c).set f i d).mem = (s.setFrame f (Function.update c i d)).mem := by
    funext g j
    simp only [Machine.setFrame, Machine.set, Function.update_apply]
    by_cases hg : g = f <;> by_cases hj : j = i <;> simp [hg, hj]
  exact congrArg (fun m => { s with mem := m }) this

theorem Machine.setFrame_eq_self {s : Machine} {f : ℕ} : s.setFrame f (s.mem f) = s := by
  have : (s.setFrame f (s.mem f)).mem = s.mem := by
    funext g j
    simp only [Machine.setFrame]
    split_ifs with h
    · rw [h]
    · rfl
  exact congrArg (fun m => { s with mem := m }) this

/-- Writing the value that is there already. -/
theorem Machine.set_eq_self {s : Machine} {f i : ℕ} : s.set f i (s.mem f i) = s := by
  have : (s.set f i (s.mem f i)).mem = s.mem := by
    funext g j
    rw [Machine.set_mem]
    split_ifs with h
    · rw [h.1, h.2]
    · rfl
  exact congrArg (fun m => { s with mem := m }) this

end Set

/-! The page walk. -/

/-- The directory maps itself in the recursive slot. -/
structure SelfMapped (m : ℕ → ℕ → Word) (pd : ℕ) : Prop where
  present : (m pd 767).present = true
  rw : (m pd 767).rw = true
  pgsz : (m pd 767).pgsz = false
  pt : (m pd 767).pt = pd

/-- The page at the address `a` lets the kernel reach the frame `f`, for a write when `w`. -/
def PageAt (s : Machine) (w : Bool) (a f : ℕ) : Prop :=
  a % 4096 = 0 ∧ mmu s.mem s.cr3 w a = some f

theorem mmu_read_of_write {m : ℕ → ℕ → Word} {pd va f : ℕ} (h : mmu m pd true va = some f) :
    mmu m pd false va = some f := by
  unfold mmu at h ⊢
  dsimp only at h ⊢
  split_ifs at h ⊢ <;> simp_all

theorem PageAt.read {s : Machine} {w : Bool} {a f : ℕ} (h : PageAt s w a f) :
    PageAt s false a f := by
  cases w with
  | false => exact h
  | true => exact ⟨h.1, mmu_read_of_write h.2⟩

theorem PageAt.frameAt {s : Machine} {w : Bool} {a f i : ℕ} (h : PageAt s w a f) (hi : i < 1024) :
    frameAt w (a + 4 * i) s = some (f, s) := by
  obtain ⟨ha, hf⟩ := h
  have h1 : (a + 4 * i) / 4194304 = a / 4194304 := by omega
  have h2 : (a + 4 * i) / 4096 % 1024 = a / 4096 % 1024 := by omega
  have hm : mmu s.mem s.cr3 w (a + 4 * i) = some f := by
    rw [← hf]
    unfold mmu
    rw [h1, h2]
  rw [SysX.frameAt, Comp.readOr_apply, hm]
  rfl

theorem PageAt.load {s : Machine} {w : Bool} {a f i : ℕ} (h : PageAt s w a f) (hi : i < 1024) :
    load (a + 4 * i) s = some (s.mem f i, s) := by
  have hoff : (a + 4 * i) % 4096 / 4 = i := by have := h.1; omega
  rw [SysX.load, Comp.bind_of_eq (h.read.frameAt hi), Comp.read_apply, hoff]

theorem PageAt.store {s : Machine} {a f i : ℕ} (h : PageAt s true a f) (hi : i < 1024) (d : Word) :
    store (a + 4 * i) d s = some ((), s.set f i d) := by
  have hoff : (a + 4 * i) % 4096 / 4 = i := by have := h.1; omega
  rw [SysX.store, Comp.bind_of_eq (h.frameAt hi), Comp.modify_apply, hoff]

theorem PageAt.update {s : Machine} {a f i : ℕ} (h : PageAt s true a f) (hi : i < 1024)
    (g : Word → Word) : update (a + 4 * i) g s = some ((), s.set f i (g (s.mem f i))) := by
  rw [SysX.update, Comp.bind_of_eq (h.load hi), h.store hi]

theorem PageAt.memsetPage {s : Machine} {a f : ℕ} (h : PageAt s true a f) :
    memsetPage a s = some ((), s.setFrame f fun _ => 0) := by
  have hf := h.frameAt (i := 0) (by decide)
  rw [Nat.mul_zero, Nat.add_zero] at hf
  rw [SysX.memsetPage, Comp.bind_of_eq hf, Comp.modify_apply]

theorem PageAt.memcpyPage {s : Machine} {w : Bool} {a b f g : ℕ} (h : PageAt s true a f)
    (hs : PageAt s w b g) : memcpyPage a b s = some ((), s.setFrame f (s.mem g)) := by
  have hf := h.frameAt (i := 0) (by decide)
  have hg := hs.read.frameAt (i := 0) (by decide)
  rw [Nat.mul_zero, Nat.add_zero] at hf hg
  rw [SysX.memcpyPage, Comp.bind_of_eq hg, Comp.bind_of_eq hf, Comp.modify_apply]

/-- The directory through the recursive slot. -/
theorem SelfMapped.pageAt_pd {s : Machine} (h : SelfMapped s.mem s.cr3) (w : Bool) :
    PageAt s w (vmmPd rmapStart) s.cr3 := by
  refine ⟨by decide, ?_⟩
  have h1 : vmmPd rmapStart / 4194304 = 767 := by decide
  have h2 : vmmPd rmapStart / 4096 % 1024 = 767 := by decide
  unfold mmu
  simp only [h1, h2, h.present, h.rw, h.pgsz, h.pt, Bool.true_eq_false, and_false, or_false,
    if_false, Bool.false_eq_true]

/-- A page table through the recursive slot. -/
theorem SelfMapped.pageAt_pt {s : Machine} (h : SelfMapped s.mem s.cr3) (w : Bool) {i : ℕ}
    (hi : i < 1024) (hp : (s.mem s.cr3 i).present = true)
    (hr : w = true → (s.mem s.cr3 i).rw = true) :
    PageAt s w (vmmPt rmapStart i) (s.mem s.cr3 i).pt := by
  have h1 : vmmPt rmapStart i / 4194304 = 767 := by unfold vmmPt rmapStart; omega
  have h2 : vmmPt rmapStart i / 4096 % 1024 = i := by unfold vmmPt rmapStart; omega
  refine ⟨by unfold vmmPt rmapStart; omega, ?_⟩
  unfold mmu
  simp only [h1, h2, h.present, h.rw, h.pgsz, h.pt, Bool.true_eq_false, and_false, or_false,
    if_false, Bool.false_eq_true, hp, false_or]
  exact if_neg fun hw => by simp [hr hw.1] at hw

/-- A page whose table entry is present. -/
theorem pageAt_of_pte {s : Machine} {p : ℕ} (w : Bool)
    (he : (s.mem s.cr3 (p / 1024)).HasTable) (hp : (s.mem s.cr3 (p / 1024)).present = true)
    (hr : (s.mem s.cr3 (p / 1024)).rw = true) (ht : (pteAt s.mem s.cr3 p).present = true)
    (hw : w = true → (pteAt s.mem s.cr3 p).rw = true) :
    PageAt s w (p * 4096) (pteAt s.mem s.cr3 p).pt := by
  have h1 : p * 4096 / 4194304 = p / 1024 := by omega
  have h2 : p * 4096 / 4096 % 1024 = p % 1024 := by omega
  refine ⟨by omega, ?_⟩
  rw [pteAt_of_hasTable he] at ht hw ⊢
  unfold mmu
  simp only [h1, h2, hp, hr, he.2, ht, Bool.true_eq_false, and_false, or_false, if_false,
    Bool.false_eq_true, false_or]
  exact if_neg fun h => by simp [hw h.1] at h

/-! Well-formed address spaces. -/

/-- The directories in `L` are well formed: each maps itself, its page tables are present, writable
and marked in the bitmap, none of them is one of the directories in `D`, and two entries share a
page table only when both are the same kernel entry. -/
structure Tables (D L : Set ℕ) (s : Machine) : Prop where
  frames : s.pmmFrames ≤ 1048576
  sub : L ⊆ D
  dir : ∀ v ∈ D, used s v ∧ v < 1048576
  self : ∀ v ∈ L, SelfMapped s.mem v
  present : ∀ v ∈ L, ∀ i < 1024, i ≠ 767 → (s.mem v i).HasTable → (s.mem v i).present = true
  rw : ∀ v ∈ L, ∀ i < 1024, i ≠ 767 → (s.mem v i).HasTable → (s.mem v i).rw = true
  used : ∀ v ∈ L, ∀ i < 1024, i ≠ 767 → (s.mem v i).HasTable → used s (s.mem v i).pt
  notDir : ∀ v ∈ L, ∀ i < 1024, i ≠ 767 → (s.mem v i).HasTable → (s.mem v i).pt ∉ D
  sep : ∀ v ∈ L, ∀ w ∈ L, ∀ i < 1024, ∀ j < 1024, i ≠ 767 → j ≠ 767 → (s.mem v i).HasTable →
    (s.mem w j).HasTable → (s.mem v i).pt = (s.mem w j).pt → i = j ∧ (v = w ∨ 768 ≤ i)

/-- Only the directories and the bitmap matter. -/
theorem Tables.congr {D L : Set ℕ} {s t : Machine} (h : Tables D L s)
    (hf : t.pmmFrames = s.pmmFrames) (hm : ∀ v ∈ L, t.mem v = s.mem v)
    (hu : ∀ f, SysX.used s f → SysX.used t f) : Tables D L t where
  frames := hf ▸ h.frames
  sub := h.sub
  dir v hv := ⟨hu v (h.dir v hv).1, (h.dir v hv).2⟩
  self v hv := by
    have hs := h.self v hv
    exact ⟨by rw [hm v hv]; exact hs.present, by rw [hm v hv]; exact hs.rw,
      by rw [hm v hv]; exact hs.pgsz, by rw [hm v hv]; exact hs.pt⟩
  present v hv := by rw [hm v hv]; exact h.present v hv
  rw v hv := by rw [hm v hv]; exact h.rw v hv
  used v hv i hi hne ht := by rw [hm v hv] at ht ⊢; exact hu _ (h.used v hv i hi hne ht)
  notDir v hv := by rw [hm v hv]; exact h.notDir v hv
  sep v hv w hw := by rw [hm v hv, hm w hw]; exact h.sep v hv w hw

/-- Writing to a frame that is no directory. -/
theorem Tables.set {D L : Set ℕ} {s : Machine} (h : Tables D L s) {f : ℕ} (hf : f ∉ D) (i : ℕ)
    (d : Word) : Tables D L (s.set f i d) :=
  h.congr rfl (fun _ hv => s.set_mem_of_ne f i d fun e => hf (e ▸ h.sub hv)) fun _ hu => hu

theorem Tables.setFrame {D L : Set ℕ} {s : Machine} (h : Tables D L s) {f : ℕ} (hf : f ∉ D)
    (c : ℕ → Word) : Tables D L (s.setFrame f c) :=
  h.congr rfl (fun _ hv => s.setFrame_mem_of_ne f fun e => hf (e ▸ h.sub hv)) fun _ hu => hu

theorem Tables.pageAt_pd {D L : Set ℕ} {s : Machine} (h : Tables D L s) (hc : s.cr3 ∈ L)
    (w : Bool) : PageAt s w (vmmPd rmapStart) s.cr3 := (h.self _ hc).pageAt_pd w

theorem Tables.pageAt_pt {D L : Set ℕ} {s : Machine} (h : Tables D L s) (hc : s.cr3 ∈ L) {i : ℕ}
    (hi : i < 1024) (hne : i ≠ 767) (ht : (s.mem s.cr3 i).HasTable) (w : Bool) :
    PageAt s w (vmmPt rmapStart i) (s.mem s.cr3 i).pt :=
  (h.self _ hc).pageAt_pt w hi (h.present _ hc _ hi hne ht) fun _ => h.rw _ hc _ hi hne ht

/-- No page table lies in a directory. -/
theorem Tables.pt_ne {D L : Set ℕ} {s : Machine} (h : Tables D L s) {v w i : ℕ} (hv : v ∈ L)
    (hw : w ∈ D) (hi : i < 1024) (hne : i ≠ 767) (ht : (s.mem v i).HasTable) :
    (s.mem v i).pt ≠ w := fun e => h.notDir v hv i hi hne ht (by rw [e]; exact hw)

theorem Tables.mono {D L L' : Set ℕ} {s : Machine} (h : Tables D L s) (hL : L' ⊆ L) :
    Tables D L' s where
  frames := h.frames
  sub := hL.trans h.sub
  dir := h.dir
  self v hv := h.self v (hL hv)
  present v hv := h.present v (hL hv)
  rw v hv := h.rw v (hL hv)
  used v hv := h.used v (hL hv)
  notDir v hv := h.notDir v (hL hv)
  sep v hv w hw := h.sep v (hL hv) w (hL hw)

/-- `d` may be written to the entry `i` of the directory `v`: it holds no page table, or one that
no other entry holds, kernel entries of the same index apart. -/
def Fits (D L : Set ℕ) (s : Machine) (v i : ℕ) (d : Word) : Prop :=
  d.HasTable → d.present = true ∧ d.rw = true ∧ used s d.pt ∧ d.pt ∉ D ∧
    ∀ w ∈ L, ∀ j < 1024, j ≠ 767 → ¬ (w = v ∧ j = i) → (s.mem w j).HasTable →
      (s.mem w j).pt = d.pt → j = i ∧ (w = v ∨ 768 ≤ i)

theorem Tables.setPde {D L : Set ℕ} {s : Machine} (h : Tables D L s) {v i : ℕ} {d : Word}
    (hi : i ≠ 767) (hd : Fits D L s v i d) : Tables D L (s.set v i d) := by
  have old : ∀ w j, ¬ (w = v ∧ j = i) → (s.set v i d).mem w j = s.mem w j := fun w j hne => by
    rw [Machine.set_mem, if_neg hne]
  have new : (s.set v i d).mem v i = d := s.set_mem_self v i d
  constructor
  case frames => exact h.frames
  case sub => exact h.sub
  case dir => exact h.dir
  case self =>
    intro w hw
    have hs := h.self w hw
    have e := old w 767 fun hj => hi hj.2.symm
    exact ⟨by rw [e]; exact hs.present, by rw [e]; exact hs.rw, by rw [e]; exact hs.pgsz,
      by rw [e]; exact hs.pt⟩
  case present =>
    intro w hw j hj hne ht
    by_cases hvi : w = v ∧ j = i
    · rw [hvi.1, hvi.2, new] at ht ⊢
      exact (hd ht).1
    · rw [old w j hvi] at ht ⊢
      exact h.present w hw j hj hne ht
  case rw =>
    intro w hw j hj hne ht
    by_cases hvi : w = v ∧ j = i
    · rw [hvi.1, hvi.2, new] at ht ⊢
      exact (hd ht).2.1
    · rw [old w j hvi] at ht ⊢
      exact h.rw w hw j hj hne ht
  case used =>
    intro w hw j hj hne ht
    by_cases hvi : w = v ∧ j = i
    · rw [hvi.1, hvi.2, new] at ht ⊢
      exact (hd ht).2.2.1
    · rw [old w j hvi] at ht ⊢
      exact h.used w hw j hj hne ht
  case notDir =>
    intro w hw j hj hne ht
    by_cases hvi : w = v ∧ j = i
    · rw [hvi.1, hvi.2, new] at ht ⊢
      exact (hd ht).2.2.2.1
    · rw [old w j hvi] at ht ⊢
      exact h.notDir w hw j hj hne ht
  case sep =>
    intro w hw w' hw' j hj j' hj' hne hne' ht ht' heq
    by_cases hvi : w = v ∧ j = i
    · by_cases hvi' : w' = v ∧ j' = i
      · exact ⟨hvi.2.trans hvi'.2.symm, .inl (hvi.1.trans hvi'.1.symm)⟩
      · rw [hvi.1, hvi.2, new] at ht heq
        rw [old w' j' hvi'] at ht' heq
        obtain ⟨hji, hwv⟩ := (hd ht).2.2.2.2 w' hw' j' hj' hne' hvi' ht' heq.symm
        rw [hvi.1, hvi.2, hji]
        exact ⟨rfl, hwv.imp Eq.symm id⟩
    · rw [old w j hvi] at ht heq
      by_cases hvi' : w' = v ∧ j' = i
      · rw [hvi'.1, hvi'.2, new] at ht' heq
        obtain ⟨hji, hwv⟩ := (hd ht').2.2.2.2 w hw j hj hne hvi ht heq
        rw [hvi'.1, hvi'.2, hji]
        exact ⟨rfl, hwv⟩
      · rw [old w' j' hvi'] at ht' heq
        exact h.sep w hw w' hw' j hj j' hj' hne hne' ht ht' heq

/-! Allocating and freeing frames. -/

section Bitmap

variable (s : Machine) (f : ℕ) (b : Bool)

@[simp] theorem Machine.setBitmap_mem : (s.setBitmap f b).mem = s.mem := rfl

@[simp] theorem Machine.setBitmap_vmmCurrent : (s.setBitmap f b).vmmCurrent = s.vmmCurrent := rfl

@[simp] theorem Machine.setBitmap_cr3 : (s.setBitmap f b).cr3 = s.cr3 := rfl

theorem used_alloc (g : ℕ) : used (s.setBitmap f true) g ↔ g = f ∨ used s g := by
  unfold used
  rw [pmmBit_setBitmap]
  by_cases h : g = f <;> simp [h]

theorem used_free (g : ℕ) : used (s.setBitmap f false) g ↔ g ≠ f ∧ used s g := by
  unfold used
  rw [pmmBit_setBitmap]
  by_cases h : g = f <;> simp [h]

end Bitmap

/-- The first free frame is allocated, or there is none. -/
theorem pmmAllocFree_first {s : Machine} (hb : s.pmmFrames ≤ 1048576) :
    (pmmAllocFree 1 s = some (none, s) ∧ ∀ f < s.pmmFrames, used s f) ∨
    ∃ f < s.pmmFrames, ¬ used s f ∧ (∀ g < f, used s g) ∧
      pmmAllocFree 1 s = some (some f, s.setBitmap f true) := by
  have hsz : s.pmmFrames + 1 < sizeMax := by unfold sizeMax; omega
  have hfuel : s.pmmFrames < 0 + loopFuel := by unfold loopFuel; omega
  obtain ⟨r, hr⟩ := pmmFirstFreeLoop_total s.pmmBitmap hsz hfuel (by decide)
  have hf : pmmFirstFree 1 s = some (r, s) := by
    rw [pmmFirstFree, Comp.readOr_apply, hr]
    rfl
  cases r with
  | none =>
    refine .inl ⟨by rw [pmmAllocFree, Comp.bind_of_eq hf]; rfl, fun f hlt => ?_⟩
    exact pmmFirstFreeLoop_one_none (by unfold sizeMax; omega) hr f (Nat.zero_le f) hlt
  | some f =>
    obtain ⟨hlt, hclear⟩ := pmmFirstFreeLoop_sound hsz.le hr
    have hc : pmmBit s.pmmBitmap f = false := hclear 0 Nat.one_pos
    have hw : w32 (f + 0) = f := w32_of_lt (by omega)
    refine .inr ⟨f, hlt, by unfold used; rw [hc]; exact Bool.false_ne_true, fun g hg => ?_, ?_⟩
    · exact pmmFirstFreeLoop_one_some (by unfold sizeMax; omega) hr g (Nat.zero_le g) hg
    have ha : pmmAlloc f s = some (0, s.setBitmap f true) := by
      rw [pmmAlloc, Comp.read_bind, hc]
      rfl
    rw [pmmAllocFree, Comp.bind_of_eq hf]
    dsimp only
    rw [Comp.forRange_succ, Comp.forRange_zero, Comp.bind_assoc, hw, Comp.bind_assoc,
      Comp.bind_of_eq ha]
    rfl

theorem pmmAllocFree_one {s : Machine} (hb : s.pmmFrames ≤ 1048576) :
    (pmmAllocFree 1 s = some (none, s) ∧ ∀ f < s.pmmFrames, used s f) ∨
    ∃ f < s.pmmFrames, ¬ used s f ∧ pmmAllocFree 1 s = some (some f, s.setBitmap f true) :=
  (pmmAllocFree_first hb).imp_right fun ⟨f, hf, hfree, _, hrun⟩ => ⟨f, hf, hfree, hrun⟩

theorem Tables.alloc {D L : Set ℕ} {s : Machine} (h : Tables D L s) (f : ℕ) :
    Tables D L (s.setBitmap f true) :=
  h.congr rfl (fun _ _ => rfl) fun g hg => (used_alloc s f g).mpr (.inr hg)

/-- A frame that no entry holds any more may be freed. -/
theorem Tables.free {D L : Set ℕ} {s : Machine} (h : Tables D L s) {f : ℕ} (hf : f ∉ D)
    (ht : ∀ v ∈ L, ∀ i < 1024, i ≠ 767 → (s.mem v i).HasTable → (s.mem v i).pt ≠ f) :
    Tables D L (s.setBitmap f false) where
  frames := h.frames
  sub := h.sub
  dir v hv := ⟨(used_free s f v).mpr ⟨fun e => hf (e ▸ hv), (h.dir v hv).1⟩, (h.dir v hv).2⟩
  self := h.self
  present := h.present
  rw := h.rw
  used v hv i hi hne hx :=
    (used_free s f _).mpr ⟨ht v hv i hi hne hx, h.used v hv i hi hne hx⟩
  notDir := h.notDir
  sep := h.sep

/-- A frame fresh from the allocator holds nothing yet. -/
theorem Tables.fresh {D L : Set ℕ} {s : Machine} (h : Tables D L s) {f : ℕ} (hf : ¬ SysX.used s f) :
    f ∉ D ∧ ∀ v ∈ L, ∀ i < 1024, i ≠ 767 → (s.mem v i).HasTable → (s.mem v i).pt ≠ f :=
  ⟨fun hd => hf (h.dir f hd).1, fun v hv i hi hne ht e => hf (e ▸ h.used v hv i hi hne ht)⟩

/-- An entry for a page table in a fresh frame. -/
theorem Tables.fits_fresh {D L : Set ℕ} {s : Machine} (h : Tables D L s) {f : ℕ}
    (hf : ¬ SysX.used s f) {d : Word} (hd : d.pt = f) (hp : d.present = true) (hr : d.rw = true)
    (v i : ℕ) : Fits D L (s.setBitmap f true) v i d := by
  intro _
  obtain ⟨hD, hL⟩ := h.fresh hf
  refine ⟨hp, hr, (used_alloc s f _).mpr (.inl hd), hd ▸ hD, fun w hw j hj hne _ ht heq => ?_⟩
  exact absurd (heq.trans hd) (hL w hw j hj hne ht)

theorem Fits.of_not_hasTable {D L : Set ℕ} {s : Machine} {v i : ℕ} {d : Word}
    (h : ¬ d.HasTable) : Fits D L s v i d := fun hd => absurd hd h

/-- Flags may be added to an entry. -/
theorem Tables.fits_orFlags {D L : Set ℕ} {s : Machine} (h : Tables D L s) {v i : ℕ} (hv : v ∈ L)
    (hi : i < 1024) (hne : i ≠ 767) (ht : (s.mem v i).HasTable) (flags : Word) :
    Fits D L s v i ((s.mem v i).orFlags flags) := by
  intro _
  refine ⟨by simp [h.present v hv i hi hne ht], by simp [h.rw v hv i hi hne ht],
    by rw [Word.orFlags_pt]; exact h.used v hv i hi hne ht,
    by rw [Word.orFlags_pt]; exact h.notDir v hv i hi hne ht, fun w hw j hj hj' hx ht' heq => ?_⟩
  rw [Word.orFlags_pt] at heq
  obtain ⟨e, hwv⟩ := h.sep w hw v hv j hj i hi hj' hne ht' ht heq
  exact ⟨e, hwv.imp id fun h768 => e ▸ h768⟩

end SysX
