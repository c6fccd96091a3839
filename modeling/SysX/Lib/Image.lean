import Mathlib.Data.List.Induction
import Mathlib.Tactic.Common

/-! Memory images: which pages are mapped, with or without write permission, and what is known of the bytes. Segments are
placed one after the other; a page that two of them share keeps the larger permission, and a byte the later value. -/
namespace SysX

structure Image (β : Type*) where
  perm : ℕ → Option Bool
  byte : ℕ → Option β

/-- `count` pages from `first` on, and the values of `data` between the addresses `lo` and `hi`. -/
structure Segment (β : Type*) where
  first : ℕ
  count : ℕ
  writable : Bool
  lo : ℕ
  hi : ℕ
  data : ℕ → β

namespace Image

variable {β : Type*}

def empty : Image β := ⟨fun _ => none, fun _ => none⟩

/-- `n` pages from `q` on are mapped, with write permission where `w` or where they have it. -/
def mapPages (I : Image β) (w : Bool) (q n : ℕ) : Image β :=
  { I with perm := fun p => if q ≤ p ∧ p < q + n then some ((I.perm p).getD false || w) else I.perm p }

def fill (I : Image β) (lo hi : ℕ) (g : ℕ → β) : Image β :=
  { I with byte := fun a => if lo ≤ a ∧ a < hi then some (g a) else I.byte a }

def place (I : Image β) (s : Segment β) : Image β := (I.mapPages s.writable s.first s.count).fill s.lo s.hi s.data

def ofSegments (ss : List (Segment β)) : Image β := ss.foldl place empty

variable {I : Image β} {w : Bool} {q n p a lo mid hi : ℕ} {g : ℕ → β}

@[simp] theorem mapPages_zero : I.mapPages w q 0 = I := by
  have : (I.mapPages w q 0).perm = I.perm := by
    funext p
    exact if_neg (by omega)
  exact congrArg (fun f => { I with perm := f }) this

theorem mapPages_succ : I.mapPages w q (n + 1) = (I.mapPages w q 1).mapPages w (q + 1) n := by
  have : (I.mapPages w q (n + 1)).perm = ((I.mapPages w q 1).mapPages w (q + 1) n).perm := by
    funext p
    show (if q ≤ p ∧ p < q + (n + 1) then some ((I.perm p).getD false || w) else I.perm p) =
      if q + 1 ≤ p ∧ p < q + 1 + n then some (((if q ≤ p ∧ p < q + 1 then some ((I.perm p).getD false || w) else I.perm p).getD false) || w)
      else if q ≤ p ∧ p < q + 1 then some ((I.perm p).getD false || w) else I.perm p
    by_cases hp : p = q
    · rw [if_pos (by omega), if_neg (by omega), if_pos (by omega)]
    · have hone : ¬ (q ≤ p ∧ p < q + 1) := by omega
      rw [if_neg hone]
      exact if_congr (by omega) rfl rfl
  exact congrArg (fun f => { I with perm := f }) this

/-- The page that `mapPages` adds first. -/
theorem mapPages_one_perm : (I.mapPages w q 1).perm p = if p = q then some ((I.perm p).getD false || w) else I.perm p :=
  if_congr (by omega) rfl rfl

/-- A page that has the permission already. -/
theorem mapPages_one_eq_self {w' : Bool} (h : I.perm q = some w') (hw : w = true → w' = true) : I.mapPages w q 1 = I := by
  have : (I.mapPages w q 1).perm = I.perm := by
    funext p
    rw [mapPages_one_perm]
    split_ifs with hp
    · rw [hp, h]
      cases w <;> cases w' <;> simp_all
    · rfl
  exact congrArg (fun f => { I with perm := f }) this

@[simp] theorem fill_self : I.fill lo lo g = I := by
  have : (I.fill lo lo g).byte = I.byte := by
    funext a
    exact if_neg (by omega)
  exact congrArg (fun f => { I with byte := f }) this

theorem fill_fill (h : lo ≤ mid) (h' : mid ≤ hi) : (I.fill lo mid g).fill mid hi g = I.fill lo hi g := by
  have : ((I.fill lo mid g).fill mid hi g).byte = (I.fill lo hi g).byte := by
    funext a
    show (if mid ≤ a ∧ a < hi then some (g a) else if lo ≤ a ∧ a < mid then some (g a) else I.byte a) =
      if lo ≤ a ∧ a < hi then some (g a) else I.byte a
    by_cases ha : mid ≤ a
    · by_cases hb : a < hi
      · rw [if_pos ⟨ha, hb⟩, if_pos ⟨by omega, hb⟩]
      · rw [if_neg (by omega), if_neg (by omega), if_neg (by omega)]
    · rw [if_neg (by omega)]
      exact if_congr (by omega) rfl rfl
  exact congrArg (fun f => { I with byte := f }) this

end Image

namespace Segment

variable {β : Type*}

/-- The page is one of those the segment is placed on. -/
def HasPage (s : Segment β) (q : ℕ) : Prop := s.first ≤ q ∧ q < s.first + s.count

def HasByte (s : Segment β) (a : ℕ) : Prop := s.lo ≤ a ∧ a < s.hi

end Segment

namespace Image

variable {β : Type*} {ss : List (Segment β)} {s : Segment β} {I : Image β} {q a : ℕ}

theorem place_perm_of_page (h : s.HasPage q) : (I.place s).perm q = some ((I.perm q).getD false || s.writable) := if_pos h

theorem place_perm_of_not_page (h : ¬ s.HasPage q) : (I.place s).perm q = I.perm q := if_neg h

theorem place_byte_of_byte (h : s.HasByte a) : (I.place s).byte a = some (s.data a) := if_pos h

theorem place_byte_of_not_byte (h : ¬ s.HasByte a) : (I.place s).byte a = I.byte a := if_neg h

theorem ofSegments_concat : ofSegments (ss ++ [s]) = (ofSegments ss).place s := by
  rw [ofSegments, List.foldl_append]
  rfl

/-- The pages of the image are those of the segments. -/
theorem perm_isSome : ((ofSegments ss).perm q).isSome ↔ ∃ s ∈ ss, s.HasPage q := by
  induction ss using List.reverseRecOn with
  | nil => simp [ofSegments, empty]
  | append_singleton ss s ih =>
    rw [ofSegments_concat]
    by_cases hs : s.HasPage q
    · rw [place_perm_of_page hs]
      exact iff_of_true rfl ⟨s, by simp, hs⟩
    · rw [place_perm_of_not_page hs, ih]
      simp [hs, or_and_right, exists_or]

/-- A page has write permission where one of the segments on it has. -/
theorem perm_writable {w : Bool} (h : (ofSegments ss).perm q = some w) :
    w = true ↔ ∃ s ∈ ss, s.HasPage q ∧ s.writable = true := by
  induction ss using List.reverseRecOn generalizing w with
  | nil => cases h
  | append_singleton ss s ih =>
    rw [ofSegments_concat] at h
    by_cases hs : s.HasPage q
    · rw [place_perm_of_page hs] at h
      cases hq : (ofSegments ss).perm q with
      | none =>
        have hno : ∀ s' ∈ ss, ¬ s'.HasPage q := by
          intro s' hs' hp
          have := perm_isSome.mpr ⟨s', hs', hp⟩
          rw [hq] at this
          cases this
        rw [hq] at h
        obtain rfl : s.writable = w := by simpa using h
        constructor
        · intro hw
          exact ⟨s, by simp, hs, hw⟩
        · rintro ⟨s', hs', hp, hw⟩
          rcases List.mem_append.mp hs' with hin | hin
          · exact absurd hp (hno s' hin)
          · rwa [List.mem_singleton.mp hin] at hw
      | some w' =>
        rw [hq] at h
        obtain rfl : (w' || s.writable) = w := by simpa using h
        rw [Bool.or_eq_true, ih hq]
        constructor
        · rintro (⟨s', hs', hp, hw⟩ | hw)
          · exact ⟨s', List.mem_append_left _ hs', hp, hw⟩
          · exact ⟨s, by simp, hs, hw⟩
        · rintro ⟨s', hs', hp, hw⟩
          rcases List.mem_append.mp hs' with hin | hin
          · exact .inl ⟨s', hin, hp, hw⟩
          · rw [List.mem_singleton.mp hin] at hw
            exact .inr hw
    · rw [place_perm_of_not_page hs] at h
      rw [ih h]
      simp [hs, or_and_right, exists_or]

/-- Each segment has its bytes where no two segments have a byte in common. -/
theorem byte_of_disjoint (hss : ss.Pairwise fun s t => ∀ a, ¬ (s.HasByte a ∧ t.HasByte a)) (hs : s ∈ ss) (ha : s.HasByte a) :
    (ofSegments ss).byte a = some (s.data a) := by
  induction ss using List.reverseRecOn with
  | nil => cases hs
  | append_singleton ss t ih =>
    obtain ⟨hpair, -, hlast⟩ := List.pairwise_append.mp hss
    rw [ofSegments_concat]
    rcases List.mem_append.mp hs with hin | hin
    · have hno : ¬ t.HasByte a := fun ht => hlast s hin t (by simp) a ⟨ha, ht⟩
      rw [place_byte_of_not_byte hno, ih hpair hin]
    · rw [List.mem_singleton.mp hin] at ha ⊢
      exact place_byte_of_byte ha

end Image
end SysX
