import Mathlib.Data.List.Chain
import Mathlib.Data.List.Nodup
import Mathlib.Logic.Function.Iterate

/-!
Cyclic doubly linked lists. The pointers are two functions, and the ring is seen from one of its members, with
the list of the others in the order of `next`.
-/
namespace SysX

variable {α : Type*} {next prev next' prev' : α → α} {a b m p t x : α} {l l₁ l₂ : List α}

/-- The two pointers between neighbours. -/
def Linked (next prev : α → α) (a b : α) : Prop := next a = b ∧ prev b = a

structure IsRing (next prev : α → α) (a : α) (l : List α) : Prop where
  nodup : (a :: l).Nodup
  chain : (a :: (l ++ [a])).IsChain (Linked next prev)

/-- A path of links depends on the pointers along it only. -/
theorem linked_congr (h : (a :: (l ++ [b])).IsChain (Linked next prev)) (hn : ∀ x ∈ a :: l, next' x = next x)
    (hp : ∀ y ∈ l ++ [b], prev' y = prev y) : (a :: (l ++ [b])).IsChain (Linked next' prev') := by
  induction l generalizing a with
  | nil =>
    obtain ⟨⟨hnext, hprev⟩, hlast⟩ := List.isChain_cons_cons.mp h
    refine List.isChain_cons_cons.mpr ⟨⟨?_, ?_⟩, List.isChain_singleton b⟩
    · rw [hn a List.mem_cons_self, hnext]
    · rw [hp b List.mem_cons_self, hprev]
  | cons c l ih =>
    obtain ⟨⟨hnext, hprev⟩, hrest⟩ := List.isChain_cons_cons.mp h
    refine List.isChain_cons_cons.mpr ⟨⟨?_, ?_⟩, ?_⟩
    · rw [hn a List.mem_cons_self, hnext]
    · rw [hp c List.mem_cons_self, hprev]
    · exact ih hrest (fun x hx => hn x (List.mem_cons_of_mem _ hx)) fun y hy =>
        hp y (List.mem_cons_of_mem _ hy)

namespace IsRing

theorem singleton (hn : next a = a) (hp : prev a = a) : IsRing next prev a [] :=
  ⟨List.nodup_singleton a, List.isChain_cons_cons.mpr ⟨⟨hn, hp⟩, List.isChain_singleton a⟩⟩

theorem congr (h : IsRing next prev a l) (hn : ∀ x ∈ a :: l, next' x = next x)
    (hp : ∀ x ∈ a :: l, prev' x = prev x) : IsRing next' prev' a l := by
  refine ⟨h.nodup, linked_congr h.chain hn fun y hy => hp y ?_⟩
  rcases List.mem_append.mp hy with hy | hy
  · exact List.mem_cons_of_mem _ hy
  · exact List.mem_singleton.mp hy ▸ List.mem_cons_self

/-- The ring seen from another member. -/
theorem rotate (h : IsRing next prev a (l₁ ++ b :: l₂)) : IsRing next prev b (l₂ ++ a :: l₁) := by
  have hperm : (b :: (l₂ ++ a :: l₁)).Perm (a :: (l₁ ++ b :: l₂)) :=
    @List.perm_append_comm _ (b :: l₂) (a :: l₁)
  have hchain : ((a :: l₁) ++ b :: (l₂ ++ [a])).IsChain (Linked next prev) := by
    have := h.chain
    simpa using this
  obtain ⟨hfirst, hsecond⟩ := List.isChain_split.mp hchain
  refine ⟨hperm.nodup_iff.mpr h.nodup, ?_⟩
  have hjoin : ((b :: l₂) ++ a :: (l₁ ++ [b])).IsChain (Linked next prev) :=
    List.isChain_split.mpr ⟨hsecond, hfirst⟩
  simpa using hjoin

theorem exists_rotate (h : IsRing next prev a l) (hx : x ∈ a :: l) :
    ∃ l', IsRing next prev x l' ∧ (x :: l').Perm (a :: l) := by
  rcases List.mem_cons.mp hx with rfl | hx
  · exact ⟨l, h, .refl _⟩
  · obtain ⟨l₁, l₂, rfl⟩ := List.append_of_mem hx
    exact ⟨l₂ ++ a :: l₁, h.rotate, @List.perm_append_comm _ (x :: l₂) (a :: l₁)⟩

/-- The neighbour after the member that the ring is seen from. -/
theorem next_head (h : IsRing next prev a l) : next a ∈ a :: l ∧ prev (next a) = a := by
  have hchain := h.chain
  cases l with
  | nil =>
    obtain ⟨⟨hnext, hprev⟩, -⟩ := List.isChain_cons_cons.mp hchain
    rw [hnext, hprev]
    exact ⟨List.mem_cons_self, rfl⟩
  | cons b l =>
    obtain ⟨⟨hnext, hprev⟩, -⟩ := List.isChain_cons_cons.mp hchain
    rw [hnext, hprev]
    exact ⟨List.mem_cons_of_mem _ List.mem_cons_self, rfl⟩

/-- The neighbour before the member that the ring is seen from. -/
theorem prev_head (h : IsRing next prev a l) : prev a ∈ a :: l ∧ next (prev a) = a := by
  rcases List.eq_nil_or_concat l with rfl | ⟨l, b, rfl⟩
  · obtain ⟨⟨hnext, hprev⟩, -⟩ := List.isChain_cons_cons.mp h.chain
    rw [hprev, hnext]
    exact ⟨List.mem_cons_self, rfl⟩
  · have hchain : ((a :: l) ++ b :: [a]).IsChain (Linked next prev) := by
      have := h.chain
      simpa using this
    obtain ⟨⟨hnext, hprev⟩, -⟩ := List.isChain_cons_cons.mp (List.isChain_split.mp hchain).2
    rw [hprev, hnext]
    refine ⟨?_, rfl⟩
    simp

theorem next_mem (h : IsRing next prev a l) (hx : x ∈ a :: l) : next x ∈ a :: l ∧ prev (next x) = x := by
  obtain ⟨l', hring, hperm⟩ := h.exists_rotate hx
  exact ⟨hperm.mem_iff.mp hring.next_head.1, hring.next_head.2⟩

theorem prev_mem (h : IsRing next prev a l) (hx : x ∈ a :: l) : prev x ∈ a :: l ∧ next (prev x) = x := by
  obtain ⟨l', hring, hperm⟩ := h.exists_rotate hx
  exact ⟨hperm.mem_iff.mp hring.prev_head.1, hring.prev_head.2⟩

section Change

variable [DecidableEq α]

/-- A new member put after the one that the ring is seen from, with the four writes in this order. -/
theorem insert (h : IsRing next prev a l) (ht : t ∉ a :: l) :
    IsRing (Function.update (Function.update next t (next a)) a t)
      (Function.update (Function.update prev t a) (next a) t) a (t :: l) := by
  obtain ⟨hta, htl⟩ : t ≠ a ∧ t ∉ l := by
    simpa using ht
  refine ⟨?_, ?_⟩
  · have := h.nodup
    simp only [List.nodup_cons, List.mem_cons, not_or] at this ⊢
    exact ⟨⟨hta.symm, this.1⟩, htl, this.2⟩
  have hfirst : Function.update (Function.update next t (next a)) a t t = next a := by
    rw [Function.update_of_ne hta, Function.update_self]
  have hback : Function.update (Function.update prev t a) (next a) t (next a) = t := Function.update_self ..
  have hold (hne : t ≠ next a) : Function.update (Function.update prev t a) (next a) t t = a := by
    rw [Function.update_of_ne hne, Function.update_self]
  have hchain := h.chain
  cases l with
  | nil =>
    obtain ⟨⟨hnext, -⟩, -⟩ := List.isChain_cons_cons.mp hchain
    rw [hnext] at hfirst hback hold ⊢
    refine List.isChain_cons_cons.mpr ⟨⟨Function.update_self .., hold hta⟩, ?_⟩
    exact List.isChain_cons_cons.mpr ⟨⟨hfirst, hback⟩, List.isChain_singleton a⟩
  | cons b l =>
    obtain ⟨⟨hnext, -⟩, hrest⟩ := List.isChain_cons_cons.mp hchain
    rw [hnext] at hfirst hback hold ⊢
    have htb : t ≠ b := fun heq => htl (heq ▸ List.mem_cons_self)
    refine List.isChain_cons_cons.mpr ⟨⟨Function.update_self .., hold htb⟩, ?_⟩
    refine List.isChain_cons_cons.mpr ⟨⟨hfirst, hback⟩, ?_⟩
    have hnodup := h.nodup
    apply linked_congr hrest
    · intro x hx
      have hxa : x ≠ a := fun heq => (List.nodup_cons.mp hnodup).1 (heq ▸ hx)
      have hxt : x ≠ t := fun heq => htl (heq ▸ hx)
      rw [Function.update_of_ne hxa, Function.update_of_ne hxt]
    · intro y hy
      obtain ⟨hyb, hyt⟩ : y ≠ b ∧ y ≠ t := by
        simp only [List.nodup_cons, List.mem_cons, not_or] at hnodup
        rcases List.mem_append.mp hy with hy | hy
        · exact ⟨fun heq => hnodup.2.1 (heq ▸ hy), fun heq => htl (heq ▸ List.mem_cons_of_mem _ hy)⟩
        · obtain rfl := List.mem_singleton.mp hy
          exact ⟨hnodup.1.1, hta.symm⟩
      rw [Function.update_of_ne hyb, Function.update_of_ne hyt]

/-- The member after the one that the ring is seen from taken out. -/
theorem erase (h : IsRing next prev p (m :: l)) :
    IsRing (Function.update next p (next m)) (Function.update prev (next m) p) p l := by
  have hnodup := h.nodup
  refine ⟨?_, ?_⟩
  · simp only [List.nodup_cons, List.mem_cons, not_or] at hnodup ⊢
    exact ⟨hnodup.1.2, hnodup.2.2⟩
  obtain ⟨-, hrest⟩ := List.isChain_cons_cons.mp h.chain
  cases l with
  | nil =>
    obtain ⟨⟨hnext, -⟩, -⟩ := List.isChain_cons_cons.mp hrest
    rw [hnext]
    exact List.isChain_cons_cons.mpr ⟨⟨Function.update_self .., Function.update_self ..⟩,
      List.isChain_singleton p⟩
  | cons b l =>
    obtain ⟨⟨hnext, -⟩, hrest⟩ := List.isChain_cons_cons.mp hrest
    rw [hnext]
    refine List.isChain_cons_cons.mpr ⟨⟨Function.update_self .., Function.update_self ..⟩, ?_⟩
    apply linked_congr hrest
    · intro x hx
      have hxp : x ≠ p := fun heq => (List.nodup_cons.mp hnodup).1 (heq ▸ List.mem_cons_of_mem _ hx)
      rw [Function.update_of_ne hxp]
    · intro y hy
      have hyb : y ≠ b := by
        simp only [List.nodup_cons, List.mem_cons, not_or] at hnodup
        rcases List.mem_append.mp hy with hy | hy
        · exact fun heq => hnodup.2.2.1 (heq ▸ hy)
        · obtain rfl := List.mem_singleton.mp hy
          exact hnodup.1.2.1
      rw [Function.update_of_ne hyb]

/-- A new member put after any member. -/
theorem exists_insert (h : IsRing next prev a l) (hx : x ∈ a :: l) (ht : t ∉ a :: l) :
    ∃ l', IsRing (Function.update (Function.update next t (next x)) x t)
      (Function.update (Function.update prev t x) (next x) t) a l' ∧ (a :: l').Perm (t :: a :: l) := by
  obtain ⟨l₁, hring, hperm⟩ := h.exists_rotate hx
  have hgrown := hring.insert fun hmem => ht (hperm.mem_iff.mp hmem)
  have hperm' : (x :: t :: l₁).Perm (t :: a :: l) := (List.Perm.swap t x l₁).trans (hperm.cons t)
  have ha : a ∈ x :: t :: l₁ := hperm'.mem_iff.mpr (List.mem_cons_of_mem _ List.mem_cons_self)
  obtain ⟨l', hring', hback⟩ := hgrown.exists_rotate ha
  exact ⟨l', hring', hback.trans hperm'⟩

/-- Any other member taken out. -/
theorem exists_erase (h : IsRing next prev a l) (hx : x ∈ l) :
    ∃ l', IsRing (Function.update next (prev x) (next x)) (Function.update prev (next x) (prev x)) a l' ∧
      (x :: a :: l').Perm (a :: l) := by
  have hxa : a ≠ x := fun heq => (List.nodup_cons.mp h.nodup).1 (heq ▸ hx)
  obtain ⟨l₁, hring, hperm⟩ := h.exists_rotate (List.mem_cons_of_mem _ hx)
  have ha : a ∈ l₁ := (List.mem_cons.mp (hperm.mem_iff.mpr List.mem_cons_self)).resolve_left hxa
  rcases List.eq_nil_or_concat l₁ with rfl | ⟨l₂, p, rfl⟩
  · cases ha
  rw [List.concat_eq_append] at *
  have hlast : IsRing next prev p (x :: l₂) := hring.rotate
  have hp : prev x = p := by
    obtain ⟨⟨-, hback⟩, -⟩ := List.isChain_cons_cons.mp hlast.chain
    exact hback
  rw [hp]
  have hperm' : (x :: p :: l₂).Perm (a :: l) :=
    ((List.perm_append_singleton p l₂).symm.cons x).trans hperm
  have ha' : a ∈ p :: l₂ := (List.perm_append_singleton p l₂).mem_iff.mp ha
  obtain ⟨l', hring', hback⟩ := hlast.erase.exists_rotate ha'
  exact ⟨l', hring', (hback.cons x).trans hperm'⟩

end Change

/-- Following `next` along a path of links. -/
theorem iterate_next (h : (a :: (l ++ [b])).IsChain (Linked next prev)) : next^[l.length + 1] a = b := by
  induction l generalizing a with
  | nil => exact (List.isChain_cons_cons.mp h).1.1
  | cons c l ih =>
    obtain ⟨⟨hnext, -⟩, hrest⟩ := List.isChain_cons_cons.mp h
    rw [List.length_cons, Function.iterate_succ_apply, hnext]
    exact ih hrest

/-- Every member is reached from every other one. -/
theorem reach (h : IsRing next prev a l) {y : α} (hx : x ∈ a :: l) (hy : y ∈ a :: l) : ∃ k, next^[k] x = y := by
  obtain ⟨l', hring, hperm⟩ := h.exists_rotate hx
  rcases List.mem_cons.mp (hperm.mem_iff.mpr hy) with rfl | hy
  · exact ⟨0, rfl⟩
  · obtain ⟨l₁, l₂, rfl⟩ := List.append_of_mem hy
    have hchain : ((x :: l₁) ++ y :: (l₂ ++ [x])).IsChain (Linked next prev) := by
      have := hring.chain
      simpa using this
    exact ⟨l₁.length + 1, iterate_next (List.isChain_split.mp hchain).1⟩

end IsRing
end SysX
