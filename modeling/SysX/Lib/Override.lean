import Mathlib.Data.Set.Basic

/-! A function rewritten on a part of its domain, and how such changes compose. -/
namespace SysX

variable {α β : Type*} {R P Q : Set α} {f g k : α → β} {val val' : α → β}

/-- As far as `R` goes, `g` is `val` inside of `P` and `f` outside of it. -/
structure Override (R : Set α) (f g : α → β) (P : Set α) (val : α → β) : Prop where
  inside : ∀ a ∈ R, a ∈ P → g a = val a
  outside : ∀ a ∈ R, a ∉ P → g a = f a

/-- Two changes to the same values make one. -/
theorem Override.trans (h : Override R f g P val) (h' : Override R g k Q val) : Override R f k (P ∪ Q) val := by
  refine ⟨fun a ha hPQ => ?_, fun a ha hPQ => ?_⟩
  · by_cases hQ : a ∈ Q
    · exact h'.inside a ha hQ
    · rw [h'.outside a ha hQ]
      exact h.inside a ha (hPQ.resolve_right hQ)
  · rw [h'.outside a ha fun hQ => hPQ (.inr hQ)]
    exact h.outside a ha fun hP => hPQ (.inl hP)

theorem Override.congr (h : Override R f g P val) (hP : ∀ a ∈ R, a ∈ Q ↔ a ∈ P)
    (hval : ∀ a ∈ R, a ∈ P → val a = val' a) : Override R f g Q val' :=
  ⟨fun a ha hQ => (h.inside a ha ((hP a ha).mp hQ)).trans (hval a ha ((hP a ha).mp hQ)),
    fun a ha hQ => h.outside a ha fun hPa => hQ ((hP a ha).mpr hPa)⟩

theorem Override.result (h : Override R f g P val) (hk : ∀ a ∈ R, k a = g a) : Override R f k P val :=
  ⟨fun a ha hP => (hk a ha).trans (h.inside a ha hP), fun a ha hP => (hk a ha).trans (h.outside a ha hP)⟩

/-- The result is determined by the change. -/
theorem Override.unique (h : Override R f g P val) (h' : Override R f k P val) : ∀ a ∈ R, g a = k a := by
  intro a ha
  by_cases hP : a ∈ P
  · rw [h.inside a ha hP, h'.inside a ha hP]
  · rw [h.outside a ha hP, h'.outside a ha hP]

end SysX
