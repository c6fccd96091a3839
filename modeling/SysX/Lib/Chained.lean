import Mathlib.Data.List.Nodup
import Mathlib.Logic.Function.Basic
import Mathlib.Tactic.Common

/-! Singly linked lists that end with a null pointer. -/
namespace SysX

variable {α : Type*} {next next' : α → Option α} {p : Option α} {a b : α} {l l' l₁ l₂ : List α}

/-- The pointer `p` starts the list. -/
def Chained (next : α → Option α) : Option α → List α → Prop
  | p, [] => p = none
  | p, a :: l => p = some a ∧ Chained next (next a) l

namespace Chained

theorem congr (h : Chained next p l) (hnext : ∀ a ∈ l, next' a = next a) : Chained next' p l := by
  induction l generalizing p with
  | nil => exact h
  | cons a l ih =>
    refine ⟨h.1, ?_⟩
    rw [hnext a List.mem_cons_self]
    exact ih h.2 fun b hb => hnext b (List.mem_cons_of_mem _ hb)

theorem unique (h : Chained next p l) (h' : Chained next p l') : l = l' := by
  induction l generalizing p l' with
  | nil =>
    cases l' with
    | nil => rfl
    | cons b l' => cases h.symm.trans h'.1
  | cons a l ih =>
    cases l' with
    | nil => cases h.1.symm.trans h'
    | cons b l' =>
      obtain rfl := Option.some.inj (h.1.symm.trans h'.1)
      rw [ih h.2 h'.2]

/-- The list goes on behind each of its members. -/
theorem behind (h : Chained next p (l₁ ++ a :: l₂)) : Chained next (next a) l₂ := by
  induction l₁ generalizing p with
  | nil => exact h.2
  | cons b l₁ ih => exact ih h.2

/-- A member that came again would come for ever. -/
theorem nodup (h : Chained next p l) : l.Nodup := by
  induction l generalizing p with
  | nil => exact List.nodup_nil
  | cons a l ih =>
    refine List.nodup_cons.mpr ⟨fun hmem => ?_, ih h.2⟩
    obtain ⟨l₁, l₂, rfl⟩ := List.append_of_mem hmem
    have hlen := congrArg List.length (h.2.unique h.2.behind)
    rw [List.length_append, List.length_cons] at hlen
    omega

/-- What comes before a member stays as it is when the list goes on differently behind it. -/
theorem replace (h : Chained next p (l₁ ++ a :: l₂)) (hbefore : ∀ x ∈ l₁, next' x = next x)
    (hbehind : Chained next' (next' a) l) : Chained next' p (l₁ ++ a :: l) := by
  induction l₁ generalizing p with
  | nil => exact ⟨h.1, hbehind⟩
  | cons b l₁ ih =>
    refine ⟨h.1, ?_⟩
    rw [hbefore b List.mem_cons_self]
    exact ih h.2 fun x hx => hbefore x (List.mem_cons_of_mem _ hx)

/-- A new member behind another one. -/
theorem insert (h : Chained next p (l₁ ++ a :: l₂)) (hnew : next' b = next a)
    (hlink : next' a = some b) (hrest : ∀ x ∈ l₁ ++ l₂, next' x = next x) : Chained next' p (l₁ ++ a :: b :: l₂) := by
  apply h.replace fun x hx => hrest x (List.mem_append_left _ hx)
  refine ⟨hlink, ?_⟩
  rw [hnew]
  exact h.behind.congr fun x hx => hrest x (List.mem_append_right _ hx)

end Chained
end SysX
