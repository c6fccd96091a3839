import Mathlib.Data.List.Infix
import Mathlib.Data.List.MinMax
import Mathlib.Tactic.Common

/-! Chains of prefix tests: the first pattern that a word starts with, and the longest one. -/
namespace SysX

variable {α β : Type*} [DecidableEq α] {chain : List (List α × β)} {w : List α}

def firstPrefix (chain : List (List α × β)) (w : List α) : Option (List α × β) := chain.find? fun p => p.1 <+: w

/-- The first one where several are the longest. -/
def longestPrefix (chain : List (List α × β)) (w : List α) : Option (List α × β) :=
  (chain.filter fun p => p.1 <+: w).argmax fun p => p.1.length

/-- On a list that descends the first element is the largest. -/
theorem argmax_eq_head {γ : Type*} {f : γ → ℕ} {l : List γ} (h : l.Pairwise fun a b => f b < f a) :
    l.argmax f = l.head? := by
  cases l with
  | nil => rfl
  | cons a l =>
    have hall : ∀ b ∈ l, f b < f a := (List.pairwise_cons.mp h).1
    classical
    rw [List.head?_cons, List.argmax_eq_some_iff]
    refine ⟨List.mem_cons_self, fun b hb => ?_, fun b hb _ => ?_⟩
    · rcases List.mem_cons.mp hb with rfl | hb
      · exact Nat.le_refl _
      · exact Nat.le_of_lt (hall b hb)
    · rw [List.idxOf_cons_self]
      exact Nat.zero_le _

/-- A chain in which no pattern hides a longer one behind it that fits. -/
theorem firstPrefix_eq_longest (h : chain.Pairwise fun p q => p.1 <+: q.1 → ¬ q.1 <+: w) :
    firstPrefix chain w = longestPrefix chain w := by
  have hdesc : (chain.filter fun p => p.1 <+: w).Pairwise fun p q => q.1.length < p.1.length := by
    rw [List.pairwise_filter]
    refine h.imp fun {p q} hide hp hq => ?_
    have hp' : p.1 <+: w := of_decide_eq_true hp
    have hq' : q.1 <+: w := of_decide_eq_true hq
    by_contra hle
    exact hide (List.prefix_of_prefix_length_le hp' hq' (Nat.le_of_not_lt hle)) hq'
  rw [longestPrefix, argmax_eq_head hdesc, List.head?_filter]
  rfl

theorem isSome_firstPrefix : (firstPrefix chain w).isSome = (longestPrefix chain w).isSome := by
  rw [Bool.eq_iff_iff, firstPrefix, List.find?_isSome, Option.isSome_iff_ne_none, longestPrefix, ne_eq,
    List.argmax_eq_none, List.filter_eq_nil_iff]
  push Not
  rfl

end SysX
