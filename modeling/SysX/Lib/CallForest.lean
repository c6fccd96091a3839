import Mathlib.Algebra.BigOperators.Group.List.Basic
import Mathlib.Data.Fintype.Card
import Mathlib.Data.List.Nodup
import Mathlib.Data.List.Pairwise
import Mathlib.Data.List.Perm.Basic
import Mathlib.Logic.Relation
import Mathlib.Order.WellFounded
import Mathlib.Tactic.Common

/-! Calls that make further calls, where no record is kept of the calls that have been made. -/
namespace SysX

variable {α : Type*} {next : α → List α} {as as' l l' : List α} {a b c : α}

/-- The calls of the list, one after the other, make these calls in this order. -/
inductive Calls (next : α → List α) : List α → List α → Prop
  | nil : Calls next [] []
  | cons {a : α} {as l l' : List α} (hsub : Calls next (next a) l) (hrest : Calls next as l') :
      Calls next (a :: as) (a :: (l ++ l'))

/-- A call that is made by way of one of the list. -/
def Called (next : α → List α) (as : List α) (b : α) : Prop := ∃ a ∈ as, Relation.ReflTransGen (fun a b => b ∈ next a) a b

/-- Every call that can come about does so in one way only. -/
structure CallForest (next : α → List α) (as : List α) : Prop where
  roots : as.Nodup
  top : ∀ b c, Called next as b → c ∈ next b → c ∉ as
  nodup : ∀ b, Called next as b → (next b).Nodup
  unique : ∀ b b' c, Called next as b → Called next as b' → c ∈ next b → c ∈ next b' → b = b'

theorem Called.root (h : a ∈ as) : Called next as a := ⟨a, h, .refl⟩

theorem Called.step (h : Called next as b) (hc : c ∈ next b) : Called next as c := by
  obtain ⟨a, ha, hab⟩ := h
  exact ⟨a, ha, hab.tail hc⟩

namespace Calls

theorem append (h : Calls next as l) (h' : Calls next as' l') : Calls next (as ++ as') (l ++ l') := by
  induction h with
  | nil => exact h'
  | @cons a as l₁ l₂ hsub hrest _ ih =>
    rw [List.cons_append, List.cons_append, List.append_assoc]
    exact .cons hsub ih

theorem unique (h : Calls next as l) (h' : Calls next as l') : l = l' := by
  induction h generalizing l' with
  | nil =>
    cases h'
    rfl
  | cons _ _ ihsub ihrest =>
    cases h' with
    | cons hsub' hrest' => rw [ihsub hsub', ihrest hrest']

theorem split (h : Calls next (as ++ as') l) : ∃ l₁ l₂, Calls next as l₁ ∧ Calls next as' l₂ ∧ l = l₁ ++ l₂ := by
  induction as generalizing l with
  | nil => exact ⟨[], l, .nil, h, rfl⟩
  | cons a as ih =>
    cases h with
    | cons hsub hrest =>
      obtain ⟨l₁, l₂, h₁, h₂, rfl⟩ := ih hrest
      exact ⟨_, l₂, .cons hsub h₁, h₂, by rw [List.cons_append, List.append_assoc]⟩

/-- Apart from the first calls each call is made by a call. -/
theorem perm (h : Calls next as l) : l.Perm (as ++ l.flatMap next) := by
  induction h with
  | nil => exact .refl _
  | @cons a as l₁ l₂ _ _ ihsub ihrest =>
    rw [List.cons_append, List.flatMap_cons, List.flatMap_append]
    refine List.Perm.cons a ?_
    have hparts : (l₁ ++ l₂).Perm ((next a ++ l₁.flatMap next) ++ (as ++ l₂.flatMap next)) := ihsub.append ihrest
    have hmiddle : (l₁.flatMap next ++ as).Perm (as ++ l₁.flatMap next) := List.perm_append_comm
    have hfront : (next a ++ as).Perm (as ++ next a) := List.perm_append_comm
    have hregroup := (hmiddle.append_left (next a)).append_right (l₂.flatMap next)
    have hlast := hfront.append_right (l₁.flatMap next ++ l₂.flatMap next)
    simp only [List.append_assoc] at hparts hregroup hlast ⊢
    exact hparts.trans (hregroup.trans hlast)

theorem mem_iff (h : Calls next as l) : b ∈ l ↔ Called next as b := by
  have hmem : ∀ c, c ∈ l ↔ c ∈ as ∨ ∃ d ∈ l, c ∈ next d := by
    intro c
    rw [h.perm.mem_iff, List.mem_append, List.mem_flatMap]
  constructor
  · clear hmem
    intro hb
    induction h with
    | nil => cases hb
    | @cons a as l₁ l₂ _ _ ihsub ihrest =>
      rcases List.mem_cons.mp hb with rfl | hb
      · exact .root List.mem_cons_self
      · rcases List.mem_append.mp hb with hb | hb
        · obtain ⟨c, hc, hcb⟩ := ihsub hb
          exact ⟨a, List.mem_cons_self, .head hc hcb⟩
        · obtain ⟨c, hc, hcb⟩ := ihrest hb
          exact ⟨c, List.mem_cons_of_mem _ hc, hcb⟩
  · rintro ⟨a, ha, hab⟩
    induction hab with
    | refl => exact (hmem a).mpr (.inl ha)
    | tail _ hc ih => exact (hmem _).mpr (.inr ⟨_, ih, hc⟩)

/-- What is observed of the calls. Without repetition, each observation is made of a first call, or of a call that one call
makes. -/
theorem observed {β : Type*} {g : α → Option β} (h : Calls next as l) (hl : (l.filterMap g).Nodup) : (as.filterMap g).Nodup ∧
    (∀ b y, Called next as b → y ∈ (next b).filterMap g → y ∉ as.filterMap g) ∧
    ∀ b b' y, Called next as b → Called next as b' → y ∈ (next b).filterMap g → y ∈ (next b').filterMap g → b = b' := by
  have hperm := h.perm.filterMap g
  rw [List.filterMap_append, List.filterMap_flatMap] at hperm
  obtain ⟨hroots, hsub, hdisj⟩ := List.nodup_append'.mp (hperm.nodup_iff.mp hl)
  have hpair := (List.nodup_flatMap.mp hsub).2
  refine ⟨hroots, fun b y hb hy hmem => ?_, fun b b' y hb hb' hy hy' => ?_⟩
  · exact hdisj hmem (List.mem_flatMap.mpr ⟨b, h.mem_iff.mpr hb, hy⟩)
  · by_contra hne
    have : Std.Symm (Function.onFun List.Disjoint fun b => (next b).filterMap g) := ⟨fun x y hxy => hxy.symm⟩
    exact hpair.forall (h.mem_iff.mpr hb) (h.mem_iff.mpr hb') hne hy hy'

end Calls

namespace CallForest

/-- No call comes back to itself. -/
theorem acyclic (h : CallForest next as) (hb : Called next as b) : ¬ Relation.TransGen (fun a b => b ∈ next a) b b := by
  obtain ⟨a, ha, hab⟩ := hb
  induction hab with
  | refl =>
    intro hcycle
    obtain ⟨c, hac, hca⟩ := Relation.TransGen.tail'_iff.mp hcycle
    exact h.top c a ⟨a, ha, hac⟩ hca ha
  | @tail p c hap hpc ih =>
    intro hcycle
    obtain ⟨p', hcp, hpc'⟩ := Relation.TransGen.tail'_iff.mp hcycle
    obtain rfl := h.unique p p' c ⟨a, ha, hap⟩ ⟨a, ha, (hap.tail hpc).trans hcp⟩ hpc hpc'
    exact ih (Relation.TransGen.head' hpc hcp)

/-- In a forest the calls come to an end. -/
theorem exists_calls [Finite α] (h : CallForest next as) : ∃ l, Calls next as l := by
  let r : α → α → Prop := fun c b => Called next as b ∧ Relation.TransGen (fun a b => b ∈ next a) b c
  have : IsTrans α r := ⟨fun a b c hab hbc => ⟨hbc.1, hbc.2.trans hab.2⟩⟩
  have : Std.Irrefl r := ⟨fun b hb => h.acyclic hb.1 hb.2⟩
  have hlist : ∀ cs : List α, (∀ c ∈ cs, ∃ l, Calls next [c] l) → ∃ l, Calls next cs l := by
    intro cs hcs
    induction cs with
    | nil => exact ⟨[], .nil⟩
    | cons c cs ih =>
      obtain ⟨l, hl⟩ := hcs c List.mem_cons_self
      obtain ⟨l', hl'⟩ := ih fun c' hc' => hcs c' (List.mem_cons_of_mem _ hc')
      exact ⟨l ++ l', hl.append hl'⟩
  have hone : ∀ b, Called next as b → ∃ l, Calls next [b] l := by
    intro b
    induction b using (Finite.wellFounded_of_trans_of_irrefl r).induction with
    | h b ih =>
      intro hb
      obtain ⟨l, hl⟩ := hlist (next b) fun c hc => ih c ⟨hb, .single hc⟩ (hb.step hc)
      exact ⟨_, .cons hl .nil⟩
  exact hlist as fun a ha => hone a (.root ha)

/-- In a forest no call is made twice. -/
theorem nodup_calls (h : CallForest next as) (hl : Calls next as l) : l.Nodup := by
  classical
  have hcount : ∀ x, l.count x = as.count x + (l.map fun b => (next b).count x).sum := by
    intro x
    rw [hl.perm.count_eq, List.count_append, List.count_flatMap]
    rfl
  have hone : ∀ b, Called next as b → l.count b = 1 := by
    rintro b ⟨a, ha, hab⟩
    induction hab with
    | refl =>
      have hzero : (l.map fun b => (next b).count a).sum = 0 := by
        refine List.sum_eq_zero fun n hn => ?_
        obtain ⟨b, hb, rfl⟩ := List.mem_map.mp hn
        exact List.count_eq_zero_of_not_mem fun hmem => h.top b a (hl.mem_iff.mp hb) hmem ha
      rw [hcount, hzero, List.count_eq_one_of_mem h.roots ha]
    | @tail p c hap hpc ih =>
      have hp : Called next as p := ⟨a, ha, hap⟩
      have hothers : ∀ b, b ≠ p → b ∈ l → (next b).count c = 0 := by
        intro b hne hb
        refine List.count_eq_zero_of_not_mem fun hmem => ?_
        exact hne (h.unique b p c (hl.mem_iff.mp hb) hp hmem hpc)
      rw [hcount, List.count_eq_zero_of_not_mem (h.top p c hp hpc), List.sum_map_eq_nsmul_single p _ hothers, ih,
        List.count_eq_one_of_mem (h.nodup p hp) hpc]
      rfl
  rw [List.nodup_iff_count_le_one]
  intro x
  by_cases hx : x ∈ l
  · exact (hone x (hl.mem_iff.mp hx)).le
  · rw [List.count_eq_zero_of_not_mem hx]
    exact Nat.zero_le _

end CallForest

end SysX
