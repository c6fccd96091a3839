import Mathlib.Logic.Relation
import Mathlib.Tactic.Common

/-!
Locks. What any number of agents do to the data under a lock, in steps of any size that come in any order, is what
they do one after the other, in the order in which they took the lock.
-/
namespace SysX.Lock

/-- What is done under a lock: steps of a local state and of the data, up to where there is none. -/
abbrev Section (κ σ : Type*) := κ → σ → Option (κ × σ)

variable {α κ σ : Type*} {c : Section κ σ}

namespace Section

/-- A number of steps. -/
def Part (c : Section κ σ) : κ × σ → κ × σ → Prop := Relation.ReflTransGen fun x y => c x.1 x.2 = some y

/-- From the first step to the last. -/
def Whole (c : Section κ σ) (k : κ) (d d' : σ) : Prop := ∃ k', c.Part (k, d) (k', d') ∧ c k' d' = none

/-- One after the other. -/
inductive Serial (c : Section κ σ) : (d : σ) → List κ → (d' : σ) → Prop
  | nil (d : σ) : Serial c d [] d
  | concat {d d₁ d₂ : σ} {ks : List κ} {k : κ} (h : Serial c d ks d₁) (hk : c.Whole k d₁ d₂) :
    Serial c d (ks ++ [k]) d₂

end Section

/-- The agent that holds the lock with what it has left to do, the data, and who took the lock for what so far. -/
structure State (α κ σ : Type*) where
  holder : Option (α × κ)
  data : σ
  log : List (α × κ)

/-- One step of one agent. -/
inductive Step (c : Section κ σ) : State α κ σ → State α κ σ → Prop
  | wait (s : State α κ σ) : Step c s s
  | acquire {s : State α κ σ} (a : α) (k : κ) (h : s.holder = none) :
    Step c s { s with holder := some (a, k), log := s.log ++ [(a, k)] }
  | work {s : State α κ σ} {a : α} {k k' : κ} {d : σ} (h : s.holder = some (a, k)) (hk : c k s.data = some (k', d)) :
    Step c s { s with holder := some (a, k'), data := d }
  | release {s : State α κ σ} {a : α} {k : κ} (h : s.holder = some (a, k)) (hk : c k s.data = none) :
    Step c s { s with holder := none }

/-- The data is that of the log, up to where the holder has come. -/
structure Consistent (c : Section κ σ) (d : σ) (s : State α κ σ) : Prop where
  free : s.holder = none → c.Serial d (s.log.map Prod.snd) s.data
  held : ∀ a k, s.holder = some (a, k) → ∃ before k₀ d₁, s.log = before ++ [(a, k₀)] ∧
    c.Serial d (before.map Prod.snd) d₁ ∧ c.Part (k₀, d₁) (k, s.data)

theorem Consistent.start (c : Section κ σ) (d : σ) : Consistent c d (⟨none, d, []⟩ : State α κ σ) :=
  ⟨fun _ => .nil d, fun _ _ h => by cases h⟩

theorem Consistent.step {d : σ} {s t : State α κ σ} (h : Consistent c d s) (hst : Step c s t) : Consistent c d t := by
  cases hst with
  | wait => exact h
  | acquire a k hfree =>
    refine ⟨fun hno => absurd hno (Option.some_ne_none _), fun a' k' hheld => ?_⟩
    obtain ⟨rfl, rfl⟩ := Prod.mk.inj (Option.some.inj hheld)
    exact ⟨s.log, k, s.data, rfl, h.free hfree, .refl⟩
  | work hheld hk =>
    obtain ⟨before, k₀, d₁, hlog, hserial, hpart⟩ := h.held _ _ hheld
    refine ⟨fun hno => absurd hno (Option.some_ne_none _), fun a' k' hheld' => ?_⟩
    obtain ⟨rfl, rfl⟩ := Prod.mk.inj (Option.some.inj hheld')
    exact ⟨before, k₀, d₁, hlog, hserial, hpart.tail hk⟩
  | release hheld hk =>
    obtain ⟨before, k₀, d₁, hlog, hserial, hpart⟩ := h.held _ _ hheld
    refine ⟨fun _ => ?_, fun _ _ hno => by cases hno⟩
    show c.Serial d (s.log.map Prod.snd) s.data
    rw [hlog, List.map_append]
    exact hserial.concat ⟨_, hpart, hk⟩

/-! Sections that are lists of changes of the data. -/

/-- The changes one by one. -/
def changes : Section (List (σ → σ)) σ
  | [], _ => none
  | f :: fs, d => some (fs, f d)

def applyAll (fs : List (σ → σ)) (d : σ) : σ := fs.foldl (fun d f => f d) d

@[simp] theorem applyAll_cons (f : σ → σ) (fs : List (σ → σ)) (d : σ) : applyAll (f :: fs) d = applyAll fs (f d) := rfl

@[simp] theorem applyAll_append (fs gs : List (σ → σ)) (d : σ) :
    applyAll (fs ++ gs) d = applyAll gs (applyAll fs d) := List.foldl_append

theorem changes_part {x y : List (σ → σ) × σ} (h : changes.Part x y) : applyAll y.1 y.2 = applyAll x.1 x.2 := by
  induction h with
  | refl => rfl
  | @tail y z _ hlast ih =>
    obtain ⟨fs, e⟩ := y
    cases fs with
    | nil => cases hlast
    | cons f fs =>
      obtain rfl : (fs, f e) = z := Option.some.inj hlast
      exact ih

theorem changes_whole {fs : List (σ → σ)} {d d' : σ} (h : changes.Whole fs d d') : d' = applyAll fs d := by
  obtain ⟨gs, hpart, hend⟩ := h
  cases gs with
  | nil => exact changes_part hpart
  | cons f gs => cases hend

theorem changes_serial {ks : List (List (σ → σ))} {d d' : σ} (h : changes.Serial d ks d') :
    d' = applyAll ks.flatten d := by
  induction h with
  | nil => rfl
  | concat _ hk ih =>
    rw [List.flatten_append, applyAll_append, ← ih, changes_whole hk]
    simp

/-- What the log leaves to be seen: all but the last entry, and the last as far as the holder has come. -/
theorem Consistent.changes_data {d : σ} {s : State α (List (σ → σ)) σ} (h : Consistent changes d s) :
    applyAll ((s.holder.map Prod.snd).getD []) s.data = applyAll (s.log.map Prod.snd).flatten d := by
  cases hheld : s.holder with
  | none => exact changes_serial (h.free hheld)
  | some x =>
    obtain ⟨before, k₀, d₁, hlog, hserial, hpart⟩ := h.held x.1 x.2 hheld
    rw [hlog, List.map_append, List.flatten_append, applyAll_append, ← changes_serial hserial]
    simpa using changes_part hpart

end SysX.Lock
