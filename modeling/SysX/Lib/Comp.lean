import Mathlib.Logic.Basic
import Mathlib.Tactic.Common

/-! Computations on a state that may fault, and the rules by which runs are taken apart. -/
namespace SysX

/-- A computation on a state `σ`. The result is `none` when it faults or never returns. -/
def Comp (σ α : Type) : Type := σ → Option (α × σ)

namespace Comp

variable {σ α β γ : Type}

instance : Monad (Comp σ) where
  pure a := fun s => some (a, s)
  bind c f := fun s => (c s).bind fun p => f p.1 p.2

def fault : Comp σ α := fun _ => none

def read (g : σ → α) : Comp σ α := fun s => some (g s, s)

def modify (g : σ → σ) : Comp σ Unit := fun s => some ((), g s)

/-- Run a partial function of the state, leaving the state as it is. -/
def readOr (g : σ → Option α) : Comp σ α := fun s => (g s).map fun a => (a, s)

def when (p : Prop) [Decidable p] (c : Comp σ Unit) : Comp σ Unit := if p then c else pure ()

/-- Run `f` on `lo, lo + 1, ..., lo + n - 1`. -/
def forRange (f : ℕ → Comp σ Unit) : (n lo : ℕ) → Comp σ Unit
  | 0, _ => pure ()
  | n + 1, lo => do f lo; forRange f n (lo + 1)

def forList (f : α → Comp σ Unit) : List α → Comp σ Unit
  | [] => pure ()
  | a :: as => do f a; forList f as

@[simp] theorem pure_apply (a : α) (s : σ) : (pure a : Comp σ α) s = some (a, s) := rfl

@[simp] theorem fault_apply (s : σ) : (fault : Comp σ α) s = none := rfl

@[simp] theorem read_apply (g : σ → α) (s : σ) : read g s = some (g s, s) := rfl

@[simp] theorem modify_apply (g : σ → σ) (s : σ) : modify g s = some ((), g s) := rfl

theorem readOr_apply (g : σ → Option α) (s : σ) : readOr g s = (g s).map fun a => (a, s) := rfl

theorem readOr_eq {g : σ → Option α} {s : σ} {a : α} (h : g s = some a) : readOr g s = some (a, s) := by
  rw [readOr_apply, h]
  rfl

theorem bind_apply (c : Comp σ α) (f : α → Comp σ β) (s : σ) :
    (c >>= f) s = (c s).bind fun p => f p.1 p.2 := rfl

theorem ite_apply (p : Prop) [Decidable p] (c d : Comp σ α) (s : σ) :
    (if p then c else d) s = if p then c s else d s := by
  split_ifs <;> rfl

/-- Symbolic execution: a computation whose first step is known runs its continuation. -/
theorem bind_of_eq {c : Comp σ α} {f : α → Comp σ β} {s t : σ} {a : α} (h : c s = some (a, t)) :
    (c >>= f) s = f a t := by
  rw [bind_apply, h]
  rfl

/-- Two first steps with the same outcome, from any two states. -/
theorem bind_congr {c d : Comp σ α} {f : α → Comp σ β} {s t : σ} (h : c s = d t) : (c >>= f) s = (d >>= f) t := by
  rw [bind_apply, bind_apply, h]

@[simp] theorem read_bind (g : σ → α) (f : α → Comp σ β) (s : σ) :
    (read g >>= f) s = f (g s) s := rfl

@[simp] theorem modify_bind (g : σ → σ) (f : Unit → Comp σ β) (s : σ) :
    (modify g >>= f) s = f () (g s) := rfl

@[simp] theorem pure_bind_apply (a : α) (f : α → Comp σ β) (s : σ) :
    ((pure a : Comp σ α) >>= f) s = f a s := rfl

@[simp] theorem fault_bind (f : α → Comp σ β) (s : σ) : ((fault : Comp σ α) >>= f) s = none := rfl

theorem bind_none {c : Comp σ α} {f : α → Comp σ β} {s : σ} (h : ∀ a t, f a t = none) : (c >>= f) s = none := by
  rw [bind_apply]
  cases hc : c s with
  | none => rfl
  | some r => exact h r.1 r.2

/-- Inversion: a run of a sequence is a run of its parts. -/
theorem bind_eq_some {c : Comp σ α} {f : α → Comp σ β} {s : σ} {r : β × σ} :
    (c >>= f) s = some r ↔ ∃ a t, c s = some (a, t) ∧ f a t = some r := by
  rw [bind_apply]
  cases h : c s with
  | none => simp
  | some p => exact ⟨fun hr => ⟨p.1, p.2, rfl, hr⟩, fun ⟨a, t, hp, hr⟩ => by cases hp; exact hr⟩

theorem bind_assoc (c : Comp σ α) (f : α → Comp σ β) (g : β → Comp σ γ) :
    (c >>= f) >>= g = c >>= fun a => f a >>= g := by
  funext s
  simp only [bind_apply]
  cases c s <;> rfl

theorem pure_bind (a : α) (f : α → Comp σ β) : (Pure.pure a : Comp σ α) >>= f = f a := rfl

instance : LawfulMonad (Comp σ) where
  map_const := rfl
  id_map c := by
    funext s
    exact Option.bind_fun_some (c s)
  seqLeft_eq c d := by
    funext s
    change (c s).bind _ = ((c s).bind _).bind _
    cases c s <;> rfl
  seqRight_eq c d := by
    funext s
    change (c s).bind _ = ((c s).bind _).bind _
    cases c s with
    | none => rfl
    | some p => exact (Option.bind_fun_some _).symm
  pure_seq _ _ := rfl
  bind_pure_comp _ _ := rfl
  bind_map _ _ := rfl
  pure_bind := Comp.pure_bind
  bind_assoc := Comp.bind_assoc

@[simp] theorem when_true {p : Prop} [Decidable p] (hp : p) (c : Comp σ Unit) : when p c = c :=
  if_pos hp

@[simp] theorem when_false {p : Prop} [Decidable p] (hp : ¬ p) (c : Comp σ Unit) :
    when p c = pure () := if_neg hp

@[simp] theorem forRange_zero (f : ℕ → Comp σ Unit) (lo : ℕ) : forRange f 0 lo = pure () := rfl

theorem forRange_succ (f : ℕ → Comp σ Unit) (n lo : ℕ) :
    forRange f (n + 1) lo = (do f lo; forRange f n (lo + 1)) := rfl

@[simp] theorem forList_nil (f : α → Comp σ Unit) : forList f [] = pure () := rfl

theorem forList_cons (f : α → Comp σ Unit) (a : α) (as : List α) :
    forList f (a :: as) = (do f a; forList f as) := rfl

theorem forList_map (f : β → Comp σ Unit) (g : α → β) (as : List α) :
    forList f (as.map g) = forList (fun a => f (g a)) as := by
  induction as with
  | nil => rfl
  | cons a as ih => rw [List.map_cons, forList_cons, forList_cons, ih]

theorem forList_range (f : ℕ → Comp σ Unit) (n : ℕ) : ∀ lo, forList f (List.range' lo n) = forRange f n lo := by
  induction n with
  | zero => exact fun _ => rfl
  | succ n ih =>
    intro lo
    rw [List.range'_succ, forList_cons, forRange_succ, ih]

/-- The state after a run, or the state before it where it faults. -/
def after (c : Comp σ α) (s : σ) : σ := ((c s).map Prod.snd).getD s

theorem run_after {c : Comp σ α} {s : σ} {a : α} (h : (c s).map Prod.fst = some a) :
    c s = some (a, after c s) := by
  obtain ⟨r, hr, rfl⟩ := Option.map_eq_some_iff.mp h
  rw [after, hr]
  rfl

/-! Rules for runs that return: what a computation establishes, whatever it does on a fault. -/

/-- Every run from a state in `P` that returns ends in `Q`. -/
def Ensures (P : σ → Prop) (c : Comp σ α) (Q : α → σ → Prop) : Prop :=
  ∀ s a t, P s → c s = some (a, t) → Q a t

/-- Every run that returns keeps `I`. -/
def Keeps (I : σ → Prop) (c : Comp σ α) : Prop := Ensures I c fun _ => I

theorem Ensures.bind {P : σ → Prop} {c : Comp σ α} {f : α → Comp σ β} {R : α → σ → Prop}
    {Q : β → σ → Prop} (hc : Ensures P c R) (hf : ∀ a, Ensures (R a) (f a) Q) :
    Ensures P (c >>= f) Q := by
  intro s b u hs h
  obtain ⟨a, t, hct, hft⟩ := bind_eq_some.mp h
  exact hf a t b u (hc s a t hs hct) hft

theorem Keeps.pure (I : σ → Prop) (a : α) : Keeps I (Pure.pure a : Comp σ α) := by
  rintro s b t hs h
  cases h
  exact hs

theorem Keeps.fault (I : σ → Prop) : Keeps I (Comp.fault : Comp σ α) := by
  intro s a t _ h
  cases h

theorem Keeps.read (I : σ → Prop) (g : σ → α) : Keeps I (Comp.read g) := by
  rintro s a t hs h
  cases h
  exact hs

theorem Keeps.readOr (I : σ → Prop) (g : σ → Option α) : Keeps I (Comp.readOr g) := by
  intro s a t hs h
  rw [readOr_apply, Option.map_eq_some_iff] at h
  obtain ⟨b, _, hb⟩ := h
  cases hb
  exact hs

theorem Ensures.modify {P : σ → Prop} {Q : Unit → σ → Prop} {g : σ → σ} (h : ∀ s, P s → Q () (g s)) :
    Ensures P (Comp.modify g) Q := by
  rintro s a t hs hst
  cases hst
  exact h s hs

theorem Keeps.modify {I : σ → Prop} {g : σ → σ} (h : ∀ s, I s → I (g s)) :
    Keeps I (Comp.modify g) := Ensures.modify h

theorem Keeps.bind {I : σ → Prop} {c : Comp σ α} {f : α → Comp σ β} (hc : Keeps I c)
    (hf : ∀ a, Keeps I (f a)) : Keeps I (c >>= f) := Ensures.bind hc hf

theorem Ensures.ite {P : σ → Prop} {Q : α → σ → Prop} {p : Prop} [Decidable p] {c d : Comp σ α}
    (hc : p → Ensures P c Q) (hd : ¬ p → Ensures P d Q) : Ensures P (if p then c else d) Q := by
  split_ifs with h
  · exact hc h
  · exact hd h

theorem Keeps.ite {I : σ → Prop} {p : Prop} [Decidable p] {c d : Comp σ α} (hc : p → Keeps I c)
    (hd : ¬ p → Keeps I d) : Keeps I (if p then c else d) := Ensures.ite hc hd

theorem Keeps.when {I : σ → Prop} {p : Prop} [Decidable p] {c : Comp σ Unit}
    (hc : p → Keeps I c) : Keeps I (Comp.when p c) := Keeps.ite hc fun _ => Keeps.pure I ()

theorem Keeps.forRange {I : σ → Prop} {f : ℕ → Comp σ Unit} (hf : ∀ i, Keeps I (f i)) :
    ∀ n lo, Keeps I (Comp.forRange f n lo)
  | 0, _ => Keeps.pure I ()
  | n + 1, lo => Keeps.bind (hf lo) fun _ => Keeps.forRange hf n (lo + 1)

theorem Keeps.forList {I : σ → Prop} {f : α → Comp σ Unit} (hf : ∀ a, Keeps I (f a)) :
    ∀ as, Keeps I (Comp.forList f as)
  | [] => Keeps.pure I ()
  | a :: as => Keeps.bind (hf a) fun _ => Keeps.forList hf as

/-- The loop rule with a counter: `J i` holds before the pass for `i`. -/
theorem forRange_ensures {J : ℕ → σ → Prop} {f : ℕ → Comp σ Unit} {n lo : ℕ}
    (h : ∀ i, lo ≤ i → i < lo + n → Ensures (J i) (f i) fun _ => J (i + 1)) :
    Ensures (J lo) (forRange f n lo) fun _ => J (lo + n) := by
  induction n generalizing lo with
  | zero =>
    rintro s a t hs hst
    cases hst
    exact hs
  | succ n ih =>
    rw [forRange_succ]
    refine Ensures.bind (h lo (Nat.le_refl lo) (by omega)) fun _ => ?_
    have hn := @ih (lo + 1) fun i hlo hi => h i (by omega) (by omega)
    rwa [Nat.add_right_comm] at hn

/-- The total loop rule: every pass returns, so the loop does. -/
theorem forRange_total {J : ℕ → σ → Prop} {f : ℕ → Comp σ Unit} {n lo : ℕ}
    (h : ∀ i, lo ≤ i → i < lo + n → ∀ s, J i s → ∃ t, f i s = some ((), t) ∧ J (i + 1) t)
    {s : σ} (hs : J lo s) : ∃ t, forRange f n lo s = some ((), t) ∧ J (lo + n) t := by
  induction n generalizing lo s with
  | zero => exact ⟨s, rfl, hs⟩
  | succ n ih =>
    obtain ⟨u, hu, hJ⟩ := h lo (Nat.le_refl lo) (by omega) s hs
    obtain ⟨t, ht, hJt⟩ := ih (fun i hlo hi => h i (by omega) (by omega)) hJ
    refine ⟨t, ?_, by rwa [Nat.add_right_comm] at hJt⟩
    rw [forRange_succ, bind_of_eq hu, ht]

/-- A loop over a list does to `s` what a fold does to an abstract state, when one pass does. -/
theorem forList_sim {τ : Type*} {R : σ → τ → Prop} {f : α → Comp σ Unit} {g : τ → α → τ}
    (h : ∀ a s t, R s t → ∃ u, f a s = some ((), u) ∧ R u (g t a)) (as : List α) {s : σ} {t : τ} (hs : R s t) :
    ∃ u, forList f as s = some ((), u) ∧ R u (as.foldl g t) := by
  induction as generalizing s t with
  | nil => exact ⟨s, rfl, hs⟩
  | cons a as ih =>
    obtain ⟨u, hu, hR⟩ := h a s t hs
    obtain ⟨w, hw, hRw⟩ := ih hR
    exact ⟨w, by rw [forList_cons, bind_of_eq hu, hw], hRw⟩

/-! Total and partial correctness in one judgement: `ok` says when a fault is excluded, so that
`Wp True` is total and `Wp False` partial correctness. -/

/-- A run of `c` from `s` ends in `Q`, and it faults only where `ok` fails. -/
def Wp (ok : Prop) (c : Comp σ α) (Q : α → σ → Prop) (s : σ) : Prop :=
  (c s = none → ¬ ok) ∧ ∀ a t, c s = some (a, t) → Q a t

theorem Wp.of_eq {ok : Prop} {c : Comp σ α} {Q : α → σ → Prop} {s t : σ} {a : α}
    (h : c s = some (a, t)) (hq : Q a t) : Wp ok c Q s := by
  refine ⟨fun hn => ?_, fun b u hb => ?_⟩
  · rw [h] at hn
    cases hn
  · rw [h] at hb
    cases hb
    exact hq

theorem Wp.of_fault {ok : Prop} {c : Comp σ α} {Q : α → σ → Prop} {s : σ} (h : c s = none)
    (hok : ¬ ok) : Wp ok c Q s := by
  refine ⟨fun _ => hok, fun a t ha => ?_⟩
  rw [h] at ha
  cases ha

theorem Wp.pure {ok : Prop} {Q : α → σ → Prop} {s : σ} {a : α} (hq : Q a s) :
    Wp ok (Pure.pure a) Q s := .of_eq rfl hq

theorem Wp.congr {ok : Prop} {c d : Comp σ α} {Q : α → σ → Prop} {s t : σ} (h : c s = d t)
    (hd : Wp ok d Q t) : Wp ok c Q s := by
  unfold Wp
  rw [h]
  exact hd

theorem Wp.bind {ok : Prop} {c : Comp σ α} {f : α → Comp σ β} {R : α → σ → Prop}
    {Q : β → σ → Prop} {s : σ} (hc : Wp ok c R s) (hf : ∀ a t, R a t → Wp ok (f a) Q t) :
    Wp ok (c >>= f) Q s := by
  cases h : c s with
  | none => exact .of_fault (by rw [bind_apply, h]; rfl) (hc.1 h)
  | some p =>
    have hw := hf p.1 p.2 (hc.2 p.1 p.2 h)
    unfold Wp
    rw [bind_of_eq h]
    exact hw

/-- Symbolic execution of a first step whose result is known. -/
theorem Wp.step {ok : Prop} {c : Comp σ α} {f : α → Comp σ β} {Q : β → σ → Prop} {s t : σ} {a : α}
    (h : c s = some (a, t)) (hf : Wp ok (f a) Q t) : Wp ok (c >>= f) Q s := by
  unfold Wp
  rw [bind_of_eq h]
  exact hf

theorem Wp.weaken {ok ok' : Prop} {c : Comp σ α} {Q Q' : α → σ → Prop} {s : σ} (h : Wp ok c Q s)
    (hok : ok' → ok) (hq : ∀ a t, Q a t → Q' a t) : Wp ok' c Q' s :=
  ⟨fun hn ho => h.1 hn (hok ho), fun a t hat => hq a t (h.2 a t hat)⟩

theorem Wp.mono {ok : Prop} {c : Comp σ α} {Q Q' : α → σ → Prop} {s : σ} (h : Wp ok c Q s)
    (hq : ∀ a t, Q a t → Q' a t) : Wp ok c Q' s := h.weaken id hq

/-- What a run that returns comes to, whatever excludes a fault. -/
theorem Wp.relax {ok : Prop} {c : Comp σ α} {Q : α → σ → Prop} {s : σ} (h : Wp ok c Q s) :
    Wp False c Q s := h.weaken False.elim fun _ _ => id

theorem Wp.total {ok : Prop} {c : Comp σ α} {Q : α → σ → Prop} {s : σ} (h : Wp ok c Q s)
    (hok : ok) : ∃ a t, c s = some (a, t) ∧ Q a t := by
  cases hc : c s with
  | none => exact absurd hok (h.1 hc)
  | some p => exact ⟨p.1, p.2, rfl, h.2 p.1 p.2 hc⟩

/-- What holds anyway. -/
theorem Wp.const {c : Comp σ α} {P : Prop} {s : σ} (h : P) : Wp False c (fun _ _ => P) s :=
  ⟨fun _ => id, fun _ _ _ => h⟩

theorem Wp.and {ok : Prop} {c : Comp σ α} {Q R : α → σ → Prop} {s : σ} (h : Wp ok c Q s)
    (h' : Wp ok c R s) : Wp ok c (fun a t => Q a t ∧ R a t) s :=
  ⟨h.1, fun a t hat => ⟨h.2 a t hat, h'.2 a t hat⟩⟩

theorem Wp.read_bind {ok : Prop} {g : σ → α} {f : α → Comp σ β} {Q : β → σ → Prop} {s : σ}
    (h : Wp ok (f (g s)) Q s) : Wp ok (Comp.read g >>= f) Q s := .step rfl h

theorem Wp.modify {ok : Prop} {g : σ → σ} {Q : Unit → σ → Prop} {s : σ} (h : Q () (g s)) :
    Wp ok (Comp.modify g) Q s := .of_eq rfl h

theorem Wp.ite {ok p : Prop} [Decidable p] {c d : Comp σ α} {Q : α → σ → Prop} {s : σ}
    (hc : p → Wp ok c Q s) (hd : ¬ p → Wp ok d Q s) : Wp ok (if p then c else d) Q s := by
  split_ifs with h
  · exact hc h
  · exact hd h

theorem Wp.when {ok p : Prop} [Decidable p] {c : Comp σ Unit} {Q : Unit → σ → Prop} {s : σ}
    (hc : p → Wp ok c Q s) (hd : ¬ p → Q () s) : Wp ok (Comp.when p c) Q s :=
  .ite hc fun h => .pure (hd h)

/-- The loop rule: `J i` holds before the pass for `i`. -/
theorem Wp.forRange {ok : Prop} {J : ℕ → σ → Prop} {f : ℕ → Comp σ Unit} {n lo : ℕ}
    (h : ∀ i, lo ≤ i → i < lo + n → ∀ s, J i s → Wp ok (f i) (fun _ => J (i + 1)) s)
    {s : σ} (hs : J lo s) : Wp ok (Comp.forRange f n lo) (fun _ => J (lo + n)) s := by
  induction n generalizing lo s with
  | zero => exact .pure hs
  | succ n ih =>
    rw [forRange_succ]
    refine .bind (h lo (Nat.le_refl lo) (by omega) s hs) fun _ t ht => ?_
    have hn := ih (fun i hlo hi => h i (by omega) (by omega)) ht
    rwa [Nat.add_right_comm] at hn

theorem Wp.forList {ok : Prop} {I : σ → Prop} {f : α → Comp σ Unit} {as : List α}
    (h : ∀ a ∈ as, ∀ s, I s → Wp ok (f a) (fun _ => I) s) {s : σ} (hs : I s) :
    Wp ok (Comp.forList f as) (fun _ => I) s := by
  induction as generalizing s with
  | nil => exact .pure hs
  | cons a as ih =>
    rw [forList_cons]
    exact .bind (h a (by simp) s hs) fun _ t ht => ih (fun b hb => h b (by simp [hb])) ht

end Comp
end SysX
