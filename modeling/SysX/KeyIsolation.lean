import SysX.KeyWindow
import Mathlib.Data.List.Forall2
import Mathlib.Data.List.TakeWhile

/-!
Two keyboards that share the ring: a run with reads on one of them beside the run without these reads,
as the other keyboard's reader sees both.
-/
namespace SysX

/-- What a reader of the keyboard `b` sees is the same in two states. -/
structure Isolated (b : ℕ) (s u : Kbd) : Prop where
  read : ∃ r s' u', kbdEventRead (some b) s = some (r, s') ∧ kbdEventRead (some b) u = some (r, u')
  events : ∃ n, kbdEventAvailable (some b) s = some (n, s) ∧
    kbdEventAvailable (some b) u = some (n, u)
  chars : ∃ n, kbdCharAvailable (some b) s = some (n, s) ∧ kbdCharAvailable (some b) u = some (n, u)

/-- The calls of the two runs. Only the first run makes the reads on `a`. -/
inductive PairCall where
  | press
  | charReadA
  | eventReadA
  | eventReadB
  deriving DecidableEq

/-- A call in both runs, or in the first. No key is pressed while a ring is full. -/
inductive PairStep (a b : ℕ) (s u : Kbd) : PairCall → Kbd → Kbd → Prop
  | press {id code i j : ℕ} {pressed : Bool} {s' u' : Kbd} (hid : id = a ∨ id = b)
      (hreg : s.Registered id) (hs : ¬ s.Full) (hu : ¬ u.Full)
      (hrun : kbdKeypress id pressed code s = some (some i, s'))
      (hrun' : kbdKeypress id pressed code u = some (some j, u')) : PairStep a b s u .press s' u'
  | charReadA {c : ℕ} {s' : Kbd} (hrun : kbdCharRead (some a) s = some (c, s')) :
      PairStep a b s u .charReadA s' u
  | eventReadA {r : Option KbdEvent} {s' : Kbd} (hrun : kbdEventRead (some a) s = some (r, s')) :
      PairStep a b s u .eventReadA s' u
  | eventReadB {r r' : Option KbdEvent} {s' u' : Kbd}
      (hrun : kbdEventRead (some b) s = some (r, s'))
      (hrun' : kbdEventRead (some b) u = some (r', u')) : PairStep a b s u .eventReadB s' u'

/-- Two runs from a state with no events, each step of which meets the condition `ok`. -/
inductive PairRun (a b : ℕ) (ok : PairCall → Kbd → Kbd → Prop) : Kbd → Kbd → Prop
  | init {s : Kbd} (hrd : s.rdidx = 0) (hwr : s.wridx = 0) : PairRun a b ok s s
  | step {s u s' u' : Kbd} {call : PairCall} (run : PairRun a b ok s u) (hok : ok call s u)
      (h : PairStep a b s u call s' u') : PairRun a b ok s' u'

/-! What a read drops from the queue. -/

/-- `kbd_event_read` drops an event at the front and the invalidated ones after it. -/
def eventDrop (id : Option ℕ) : List KbdEvent → List KbdEvent
  | [] => []
  | e :: post => if e.Unread id then e :: post.takeWhile fun x => x.code = 0 else []

/-- `kbd_char_read` drops everything up to the event that has the character. -/
def charDrop (id : Option ℕ) (w : List KbdEvent) : List KbdEvent :=
  if ∃ e ∈ w, e.HasChar id then w.take (w.findIdx (fun e => e.HasChar id) + 1) else []

/-- The reads on `a` drop no event of `b` that is unread or has a character, and the reads on `b` drop
none with a character that they leave in the queue where there are no reads on `a`. -/
def Undisturbed (a b : ℕ) : PairCall → Kbd → Kbd → Prop
  | .press, _, _ => True
  | .charReadA, s, _ => ∀ e ∈ charDrop (some a) s.window, e.id = b → e.code = 0 ∧ e.c = 0
  | .eventReadA, s, _ => ∀ e ∈ eventDrop (some a) s.window, e.id = b → e.code = 0 ∧ e.c = 0
  | .eventReadB, s, u => ∀ e ∈ (eventDrop (some b) s.window).drop
      (eventDrop (some b) u.window).length, e.id = b → e.c = 0

/-- `x` is `y`, which a read on `id` may have invalidated. -/
def SameBut (id : ℕ) (x y : KbdEvent) : Prop := x = y ∨ y.id = id ∧ x = { y with code := 0 }

/-- The window `w` of the first run lags behind the window `v` of the second: it lacks a first part
without events of `b` that count, and reads on `a` may have invalidated events of the rest. -/
def Behind (a b : ℕ) (w v : List KbdEvent) : Prop :=
  ∃ p q, v = p ++ q ∧ (∀ e ∈ p, e.id = b → e.code = 0 ∧ e.c = 0) ∧ List.Forall₂ (SameBut a) w q

section

variable {a b id : ℕ} {s u s' u' : Kbd} {w v w' : List KbdEvent} {x y z : KbdEvent}

theorem of_some : x.Of (some id) ↔ x.id = id := by
  simp [KbdEvent.Of, eq_comm]

theorem SameBut.refl (x : KbdEvent) : SameBut id x x := .inl rfl

theorem SameBut.id_eq (h : SameBut id x y) : x.id = y.id := by
  rcases h with rfl | ⟨-, rfl⟩ <;> rfl

theorem SameBut.c_eq (h : SameBut id x y) : x.c = y.c := by
  rcases h with rfl | ⟨-, rfl⟩ <;> rfl

theorem SameBut.trans (h : SameBut id x y) (h' : SameBut id y z) : SameBut id x z := by
  rcases h' with rfl | ⟨hz, rfl⟩
  · exact h
  · rcases h with rfl | ⟨-, rfl⟩ <;> exact .inr ⟨hz, rfl⟩

/-- A read on `a` leaves the events of `b` as they are. -/
theorem SameBut.eq_of_ne (h : SameBut a x y) (hne : a ≠ b) (hb : y.id = b) : x = y := by
  rcases h with rfl | ⟨ha, -⟩
  · rfl
  · exact absurd (ha.symm.trans hb) hne

theorem SameBut.dead (h : SameBut id x y) (hy : y.code = 0) : x.code = 0 := by
  rcases h with rfl | ⟨-, rfl⟩
  · exact hy
  · rfl

theorem SameBut.unread_iff (h : SameBut a x y) (hne : a ≠ b) :
    x.Unread (some b) ↔ y.Unread (some b) := by
  unfold KbdEvent.Unread
  rw [of_some, of_some, h.id_eq]
  constructor
  · rintro ⟨hb, hc⟩
    rw [h.eq_of_ne hne hb] at hc
    exact ⟨hb, hc⟩
  · rintro ⟨hb, hc⟩
    rw [h.eq_of_ne hne hb]
    exact ⟨hb, hc⟩

theorem SameBut.hasChar_iff (h : SameBut a x y) : x.HasChar (some b) ↔ y.HasChar (some b) := by
  unfold KbdEvent.HasChar
  rw [of_some, of_some, h.id_eq, h.c_eq]

/-- Pointwise equivalent lists have as many elements of a kind. -/
theorem countP_forall₂ {P : KbdEvent → Prop} [DecidablePred P] {R : KbdEvent → KbdEvent → Prop}
    (hP : ∀ x y, R x y → (P x ↔ P y)) {l m : List KbdEvent} (h : List.Forall₂ R l m) :
    l.countP (fun e => P e) = m.countP fun e => P e := by
  induction h with
  | nil => rfl
  | @cons x y l m hxy _ ih => rw [List.countP_cons, List.countP_cons, ih]; simp only [hP x y hxy]

theorem countP_none {P : KbdEvent → Prop} [DecidablePred P] {l : List KbdEvent} :
    l.countP (fun e => P e) = 0 ↔ ∀ e ∈ l, ¬ P e := by
  simp [List.countP_eq_zero]

theorem not_counts (h : x.id = b → x.code = 0 ∧ x.c = 0) :
    ¬ x.Unread (some b) ∧ ¬ x.HasChar (some b) := by
  unfold KbdEvent.Unread KbdEvent.HasChar
  rw [of_some]
  exact ⟨fun hu => hu.2 (h hu.1).1, fun hc => hc.2 (h hc.1).2⟩

theorem Behind.unread_count (h : Behind a b w v) (hne : a ≠ b) :
    w.countP (fun e => e.Unread (some b)) = v.countP fun e => e.Unread (some b) := by
  obtain ⟨p, q, rfl, hp, hq⟩ := h
  rw [List.countP_append, countP_none.mpr fun e he => (not_counts (hp e he)).1, Nat.zero_add]
  exact countP_forall₂ (fun x y hxy => hxy.unread_iff hne) hq

theorem Behind.char_count (h : Behind a b w v) :
    w.countP (fun e => e.HasChar (some b)) = v.countP fun e => e.HasChar (some b) := by
  obtain ⟨p, q, rfl, hp, hq⟩ := h
  rw [List.countP_append, countP_none.mpr fun e he => (not_counts (hp e he)).2, Nat.zero_add]
  exact countP_forall₂ (fun x y hxy => hxy.hasChar_iff) hq

/-! `kbd_event_read` as a function of the queue. -/

/-- The first unread event is invalidated. -/
def markFirst (id : Option ℕ) : List KbdEvent → List KbdEvent
  | [] => []
  | e :: post => if e.Unread id then { e with code := 0 } :: post else e :: markFirst id post

def eventLeave (id : Option ℕ) : List KbdEvent → List KbdEvent
  | [] => []
  | e :: post => if e.Unread id then post.dropWhile fun x => x.code = 0 else e :: markFirst id post

theorem markFirst_append {i : Option ℕ} {p q : List KbdEvent} (hp : ∀ e ∈ p, ¬ e.Unread i) :
    markFirst i (p ++ q) = p ++ markFirst i q := by
  induction p with
  | nil => rfl
  | cons e p ih =>
    rw [List.cons_append, markFirst, if_neg (hp e (by simp)), ih fun x hx => hp x (by simp [hx])]
    rfl

theorem markFirst_none {i : Option ℕ} {p : List KbdEvent} (hp : ∀ e ∈ p, ¬ e.Unread i) :
    markFirst i p = p := by
  have h := markFirst_append (q := []) hp
  rwa [List.append_nil, markFirst, List.append_nil] at h

theorem eventLeave_head {i : Option ℕ} {p : List KbdEvent} (h : ∀ e ∈ p.head?, ¬ e.Unread i) :
    eventLeave i p = markFirst i p := by
  cases p with
  | nil => rfl
  | cons e p =>
    have he := h e rfl
    rw [eventLeave, markFirst, if_neg he, if_neg he]

theorem eventDrop_head {i : Option ℕ} {p : List KbdEvent} (h : ∀ e ∈ p.head?, ¬ e.Unread i) :
    eventDrop i p = [] := by
  cases p with
  | nil => rfl
  | cons e p => exact if_neg (h e rfl)

theorem EventReadStep.eq {i : Option ℕ} {r : Option KbdEvent} (h : EventReadStep i w r w') :
    r = w.find? (fun e => e.Unread i) ∧ w' = eventLeave i w := by
  cases h with
  | empty hnone =>
    constructor
    · symm
      simpa using hnone
    · rw [eventLeave_head fun e he => hnone e (List.mem_of_mem_head? he), markFirst_none hnone]
  | front he => exact ⟨by simp [he], (if_pos he).symm⟩
  | @later pre e post hne hpre he =>
    obtain ⟨x, pre, rfl⟩ := List.exists_cons_of_ne_nil hne
    constructor
    · rw [List.find?_append, List.find?_eq_none.mpr (by simpa using hpre)]
      simp [he]
    · rw [eventLeave_head fun y hy => ?_, markFirst_append hpre, markFirst, if_pos he]
      cases hy
      exact hpre x (by simp)

theorem CharReadStep.eq {i : Option ℕ} {c : ℕ} (h : CharReadStep i w c w') :
    w = charDrop i w ++ w' := by
  cases h with
  | empty hnone =>
    rw [charDrop, if_neg (by simpa using hnone)]
    rfl
  | @found pre e _ hpre he =>
    have hidx : (pre ++ e :: w').findIdx (fun x => x.HasChar i) = pre.length := by
      have hlen : pre.findIdx (fun x => x.HasChar i) = pre.length :=
        List.findIdx_eq_length_of_false (by simpa using hpre)
      rw [List.findIdx_append, hlen, if_neg (lt_irrefl _), List.findIdx_cons]
      simp [he]
    rw [charDrop, if_pos ⟨e, by simp, he⟩, hidx, List.take_length_add_append]
    simp

/-! Parts of pointwise equivalent lists. -/

theorem forall₂_append_split {R : KbdEvent → KbdEvent → Prop} {l m q : List KbdEvent}
    (h : List.Forall₂ R (l ++ m) q) :
    ∃ q₁ q₂, q = q₁ ++ q₂ ∧ List.Forall₂ R l q₁ ∧ List.Forall₂ R m q₂ := by
  induction l generalizing q with
  | nil => exact ⟨[], q, rfl, .nil, h⟩
  | cons x l ih =>
    cases h with
    | cons hxy hrest =>
      obtain ⟨q₁, q₂, rfl, h₁, h₂⟩ := ih hrest
      exact ⟨_ :: q₁, q₂, rfl, .cons hxy h₁, h₂⟩

theorem forall₂_partner {R : KbdEvent → KbdEvent → Prop} {l q : List KbdEvent}
    (h : List.Forall₂ R l q) : ∀ y ∈ q, ∃ x ∈ l, R x y := by
  induction h with
  | nil => nofun
  | @cons x y l q hxy _ ih =>
    intro z hz
    rcases List.mem_cons.mp hz with rfl | hz
    · exact ⟨x, by simp, hxy⟩
    · obtain ⟨x', hx', hr⟩ := ih z hz
      exact ⟨x', by simp [hx'], hr⟩

theorem sameBut_trans {l m q : List KbdEvent} (h : List.Forall₂ (SameBut id) l m)
    (h' : List.Forall₂ (SameBut id) m q) : List.Forall₂ (SameBut id) l q := by
  induction h generalizing q with
  | nil => exact h'
  | cons hxy _ ih =>
    cases h' with
    | cons hyz hrest => exact .cons (hxy.trans hyz) (ih hrest)

theorem sameBut_refl (l : List KbdEvent) : List.Forall₂ (SameBut id) l l :=
  List.forall₂_same.mpr fun x _ => SameBut.refl x

theorem sameBut_markFirst (l : List KbdEvent) :
    List.Forall₂ (SameBut id) (markFirst (some id) l) l := by
  induction l with
  | nil => exact .nil
  | cons e l ih =>
    rw [markFirst]
    split_ifs with he
    · exact .cons (.inr ⟨of_some.mp he.1, rfl⟩) (sameBut_refl l)
    · exact .cons (SameBut.refl e) ih

/-- A read on `id` drops a first part, and invalidates at most one event of the rest. -/
theorem eventLeave_split (id : ℕ) (l : List KbdEvent) :
    ∃ rest, l = eventDrop (some id) l ++ rest ∧
      List.Forall₂ (SameBut id) (eventLeave (some id) l) rest := by
  cases l with
  | nil => exact ⟨[], rfl, .nil⟩
  | cons e l =>
    by_cases he : e.Unread (some id)
    · refine ⟨l.dropWhile fun x => x.code = 0, ?_, ?_⟩
      · rw [eventDrop, if_pos he, List.cons_append, List.takeWhile_append_dropWhile]
      · rw [eventLeave, if_pos he]
        exact sameBut_refl _
    · have hhead : ∀ x ∈ (e :: l).head?, ¬ x.Unread (some id) := by
        rintro x ⟨rfl⟩
        exact he
      rw [eventDrop_head hhead, eventLeave_head hhead]
      exact ⟨e :: l, rfl, sameBut_markFirst _⟩

/-- What the first run drops of the queue, the second keeps in front. -/
theorem Behind.drop (h : Behind a b w v) (hne : a ≠ b) {d rest : List KbdEvent}
    (hw : w = d ++ rest) (hrest : List.Forall₂ (SameBut a) w' rest)
    (hd : ∀ e ∈ d, e.id = b → e.code = 0 ∧ e.c = 0) : Behind a b w' v := by
  obtain ⟨p, q, rfl, hp, hq⟩ := h
  subst hw
  obtain ⟨q₁, q₂, rfl, h₁, h₂⟩ := forall₂_append_split hq
  refine ⟨p ++ q₁, q₂, by simp, ?_, ?_⟩
  · intro e he hb
    rcases List.mem_append.mp he with he | he
    · exact hp e he hb
    · obtain ⟨x, hx, hxe⟩ := forall₂_partner h₁ e he
      have hxe' := hxe.eq_of_ne hne hb
      subst hxe'
      exact hd x hx hb
  · exact sameBut_trans hrest h₂

theorem sameBut_markFirst_congr (hne : a ≠ b) {l q : List KbdEvent}
    (h : List.Forall₂ (SameBut a) l q) :
    List.Forall₂ (SameBut a) (markFirst (some b) l) (markFirst (some b) q) := by
  induction h with
  | nil => exact .nil
  | @cons x y l q hxy hrest ih =>
    rw [markFirst, markFirst]
    by_cases hy : y.Unread (some b)
    · have hx := (hxy.unread_iff hne).mpr hy
      rw [if_pos hx, if_pos hy, hxy.eq_of_ne hne (of_some.mp hy.1)]
      exact .cons (SameBut.refl _) hrest
    · have hx := mt (hxy.unread_iff hne).mp hy
      rw [if_neg hx, if_neg hy]
      exact .cons hxy ih

/-- Behind an event that the second run has dropped with the invalidated ones after it, the first run
has dropped at least as many. -/
theorem sameBut_takeWhile {l q : List KbdEvent} (h : List.Forall₂ (SameBut a) l q) :
    ∃ m q₁ q₂, q.dropWhile (fun x => x.code = 0) = q₁ ++ q₂ ∧
      l.takeWhile (fun x => x.code = 0) = m ++ (l.takeWhile fun x => x.code = 0).drop
        (q.takeWhile fun x => x.code = 0).length ∧
      List.Forall₂ (SameBut a) m (q.takeWhile fun x => x.code = 0) ∧
      List.Forall₂ (SameBut a) ((l.takeWhile fun x => x.code = 0).drop
        (q.takeWhile fun x => x.code = 0).length) q₁ ∧
      List.Forall₂ (SameBut a) (l.dropWhile fun x => x.code = 0) q₂ := by
  induction h with
  | nil => exact ⟨[], [], [], rfl, rfl, .nil, .nil, .nil⟩
  | @cons x y l q hxy hrest ih =>
    by_cases hy : y.code = 0
    · have hx := hxy.dead hy
      obtain ⟨m, q₁, q₂, h₁, h₂, h₃, h₄, h₅⟩ := ih
      refine ⟨x :: m, q₁, q₂, ?_, ?_, ?_, ?_, ?_⟩ <;> simp only [List.takeWhile_cons,
        List.dropWhile_cons, hx, hy, decide_true, if_true, List.length_cons, List.drop_succ_cons]
      · exact h₁
      · exact congrArg (x :: ·) h₂
      · exact .cons hxy h₃
      · exact h₄
      · exact h₅
    · have hq : (y :: q).takeWhile (fun x => x.code = 0) = [] :=
        List.takeWhile_cons_of_neg (by simpa using hy)
      have hq' : (y :: q).dropWhile (fun x => x.code = 0) = y :: q :=
        List.dropWhile_cons_of_neg (by simpa using hy)
      have hall : List.Forall₂ (SameBut a) (x :: l) (y :: q) := .cons hxy hrest
      rw [← List.takeWhile_append_dropWhile (p := fun x : KbdEvent => decide (x.code = 0))
        (l := x :: l)] at hall
      obtain ⟨q₁, q₂, heq, h₁, h₂⟩ := forall₂_append_split hall
      rw [hq, hq']
      exact ⟨[], q₁, q₂, heq, rfl, .nil, h₁, h₂⟩

/-- What a read on `b` does to the two queues: it finds its event behind the front of the first, at the
front of both, or at the front of the first only. -/
theorem Behind.read_cases (h : Behind a b w v) (hne : a ≠ b) :
    (eventDrop (some b) w = [] ∧ eventDrop (some b) v = [] ∧
      Behind a b (eventLeave (some b) w) (eventLeave (some b) v)) ∨
    (∃ x l q, w = x :: l ∧ v = x :: q ∧ x.Unread (some b) ∧ List.Forall₂ (SameBut a) l q) ∨
    ∃ x l p q, w = x :: l ∧ x.Unread (some b) ∧ List.Forall₂ (SameBut a) l q ∧
      (∀ e ∈ p, e.id = b → e.code = 0 ∧ e.c = 0) ∧ eventDrop (some b) v = [] ∧
      eventLeave (some b) v = p ++ { x with code := 0 } :: q := by
  obtain ⟨p, q, rfl, hp, hq⟩ := h
  have hpre : ∀ e ∈ p, ¬ e.Unread (some b) := fun e he => (not_counts (hp e he)).1
  by_cases hw : ∃ x ∈ w.head?, x.Unread (some b)
  · obtain ⟨x, hx, hun⟩ := hw
    cases hq with
    | nil => cases hx
    | @cons x' y l q hxy hq =>
      cases hx
      have hy := (hxy.unread_iff hne).mp hun
      have hxe := hxy.eq_of_ne hne (of_some.mp hy.1)
      subst hxe
      right
      cases p with
      | nil => exact .inl ⟨x, l, q, rfl, rfl, hun, hq⟩
      | cons z p =>
        have hhead : ∀ e ∈ (z :: p ++ x :: q).head?, ¬ e.Unread (some b) := by
          rintro e ⟨rfl⟩
          exact hpre z (by simp)
        refine .inr ⟨x, l, z :: p, q, rfl, hun, hq, hp, eventDrop_head hhead, ?_⟩
        rw [eventLeave_head hhead, markFirst_append hpre, markFirst, if_pos hun]
  · push Not at hw
    have hv : ∀ e ∈ (p ++ q).head?, ¬ e.Unread (some b) := by
      cases p with
      | nil =>
        cases hq with
        | nil => nofun
        | cons hxy _ =>
          rintro e ⟨rfl⟩
          exact mt (hxy.unread_iff hne).mpr (hw _ rfl)
      | cons z p =>
        rintro e ⟨rfl⟩
        exact hpre z (by simp)
    refine .inl ⟨eventDrop_head hw, eventDrop_head hv, p, markFirst (some b) q, ?_, hp, ?_⟩
    · rw [eventLeave_head hv, markFirst_append hpre]
    · rw [eventLeave_head hw]
      exact sameBut_markFirst_congr hne hq

theorem eventDrop_cons {i : Option ℕ} {l : List KbdEvent} (hx : x.Unread i) :
    eventDrop i (x :: l) = x :: l.takeWhile fun e => e.code = 0 := if_pos hx

theorem eventLeave_cons {i : Option ℕ} {l : List KbdEvent} (hx : x.Unread i) :
    eventLeave i (x :: l) = l.dropWhile fun e => e.code = 0 := if_pos hx

theorem code_of_mem_takeWhile {l : List KbdEvent} (h : x ∈ l.takeWhile fun e => e.code = 0) :
    x.code = 0 := by
  simpa using List.mem_takeWhile_imp h

theorem Behind.eventRead (h : Behind a b w v) (hne : a ≠ b)
    (hok : ∀ e ∈ (eventDrop (some b) w).drop (eventDrop (some b) v).length, e.id = b → e.c = 0) :
    Behind a b (eventLeave (some b) w) (eventLeave (some b) v) := by
  rcases h.read_cases hne with ⟨-, -, h⟩ | ⟨x, l, q, rfl, rfl, hx, hlq⟩ |
    ⟨x, l, p, q, rfl, hx, hlq, hp, hdrop, hleave⟩
  · exact h
  · obtain ⟨m, q₁, q₂, hq, -, -, h₁, h₂⟩ := sameBut_takeWhile hlq
    rw [eventDrop_cons hx, eventDrop_cons hx, List.length_cons, List.drop_succ_cons] at hok
    rw [eventLeave_cons hx, eventLeave_cons hx]
    refine ⟨q₁, q₂, hq, ?_, h₂⟩
    intro e he hb
    obtain ⟨y, hy, hye⟩ := forall₂_partner h₁ e he
    have hye' := hye.eq_of_ne hne hb
    subst hye'
    exact ⟨code_of_mem_takeWhile (List.mem_of_mem_drop hy), hok y hy hb⟩
  · rw [hdrop, eventDrop_cons hx, List.length_nil, List.drop_zero] at hok
    rw [hleave, eventLeave_cons hx]
    rw [← List.takeWhile_append_dropWhile (p := fun e : KbdEvent => decide (e.code = 0))
      (l := l)] at hlq
    obtain ⟨q₁, q₂, rfl, h₁, h₂⟩ := forall₂_append_split hlq
    refine ⟨p ++ { x with code := 0 } :: q₁, q₂, by simp, ?_, h₂⟩
    intro e he hb
    rw [List.mem_append, List.mem_cons] at he
    rcases he with he | rfl | he
    · exact hp e he hb
    · exact ⟨rfl, hok x (by simp) hb⟩
    · obtain ⟨y, hy, hye⟩ := forall₂_partner h₁ e he
      have hye' := hye.eq_of_ne hne hb
      subst hye'
      exact ⟨code_of_mem_takeWhile hy, hok y (by simp [hy]) hb⟩

/-- The second run drops the same events first. -/
theorem Behind.drop_prefix (h : Behind a b w v) (hne : a ≠ b) : ∃ d,
    eventDrop (some b) w = d ++ (eventDrop (some b) w).drop (eventDrop (some b) v).length ∧
    List.Forall₂ (SameBut a) d (eventDrop (some b) v) := by
  rcases h.read_cases hne with ⟨hw, hv, -⟩ | ⟨x, l, q, rfl, rfl, hx, hlq⟩ |
    ⟨x, l, p, q, rfl, hx, -, -, hdrop, -⟩
  · rw [hw, hv]
    exact ⟨[], rfl, .nil⟩
  · obtain ⟨m, -, -, -, hm, hmq, -, -⟩ := sameBut_takeWhile hlq
    rw [eventDrop_cons hx, eventDrop_cons hx, List.length_cons, List.drop_succ_cons]
    exact ⟨x :: m, congrArg (x :: ·) hm, .cons (SameBut.refl x) hmq⟩
  · rw [hdrop]
    exact ⟨[], rfl, .nil⟩

/-! What the reader of `b` sees. -/

/-- The invariant of two runs. -/
structure PairInv (a b : ℕ) (s u : Kbd) : Prop where
  idx : KbdIdx s
  idx' : KbdIdx u
  list : s.list = u.list
  behind : Behind a b s.window u.window

theorem Behind.find (h : Behind a b w v) (hne : a ≠ b) :
    w.find? (fun e => e.Unread (some b)) = v.find? fun e => e.Unread (some b) := by
  obtain ⟨p, q, rfl, hp, hq⟩ := h
  have hpre : p.find? (fun e => e.Unread (some b)) = none := by
    apply List.find?_eq_none.mpr
    intro e he
    simpa using (not_counts (hp e he)).1
  rw [List.find?_append, hpre, Option.none_or]
  induction hq with
  | nil => rfl
  | @cons x y l q hxy _ ih =>
    rw [List.find?_cons, List.find?_cons, ih]
    by_cases hy : y.Unread (some b)
    · rw [hxy.eq_of_ne hne (of_some.mp hy.1)]
    · simp [hy, mt (hxy.unread_iff hne).mp hy]

theorem PairInv.isolated (inv : PairInv a b s u) (hne : a ≠ b) : Isolated b s u := by
  constructor
  · obtain ⟨r, s', hs, hstep, -, -⟩ := kbdEventRead_total inv.idx (some b)
    obtain ⟨r', u', hu, hstep', -, -⟩ := kbdEventRead_total inv.idx' (some b)
    refine ⟨r, s', u', hs, ?_⟩
    rw [hu, hstep.eq.1, hstep'.eq.1, inv.behind.find hne]
  · exact ⟨_, kbdEventAvailable_eq inv.idx (some b), by
      rw [kbdEventAvailable_eq inv.idx', inv.behind.unread_count hne]⟩
  · exact ⟨_, kbdCharAvailable_eq inv.idx (some b), by
      rw [kbdCharAvailable_eq inv.idx', inv.behind.char_count]⟩

theorem Isolated.counts (h : Isolated b s u) (hs : KbdIdx s) (hu : KbdIdx u) :
    (s.window.countP (fun e => e.Unread (some b)) = u.window.countP fun e => e.Unread (some b)) ∧
    s.window.countP (fun e => e.HasChar (some b)) = u.window.countP fun e => e.HasChar (some b) := by
  obtain ⟨n, hn, hn'⟩ := h.events
  obtain ⟨m, hm, hm'⟩ := h.chars
  rw [kbdEventAvailable_eq hs] at hn
  rw [kbdEventAvailable_eq hu] at hn'
  rw [kbdCharAvailable_eq hs] at hm
  rw [kbdCharAvailable_eq hu] at hm'
  cases hn
  cases hm
  exact ⟨(Prod.mk.inj (Option.some.inj hn')).1.symm, (Prod.mk.inj (Option.some.inj hm')).1.symm⟩

/-- Nothing that `b` would count was dropped where the counts agree. -/
theorem undisturbed_of_counts {d rest : List KbdEvent} (hne : a ≠ b) (hw : w = d ++ rest)
    (hrest : List.Forall₂ (SameBut a) w' rest)
    (hun : w'.countP (fun e => e.Unread (some b)) = w.countP fun e => e.Unread (some b))
    (hch : w'.countP (fun e => e.HasChar (some b)) = w.countP fun e => e.HasChar (some b)) :
    ∀ e ∈ d, e.id = b → e.code = 0 ∧ e.c = 0 := by
  rw [hw, List.countP_append, countP_forall₂ (fun x y hxy => hxy.unread_iff hne) hrest] at hun
  rw [hw, List.countP_append, countP_forall₂ (fun x y hxy => hxy.hasChar_iff) hrest] at hch
  have hun' := countP_none.mp (show d.countP (fun e => e.Unread (some b)) = 0 by omega)
  have hch' := countP_none.mp (show d.countP (fun e => e.HasChar (some b)) = 0 by omega)
  intro e he hb
  constructor
  · by_contra hc
    exact hun' e he ⟨of_some.mpr hb, hc⟩
  · by_contra hc
    exact hch' e he ⟨of_some.mpr hb, hc⟩

theorem char_count_drop (id b : ℕ) (l : List KbdEvent) :
    l.countP (fun e => e.HasChar (some b)) =
      (eventDrop (some id) l).countP (fun e => e.HasChar (some b)) +
        (eventLeave (some id) l).countP fun e => e.HasChar (some b) := by
  obtain ⟨rest, hl, hrest⟩ := eventLeave_split id l
  rw [countP_forall₂ (fun x y hxy => hxy.hasChar_iff) hrest, ← List.countP_append, ← hl]

/-- Where the character counts agree, a read on `b` dropped no more of them in the first run. -/
theorem Behind.undisturbed (h : Behind a b w v) (hne : a ≠ b)
    (hch : (eventLeave (some b) w).countP (fun e => e.HasChar (some b)) =
      (eventLeave (some b) v).countP fun e => e.HasChar (some b)) :
    ∀ e ∈ (eventDrop (some b) w).drop (eventDrop (some b) v).length, e.id = b → e.c = 0 := by
  obtain ⟨d, hd, hdv⟩ := h.drop_prefix hne
  have hsame := h.char_count
  have hprefix := countP_forall₂ (P := fun e => e.HasChar (some b))
    (fun x y hxy => hxy.hasChar_iff) hdv
  rw [char_count_drop b b w, char_count_drop b b v, hd, List.countP_append] at hsame
  have hnone := countP_none.mp (show ((eventDrop (some b) w).drop
    (eventDrop (some b) v).length).countP (fun e => e.HasChar (some b)) = 0 by omega)
  intro e he hb
  by_contra hc
  exact hnone e he ⟨of_some.mpr hb, hc⟩

/-- One step: the invariant is kept where the step drops nothing of `b`, and only there does the
reader of `b` see no difference. -/
theorem PairInv.step {call : PairCall} (inv : PairInv a b s u) (hne : a ≠ b)
    (h : PairStep a b s u call s' u') :
    (Undisturbed a b call s u → PairInv a b s' u') ∧
      (Isolated b s' u' → Undisturbed a b call s u) := by
  cases h with
  | @press id code i j pressed _ _ _ hreg hs hu hrun hrun' =>
    have hreg' : u.Registered id := by
      unfold Kbd.Registered
      rw [← inv.list]
      exact hreg
    rw [kbdKeypress_eq inv.idx.wr hreg] at hrun
    rw [kbdKeypress_eq inv.idx'.wr hreg'] at hrun'
    cases hrun
    cases hrun'
    have hw := window_afterPress inv.idx hs id pressed code
    have hw' := window_afterPress inv.idx' hu id pressed code
    have hsame : s.pressed id pressed code = u.pressed id pressed code := by
      rw [Kbd.pressed, Kbd.pressed, inv.list]
    obtain ⟨p, q, hv, hp, hq⟩ := inv.behind
    refine ⟨fun _ => ⟨idx_afterPress inv.idx hs .., idx_afterPress inv.idx' hu .., ?_, ?_⟩,
      fun _ => trivial⟩
    · rw [Kbd.afterPress, Kbd.afterPress, inv.list]
    · rw [hw, hw', hsame]
      refine ⟨p, q ++ [u.pressed id pressed code], by rw [hv, List.append_assoc], hp, ?_⟩
      exact List.rel_append hq (sameBut_refl _)
  | charReadA hrun =>
    obtain ⟨c, t, hrun', hstep, hidx, hlist⟩ := kbdCharRead_total inv.idx (some a)
    rw [hrun] at hrun'
    cases hrun'
    have hw := hstep.eq
    refine ⟨fun hok => ⟨hidx, inv.idx', hlist.trans inv.list,
      inv.behind.drop hne hw (sameBut_refl _) hok⟩, fun hiso => ?_⟩
    obtain ⟨hun, hch⟩ := hiso.counts hidx inv.idx'
    rw [← inv.behind.unread_count hne] at hun
    rw [← inv.behind.char_count] at hch
    exact undisturbed_of_counts hne hw (sameBut_refl _) hun hch
  | eventReadA hrun =>
    obtain ⟨r, t, hrun', hstep, hidx, hlist⟩ := kbdEventRead_total inv.idx (some a)
    rw [hrun] at hrun'
    cases hrun'
    obtain ⟨rest, hw, hrest⟩ := eventLeave_split a s.window
    rw [← hstep.eq.2] at hrest
    refine ⟨fun hok => ⟨hidx, inv.idx', hlist.trans inv.list,
      inv.behind.drop hne hw hrest hok⟩, fun hiso => ?_⟩
    obtain ⟨hun, hch⟩ := hiso.counts hidx inv.idx'
    rw [← inv.behind.unread_count hne] at hun
    rw [← inv.behind.char_count] at hch
    exact undisturbed_of_counts hne hw hrest hun hch
  | eventReadB hrun hrun' =>
    obtain ⟨r, t, ht, hstep, hidx, hlist⟩ := kbdEventRead_total inv.idx (some b)
    obtain ⟨r', t', ht', hstep', hidx', hlist'⟩ := kbdEventRead_total inv.idx' (some b)
    rw [hrun] at ht
    rw [hrun'] at ht'
    cases ht
    cases ht'
    have hw := hstep.eq.2
    have hw' := hstep'.eq.2
    refine ⟨fun hok => ⟨hidx, hidx', by rw [hlist, hlist', inv.list], ?_⟩, fun hiso => ?_⟩
    · rw [hw, hw']
      exact inv.behind.eventRead hne hok
    · have hch := (hiso.counts hidx hidx').2
      rw [hw, hw'] at hch
      exact inv.behind.undisturbed hne hch

theorem PairRun.inv (hne : a ≠ b) (run : PairRun a b (Undisturbed a b) s u) : PairInv a b s u := by
  induction run with
  | @init s hrd hwr =>
    have hnil : s.window = [] := by
      rw [Kbd.window, Kbd.slots, hrd, hwr]
      rfl
    have hidx : KbdIdx s := ⟨by rw [hrd]; decide, by rw [hwr]; decide⟩
    exact ⟨hidx, hidx, rfl, [], [], hnil, by simp, by rw [hnil]; exact .nil⟩
  | step _ hok h ih => exact (ih.step hne h).1 hok

/-- In two runs in which the reads drop nothing of `b`, the reader of `b` sees no difference, and it
sees none after the next step if and only if that step drops nothing of `b`. -/
theorem kbd_isolated (hne : a ≠ b) (run : PairRun a b (Undisturbed a b) s u) :
    Isolated b s u ∧ ∀ call s' u', PairStep a b s u call s' u' →
      (Isolated b s' u' ↔ Undisturbed a b call s u) := by
  have inv := run.inv hne
  refine ⟨inv.isolated hne, fun call s' u' h => ?_⟩
  obtain ⟨hkeep, honly⟩ := inv.step hne h
  exact ⟨honly, fun hok => (hkeep hok).isolated hne⟩

/-- A key of keyboard 1 is pressed, then one of keyboard 0. -/
def kbdPair : Kbd := (kbdSample.afterPress 1 true 4).afterPress 0 true 4

theorem kbdPair_run {ok : PairCall → Kbd → Kbd → Prop} (hok : ∀ s u, ok .press s u) :
    PairRun 0 1 ok kbdPair kbdPair := by
  have h₁ : PairStep 0 1 kbdSample kbdSample .press (kbdSample.afterPress 1 true 4)
      (kbdSample.afterPress 1 true 4) :=
    .press (.inr rfl) ⟨by decide, rfl⟩ (by decide) (by decide) rfl rfl
  have h₂ : PairStep 0 1 (kbdSample.afterPress 1 true 4) (kbdSample.afterPress 1 true 4) .press
      kbdPair kbdPair := .press (.inl rfl) ⟨by decide, rfl⟩ (by decide) (by decide) rfl rfl
  exact .step (.step (.init rfl rfl) (hok _ _) h₁) (hok _ _) h₂

theorem kbd_isolated_sample : Isolated 1 kbdPair kbdPair ∧
    (Isolated 1 (Comp.after (kbdEventRead (some 0)) kbdPair) kbdPair ↔
      Undisturbed 0 1 .eventReadA kbdPair kbdPair) := by
  have h := kbd_isolated (by decide) (kbdPair_run fun _ _ => trivial)
  exact ⟨h.1, h.2 _ _ _ (.eventReadA (Comp.run_after (a := some (kbdPair.events 1))
    (by decide +kernel)))⟩

/-- A character read from keyboard 0 passes an unread event of keyboard 1. -/
theorem kbd_read_disturbs : ¬ ∀ a b s u, a ≠ b → PairRun a b (fun _ _ _ => True) s u →
    Isolated b s u := by
  intro h
  have hrun : kbdCharRead (some 0) kbdPair = some (97, Comp.after (kbdCharRead (some 0)) kbdPair) :=
    Comp.run_after (by decide +kernel)
  obtain ⟨n, hn, hn'⟩ := (h 0 1 _ _ (by decide)
    (.step (kbdPair_run fun _ _ => trivial) trivial (.charReadA hrun))).events
  have hzero : (kbdEventAvailable (some 1) (Comp.after (kbdCharRead (some 0)) kbdPair)).map
      Prod.fst = some 0 := by decide +kernel
  have hone : (kbdEventAvailable (some 1) kbdPair).map Prod.fst = some 1 := by decide +kernel
  rw [hn] at hzero
  rw [hn'] at hone
  exact absurd (hzero.symm.trans hone) (by decide)

end
end SysX
