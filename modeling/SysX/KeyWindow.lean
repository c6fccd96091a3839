import SysX.Keyboard
import SysX.Lib.Ring

/-!
The queued events as a list, oldest first, and what each operation does to it.
-/
namespace SysX

/-- Both indices are inside the array. -/
structure KbdIdx (s : Kbd) : Prop where
  rd : s.rdidx < kbdMaxEvents
  wr : s.wridx < kbdMaxEvents

namespace Kbd

/-- The slots from the read index up to the write index. -/
def slots (s : Kbd) : List ℕ := ringWindow kbdMaxEvents s.rdidx s.wridx

def window (s : Kbd) : List KbdEvent := s.slots.map s.events

/-- "keyboard event buffer is full" -/
def Full (s : Kbd) : Prop := (s.wridx + 1) % kbdMaxEvents = s.rdidx

instance (s : Kbd) : Decidable s.Full := inferInstanceAs (Decidable (_ = _))

end Kbd

/-- An event of `id` that no read has invalidated. -/
def KbdEvent.Unread (e : KbdEvent) (id : Option ℕ) : Prop := e.Of id ∧ e.code ≠ 0

/-- An event of `id` that has a character, read or not. -/
def KbdEvent.HasChar (e : KbdEvent) (id : Option ℕ) : Prop := e.Of id ∧ e.c ≠ 0

instance (e : KbdEvent) (id : Option ℕ) : Decidable (e.Unread id) := inferInstanceAs (Decidable (_ ∧ _))

instance (e : KbdEvent) (id : Option ℕ) : Decidable (e.HasChar id) :=
  inferInstanceAs (Decidable (_ ∧ _))

/-- What `kbd_event_read` returns, and leaves of the queue. -/
inductive EventReadStep (id : Option ℕ) : List KbdEvent → Option KbdEvent → List KbdEvent → Prop
  | empty {w} (h : ∀ e ∈ w, ¬ e.Unread id) : EventReadStep id w none w
  | front {e post} (he : e.Unread id) :
      EventReadStep id (e :: post) (some e) (post.dropWhile fun x => x.code = 0)
  | later {pre e post} (hne : pre ≠ []) (hpre : ∀ x ∈ pre, ¬ x.Unread id) (he : e.Unread id) :
      EventReadStep id (pre ++ e :: post) (some e) (pre ++ { e with code := 0 } :: post)

/-- What `kbd_char_read` returns, and leaves of the queue. -/
inductive CharReadStep (id : Option ℕ) : List KbdEvent → ℕ → List KbdEvent → Prop
  | empty {w} (h : ∀ e ∈ w, ¬ e.HasChar id) : CharReadStep id w 0 w
  | found {pre e post} (hpre : ∀ x ∈ pre, ¬ x.HasChar id) (he : e.HasChar id) :
      CharReadStep id (pre ++ e :: post) e.c post

section

variable {s t : Kbd} {id : Option ℕ} {α β : Type}

theorem lt_of_mem_slots {i : ℕ} (h : i ∈ s.slots) : i < kbdMaxEvents :=
  lt_of_mem_ringWindow (by decide) h

theorem kbdEventAt_eq {i : ℕ} (h : i < kbdMaxEvents) : kbdEventAt i s = some (s.events i, s) := by
  rw [kbdEventAt, Comp.readOr_apply, if_pos h]
  rfl

theorem kbdInvalidate_eq {i : ℕ} (h : i < kbdMaxEvents) : kbdInvalidate i s = some ((),
    { s with events := Function.update s.events i { s.events i with code := 0 } }) := by
  rw [kbdInvalidate, Comp.bind_of_eq (kbdEventAt_eq h), kbdSetEvent, if_pos h]

/-- The loop takes one pass for each slot. -/
theorem kbdLoop_succ {body : β → ℕ → KbdEvent → Except α β} {fuel i : ℕ} {b : β}
    (hi : i < kbdMaxEvents) (hne : i ≠ s.wridx) :
    kbdLoop body (fuel + 1) i b s = match body b i (s.events i) with
      | .error a => some (.error a, s)
      | .ok b => kbdLoop body fuel (ringNext kbdMaxEvents i) b s := by
  rw [kbdLoop, Comp.read_bind, if_neg hne, Comp.bind_of_eq (kbdEventAt_eq hi)]
  cases body b i (s.events i) <;> rfl

theorem kbdLoop_done {body : β → ℕ → KbdEvent → Except α β} {fuel : ℕ} {b : β} :
    kbdLoop body (fuel + 1) s.wridx b s = some (.ok b, s) := by
  rw [kbdLoop, Comp.read_bind, if_pos rfl]
  rfl

/-- A loop that is never left goes over all events. -/
theorem kbdLoop_all {body : β → ℕ → KbdEvent → Except α β} {f : β → KbdEvent → β} {i : ℕ}
    (hw : s.wridx < kbdMaxEvents) (hi : i < kbdMaxEvents) {l : List ℕ}
    (hl : ringWindow kbdMaxEvents i s.wridx = l) {fuel : ℕ} (hfuel : l.length < fuel)
    (hbody : ∀ b, ∀ j ∈ l, body b j (s.events j) = .ok (f b (s.events j))) (b : β) :
    kbdLoop body fuel i b s = some (.ok ((l.map s.events).foldl f b), s) := by
  induction l generalizing i b fuel with
  | nil =>
    obtain ⟨fuel, rfl⟩ := Nat.exists_eq_succ_of_ne_zero (Nat.ne_zero_of_lt hfuel)
    have hzero : ringCount kbdMaxEvents i s.wridx = 0 := by
      rw [← length_ringWindow, hl]
      rfl
    rw [(ringCount_eq_zero hi hw).mp hzero, kbdLoop_done]
    rfl
  | cons j l ih =>
    obtain ⟨fuel, rfl⟩ := Nat.exists_eq_succ_of_ne_zero (Nat.ne_zero_of_lt hfuel)
    obtain ⟨rfl, hne, htail⟩ := ringWindow_eq_cons hi hw hl
    rw [kbdLoop_succ hi hne, hbody b j (by simp)]
    exact ih (ringNext_lt (by decide) j) htail (by simpa using hfuel)
      (fun b x hx => hbody b x (by simp [hx])) _

/-- A loop that is left at the first slot of a kind. -/
theorem kbdLoop_found {body : β → ℕ → KbdEvent → Except α β} {a : α} {i : ℕ}
    (hw : s.wridx < kbdMaxEvents) (hi : i < kbdMaxEvents) {pre post : List ℕ} {j : ℕ}
    (hl : ringWindow kbdMaxEvents i s.wridx = pre ++ j :: post) {fuel : ℕ} (hfuel : pre.length < fuel)
    (hpre : ∀ b, ∀ x ∈ pre, body b x (s.events x) = .ok b)
    (hj : ∀ b, body b j (s.events j) = .error a) (b : β) :
    kbdLoop body fuel i b s = some (.error a, s) := by
  induction pre generalizing i b fuel with
  | nil =>
    obtain ⟨fuel, rfl⟩ := Nat.exists_eq_succ_of_ne_zero (Nat.ne_zero_of_lt hfuel)
    obtain ⟨rfl, hne, -⟩ := ringWindow_eq_cons hi hw hl
    rw [kbdLoop_succ hi hne, hj]
  | cons x pre ih =>
    obtain ⟨fuel, rfl⟩ := Nat.exists_eq_succ_of_ne_zero (Nat.ne_zero_of_lt hfuel)
    obtain ⟨rfl, hne, htail⟩ := ringWindow_eq_cons hi hw hl
    rw [kbdLoop_succ hi hne, hpre b x (by simp)]
    exact ih (ringNext_lt (by decide) x) htail (by simpa using hfuel)
      (fun b y hy => hpre b y (by simp [hy])) b

theorem length_slots_lt (s : Kbd) : s.slots.length < kbdFuel := by
  rw [Kbd.slots, length_ringWindow]
  exact (ringCount_lt (by decide)).trans (by decide)

theorem foldl_count {p : KbdEvent → Prop} [DecidablePred p] (l : List KbdEvent) (k : ℕ) :
    l.foldl (fun n e => if p e then n + 1 else n) k = k + l.countP fun e => p e := by
  induction l generalizing k with
  | nil => rfl
  | cons e l ih =>
    rw [List.foldl_cons, ih, List.countP_cons]
    by_cases h : p e
    · simp only [h, if_true, decide_true]
      omega
    · simp [h]

theorem kbdLoop_count (idx : KbdIdx s) (p : KbdEvent → Prop) [DecidablePred p] :
    kbdLoop (α := Empty) (fun n _ e => .ok (if p e then n + 1 else n)) kbdFuel s.rdidx 0 s =
      some (.ok (s.window.countP fun e => p e), s) := by
  have h : kbdLoop (α := Empty) (fun n _ e => .ok (if p e then n + 1 else n)) kbdFuel s.rdidx 0 s =
      some (.ok ((s.slots.map s.events).foldl (fun n e => if p e then n + 1 else n) 0), s) :=
    kbdLoop_all idx.wr idx.rd rfl (length_slots_lt s) (fun _ _ _ => rfl) 0
  rw [foldl_count, Nat.zero_add] at h
  exact h

theorem kbdEventAvailable_eq (idx : KbdIdx s) (id : Option ℕ) :
    kbdEventAvailable id s = some (s.window.countP fun e => e.Unread id, s) := by
  rw [kbdEventAvailable, Comp.read_bind,
    Comp.bind_of_eq (kbdLoop_count idx fun e => e.Of id ∧ e.code ≠ 0)]
  rfl

theorem kbdCharAvailable_eq (idx : KbdIdx s) (id : Option ℕ) :
    kbdCharAvailable id s = some (s.window.countP fun e => e.HasChar id, s) := by
  rw [kbdCharAvailable, Comp.read_bind,
    Comp.bind_of_eq (kbdLoop_count idx fun e => e.Of id ∧ e.c ≠ 0)]
  rfl

/-- A list has no element of a kind, or a first one. -/
theorem first_cases (P : KbdEvent → Prop) [DecidablePred P] (f : ℕ → KbdEvent) (l : List ℕ) :
    (∀ i ∈ l, ¬ P (f i)) ∨
    ∃ pre i post, l = pre ++ i :: post ∧ (∀ x ∈ pre, ¬ P (f x)) ∧ P (f i) := by
  induction l with
  | nil => exact .inl nofun
  | cons j l ih =>
    by_cases hj : P (f j)
    · exact .inr ⟨[], j, l, rfl, nofun, hj⟩
    · rcases ih with h | ⟨pre, i, post, rfl, hpre, hi⟩
      · left
        simpa [hj] using h
      · right
        exact ⟨j :: pre, i, post, rfl, by simpa [hj] using hpre, hi⟩

theorem first_unique {P : ℕ → Prop} {pre pre' post post' : List ℕ} {i j : ℕ}
    (h : pre ++ i :: post = pre' ++ j :: post') (hpre : ∀ k ∈ pre, ¬ P k) (hi : P i)
    (hpre' : ∀ k ∈ pre', ¬ P k) (hj : P j) : i = j := by
  induction pre generalizing pre' with
  | nil =>
    cases pre' with
    | nil => exact (List.cons.inj h).1
    | cons k pre' =>
      cases h
      exact absurd hi (hpre' i (by simp))
  | cons k pre ih =>
    cases pre' with
    | nil =>
      cases h
      exact absurd hj (hpre j (by simp))
    | cons k' pre' =>
      obtain ⟨-, h⟩ := List.cons.inj h
      exact ih h (fun x hx => hpre x (by simp [hx])) (fun x hx => hpre' x (by simp [hx]))

theorem kbdEventPeek_none (idx : KbdIdx s) (h : ∀ i ∈ s.slots, ¬ (s.events i).Unread id) :
    kbdEventPeek id false s = some (none, s) := by
  have hloop : kbdLoop (fun lastEvent i e => if e.Of id ∧ e.code ≠ 0 then
      if false then .ok (some i) else .error i else .ok lastEvent) kbdFuel s.rdidx none s =
      some (.ok (s.window.foldl (fun b _ => b) none), s) :=
    kbdLoop_all idx.wr idx.rd rfl (length_slots_lt s) (fun b j hj => if_neg (h j hj)) none
  rw [kbdEventPeek, Comp.read_bind, Comp.bind_of_eq hloop]
  rfl

theorem kbdEventPeek_some (idx : KbdIdx s) {pre post : List ℕ} {i : ℕ}
    (hl : s.slots = pre ++ i :: post) (hpre : ∀ x ∈ pre, ¬ (s.events x).Unread id)
    (hi : (s.events i).Unread id) : kbdEventPeek id false s = some (some i, s) := by
  have hlen := length_slots_lt s
  rw [hl, List.length_append] at hlen
  have hloop : kbdLoop (fun lastEvent i e => if e.Of id ∧ e.code ≠ 0 then
      if false then .ok (some i) else .error i else .ok lastEvent) kbdFuel s.rdidx none s =
      some (.error i, s) :=
    kbdLoop_found idx.wr idx.rd hl (by omega) (fun b x hx => if_neg (hpre x hx))
      (fun b => if_pos hi) none
  rw [kbdEventPeek, Comp.read_bind, Comp.bind_of_eq hloop]
  rfl

/-- The read index goes to the first event that is not invalidated. -/
theorem kbdSkip_eq {fuel : ℕ} (idx : KbdIdx s) (hfuel : s.slots.length < fuel) :
    ∃ i, kbdSkip fuel s = some ((), { s with rdidx := i }) ∧ i < kbdMaxEvents ∧
      ({ s with rdidx := i } : Kbd).slots = s.slots.dropWhile fun k => (s.events k).code = 0 := by
  induction fuel generalizing s with
  | zero => omega
  | succ fuel ih =>
    rw [kbdSkip, Comp.read_bind, Comp.read_bind, Comp.bind_of_eq (kbdEventAt_eq idx.rd)]
    by_cases hne : s.rdidx = s.wridx
    · refine ⟨s.rdidx, by rw [if_neg (by simp [hne])]; rfl, idx.rd, ?_⟩
      have hnil : s.slots = [] := by
        rw [Kbd.slots, ← hne, ringWindow_self idx.rd]
      rw [hnil, List.dropWhile_nil]
    · have hpop : s.slots = s.rdidx :: ({ s with rdidx := ringNext kbdMaxEvents s.rdidx } : Kbd).slots :=
        ringWindow_pop idx.rd idx.wr hne
      by_cases hcode : (s.events s.rdidx).code = 0
      · have hlen : ({ s with rdidx := ringNext kbdMaxEvents s.rdidx } : Kbd).slots.length < fuel := by
          rw [hpop, List.length_cons] at hfuel
          exact Nat.lt_of_succ_lt_succ hfuel
        obtain ⟨i, hrun, hi, hwin⟩ :=
          ih (s := { s with rdidx := ringNext kbdMaxEvents s.rdidx })
            ⟨ringNext_lt (by decide) _, idx.wr⟩ hlen
        refine ⟨i, ?_, hi, ?_⟩
        · rw [if_pos ⟨hcode, hne⟩]
          exact hrun
        · rw [hpop, List.dropWhile_cons_of_pos (by simpa using hcode)]
          exact hwin
      · refine ⟨s.rdidx, by rw [if_neg (by simp [hcode])]; rfl, idx.rd, ?_⟩
        rw [hpop, List.dropWhile_cons_of_neg (by simpa using hcode)]

theorem map_update_of_notMem {f : ℕ → KbdEvent} {i : ℕ} {e : KbdEvent} {l : List ℕ} (h : i ∉ l) :
    l.map (Function.update f i e) = l.map f := by
  apply List.map_congr_left
  intro j hj
  rw [Function.update_of_ne]
  rintro rfl
  exact h hj

/-- Slots occur once in a window. -/
theorem notMem_of_slots (idx : KbdIdx s) {pre post : List ℕ} {i : ℕ}
    (hl : s.slots = pre ++ i :: post) : i ∉ pre ∧ i ∉ post := by
  have h : s.slots.Nodup := ringWindow_nodup idx.rd
  rw [hl, List.nodup_middle, List.nodup_cons, List.mem_append, not_or] at h
  exact h.1

theorem dropWhile_congr {p q : ℕ → Bool} {l : List ℕ} (h : ∀ k ∈ l, p k = q k) :
    l.dropWhile p = l.dropWhile q := by
  induction l with
  | nil => rfl
  | cons k l ih =>
    rw [List.dropWhile_cons, List.dropWhile_cons, h k (by simp), ih fun j hj => h j (by simp [hj])]

/-- Which slot `kbd_event_read` delivers, and what it leaves of the slots. -/
inductive EventReadSlots (id : Option ℕ) (s t : Kbd) : Option ℕ → Prop
  | empty (h : ∀ i ∈ s.slots, ¬ (s.events i).Unread id) (ht : t = s) : EventReadSlots id s t none
  | front {i : ℕ} {post : List ℕ} (hl : s.slots = i :: post) (hi : (s.events i).Unread id)
      (ht : t.slots = post.dropWhile fun k => (s.events k).code = 0)
      (hev : ∀ k ∈ post, t.events k = s.events k) : EventReadSlots id s t (some i)
  | later {pre post : List ℕ} {i : ℕ} (hl : s.slots = pre ++ i :: post) (hne : pre ≠ [])
      (hpre : ∀ k ∈ pre, ¬ (s.events k).Unread id) (hi : (s.events i).Unread id)
      (ht : t.slots = s.slots)
      (hev : t.events = Function.update s.events i { s.events i with code := 0 }) :
      EventReadSlots id s t (some i)

theorem kbdEventRead_slots (idx : KbdIdx s) (id : Option ℕ) :
    ∃ r t, kbdEventPeek id false s = some (r, s) ∧ kbdEventRead id s = some (r.map s.events, t) ∧
      EventReadSlots id s t r ∧ KbdIdx t ∧ t.list = s.list := by
  rcases first_cases (·.Unread id) s.events s.slots with h | ⟨pre, i, post, hl, hpre, hi⟩
  · have hpeek := kbdEventPeek_none idx h
    refine ⟨none, s, hpeek, ?_, .empty h rfl, idx, rfl⟩
    rw [kbdEventRead, Comp.bind_of_eq hpeek]
    rfl
  · have hlt : i < kbdMaxEvents := lt_of_mem_slots (s := s) (by simp [hl])
    have hpeek := kbdEventPeek_some idx hl hpre hi
    obtain ⟨hnpre, hnpost⟩ := notMem_of_slots idx hl
    set u : Kbd := { s with events := Function.update s.events i { s.events i with code := 0 } }
      with hu
    have hev : ∀ k ∈ post, u.events k = s.events k := by
      intro k hk
      apply Function.update_of_ne
      rintro rfl
      exact hnpost hk
    have hself : (u.events i).code = 0 := by simp [hu]
    have hidx : KbdIdx u := ⟨idx.rd, idx.wr⟩
    rw [kbdEventRead, Comp.bind_of_eq hpeek]
    dsimp only
    rw [Comp.bind_of_eq (kbdEventAt_eq hlt), Comp.bind_of_eq (kbdInvalidate_eq hlt), ← hu,
      Comp.read_bind]
    cases pre with
    | nil =>
      -- the event at the read index: it is skipped with the invalidated ones after it
      have hfirst : i = u.rdidx := (ringWindow_eq_cons idx.rd idx.wr hl).1
      obtain ⟨k, hskip, hk, hdrop⟩ := kbdSkip_eq hidx (length_slots_lt u)
      refine ⟨some i, { u with rdidx := k }, hpeek, ?_, .front hl hi ?_ hev, ⟨hk, idx.wr⟩, rfl⟩
      · rw [Comp.when_true hfirst, Comp.bind_of_eq hskip]
        rfl
      · have hslots : u.slots = i :: post := hl
        rw [hdrop, hslots, List.dropWhile_cons_of_pos (by simpa using hself)]
        exact dropWhile_congr fun j hj => by rw [hev j hj]
    | cons x pre =>
      have hx : x = s.rdidx := (ringWindow_eq_cons idx.rd idx.wr hl).1
      have hne : i ≠ u.rdidx := by
        intro heq
        have hix : i = x := heq.trans hx.symm
        exact hnpre (by simp [hix])
      refine ⟨some i, u, hpeek, ?_, .later hl (by simp) hpre hi rfl rfl, hidx, rfl⟩
      rw [Comp.when_false hne]
      rfl

theorem EventReadSlots.window (idx : KbdIdx s) {r : Option ℕ} (h : EventReadSlots id s t r) :
    EventReadStep id s.window (r.map s.events) t.window := by
  cases h with
  | empty hnone ht =>
    subst ht
    refine .empty fun e he => ?_
    obtain ⟨i, hi, rfl⟩ := List.mem_map.mp he
    exact hnone i hi
  | @front i post hl hi ht hev =>
    have hw : t.window = (post.map s.events).dropWhile fun e => e.code = 0 := by
      rw [Kbd.window, ht, List.dropWhile_map]
      exact List.map_congr_left fun k hk => hev k (List.dropWhile_subset _ hk)
    rw [hw, Kbd.window, hl]
    exact .front hi
  | @later pre post i hl hne hpre hi ht hev =>
    obtain ⟨hnpre, hnpost⟩ := notMem_of_slots idx hl
    have hw : t.window =
        pre.map s.events ++ { s.events i with code := 0 } :: post.map s.events := by
      rw [Kbd.window, ht, hl, hev, List.map_append, List.map_cons, map_update_of_notMem hnpre,
        map_update_of_notMem hnpost, Function.update_self]
    rw [hw, Kbd.window, hl, List.map_append, List.map_cons]
    refine .later (by simpa using hne) (fun e he => ?_) hi
    obtain ⟨k, hk, rfl⟩ := List.mem_map.mp he
    exact hpre k hk

theorem kbdEventRead_total (idx : KbdIdx s) (id : Option ℕ) :
    ∃ r t, kbdEventRead id s = some (r, t) ∧ EventReadStep id s.window r t.window ∧ KbdIdx t ∧
      t.list = s.list := by
  obtain ⟨r, t, -, hrun, hstep, hidx, hlist⟩ := kbdEventRead_slots idx id
  exact ⟨_, t, hrun, hstep.window idx, hidx, hlist⟩

/-- The loop that invalidates what precedes slot `i` touches no slot from `i` on. -/
theorem kbdInvalidateTo_eq {fuel i j : ℕ} (hi : i < kbdMaxEvents) (hj : j < kbdMaxEvents)
    (hfuel : ringCount kbdMaxEvents j i < fuel) (s : Kbd) :
    ∃ t, kbdInvalidateTo id i fuel j s = some ((), t) ∧ t.wridx = s.wridx ∧ t.list = s.list ∧
      ∀ k, k ∉ ringWindow kbdMaxEvents j i → t.events k = s.events k := by
  induction fuel generalizing j s with
  | zero => omega
  | succ fuel ih =>
    rw [kbdInvalidateTo]
    by_cases hij : j = i
    · exact ⟨s, by rw [if_pos hij]; rfl, rfl, rfl, fun _ _ => rfl⟩
    · rw [if_neg hij, Comp.bind_of_eq (kbdEventAt_eq hj), ringWindow_pop hj hi hij]
      rw [ringCount_pop hj hi hij] at hfuel
      have hnext := ringNext_lt (n := kbdMaxEvents) (by decide) j
      by_cases hof : (s.events j).Of id
      · rw [Comp.when_true hof, Comp.bind_assoc, Comp.bind_of_eq (kbdInvalidate_eq hj),
          Comp.bind_assoc, Comp.read_bind]
        set u : Kbd := { s with events := Function.update s.events j { s.events j with code := 0 } }
          with hu
        have hbody : ∃ r, Comp.when (j = u.rdidx)
            (kbdSetRdidx ((u.rdidx + 1) % kbdMaxEvents)) u = some ((), { u with rdidx := r }) := by
          by_cases hfirst : j = u.rdidx
          · exact ⟨_, by rw [Comp.when_true hfirst]; rfl⟩
          · exact ⟨u.rdidx, by rw [Comp.when_false hfirst]; rfl⟩
        obtain ⟨r, hr⟩ := hbody
        rw [Comp.bind_of_eq hr]
        obtain ⟨t, ht, hw, hlist, hev⟩ := ih hnext (by omega) { u with rdidx := r }
        refine ⟨t, ht, hw, hlist, fun k hk => ?_⟩
        rw [List.mem_cons, not_or] at hk
        rw [hev k hk.2]
        exact Function.update_of_ne hk.1 _ _
      · rw [Comp.when_false hof, Comp.pure_bind_apply]
        obtain ⟨t, ht, hw, hlist, hev⟩ := ih hnext (by omega) s
        refine ⟨t, ht, hw, hlist, fun k hk => hev k ?_⟩
        rw [List.mem_cons, not_or] at hk
        exact hk.2

/-- Which slot `kbd_char_read` delivers, and what it leaves of the slots. -/
inductive CharReadSlots (id : Option ℕ) (s t : Kbd) : Option ℕ → Prop
  | empty (h : ∀ i ∈ s.slots, ¬ (s.events i).HasChar id) (ht : t = s) : CharReadSlots id s t none
  | found {pre post : List ℕ} {i : ℕ} (hl : s.slots = pre ++ i :: post)
      (hpre : ∀ k ∈ pre, ¬ (s.events k).HasChar id) (hi : (s.events i).HasChar id)
      (ht : t.slots = post) (hev : ∀ k ∈ post, t.events k = s.events k) :
      CharReadSlots id s t (some i)

theorem kbdCharFind_none (idx : KbdIdx s) (h : ∀ i ∈ s.slots, ¬ (s.events i).HasChar id) :
    kbdCharFind id s = some (none, s) := by
  have hloop : kbdLoop (fun _ i e => if e.Of id ∧ e.c ≠ 0 then .error i else .ok ()) kbdFuel
      s.rdidx () s = some (.ok (s.window.foldl (fun b _ => b) ()), s) :=
    kbdLoop_all idx.wr idx.rd rfl (length_slots_lt s) (fun b j hj => if_neg (h j hj)) ()
  rw [kbdCharFind, Comp.read_bind, Comp.bind_of_eq hloop]
  rfl

theorem kbdCharFind_some (idx : KbdIdx s) {pre post : List ℕ} {i : ℕ}
    (hl : s.slots = pre ++ i :: post) (hpre : ∀ x ∈ pre, ¬ (s.events x).HasChar id)
    (hi : (s.events i).HasChar id) : kbdCharFind id s = some (some i, s) := by
  have hlen := length_slots_lt s
  rw [hl, List.length_append] at hlen
  have hloop : kbdLoop (fun _ i e => if e.Of id ∧ e.c ≠ 0 then .error i else .ok ()) kbdFuel
      s.rdidx () s = some (.error i, s) :=
    kbdLoop_found idx.wr idx.rd hl (by omega) (fun b x hx => if_neg (hpre x hx))
      (fun b => if_pos hi) ()
  rw [kbdCharFind, Comp.read_bind, Comp.bind_of_eq hloop]
  rfl

theorem kbdCharRead_slots (idx : KbdIdx s) (id : Option ℕ) :
    ∃ r t, kbdCharFind id s = some (r, s) ∧
      kbdCharRead id s = some ((r.map fun i => (s.events i).c).getD 0, t) ∧
      CharReadSlots id s t r ∧ KbdIdx t ∧ t.list = s.list := by
  rcases first_cases (·.HasChar id) s.events s.slots with h | ⟨pre, i, post, hl, hpre, hi⟩
  · have hfind := kbdCharFind_none idx h
    refine ⟨none, s, hfind, ?_, .empty h rfl, idx, rfl⟩
    rw [kbdCharRead, Comp.bind_of_eq hfind]
    rfl
  · have hlt : i < kbdMaxEvents := lt_of_mem_slots (s := s) (by simp [hl])
    have hfind := kbdCharFind_some idx hl hpre hi
    obtain ⟨hpreW, hpostW⟩ := ringWindow_split idx.rd idx.wr hl
    obtain ⟨-, hpost⟩ := notMem_of_slots idx hl
    have hlen := length_slots_lt s
    rw [hl, List.length_append] at hlen
    have hcount : ringCount kbdMaxEvents s.rdidx i < kbdFuel := by
      rw [← length_ringWindow, hpreW]
      omega
    obtain ⟨t, ht, hw, hlist, hev⟩ := @kbdInvalidateTo_eq id _ _ _ hlt idx.rd hcount
      { s with events := Function.update s.events i { s.events i with code := 0 } }
    have hout : i ∉ ringWindow kbdMaxEvents s.rdidx i := not_mem_ringWindow idx.rd hlt
    refine ⟨some i, { t with rdidx := ringNext kbdMaxEvents i }, hfind, ?_, .found hl hpre hi ?_ ?_,
      ⟨ringNext_lt (by decide) i, hw ▸ idx.wr⟩, hlist⟩
    · rw [kbdCharRead, Comp.bind_of_eq hfind]
      dsimp only
      rw [Comp.bind_of_eq (kbdInvalidate_eq hlt), Comp.read_bind, Comp.bind_of_eq ht, kbdSetRdidx,
        Comp.modify_bind, Comp.bind_of_eq (kbdEventAt_eq hlt)]
      change some ((t.events i).c, _) = some ((s.events i).c, _)
      rw [hev i hout]
      simp [ringNext]
    · rw [Kbd.slots]
      simp only [hw, hpostW]
    · intro k hk
      have hnodup : s.slots.Nodup := ringWindow_nodup idx.rd
      rw [hl, List.nodup_append] at hnodup
      have hkpre : k ∉ ringWindow kbdMaxEvents s.rdidx i := by
        rw [hpreW]
        intro hk'
        exact hnodup.2.2 k hk' k (by simp [hk]) rfl
      change t.events k = s.events k
      rw [hev k hkpre]
      apply Function.update_of_ne
      rintro rfl
      exact hpost hk

theorem CharReadSlots.window {r : Option ℕ} (h : CharReadSlots id s t r) :
    CharReadStep id s.window ((r.map fun i => (s.events i).c).getD 0) t.window := by
  cases h with
  | empty hnone ht =>
    subst ht
    refine .empty fun e he => ?_
    obtain ⟨i, hi, rfl⟩ := List.mem_map.mp he
    exact hnone i hi
  | found hl hpre hi ht hev =>
    rw [Kbd.window, Kbd.window, ht, hl, List.map_congr_left hev, List.map_append, List.map_cons]
    refine .found (fun e he => ?_) hi
    obtain ⟨k, hk, rfl⟩ := List.mem_map.mp he
    exact hpre k hk

theorem kbdCharRead_total (idx : KbdIdx s) (id : Option ℕ) :
    ∃ c t, kbdCharRead id s = some (c, t) ∧ CharReadStep id s.window c t.window ∧ KbdIdx t ∧
      t.list = s.list := by
  obtain ⟨r, t, -, hrun, hstep, hidx, hlist⟩ := kbdCharRead_slots idx id
  exact ⟨_, t, hrun, hstep.window, hidx, hlist⟩

/-- What the event of a key press is. -/
def Kbd.pressed (s : Kbd) (id : ℕ) (pressed : Bool) (code : ℕ) : KbdEvent :=
  kbdEvent (s.list id) id pressed code (kbdMod (s.list id).mod pressed code)

def Kbd.Registered (s : Kbd) (id : ℕ) : Prop := id < kbdMaxNum ∧ (s.list id).inUse = true

/-- The state after a key press. -/
def Kbd.afterPress (s : Kbd) (id : ℕ) (pressed : Bool) (code : ℕ) : Kbd where
  list := Function.update s.list id { s.list id with mod := kbdMod (s.list id).mod pressed code }
  events := Function.update s.events s.wridx (s.pressed id pressed code)
  rdidx := if s.Full then (s.rdidx + 1) &&& kbdMaxEvents else s.rdidx
  wridx := ringNext kbdMaxEvents s.wridx

theorem kbdKeypress_eq {id : ℕ} (hw : s.wridx < kbdMaxEvents) (hreg : s.Registered id)
    (pressed : Bool) (code : ℕ) :
    kbdKeypress id pressed code s = some (some s.wridx, s.afterPress id pressed code) := by
  have hin : ¬ (kbdMaxNum ≤ id ∨ (s.list id).inUse = false) := by
    simp [hreg.1, hreg.2]
  have hwhen : Comp.when ((s.wridx + 1) % kbdMaxEvents = s.rdidx)
      (kbdSetRdidx ((s.rdidx + 1) &&& kbdMaxEvents)) s =
      some ((), { s with rdidx := if s.Full then (s.rdidx + 1) &&& kbdMaxEvents else s.rdidx }) := by
    by_cases hfull : (s.wridx + 1) % kbdMaxEvents = s.rdidx
    · rw [Comp.when_true hfull, if_pos (show s.Full from hfull)]
      rfl
    · rw [Comp.when_false hfull, if_neg (show ¬ s.Full from hfull)]
      rfl
  rw [kbdKeypress, Comp.read_bind, if_neg hin, Comp.read_bind, Comp.read_bind, Comp.bind_of_eq hwhen]
  rw [Comp.modify_bind, Comp.bind_apply, kbdSetEvent, if_pos hw]
  rfl

theorem slots_afterPress (idx : KbdIdx s) (hroom : ¬ s.Full) (id : ℕ) (pressed : Bool)
    (code : ℕ) : (s.afterPress id pressed code).slots = s.slots ++ [s.wridx] := by
  have hrd : (s.afterPress id pressed code).rdidx = s.rdidx := if_neg hroom
  rw [Kbd.slots, hrd]
  exact ringWindow_push idx.rd idx.wr hroom

theorem idx_afterPress (idx : KbdIdx s) (hroom : ¬ s.Full) (id : ℕ) (pressed : Bool) (code : ℕ) :
    KbdIdx (s.afterPress id pressed code) := by
  have hrd : (s.afterPress id pressed code).rdidx = s.rdidx := if_neg hroom
  constructor
  · rw [hrd]
    exact idx.rd
  · exact ringNext_lt (by decide) s.wridx

/-- While there is room a key press appends its event. -/
theorem window_afterPress (idx : KbdIdx s) (hroom : ¬ s.Full) (id : ℕ) (pressed : Bool)
    (code : ℕ) :
    (s.afterPress id pressed code).window = s.window ++ [s.pressed id pressed code] := by
  have hout : s.wridx ∉ s.slots := not_mem_ringWindow idx.rd idx.wr
  rw [Kbd.window, slots_afterPress idx hroom, List.map_append, List.map_singleton]
  dsimp only [Kbd.afterPress]
  rw [Function.update_self, map_update_of_notMem hout]
  rfl

theorem full_iff (idx : KbdIdx s) : s.Full ↔ s.window.length = kbdMaxEvents - 1 := by
  rw [Kbd.window, List.length_map, Kbd.slots, length_ringWindow, ringCount_full idx.rd idx.wr]
  rfl

theorem length_window_lt (s : Kbd) : s.window.length < kbdMaxEvents := by
  rw [Kbd.window, List.length_map, Kbd.slots, length_ringWindow]
  exact ringCount_lt (by decide)

/-- Keyboards whose keys all type the same character, and no events. -/
def kbdSample : Kbd where
  list _ := ⟨fun _ => 97, 0, true⟩
  events _ := ⟨0, false, 0, 0, 0⟩
  rdidx := 0
  wridx := 0

end
end SysX
