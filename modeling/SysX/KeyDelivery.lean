import SysX.KeyWindow
import Mathlib.Logic.Relation

/-!
Reading one keyboard both by events and by characters: which pressed events are delivered, and how
often.
-/
namespace SysX

/-- A state of the keyboard layer with the history behind it: the number of the event that each slot
holds, how many events there were, and the numbers of those that a read has delivered. -/
structure Delivery where
  kbd : Kbd
  serial : ℕ → ℕ
  next : ℕ
  delivered : List ℕ

/-- A call for the keyboard `a`, which `-1` also stands for. No key is pressed while the ring is full,
and events are read only where `ok` holds. -/
inductive DeliveryStep (a : ℕ) (ok : Option ℕ → Kbd → Prop) (x : Delivery) : Delivery → Prop
  | press {pressed : Bool} {code i : ℕ} {t : Kbd} (hreg : x.kbd.Registered a)
      (hroom : ¬ x.kbd.Full) (h : kbdKeypress a pressed code x.kbd = some (some i, t)) :
      DeliveryStep a ok x
        { x with kbd := t, serial := Function.update x.serial i x.next, next := x.next + 1 }
  | eventRead {id r : Option ℕ} {e : Option KbdEvent} {t : Kbd} (hid : id = none ∨ id = some a)
      (hok : ok id x.kbd) (hpeek : kbdEventPeek id false x.kbd = some (r, x.kbd))
      (h : kbdEventRead id x.kbd = some (e, t)) :
      DeliveryStep a ok x
        { x with kbd := t, delivered := (r.map x.serial).toList ++ x.delivered }
  | charAvailable {id : Option ℕ} {n : ℕ} {t : Kbd} (hid : id = none ∨ id = some a)
      (h : kbdCharAvailable id x.kbd = some (n, t)) : DeliveryStep a ok x { x with kbd := t }
  | charRead {id r : Option ℕ} {c : ℕ} {t : Kbd} (hid : id = none ∨ id = some a)
      (hfind : kbdCharFind id x.kbd = some (r, x.kbd))
      (h : kbdCharRead id x.kbd = some (c, t)) :
      DeliveryStep a ok x
        { x with kbd := t, delivered := (r.map x.serial).toList ++ x.delivered }

inductive DeliveryRun (a : ℕ) (ok : Option ℕ → Kbd → Prop) : Delivery → Prop
  | init {s : Kbd} {serial : ℕ → ℕ} (hrd : s.rdidx = 0) (hwr : s.wridx = 0) :
      DeliveryRun a ok ⟨s, serial, 0, []⟩
  | step {x y : Delivery} (run : DeliveryRun a ok x) (h : DeliveryStep a ok x y) :
      DeliveryRun a ok y

/-- The event that `kbd_event_read` finds is at the read index, or has no character. -/
def TakesFront (id : Option ℕ) (s : Kbd) : Prop :=
  ∀ pre i post, s.slots = pre ++ i :: post → (∀ k ∈ pre, ¬ (s.events k).Unread id) →
    (s.events i).Unread id → pre = [] ∨ (s.events i).c = 0

def kbdCharReads (id : Option ℕ) : ℕ → KbdOp (List ℕ)
  | 0 => pure []
  | n + 1 => do
    let c ← kbdCharRead id
    let cs ← kbdCharReads id n
    pure (c :: cs)

/-- `kbd_char_available` returns how many calls of `kbd_char_read` in a row return a character. -/
def CountsChars (id : Option ℕ) (s : Kbd) : Prop :=
  ∃ n cs t t', kbdCharAvailable id s = some (n, s) ∧ kbdCharReads id n s = some (cs, t) ∧
    (∀ c ∈ cs, c ≠ 0) ∧ kbdCharRead id t = some (0, t')

section

variable {a : ℕ} {id : Option ℕ} {s t : Kbd} {x y : Delivery} {ok : Option ℕ → Kbd → Prop}

/-- A read of a character leaves one character less. -/
theorem CharReadStep.count {w w' : List KbdEvent} {c : ℕ} (h : CharReadStep id w c w') :
    c = 0 ∧ w' = w ∧ w.countP (fun e : KbdEvent => e.HasChar id) = 0 ∨
      c ≠ 0 ∧ w.countP (fun e : KbdEvent => e.HasChar id) = w'.countP (fun e : KbdEvent => e.HasChar id) + 1 := by
  cases h with
  | empty hnone => exact .inl ⟨rfl, rfl, by simpa [List.countP_eq_zero] using hnone⟩
  | found hpre he =>
    right
    constructor
    · exact he.2
    · have hzero : List.countP (fun e : KbdEvent => decide (e.HasChar id)) _ = 0 :=
        List.countP_eq_zero.mpr (by simpa using hpre)
      rw [List.countP_append, hzero, List.countP_cons_of_pos (by simpa using he), Nat.zero_add]

theorem countsChars (idx : KbdIdx s) (id : Option ℕ) : CountsChars id s := by
  suffices h : ∀ n s, KbdIdx s → s.window.countP (fun e : KbdEvent => e.HasChar id) = n →
      ∃ cs t t', kbdCharReads id n s = some (cs, t) ∧ (∀ c ∈ cs, c ≠ 0) ∧
        kbdCharRead id t = some (0, t') by
    obtain ⟨cs, t, t', hreads, hcs, hend⟩ := h _ s idx rfl
    exact ⟨_, cs, t, t', kbdCharAvailable_eq idx id, hreads, hcs, hend⟩
  intro n
  induction n with
  | zero =>
    intro s idx hn
    obtain ⟨c, t, hrun, hstep, -, -⟩ := kbdCharRead_total idx id
    rcases hstep.count with ⟨rfl, -, -⟩ | ⟨-, hcount⟩
    · exact ⟨[], s, t, rfl, nofun, hrun⟩
    · omega
  | succ n ih =>
    intro s idx hn
    obtain ⟨c, t, hrun, hstep, hidx, -⟩ := kbdCharRead_total idx id
    rcases hstep.count with ⟨-, -, hcount⟩ | ⟨hc, hcount⟩
    · omega
    · obtain ⟨cs, u, u', hreads, hcs, hend⟩ := ih t hidx (by omega)
      refine ⟨c :: cs, u, u', ?_, ?_, hend⟩
      · rw [kbdCharReads, Comp.bind_of_eq hrun, Comp.bind_of_eq hreads]
        rfl
      · intro d hd
        rcases List.mem_cons.mp hd with rfl | hd
        · exact hc
        · exact hcs d hd

/-- The invariant: the slots hold different events, and a delivered event that is still in the ring is
invalidated and has no character, so that no read finds it again. -/
structure DeliveryInv (x : Delivery) : Prop where
  idx : KbdIdx x.kbd
  serials : ∀ i ∈ x.kbd.slots, x.serial i < x.next
  distinct : ∀ i ∈ x.kbd.slots, ∀ j ∈ x.kbd.slots, x.serial i = x.serial j → i = j
  spent : ∀ i ∈ x.kbd.slots, x.serial i ∈ x.delivered →
    (x.kbd.events i).code = 0 ∧ (x.kbd.events i).c = 0
  old : ∀ n ∈ x.delivered, n < x.next
  nodup : x.delivered.Nodup

theorem DeliveryInv.press (inv : DeliveryInv x) (hroom : ¬ x.kbd.Full) (pressed : Bool)
    (code : ℕ) : DeliveryInv { x with
      kbd := x.kbd.afterPress a pressed code
      serial := Function.update x.serial x.kbd.wridx x.next
      next := x.next + 1 } := by
  have hout : x.kbd.wridx ∉ x.kbd.slots := not_mem_ringWindow inv.idx.rd inv.idx.wr
  have hslots := slots_afterPress inv.idx hroom a pressed code
  -- the slot that is written was free, so the others keep their events and numbers
  have hmem : ∀ i ∈ (x.kbd.afterPress a pressed code).slots, i = x.kbd.wridx ∨
      i ≠ x.kbd.wridx ∧ i ∈ x.kbd.slots := by
    intro i hi
    rw [hslots, List.mem_append, List.mem_singleton] at hi
    rcases hi with hi | rfl
    · exact .inr ⟨fun h => hout (h ▸ hi), hi⟩
    · exact .inl rfl
  have hnew : x.next ∉ x.delivered := fun h => lt_irrefl _ (inv.old _ h)
  constructor
  · exact idx_afterPress inv.idx hroom a pressed code
  · intro i hi
    rcases hmem i hi with rfl | ⟨hne, hi⟩
    · simp
    · have hlt := inv.serials i hi
      simp only [Function.update_of_ne hne]
      omega
  · intro i hi j hj hij
    rcases hmem i hi with rfl | ⟨hne, hi⟩ <;> rcases hmem j hj with rfl | ⟨hne', hj⟩
    · rfl
    · have hlt := inv.serials j hj
      simp only [Function.update_self, Function.update_of_ne hne'] at hij
      omega
    · have hlt := inv.serials i hi
      simp only [Function.update_self, Function.update_of_ne hne] at hij
      omega
    · simp only [Function.update_of_ne hne, Function.update_of_ne hne'] at hij
      exact inv.distinct i hi j hj hij
  · intro i hi hdel
    rcases hmem i hi with rfl | ⟨hne, hi⟩
    · simp only [Function.update_self] at hdel
      exact absurd hdel hnew
    · simp only [Function.update_of_ne hne] at hdel
      have hev : (x.kbd.afterPress a pressed code).events i = x.kbd.events i :=
        Function.update_of_ne hne ..
      simp only [hev]
      exact inv.spent i hi hdel
  · intro n hn
    exact Nat.lt_succ_of_lt (inv.old n hn)
  · exact inv.nodup

/-- A read delivers an event that was not spent, and leaves it spent if at all. -/
theorem DeliveryInv.deliver (inv : DeliveryInv x) (hidx : KbdIdx t) {i : ℕ}
    (hi : i ∈ x.kbd.slots) (hfresh : ¬ ((x.kbd.events i).code = 0 ∧ (x.kbd.events i).c = 0))
    (hsub : ∀ k ∈ t.slots, k ∈ x.kbd.slots)
    (hev : ∀ k ∈ t.slots, k ≠ i → t.events k = x.kbd.events k)
    (hspent : i ∈ t.slots → (t.events i).code = 0 ∧ (t.events i).c = 0) :
    DeliveryInv { x with kbd := t, delivered := x.serial i :: x.delivered } := by
  constructor
  · exact hidx
  · exact fun k hk => inv.serials k (hsub k hk)
  · exact fun k hk j hj => inv.distinct k (hsub k hk) j (hsub j hj)
  · intro k hk hdel
    by_cases hki : k = i
    · subst hki
      exact hspent hk
    · rw [hev k hk hki]
      rcases List.mem_cons.mp hdel with heq | hdel
      · exact absurd (inv.distinct k (hsub k hk) i hi heq) hki
      · exact inv.spent k (hsub k hk) hdel
  · intro n hn
    rcases List.mem_cons.mp hn with rfl | hn
    · exact inv.serials i hi
    · exact inv.old n hn
  · exact List.nodup_cons.mpr ⟨fun hdel => hfresh (inv.spent i hi hdel), inv.nodup⟩

theorem DeliveryInv.eventRead (inv : DeliveryInv x) (hok : TakesFront id x.kbd) {r : Option ℕ}
    (hidx : KbdIdx t) (h : EventReadSlots id x.kbd t r) :
    DeliveryInv { x with kbd := t, delivered := (r.map x.serial).toList ++ x.delivered } := by
  cases h with
  | empty _ ht =>
    subst ht
    exact inv
  | @front i post hl hi ht hev =>
    have hpost : ∀ k ∈ t.slots, k ∈ post := by
      intro k hk
      rw [ht] at hk
      exact List.dropWhile_subset _ hk
    have hslots : x.kbd.slots = [] ++ i :: post := hl
    have hout : i ∉ post := (notMem_of_slots inv.idx hslots).2
    apply inv.deliver hidx
    · simp [hl]
    · exact fun h => hi.2 h.1
    · intro k hk
      rw [hl]
      exact List.mem_cons_of_mem i (hpost k hk)
    · exact fun k hk _ => hev k (hpost k hk)
    · exact fun hmem => absurd (hpost i hmem) hout
  | @later pre post i hl hne hpre hi ht hev =>
    apply inv.deliver hidx
    · simp [hl]
    · exact fun h => hi.2 h.1
    · exact fun k hk => ht ▸ hk
    · intro k _ hki
      rw [hev, Function.update_of_ne hki]
    · intro _
      rw [hev, Function.update_self]
      exact ⟨rfl, (hok pre i post hl hpre hi).resolve_left hne⟩

theorem DeliveryInv.charRead (inv : DeliveryInv x) {r : Option ℕ} (hidx : KbdIdx t)
    (h : CharReadSlots id x.kbd t r) :
    DeliveryInv { x with kbd := t, delivered := (r.map x.serial).toList ++ x.delivered } := by
  cases h with
  | empty _ ht =>
    subst ht
    exact inv
  | @found pre post i hl hpre hi ht hev =>
    have hout : i ∉ post := (notMem_of_slots inv.idx hl).2
    apply inv.deliver hidx
    · simp [hl]
    · exact fun h => hi.2 h.2
    · intro k hk
      rw [ht] at hk
      simp [hl, hk]
    · exact fun k hk _ => hev k (ht ▸ hk)
    · exact fun hmem => absurd (ht ▸ hmem) hout

theorem DeliveryInv.step (inv : DeliveryInv x) (h : DeliveryStep a TakesFront x y) :
    DeliveryInv y := by
  cases h with
  | press hreg hroom h =>
    rw [kbdKeypress_eq inv.idx.wr hreg] at h
    cases h
    exact inv.press hroom _ _
  | @eventRead id _ _ _ _ hok hpeek h =>
    obtain ⟨r, t, hpeek', hrun, hstep, hidx, -⟩ := kbdEventRead_slots inv.idx id
    rw [hpeek] at hpeek'
    rw [h] at hrun
    cases hpeek'
    cases hrun
    exact inv.eventRead hok hidx hstep
  | charAvailable _ h =>
    rw [kbdCharAvailable_eq inv.idx] at h
    cases h
    exact inv
  | @charRead id _ _ _ _ hfind h =>
    obtain ⟨r, t, hfind', hrun, hstep, hidx, -⟩ := kbdCharRead_slots inv.idx id
    rw [hfind] at hfind'
    rw [h] at hrun
    cases hfind'
    cases hrun
    exact inv.charRead hidx hstep

theorem DeliveryRun.inv (run : DeliveryRun a TakesFront x) : DeliveryInv x := by
  induction run with
  | @init s serial hrd hwr =>
    have hnil : s.slots = [] := by
      rw [Kbd.slots, hrd, hwr]
      rfl
    have hnone : ∀ i, i ∉ s.slots := fun i hi => by simp [hnil] at hi
    exact ⟨⟨by rw [hrd]; decide, by rw [hwr]; decide⟩, fun i hi => absurd hi (hnone i),
      fun i hi => absurd hi (hnone i), fun i hi => absurd hi (hnone i), by simp, .nil⟩
  | step _ h ih => exact ih.step h

/-- An event with a character that was delivered is delivered again when characters are read on. -/
theorem redelivered {n : ℕ} (x : Delivery) (hn : x.kbd.slots.length = n) (idx : KbdIdx x.kbd) {i : ℕ}
    (hi : i ∈ x.kbd.slots) (hchar : (x.kbd.events i).HasChar none)
    (hdel : x.serial i ∈ x.delivered) :
    ∃ z, Relation.ReflTransGen (DeliveryStep a ok) x z ∧ ¬ z.delivered.Nodup := by
  induction n using Nat.strong_induction_on generalizing x with
  | _ n ih =>
    obtain ⟨r, t, hfind, hrun, hstep, hidx, -⟩ := kbdCharRead_slots idx none
    have hread : DeliveryStep a ok x _ := .charRead (.inl rfl) hfind hrun
    cases hstep with
    | empty hnone => exact absurd hchar (hnone i hi)
    | @found pre post j hl hpre hj ht hev =>
      rw [hl, List.mem_append, List.mem_cons] at hi
      rcases hi with hi | rfl | hi
      · exact absurd hchar (hpre i hi)
      · refine ⟨_, .single hread, fun hnodup => ?_⟩
        exact (List.nodup_cons.mp hnodup).1 hdel
      · have hlen : t.slots.length < n := by
          rw [← hn, ht, hl, List.length_append, List.length_cons]
          omega
        obtain ⟨z, hz, hdup⟩ := ih _ hlen
          { x with kbd := t, delivered := ((some j).map x.serial).toList ++ x.delivered } rfl hidx
          (ht ▸ hi) (by rw [hev i hi]; exact hchar) (List.mem_cons_of_mem _ hdel)
        exact ⟨z, .head hread hz, hdup⟩

theorem DeliveryInv.continued (inv : DeliveryInv x)
    (h : Relation.ReflTransGen (DeliveryStep a TakesFront) x y) : DeliveryInv y := by
  induction h with
  | refl => exact inv
  | tail _ h ih => exact ih.step h

theorem hasChar_none {e : KbdEvent} : e.HasChar none ↔ e.c ≠ 0 := by
  simp [KbdEvent.HasChar, KbdEvent.Of]

/-- A read of an event from behind the front, with a character, leads to a second delivery. -/
theorem EventReadSlots.takesFront {r : Option ℕ} (h : EventReadSlots id x.kbd t r)
    (hidx : KbdIdx t)
    (honce : ∀ z, Relation.ReflTransGen (DeliveryStep a TakesFront)
      { x with kbd := t, delivered := (r.map x.serial).toList ++ x.delivered } z →
        z.delivered.Nodup) : TakesFront id x.kbd := by
  intro pre i post hl hpre hi
  by_contra hbad
  push Not at hbad
  obtain ⟨hne, hc⟩ := hbad
  cases h with
  | empty hnone => exact hnone i (by simp [hl]) hi
  | @front j post' hl' hj =>
    obtain ⟨k, pre, rfl⟩ := List.exists_cons_of_ne_nil hne
    rw [hl'] at hl
    cases hl
    exact hpre j (by simp) hj
  | @later pre' post' j hl' _ hpre' hj ht hev =>
    have hji : j = i := first_unique (P := fun k => (x.kbd.events k).Unread id) (hl'.symm.trans hl)
      hpre' hj hpre hi
    subst hji
    obtain ⟨z, hz, hdup⟩ : ∃ z, Relation.ReflTransGen (DeliveryStep a TakesFront) _ z ∧
        ¬ z.delivered.Nodup := redelivered
      { x with kbd := t, delivered := ((some j).map x.serial).toList ++ x.delivered } rfl hidx
      (i := j) (by simp [ht, hl]) (hasChar_none.mpr (by simpa [hev] using hc)) (by simp)
    exact hdup (honce z hz)

/-- In every run in which no event with a character is read from behind the front, no event is
delivered twice, and the count of characters is that of the reads that return one. After one more
`kbd_event_read` no continuation of the run delivers an event twice if and only if that read was of
this kind too. -/
theorem kbd_delivered_once (run : DeliveryRun a TakesFront x) :
    x.delivered.Nodup ∧ (∀ id, id = none ∨ id = some a → CountsChars id x.kbd) ∧
    ∀ id r e t, id = none ∨ id = some a → kbdEventPeek id false x.kbd = some (r, x.kbd) →
      kbdEventRead id x.kbd = some (e, t) →
      ((∀ z, Relation.ReflTransGen (DeliveryStep a TakesFront)
        { x with kbd := t, delivered := (r.map x.serial).toList ++ x.delivered } z →
          z.delivered.Nodup) ↔ TakesFront id x.kbd) := by
  have inv := run.inv
  refine ⟨inv.nodup, fun id _ => countsChars inv.idx id, fun id r e t _ hpeek h => ?_⟩
  obtain ⟨r', t', hpeek', hrun, hstep, hidx, -⟩ := kbdEventRead_slots inv.idx id
  rw [hpeek] at hpeek'
  rw [h] at hrun
  cases hpeek'
  cases hrun
  constructor
  · exact hstep.takesFront hidx
  · intro hok z hz
    exact ((inv.eventRead hok hidx hstep).continued hz).nodup

/-- A key without a code is released, then one with a character is pressed. -/
def kbdHidden : Delivery where
  kbd := (kbdSample.afterPress 0 false 0).afterPress 0 true 4
  serial := Function.update (Function.update (fun _ => 0) 0 0) 1 1
  next := 2
  delivered := []

theorem kbdHidden_run : DeliveryRun 0 ok kbdHidden := by
  have h₀ : DeliveryRun 0 ok ⟨kbdSample, fun _ => 0, 0, []⟩ := .init rfl rfl
  have h₁ : DeliveryRun 0 ok
      ⟨kbdSample.afterPress 0 false 0, Function.update (fun _ => 0) 0 0, 1, []⟩ :=
    .step h₀ (.press (x := ⟨kbdSample, fun _ => 0, 0, []⟩) ⟨by decide, rfl⟩ (by decide) rfl)
  exact .step h₁ (.press (x := ⟨kbdSample.afterPress 0 false 0, Function.update (fun _ => 0) 0 0,
    1, []⟩) ⟨by decide, rfl⟩ (by decide) rfl)

theorem kbd_delivered_once_sample : CountsChars none kbdHidden.kbd :=
  (kbd_delivered_once (a := 0) kbdHidden_run).2.1 none (.inl rfl)

/-- The event is read from behind the one without a code, and its character is read again. -/
theorem kbd_redelivers : ¬ ∀ a x, DeliveryRun a (fun _ _ => True) x → x.delivered.Nodup := by
  intro h
  let t := Comp.after (kbdEventRead none) kbdHidden.kbd
  have hpeek : kbdEventPeek none false kbdHidden.kbd = some (some 1, kbdHidden.kbd) :=
    kbdEventPeek_some ⟨by decide, by decide⟩ (show kbdHidden.kbd.slots = [0] ++ 1 :: [] from rfl) (by decide)
      (by decide)
  have hslots : t.slots = [0] ++ 1 :: [] := by decide +kernel
  have hfind : kbdCharFind none t = some (some 1, t) :=
    kbdCharFind_some ⟨by decide +kernel, by decide +kernel⟩ hslots (by decide +kernel) (by decide +kernel)
  have hread : DeliveryStep 0 (fun _ _ => True) kbdHidden
      { kbdHidden with kbd := t, delivered := [1] } :=
    .eventRead (r := some 1) (e := some (kbdHidden.kbd.events 1)) (.inl rfl) trivial
      hpeek (Comp.run_after (by decide +kernel))
  have hchar : DeliveryStep 0 (fun _ _ => True) { kbdHidden with kbd := t, delivered := [1] }
      { kbdHidden with kbd := Comp.after (kbdCharRead none) t, delivered := [1, 1] } :=
    .charRead (x := { kbdHidden with kbd := t, delivered := [1] }) (r := some 1) (c := 97) (.inl rfl) hfind
      (Comp.run_after (by decide +kernel))
  have hdup := h 0 _ (.step (.step kbdHidden_run hread) hchar)
  simp at hdup

end
end SysX
