import SysX.KeyWindow

/-!
The ring of key events against a bounded queue that drops its oldest event when it is full.
-/
namespace SysX

/-- The bounded queue. -/
def fifoPush (cap : ℕ) (q : List KbdEvent) (e : KbdEvent) : List KbdEvent :=
  (if q.length = cap then q.tail else q) ++ [e]

theorem length_fifoPush {cap : ℕ} {q : List KbdEvent} {e : KbdEvent} (hcap : 0 < cap)
    (h : q.length ≤ cap) : (fifoPush cap q e).length = min (q.length + 1) cap := by
  unfold fifoPush
  split_ifs with hfull
  · simp only [List.length_append, List.length_tail, List.length_singleton]
    omega
  · simp only [List.length_append, List.length_singleton]
    omega

/-- The ring holds what the queue holds. -/
structure KbdFifo (s : Kbd) (q : List KbdEvent) : Prop where
  idx : KbdIdx s
  bound : q.length ≤ kbdMaxEvents - 1
  available : kbdEventAvailable none s = some (q.length, s)
  read : ∃ t, kbdEventRead none s = some (q.head?, t)

/-- A run of presses of keys and of reads from all keyboards, with the queue it should keep. Keys are
pressed only in states in `ok`. -/
inductive KbdRun (ok : Kbd → Prop) : Kbd → List KbdEvent → Prop
  | init {s : Kbd} (hrd : s.rdidx = 0) (hwr : s.wridx = 0) : KbdRun ok s []
  | press {s t : Kbd} {q : List KbdEvent} {id code i : ℕ} {pressed : Bool} (run : KbdRun ok s q)
      (hreg : s.Registered id) (hcode : code ≠ 0) (hok : ok s)
      (h : kbdKeypress id pressed code s = some (some i, t)) :
      KbdRun ok t (fifoPush (kbdMaxEvents - 1) q (t.events i))
  | available {s t : Kbd} {q : List KbdEvent} {n : ℕ} (run : KbdRun ok s q)
      (h : kbdEventAvailable none s = some (n, t)) : KbdRun ok t q
  | read {s t : Kbd} {q : List KbdEvent} {r : Option KbdEvent} (run : KbdRun ok s q)
      (h : kbdEventRead none s = some (r, t)) : KbdRun ok t q.tail

section

variable {s t : Kbd} {q : List KbdEvent}

/-- The queue is the window, and no event in it has been invalidated. -/
structure KbdQueue (s : Kbd) (q : List KbdEvent) : Prop where
  idx : KbdIdx s
  window : s.window = q
  codes : ∀ e ∈ q, e.code ≠ 0

theorem unread_none {e : KbdEvent} : e.Unread none ↔ e.code ≠ 0 := by
  simp [KbdEvent.Unread, KbdEvent.Of]

/-- Where every event is unread, a read from all keyboards takes the oldest. -/
theorem EventReadStep.queue {w : List KbdEvent} {r : Option KbdEvent}
    (h : EventReadStep none q r w) (codes : ∀ e ∈ q, e.code ≠ 0) : r = q.head? ∧ w = q.tail := by
  cases h with
  | empty hnone =>
    cases q with
    | nil => exact ⟨rfl, rfl⟩
    | cons e q => exact absurd (unread_none.mpr (codes e (by simp))) (hnone e (by simp))
  | @front e post _ =>
    have hkeep : post.dropWhile (fun x => x.code = 0) = post := by
      cases post with
      | nil => rfl
      | cons x post => exact List.dropWhile_cons_of_neg (by simpa using codes x (by simp))
    exact ⟨rfl, hkeep⟩
  | @later pre e post hne hpre _ =>
    obtain ⟨x, pre, rfl⟩ := List.exists_cons_of_ne_nil hne
    exact absurd (unread_none.mpr (codes x (by simp))) (hpre x (by simp))

theorem KbdQueue.read (inv : KbdQueue s q) :
    ∃ t, kbdEventRead none s = some (q.head?, t) ∧ KbdQueue t q.tail := by
  obtain ⟨r, t, hrun, hstep, hidx, -⟩ := kbdEventRead_total inv.idx none
  rw [inv.window] at hstep
  obtain ⟨rfl, hw⟩ := hstep.queue inv.codes
  exact ⟨t, hrun, hidx, hw, fun e he => inv.codes e (List.mem_of_mem_tail he)⟩

theorem KbdQueue.count (inv : KbdQueue s q) : kbdEventAvailable none s = some (q.length, s) := by
  have hall : s.window.countP (fun e => e.Unread none) = q.length := by
    rw [inv.window, List.countP_eq_length]
    intro e he
    simpa using unread_none.mpr (inv.codes e he)
  rw [kbdEventAvailable_eq inv.idx, hall]

theorem KbdQueue.fifo (inv : KbdQueue s q) : KbdFifo s q := by
  constructor
  · exact inv.idx
  · have hlt := length_window_lt s
    rw [inv.window] at hlt
    omega
  · exact inv.count
  · obtain ⟨t, hrun, -⟩ := inv.read
    exact ⟨t, hrun⟩

/-- While there is room, pressing a key queues its event. -/
theorem KbdQueue.press (inv : KbdQueue s q) (hroom : ¬ s.Full) {id code : ℕ} (hcode : code ≠ 0)
    (pressed : Bool) :
    KbdQueue (s.afterPress id pressed code)
      (fifoPush (kbdMaxEvents - 1) q ((s.afterPress id pressed code).events s.wridx)) := by
  have hw := window_afterPress inv.idx hroom id pressed code
  have hlen : q.length ≠ kbdMaxEvents - 1 := by
    rw [← inv.window]
    exact mt (full_iff inv.idx).mpr hroom
  have hev : (s.afterPress id pressed code).events s.wridx = s.pressed id pressed code :=
    Function.update_self ..
  rw [fifoPush, if_neg hlen, hev]
  refine ⟨idx_afterPress inv.idx hroom .., by rw [hw, inv.window], fun e he => ?_⟩
  rcases List.mem_append.mp he with he | he
  · exact inv.codes e he
  · rw [List.mem_singleton] at he
    subst he
    exact hcode

/-- Discarding the oldest event of a full ring leaves a read index of 0, or one past the array. -/
theorem and_kbdMaxEvents {i : ℕ} (hi : i < kbdMaxEvents) :
    (i + 1) &&& kbdMaxEvents = if i + 1 = kbdMaxEvents then kbdMaxEvents else 0 := by
  revert i
  decide

/-- Pressing a key while the ring is full breaks the queue at once. -/
theorem KbdQueue.press_full (inv : KbdQueue s q) (hfull : s.Full) {id code : ℕ} (pressed : Bool)
    (e : KbdEvent) : ¬ KbdFifo (s.afterPress id pressed code) (fifoPush (kbdMaxEvents - 1) q e) := by
  intro hfifo
  have hlen : q.length = kbdMaxEvents - 1 := by
    rw [← inv.window]
    exact (full_iff inv.idx).mp hfull
  have hpush : (fifoPush (kbdMaxEvents - 1) q e).length = kbdMaxEvents - 1 := by
    rw [length_fifoPush (by decide) hlen.le, hlen]
    rfl
  have hrd : (s.afterPress id pressed code).rdidx = (s.rdidx + 1) &&& kbdMaxEvents := if_pos hfull
  rw [and_kbdMaxEvents inv.idx.rd] at hrd
  split_ifs at hrd with hlast
  · have hidx := hfifo.idx.rd
    omega
  · -- the window now ends where the old read index was, short of a full ring
    have hcount := kbdEventAvailable_eq hfifo.idx none
    rw [hfifo.available, hpush] at hcount
    have hle := List.countP_le_length (p := fun e : KbdEvent => e.Unread none)
      (l := (s.afterPress id pressed code).window)
    have hwr : (s.afterPress id pressed code).wridx = s.rdidx := hfull
    rw [← (Prod.mk.inj (Option.some.inj hcount)).1, Kbd.window, List.length_map, Kbd.slots, hrd, hwr,
      length_ringWindow, ringCount_eq (by decide) inv.idx.rd, if_pos (Nat.zero_le _)] at hle
    have hlt := inv.idx.rd
    simp only [kbdMaxEvents] at *
    omega

theorem KbdRun.queue (run : KbdRun (fun s => ¬ s.Full) s q) : KbdQueue s q := by
  induction run with
  | @init s hrd hwr =>
    have hnil : s.window = [] := by
      rw [Kbd.window, Kbd.slots, hrd, hwr]
      rfl
    exact ⟨⟨by rw [hrd]; decide, by rw [hwr]; decide⟩, hnil, by simp⟩
  | @press s t q id code i pressed _ hreg hcode hok h ih =>
    rw [kbdKeypress_eq ih.idx.wr hreg] at h
    cases h
    exact ih.press hok hcode pressed
  | available _ h ih =>
    rw [ih.count] at h
    cases h
    exact ih
  | read _ h ih =>
    obtain ⟨t', hrun, hq⟩ := ih.read
    rw [hrun] at h
    cases h
    exact hq

/-- In every run that presses no key while the ring is full, the ring is a bounded queue, and it stays
one with the next key pressed if and only if the ring is not full by then. -/
theorem kbd_fifo (run : KbdRun (fun s => ¬ s.Full) s q) :
    KbdFifo s q ∧ ∀ id pressed code i, s.Registered id → code ≠ 0 →
      kbdKeypress id pressed code s = some (some i, t) →
      (KbdFifo t (fifoPush (kbdMaxEvents - 1) q (t.events i)) ↔ ¬ s.Full) := by
  have inv := run.queue
  refine ⟨inv.fifo, fun id pressed code i hreg hcode h => ?_⟩
  rw [kbdKeypress_eq inv.idx.wr hreg] at h
  cases h
  constructor
  · intro hfifo hfull
    exact inv.press_full hfull pressed _ hfifo
  · intro hroom
    exact (inv.press hroom hcode pressed).fifo

theorem kbd_fifo_sample : KbdFifo kbdSample [] ∧
    KbdFifo (kbdSample.afterPress 0 true 4) [kbdSample.pressed 0 true 4] := by
  have run : KbdRun (fun s => ¬ s.Full) kbdSample [] := .init rfl rfl
  have h := kbd_fifo (t := kbdSample.afterPress 0 true 4) run
  exact ⟨h.1, (h.2 0 true 4 0 ⟨by decide, rfl⟩ (by decide) rfl).mpr (by decide)⟩

/-- The key is pressed `n` times. -/
def kbdPresses : ℕ → Kbd
  | 0 => kbdSample
  | n + 1 => (kbdPresses n).afterPress 0 true 4

theorem kbdPresses_run (n : ℕ) :
    ∃ q, KbdRun (fun _ => True) (kbdPresses n) q ∧ q.length = min n (kbdMaxEvents - 1) ∧
      (kbdPresses n).wridx < kbdMaxEvents ∧ (kbdPresses n).Registered 0 := by
  induction n with
  | zero => exact ⟨[], .init rfl rfl, rfl, by decide, by decide, rfl⟩
  | succ n ih =>
    obtain ⟨q, run, hq, hw, hreg⟩ := ih
    refine ⟨_, .press run hreg (by decide) trivial (kbdKeypress_eq hw hreg true 4), ?_,
      ringNext_lt (by decide) _, hreg.1, ?_⟩
    · have hle : q.length ≤ kbdMaxEvents - 1 := by omega
      rw [length_fifoPush (by decide) hle, hq]
      omega
    · exact hreg.2

/-- The 64th press finds the ring full and empties it. -/
theorem kbd_overflow_empties : ¬ ∀ s q, KbdRun (fun _ => True) s q → KbdFifo s q := by
  intro h
  obtain ⟨q, run, hq, -⟩ := kbdPresses_run 64
  have hnone : (kbdEventAvailable none (kbdPresses 64)).map Prod.fst = some 0 := by decide +kernel
  rw [(h _ _ run).available, hq] at hnone
  exact absurd hnone (by decide)

end
end SysX
