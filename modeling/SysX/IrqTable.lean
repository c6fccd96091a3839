import SysX.Interrupts
import Mathlib.Data.List.Nodup
import Mathlib.Data.List.Range

/-!
What the operations on a table of handlers do to the registrations that it holds.
-/
namespace SysX

namespace HandlerTable

/-- The registration that entry `i` holds. -/
def reg (t : HandlerTable) (i : ℕ) : Option (ℕ × Handler) :=
  if i < t.cnt then t.mem[i]?.bind fun e => e.handler.map fun h => (e.irq, h) else none

/-- The table is in its block. -/
structure Ok (t : HandlerTable) : Prop where
  block : t.handlers = t.block
  cnt : t.cnt ≤ t.mem.length

/-- Some entry has no handler. -/
def HasRoom (t : HandlerTable) : Prop := ∃ i < t.cnt, t.reg i = none

/-- A registration finds a free entry, or the block does not move when it grows. -/
def InPlace (t : HandlerTable) : Prop :=
  t.HasRoom ∨ ∀ p, t.heap t.calls = some p → p = t.handlers

end HandlerTable

/-- The calls `l` are those of the registrations for `irq`, each once. -/
def CallsOnce (regs : ℕ → Option (ℕ × Handler)) (irq : ℕ) (l : List Handler) : Prop :=
  ∃ ids : List ℕ, ids.Nodup ∧ (∀ i, i ∈ ids ↔ ∃ h, regs i = some (irq, h)) ∧
    l.map some = ids.map fun i => (regs i).map Prod.snd

section

variable {t u : HandlerTable} {irq : ℕ} {handler : Handler}

theorem handlerAt_eq (ok : t.Ok) {i : ℕ} (h : i < t.mem.length) :
    handlerAt i t = some (t.mem[i], t) := by
  rw [handlerAt, Comp.readOr_apply, if_pos ok.block, List.getElem?_eq_getElem h]
  rfl

theorem setHandler_eq (ok : t.Ok) {i : ℕ} (h : i < t.mem.length) (e : IntrHandler) :
    setHandler i e t = some ((), { t with mem := t.mem.set i e }) := if_pos ⟨ok.block, h⟩

theorem reg_of_lt {i : ℕ} (hi : i < t.cnt) (h : i < t.mem.length) :
    t.reg i = (t.mem[i]).handler.map fun h => (t.mem[i].irq, h) := by
  rw [HandlerTable.reg, if_pos hi, List.getElem?_eq_getElem h]
  rfl

theorem reg_eq_none_iff {i : ℕ} (hi : i < t.cnt) (h : i < t.mem.length) :
    t.reg i = none ↔ (t.mem[i]).handler = none := by
  rw [reg_of_lt hi h, Option.map_eq_none_iff]

theorem reg_of_le {i : ℕ} (hi : t.cnt ≤ i) : t.reg i = none := if_neg (not_lt.mpr hi)

theorem reg_set {i : ℕ} (hi : i < t.cnt) (h : i < t.mem.length) (e : IntrHandler) :
    HandlerTable.reg { t with mem := t.mem.set i e } =
      Function.update t.reg i (e.handler.map fun h => (e.irq, h)) := by
  funext j
  by_cases hj : j = i
  · subst hj
    rw [Function.update_self, HandlerTable.reg, if_pos hi, List.getElem?_set_self h]
    rfl
  · rw [Function.update_of_ne hj, HandlerTable.reg, HandlerTable.reg,
      List.getElem?_set_ne (Ne.symm hj)]

/-- The search for a free entry. -/
theorem findFree_eq (ok : t.Ok) {n i : ℕ} (hn : i + n ≤ t.cnt) :
    (∃ id, i ≤ id ∧ id < i + n ∧ t.reg id = none ∧ (∀ j, i ≤ j → j < id → t.reg j ≠ none) ∧
      findFree n i t = some (some id, t)) ∨
    (∀ j, i ≤ j → j < i + n → t.reg j ≠ none) ∧ findFree n i t = some (none, t) := by
  induction n generalizing i with
  | zero => exact .inr ⟨fun j hj hj' => by omega, rfl⟩
  | succ n ih =>
    have hcnt := ok.cnt
    have hlt : i < t.mem.length := by omega
    have hreg := reg_eq_none_iff (t := t) (i := i) (by omega) hlt
    rw [findFree, Comp.bind_of_eq (handlerAt_eq ok hlt)]
    by_cases hfree : (t.mem[i]).handler = none
    · rw [if_pos hfree]
      exact .inl ⟨i, le_rfl, by omega, hreg.mpr hfree, fun j hj hj' => by omega, rfl⟩
    · rw [if_neg hfree]
      have hused : ∀ j, i ≤ j → (i + 1 ≤ j → t.reg j ≠ none) → t.reg j ≠ none := by
        intro j hj hnext
        by_cases hij : j = i
        · subst hij
          exact mt hreg.mp hfree
        · exact hnext (by omega)
      rcases ih (i := i + 1) (by omega) with ⟨id, hle, hlt', hid, hmin, hrun⟩ | ⟨hall, hrun⟩
      · exact .inl ⟨id, by omega, by omega, hid,
          fun j hj hj' => hused j hj fun h => hmin j h hj', hrun⟩
      · exact .inr ⟨fun j hj hj' => hused j hj fun h => hall j h (by omega), hrun⟩

theorem findFree_cnt (ok : t.Ok) :
    (∃ id < t.cnt, t.reg id = none ∧ (∀ j < id, t.reg j ≠ none) ∧
      findFree t.cnt 0 t = some (some id, t)) ∨
    (∀ j < t.cnt, t.reg j ≠ none) ∧ findFree t.cnt 0 t = some (none, t) := by
  rcases findFree_eq ok (n := t.cnt) (i := 0) (by omega) with
    ⟨id, -, hlt, hid, hmin, hrun⟩ | ⟨hall, hrun⟩
  · exact .inl ⟨id, by omega, hid, fun j hj => hmin j (by omega) hj, hrun⟩
  · exact .inr ⟨fun j hj => hall j (by omega) (by omega), hrun⟩

/-- A registration takes the first free entry. -/
theorem tableHandle_room (ok : t.Ok) (hroom : t.HasRoom) (irq : ℕ) (handler : Handler) :
    ∃ id u, tableHandle irq handler t = some (some id, u) ∧ u.Ok ∧ id < t.cnt ∧ t.reg id = none ∧
      (∀ j < id, t.reg j ≠ none) ∧ u.reg = Function.update t.reg id (some (irq, handler)) ∧
      u = { t with mem := u.mem } := by
  obtain ⟨j, hj, hfree⟩ := hroom
  rcases findFree_cnt ok with ⟨id, hid, hreg, hmin, hrun⟩ | ⟨hall, -⟩
  · have hlt : id < t.mem.length := hid.trans_le ok.cnt
    refine ⟨id, _, ?_, ?_, hid, hreg, hmin, reg_set hid hlt ⟨irq, some handler⟩, rfl⟩
    · rw [tableHandle, Comp.read_bind, Comp.bind_of_eq hrun]
      dsimp only
      rw [Comp.pure_bind_apply]
      dsimp only
      rw [Comp.bind_of_eq (setHandler_eq ok hlt _)]
      rfl
    · exact ⟨ok.block, by rw [List.length_set]; exact ok.cnt⟩
  · exact absurd hfree (hall j hj)

/-- The calls of an interrupt, by the entries. -/
theorem tableCalls_eq (ok : t.Ok) (irq : ℕ) {n i : ℕ} (hn : i + n ≤ t.cnt) :
    ∃ l, tableCalls irq n i t = some (l, t) ∧ ∃ ids : List ℕ, ids.Nodup ∧
      (∀ j, j ∈ ids ↔ i ≤ j ∧ j < i + n ∧ ∃ h, t.reg j = some (irq, h)) ∧
      l.map some = ids.map fun j => (t.reg j).map Prod.snd := by
  induction n generalizing i with
  | zero => exact ⟨[], rfl, [], .nil, fun j => by simp; omega, rfl⟩
  | succ n ih =>
    have hcnt := ok.cnt
    have hlt : i < t.mem.length := by omega
    have hreg := reg_of_lt (t := t) (i := i) (by omega) hlt
    obtain ⟨l, hrun, ids, hnodup, hids, hl⟩ := ih (i := i + 1) (by omega)
    have hskip : (∀ h, t.reg i ≠ some (irq, h)) → ∀ j, j ∈ ids ↔
        i ≤ j ∧ j < i + (n + 1) ∧ ∃ h, t.reg j = some (irq, h) := by
      intro hne j
      rw [hids]
      constructor
      · rintro ⟨h₁, h₂, h₃⟩
        exact ⟨by omega, by omega, h₃⟩
      · rintro ⟨h₁, h₂, h, h₃⟩
        have hij : j ≠ i := by
          rintro rfl
          exact hne h h₃
        exact ⟨by omega, by omega, h, h₃⟩
    rw [tableCalls, Comp.bind_of_eq (handlerAt_eq ok hlt), Comp.bind_of_eq hrun]
    cases he : (t.mem[i]).handler with
    | none =>
      rw [he] at hreg
      exact ⟨l, rfl, ids, hnodup, hskip (fun h => by rw [hreg]; simp), hl⟩
    | some h =>
      rw [he] at hreg
      by_cases hirq : (t.mem[i]).irq = irq
      · refine ⟨h :: l, by simp [hirq], i :: ids, ?_, ?_, ?_⟩
        · rw [List.nodup_cons, hids]
          exact ⟨fun hmem => by omega, hnodup⟩
        · intro j
          rw [List.mem_cons, hids]
          constructor
          · rintro (rfl | ⟨h₁, h₂, h₃⟩)
            · exact ⟨le_rfl, by omega, h, by rw [hreg, ← hirq]; rfl⟩
            · exact ⟨by omega, by omega, h₃⟩
          · rintro ⟨h₁, h₂, h₃⟩
            by_cases hij : j = i
            · exact .inl hij
            · exact .inr ⟨by omega, by omega, h₃⟩
        · rw [List.map_cons, List.map_cons, hl, hreg]
          rfl
      · refine ⟨l, by simp [hirq], ids, hnodup, hskip (fun h' => ?_), hl⟩
        rw [hreg]
        simp [hirq]

theorem tableCalls_once (ok : t.Ok) (irq : ℕ) :
    ∃ l, tableCalls irq t.cnt 0 t = some (l, t) ∧ CallsOnce t.reg irq l := by
  obtain ⟨l, hrun, ids, hnodup, hids, hl⟩ := tableCalls_eq ok irq (n := t.cnt) (i := 0) (by omega)
  refine ⟨l, hrun, ids, hnodup, fun j => ?_, hl⟩
  rw [hids]
  constructor
  · exact fun h => h.2.2
  · rintro ⟨h, hj⟩
    have hlt : j < t.cnt := by
      by_contra hle
      rw [reg_of_le (not_lt.mp hle)] at hj
      cases hj
    exact ⟨by omega, by omega, h, hj⟩

/-- Unregistering clears the entry. -/
theorem tableUnhandle_eq (ok : t.Ok) (id : ℕ) :
    ∃ u, tableUnhandle id t = some ((), u) ∧ u.Ok ∧ u.reg = Function.update t.reg id none := by
  rw [tableUnhandle, Comp.read_bind]
  by_cases hid : id < t.cnt
  · have hlt : id < t.mem.length := hid.trans_le ok.cnt
    refine ⟨_, ?_, ?_, reg_set hid hlt { t.mem[id] with handler := none }⟩
    · rw [Comp.when_true hid, Comp.bind_of_eq (handlerAt_eq ok hlt), setHandler_eq ok hlt]
    · exact ⟨ok.block, by rw [List.length_set]; exact ok.cnt⟩
  · refine ⟨t, by rw [Comp.when_false hid]; rfl, ok, ?_⟩
    rw [← reg_of_le (t := t) (not_lt.mp hid), Function.update_eq_self]

/-- The table after its block was extended by `krealloc`. -/
def HandlerTable.extended (t : HandlerTable) (p : ℕ) : HandlerTable :=
  { t with
    calls := t.calls + 1
    block := p
    mem := t.mem.take (t.cnt + handlersAllocSz) ++
      (List.range (t.cnt + handlersAllocSz - t.mem.length)).map (t.junk (t.calls + 1)) }

theorem handlersRealloc_eq (ok : t.Ok) :
    handlersRealloc (t.cnt + handlersAllocSz) t = match t.heap t.calls with
      | none => some (none, { t with calls := t.calls + 1 })
      | some p => some (some p, t.extended p) := by
  have hread : Comp.readOr (fun t : HandlerTable =>
      if t.handlers = t.block then some (t.heap t.calls) else none) t =
      some (t.heap t.calls, t) := by
    rw [Comp.readOr_apply, if_pos ok.block]
    rfl
  rw [handlersRealloc, Comp.bind_of_eq hread, Comp.modify_bind]
  cases t.heap t.calls <;> rfl

/-- Clearing the entries after the new one leaves the old ones. -/
theorem clear_tail {v : HandlerTable} (hblock : v.handlers = v.block) (c : ℕ)
    (hlen : v.mem.length = c + handlersAllocSz) :
    ∃ m, Comp.forRange (fun i => setHandler (c + i) intrHandlerZero) (handlersAllocSz - 1) 1 v =
      some ((), { v with mem := m }) ∧ m.length = c + handlersAllocSz ∧
      ∀ j < c, m[j]? = v.mem[j]? := by
  let J : ℕ → HandlerTable → Prop := fun _ w => ∃ m, w = { v with mem := m } ∧
    m.length = c + handlersAllocSz ∧ ∀ j < c, m[j]? = v.mem[j]?
  have hstep : ∀ i, 1 ≤ i → i < 1 + (handlersAllocSz - 1) → ∀ w, J i w →
      ∃ w', setHandler (c + i) intrHandlerZero w = some ((), w') ∧ J (i + 1) w' := by
    rintro i - hi _ ⟨m, rfl, hm, hold⟩
    have hlt : c + i < m.length := by
      simp only [handlersAllocSz] at *
      omega
    refine ⟨_, if_pos ⟨hblock, hlt⟩, m.set (c + i) intrHandlerZero, rfl, ?_, ?_⟩
    · rw [List.length_set, hm]
    · intro j hj
      rw [List.getElem?_set_ne (by omega)]
      exact hold j hj
  obtain ⟨_, hrun, m, rfl, hm, hold⟩ :=
    Comp.forRange_total (J := J) hstep ⟨v.mem, rfl, hlen, fun _ _ => rfl⟩
  exact ⟨m, hrun, hm, hold⟩

theorem findFree_full (ok : t.Ok) (hfull : ¬ t.HasRoom) : findFree t.cnt 0 t = some (none, t) := by
  rcases findFree_cnt ok with ⟨id, hid, hreg, -, -⟩ | ⟨-, hrun⟩
  · exact absurd ⟨id, hid, hreg⟩ hfull
  · exact hrun

/-- A registration in a full table whose block grows where it is. -/
theorem tableHandle_grown (ok : t.Ok) (hfull : ¬ t.HasRoom) (hheap : t.heap t.calls = some t.handlers)
    (irq : ℕ) (handler : Handler) :
    ∃ u, tableHandle irq handler t = some (some t.cnt, u) ∧ u.Ok ∧
      u.reg = Function.update t.reg t.cnt (some (irq, handler)) := by
  have hsearch := findFree_full ok hfull
  have hrealloc := handlersRealloc_eq ok
  rw [hheap] at hrealloc
  have hlen : (t.extended t.handlers).mem.length = t.cnt + handlersAllocSz := by
    simp only [HandlerTable.extended, List.length_append, List.length_take, List.length_map,
      List.length_range]
    omega
  have hold : ∀ j < t.cnt, (t.extended t.handlers).mem[j]? = t.mem[j]? := by
    intro j hj
    have hcnt := ok.cnt
    have hmem : j < (t.mem.take (t.cnt + handlersAllocSz)).length := by
      rw [List.length_take]
      omega
    rw [HandlerTable.extended, List.getElem?_append_left hmem, List.getElem?_take_of_lt (by omega)]
  obtain ⟨m, hclear, hm, hkeep⟩ := clear_tail (v := t.extended t.handlers) rfl t.cnt hlen
  have hlt : t.cnt < m.length := by
    rw [hm]
    simp only [handlersAllocSz]
    omega
  refine ⟨{ t.extended t.handlers with
    mem := m.set t.cnt ⟨irq, some handler⟩, cnt := t.cnt + 1 }, ?_, ⟨rfl, ?_⟩, ?_⟩
  · rw [tableHandle, Comp.read_bind, Comp.bind_of_eq hsearch]
    dsimp only
    rw [Comp.bind_assoc, Comp.bind_of_eq hrealloc]
    dsimp only
    rw [Comp.bind_assoc, Comp.bind_of_eq hclear, Comp.bind_assoc, Comp.modify_bind,
      Comp.pure_bind_apply]
    dsimp only
    rw [Comp.bind_apply, setHandler, if_pos ⟨rfl, hlt⟩]
    rfl
  · rw [List.length_set, hm]
    simp only [handlersAllocSz]
    omega
  · funext j
    rcases lt_trichotomy j t.cnt with hj | rfl | hj
    · rw [Function.update_of_ne (by omega), HandlerTable.reg, HandlerTable.reg, if_pos hj,
        if_pos (Nat.lt_succ_of_lt hj), List.getElem?_set_ne (by omega), hkeep j hj, hold j hj]
    · rw [Function.update_self, HandlerTable.reg, if_pos (Nat.lt_succ_self _),
        List.getElem?_set_self hlt]
      rfl
    · rw [Function.update_of_ne (by omega)]
      exact (reg_of_le (show t.cnt + 1 ≤ j from hj)).trans (reg_of_le hj.le).symm

/-- Where `krealloc` fails nothing is registered. -/
theorem tableHandle_failed (ok : t.Ok) (hfull : ¬ t.HasRoom) (hheap : t.heap t.calls = none)
    (irq : ℕ) (handler : Handler) :
    tableHandle irq handler t = some (none, { t with calls := t.calls + 1 }) := by
  have hsearch := findFree_full ok hfull
  have hrealloc := handlersRealloc_eq ok
  rw [hheap] at hrealloc
  rw [tableHandle, Comp.read_bind, Comp.bind_of_eq hsearch]
  dsimp only
  rw [Comp.bind_assoc, Comp.bind_of_eq hrealloc]
  rfl

/-- Where `krealloc` moves the block, the entries are cleared in the old one, which is dead. -/
theorem tableHandle_moved (ok : t.Ok) (hfull : ¬ t.HasRoom) {p : ℕ} (hheap : t.heap t.calls = some p)
    (hmove : p ≠ t.handlers) (irq : ℕ) (handler : Handler) : tableHandle irq handler t = none := by
  have hsearch := findFree_full ok hfull
  have hrealloc := handlersRealloc_eq ok
  rw [hheap] at hrealloc
  have hdead : setHandler (t.cnt + 1) intrHandlerZero (t.extended p) = none := by
    rw [setHandler, if_neg]
    rintro ⟨hblock, -⟩
    exact hmove hblock.symm
  have hclear : Comp.forRange (fun i => setHandler (t.cnt + i) intrHandlerZero)
      (handlersAllocSz - 1) 1 (t.extended p) = none := by
    change (setHandler (t.cnt + 1) intrHandlerZero >>= fun _ => _) (t.extended p) = none
    rw [Comp.bind_apply, hdead]
    rfl
  rw [tableHandle, Comp.read_bind, Comp.bind_of_eq hsearch]
  dsimp only
  rw [Comp.bind_assoc, Comp.bind_of_eq hrealloc]
  dsimp only
  rw [Comp.bind_assoc, Comp.bind_apply, hclear]
  rfl

/-- A registration returns unless it would write to a dead block. -/
theorem tableHandle_total (ok : t.Ok) (irq : ℕ) (handler : Handler) (hplace : t.InPlace) :
    ∃ r u, tableHandle irq handler t = some (r, u) ∧ u.Ok ∧
      (∀ id, r = some id → t.reg id = none ∧
        u.reg = Function.update t.reg id (some (irq, handler))) ∧
      (r = none → u.reg = t.reg) := by
  by_cases hroom : t.HasRoom
  · obtain ⟨id, u, hrun, hok, -, hfree, -, hreg, -⟩ := tableHandle_room ok hroom irq handler
    refine ⟨some id, u, hrun, hok, ?_, nofun⟩
    rintro _ ⟨rfl⟩
    exact ⟨hfree, hreg⟩
  · cases hheap : t.heap t.calls with
    | none =>
      exact ⟨none, _, tableHandle_failed ok hroom hheap irq handler, ⟨ok.block, ok.cnt⟩, nofun,
        fun _ => rfl⟩
    | some p =>
      have hp := hplace.resolve_left hroom p hheap
      subst hp
      obtain ⟨u, hrun, hok, hreg⟩ := tableHandle_grown ok hroom hheap irq handler
      refine ⟨some t.cnt, u, hrun, hok, ?_, nofun⟩
      rintro _ ⟨rfl⟩
      exact ⟨reg_of_le le_rfl, hreg⟩

theorem tableHandle_returns_iff (ok : t.Ok) (irq : ℕ) (handler : Handler) :
    (∃ r u, tableHandle irq handler t = some (r, u)) ↔ t.InPlace := by
  constructor
  · rintro ⟨r, u, hrun⟩
    by_contra hplace
    rw [HandlerTable.InPlace, not_or] at hplace
    obtain ⟨hfull, hmove⟩ := hplace
    push Not at hmove
    obtain ⟨p, hheap, hne⟩ := hmove
    rw [tableHandle_moved ok hfull hheap hne] at hrun
    cases hrun
  · intro hplace
    obtain ⟨r, u, hrun, -⟩ := tableHandle_total ok irq handler hplace
    exact ⟨r, u, hrun⟩

end
end SysX
