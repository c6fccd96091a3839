import SysX.Files

/-!
What the operations of the file table do to its entries, and the law of exclusive access.
-/
namespace SysX

/-- An entry without the state of its mutex. -/
def Ftab.unlocked (e : Ftab) : Ftab := { e with mutex := false }

/-- The entry at an index of the table. -/
def Files.ent (s : Files) (i : ℕ) : Option Ftab := s.ftab[i]?.map Ftab.unlocked

/-- The calls of `vfs_close` on record. -/
def Files.closes (s : Files) : List (Option ℕ) :=
  s.calls.filterMap fun | .vfsClose v => some v | _ => none

/-- Nothing but the table, its mutex and the record of calls changes. -/
def Files.SameBut (s t : Files) : Prop :=
  t = { s with ftab := t.ftab, ftabBase := t.ftabBase, ftabMutex := t.ftabMutex,
               ftabCalls := t.ftabCalls, calls := t.calls }

theorem Files.SameBut.refl (s : Files) : s.SameBut s := rfl

theorem Files.SameBut.trans {s t u : Files} (h : s.SameBut t) (h' : t.SameBut u) : s.SameBut u := by
  unfold Files.SameBut at *
  rw [h', h]

namespace Files.SameBut

variable {s t : Files} (h : s.SameBut t)
include h

theorem eq : t = { s with ftab := t.ftab, ftabBase := t.ftabBase, ftabMutex := t.ftabMutex,
                          ftabCalls := t.ftabCalls, calls := t.calls } := h

theorem nodes : t.nodes = s.nodes := (congrArg Files.nodes h.eq).trans rfl

theorem fds : t.fds = s.fds := (congrArg Files.fds h.eq).trans rfl

theorem pidtab : t.pidtab = s.pidtab := (congrArg Files.pidtab h.eq).trans rfl

theorem live : t.live = s.live := (congrArg Files.live h.eq).trans rfl

theorem pid : t.pid = s.pid := (congrArg Files.pid h.eq).trans rfl

theorem devConsole : t.devConsole = s.devConsole := (congrArg Files.devConsole h.eq).trans rfl

theorem ftabHeap : t.ftabHeap = s.ftabHeap := (congrArg Files.ftabHeap h.eq).trans rfl

theorem otherHeap : t.otherHeap = s.otherHeap := (congrArg Files.otherHeap h.eq).trans rfl

theorem otherCalls : t.otherCalls = s.otherCalls := (congrArg Files.otherCalls h.eq).trans rfl

end Files.SameBut

/-- The table may have gained empty entries; it moves only when it has no entry to open the node in. -/
structure Grown (node : ℕ) (s t : Files) : Prop where
  same : s.SameBut t
  ent : ∀ j, t.ent j = s.ent j ∨ s.ent j = none ∧ t.ent j = some ftabZero
  base : t.ftabBase = s.ftabBase ∨
    ftabSearch s node = none ∧ s.ftabHeap s.ftabCalls = some t.ftabBase
  closes : t.closes = s.closes
  full : ftabSearch t node = none → ftabSearch s node = none ∧ s.ftabHeap s.ftabCalls = none ∧
    t.ftabBase = s.ftabBase ∧ t.ftabCalls = s.ftabCalls + 1

theorem Grown.refl {node : ℕ} {s : Files} (h : ftabSearch s node ≠ none) : Grown node s s :=
  ⟨.refl s, fun _ => .inl rfl, .inl rfl, rfl, fun hn => absurd hn h⟩

section Ent

variable (s : Files) (i : ℕ)

@[simp] theorem ent_log (c : HookCall) : (s.log c).ent = s.ent := rfl

theorem ent_calls (cs : List HookCall) : ({ s with calls := cs } : Files).ent = s.ent := rfl

@[simp] theorem ent_ftabMutex (b : Bool) : ({ s with ftabMutex := b } : Files).ent = s.ent := rfl

@[simp] theorem ent_setFds (p : ℕ) (l : List Fd) : (s.setFds p l).ent = s.ent := rfl

theorem ent_modify {g G : Ftab → Ftab} (h : ∀ e, (g e).unlocked = G e.unlocked) (j : ℕ) :
    (s.modifyFtab i g).ent j = if j = i then (s.ent j).map G else s.ent j := by
  simp only [Files.ent, Files.modifyFtab, List.getElem?_modify, Option.map_map]
  by_cases hj : i = j
  · subst hj
    simp only [if_true]
    cases s.ftab[i]? with
    | none => rfl
    | some e => simp [h]
  · simp only [hj, Ne.symm hj, if_false]
    cases s.ftab[j]? <;> rfl

/-- Locking an entry does not change what it holds. -/
@[simp] theorem ent_modify_mutex (b : Bool) :
    (s.modifyFtab i fun e => { e with mutex := b }).ent = s.ent := by
  funext j
  rw [ent_modify s i (g := fun e => { e with mutex := b }) (G := id) fun e => rfl]
  simp

theorem ent_modify_at {g G : Ftab → Ftab} {e : Ftab} (hi : s.ent i = some e)
    (h : ∀ e, (g e).unlocked = G e.unlocked) :
    (s.modifyFtab i g).ent = Function.update s.ent i (some (G e)) := by
  funext j
  rw [ent_modify s i h, Function.update_apply]
  split_ifs with hj
  · rw [hj, hi]
    rfl
  · rfl

theorem ftabBase_modify (g : Ftab → Ftab) : (s.modifyFtab i g).ftabBase = s.ftabBase := rfl

theorem closes_modify (g : Ftab → Ftab) : (s.modifyFtab i g).closes = s.closes := rfl

theorem sameBut_modify (g : Ftab → Ftab) : s.SameBut (s.modifyFtab i g) := rfl

theorem sameBut_calls (cs : List HookCall) : s.SameBut { s with calls := cs } := rfl

theorem ent_of_getElem? {e : Ftab} (h : s.ftab[i]? = some e) : s.ent i = some e.unlocked := by
  simp [Files.ent, h]

@[simp] theorem Ftab.unlocked_node (e : Ftab) : e.unlocked.node = e.node := rfl

end Ent

/-! One lemma for each step of the table functions. -/

section Steps

variable {s t : Files} {i : ℕ}

theorem ftabAcquire_run {t : Files} (h : ftabAcquire s = some ((), t)) :
    s.ftabMutex = false ∧ t = { s with ftabMutex := true } := by
  rw [ftabAcquire, Comp.read_bind] at h
  cases hm : s.ftabMutex with
  | true => simp [hm] at h
  | false =>
    simp only [hm, Bool.false_eq_true, if_false, Comp.modify_apply, Option.some.injEq,
      Prod.mk.injEq, true_and] at h
    exact ⟨rfl, h.symm⟩

theorem ftabEntAcquire_run (h : ftabEntAcquire i s = some ((), t)) :
    (∃ e, s.ftab[i]? = some e ∧ e.mutex = false) ∧
      t = s.modifyFtab i fun e => { e with mutex := true } := by
  rw [ftabEntAcquire, Comp.bind_apply, Comp.readOr_apply] at h
  cases he : s.ftab[i]? with
  | none => simp [he] at h
  | some e =>
    cases hm : e.mutex with
    | true => simp [he, hm] at h
    | false =>
      simp only [he, hm, Option.map_some, Option.bind_some, Bool.false_eq_true, if_false,
        Comp.modify_apply, Option.some.injEq, Prod.mk.injEq, true_and] at h
      exact ⟨⟨e, rfl, hm⟩, h.symm⟩

theorem ftabEntRelease_run (i : ℕ) (s : Files) : ftabEntRelease i s =
    some ((), s.modifyFtab i fun e => { e with mutex := false }) := rfl

/-- Hooks leave a record of the call at most. -/
theorem vfsOpen_run {v : Option ℕ} {r w b : Bool} (h : vfsOpen v r w s = some (b, t)) :
    ∃ cs, t = { s with calls := s.calls ++ cs } ∧ t.closes = s.closes := by
  obtain ⟨u, s', hu, h⟩ := Comp.bind_eq_some.mp h
  rw [vfsTraverseSymlink, Comp.readOr_apply, Option.map_eq_some_iff] at hu
  obtain ⟨a, -, hau⟩ := hu
  cases hau
  cases u with
  | none =>
    cases h
    exact ⟨[], by simp, rfl⟩
  | some v =>
    simp only [Comp.read_bind] at h
    cases hh : (s.nodes v).openHook with
    | none =>
      rw [hh] at h
      cases h
      exact ⟨[], by simp, rfl⟩
    | some g =>
      rw [hh] at h
      cases h
      exact ⟨[.open v r w], rfl, by simp [Files.closes, Files.log]⟩

/-- A node that opens is no endless chain of symlinks. -/
theorem vfsOpen_resolves {v : Option ℕ} {r w b : Bool} (h : vfsOpen v r w s = some (b, t)) :
    ∃ u, traverseSymlink s.nodes symlinkFuel v = some u := by
  obtain ⟨u, s', hu, -⟩ := Comp.bind_eq_some.mp h
  rw [vfsTraverseSymlink, Comp.readOr_apply, Option.map_eq_some_iff] at hu
  obtain ⟨a, ha, -⟩ := hu
  exact ⟨a, ha⟩

theorem vfsClose_run {v : Option ℕ} (h : vfsClose v s = some ((), t)) :
    ∃ cs, t = { s with calls := s.calls ++ cs } ∧ t.closes = s.closes ++ [v] := by
  rw [vfsClose, Comp.modify_bind] at h
  obtain ⟨u, s', hu, h⟩ := Comp.bind_eq_some.mp h
  rw [vfsTraverseSymlink, Comp.readOr_apply, Option.map_eq_some_iff] at hu
  obtain ⟨a, -, hau⟩ := hu
  cases hau
  cases u with
  | none =>
    cases h
    exact ⟨[.vfsClose v], rfl, by simp [Files.closes, Files.log]⟩
  | some w =>
    simp only [Comp.read_bind] at h
    cases hh : ((s.log (.vfsClose v)).nodes w).closeHook with
    | false =>
      rw [hh] at h
      cases h
      exact ⟨[.vfsClose v], rfl, by simp [Files.closes, Files.log]⟩
    | true =>
      rw [hh] at h
      cases h
      exact ⟨[.vfsClose v, .close w], by simp [Files.log], by simp [Files.closes, Files.log]⟩

/-- What the search comes to. -/
theorem ftabSearch_some {node : ℕ} (h : ftabSearch s node = some i) :
    (∃ e, s.ent i = some e ∧ (e.node = none ∨ e.node = some node)) ∧
      ∀ j < i, ∀ e, s.ent j = some e → e.node ≠ none ∧ e.node ≠ some node := by
  obtain ⟨hi, hp, hlt⟩ := List.findIdx?_eq_some_iff_getElem.mp h
  refine ⟨⟨_, ent_of_getElem? s i (List.getElem?_eq_getElem hi), by simpa using hp⟩, ?_⟩
  intro j hj e he
  have hj' := hlt j hj
  rw [Files.ent, List.getElem?_eq_getElem (by omega)] at he
  cases he
  simpa [not_or] using hj'

/-- An entry that is empty or holds the node, with only other nodes before it, is the one found. -/
theorem ftabSearch_of_ent {node : ℕ} {e : Ftab} (hi : s.ent i = some e)
    (hn : e.node = none ∨ e.node = some node)
    (hlt : ∀ j < i, ∀ e, s.ent j = some e → e.node ≠ none ∧ e.node ≠ some node) :
    ftabSearch s node = some i := by
  obtain ⟨a, ha, rfl⟩ := Option.map_eq_some_iff.mp hi
  obtain ⟨hlen, ha'⟩ := List.getElem?_eq_some_iff.mp ha
  refine List.findIdx?_eq_some_iff_getElem.mpr ⟨hlen, ?_, fun j hj => ?_⟩
  · rw [ha']
    simpa using hn
  · have hje := hlt j hj _ (ent_of_getElem? s j (List.getElem?_eq_getElem (hj.trans hlen)))
    simpa [not_or] using hje

theorem ftabSearch_congr (h : t.ent = s.ent) (node : ℕ) :
    ftabSearch t node = ftabSearch s node := by
  have key : ∀ u : Files, ftabSearch u node = (u.ftab.map Ftab.unlocked).findIdx? fun e =>
      e.node = none ∨ e.node = some node := by
    intro u
    rw [ftabSearch, List.findIdx?_map]
    rfl
  have hm : t.ftab.map Ftab.unlocked = s.ftab.map Ftab.unlocked := by
    apply List.ext_getElem?
    intro i
    rw [List.getElem?_map, List.getElem?_map]
    exact congrFun h i
  rw [key, key, hm]

theorem ftabSearch_none {node : ℕ} (h : ftabSearch s node = none) :
    ∀ j e, s.ent j = some e → e.node ≠ none ∧ e.node ≠ some node := by
  intro j e he
  rw [Files.ent, Option.map_eq_some_iff] at he
  obtain ⟨a, ha, rfl⟩ := he
  have := List.findIdx?_eq_none_iff.mp h a (List.mem_of_getElem? ha)
  simpa [not_or] using this

theorem ftabGrow_run {node : ℕ} {r : Option ℕ} (hfull : ftabSearch s node = none)
    (h : ftabGrow s = some (r, t)) : Grown node s t ∧ ∀ i, r = some i → t.ent i = some ftabZero ∧
      s.ent i = none ∧ ∀ j < i, ∃ e, s.ent j = some e := by
  rw [ftabGrow, Comp.read_bind] at h
  simp only [ftabRealloc, Comp.bind_assoc, Comp.read_bind, Comp.modify_bind, Comp.pure_bind] at h
  cases hb : s.ftabHeap s.ftabCalls with
  | none =>
    rw [hb] at h
    cases h
    exact ⟨⟨rfl, fun _ => .inl rfl, .inl rfl, rfl, fun _ => ⟨hfull, hb, rfl, rfl⟩⟩, nofun⟩
  | some b =>
    rw [hb] at h
    cases h
    have hent : ∀ j, (s.ftab ++ List.replicate ftabAllocSz ftabZero)[j]?.map Ftab.unlocked = s.ent j ∨
        s.ent j = none ∧ (s.ftab ++ List.replicate ftabAllocSz ftabZero)[j]?.map Ftab.unlocked =
          some ftabZero := by
      intro j
      rcases Nat.lt_or_ge j s.ftab.length with hj | hj
      · exact .inl (by rw [List.getElem?_append_left hj]; rfl)
      · rw [List.getElem?_append_right hj, List.getElem?_replicate, Files.ent,
          List.getElem?_eq_none hj]
        split_ifs
        · exact .inr ⟨rfl, rfl⟩
        · exact .inl rfl
    refine ⟨⟨rfl, hent, .inr ⟨hfull, hb⟩, rfl, fun hn => ?_⟩, ?_⟩
    · have hz := ftabSearch_none hn s.ftab.length ftabZero (by simp [Files.ent, ftabAllocSz,
        List.replicate_succ, ftabZero, Ftab.unlocked])
      exact absurd rfl hz.1
    rintro i hi
    cases hi
    have hnone : s.ent s.ftab.length = none := by
      rw [Files.ent, List.getElem?_eq_none (Nat.le_refl _)]
      rfl
    refine ⟨?_, hnone, fun j hj => ⟨_, ent_of_getElem? s j (List.getElem?_eq_getElem hj)⟩⟩
    rw [Files.ent, List.getElem?_append_right (Nat.le_refl _), Nat.sub_self]
    rfl

end Steps

/-! What `ftab_open` and `ftab_close` can do. -/

/-- The entry of a node opened for the first time. -/
def firstEnt (node proc : ℕ) (read write excl : Bool) : Ftab :=
  ⟨some node, read, write, 1, if excl then some proc else none, false⟩

/-- The entry of a node opened once more. -/
def againEnt (e : Ftab) (read write : Bool) : Ftab :=
  { e with read := read || e.read, write := write || e.write, refs := refsInc e.refs }

theorem refsInc_of_lt {n : ℕ} (h : n + 1 < ftabRefsMod) : refsInc n = n + 1 := by
  unfold refsInc
  exact Nat.mod_eq_of_lt h

/-- The node is no symlink, and opens for every access. -/
structure PlainNode (nodes : ℕ → VfsNode) (v : ℕ) : Prop where
  file : (nodes v).flags &&& vfsSymlink = 0
  noHook : (nodes v).openHook = none

inductive OpenStep (s : Files) (node proc : ℕ) (read write excl : Bool) :
    Option FtabPtr → Files → Prop
  | refused {t} (h : Grown node s t)
      (hr : PlainNode s.nodes node → ∀ i e, ftabSearch s node = some i → s.ent i = some e →
        e.node = some node → (e.excl = none ∨ e.excl = some proc) → excl = true ∧ e.refs ≠ 0) :
      OpenStep s node proc read write excl none t
  | first {u t i e} (h : Grown node s u) (hu : u.SameBut t) (hb : t.ftabBase = u.ftabBase)
      (hc : t.closes = u.closes)
      (hi : u.ent i = some e) (he : e.node = none)
      (hres : ∃ v, traverseSymlink s.nodes symlinkFuel (some node) = some v)
      (hlt : ∀ j < i, ∃ e, s.ent j = some e ∧ e.node ≠ none ∧ e.node ≠ some node)
      (ht : t.ent = Function.update u.ent i (some (firstEnt node proc read write excl))) :
      OpenStep s node proc read write excl (some ⟨t.ftabBase, i⟩) t
  | again {t i e} (hs : s.SameBut t) (hb : t.ftabBase = s.ftabBase) (hc : t.closes = s.closes)
      (hi : s.ent i = some e)
      (he : e.node = some node) (hx : e.excl = none ∨ e.excl = some proc)
      (hexcl : excl = true → e.refs = 0) (hf : ftabSearch s node = some i)
      (ht : t.ent = Function.update s.ent i (some (againEnt e read write))) :
      OpenStep s node proc read write excl (some ⟨t.ftabBase, i⟩) t

section Open

variable {s t u : Files} {node proc i : ℕ} {read write excl : Bool} {res : Option FtabPtr}

/-- Only the mutexes and the record of calls change. -/
structure Locking (s t : Files) : Prop where
  same : s.SameBut t
  base : t.ftabBase = s.ftabBase
  ent : t.ent = s.ent
  closes : t.closes = s.closes
  heap : t.ftabCalls = s.ftabCalls

theorem Locking.trans (h : Locking s t) (h' : Locking t u) : Locking s u :=
  ⟨h.same.trans h'.same, h'.base.trans h.base, h'.ent.trans h.ent, h'.closes.trans h.closes,
    h'.heap.trans h.heap⟩

theorem Locking.grown (h : Grown node s t) (h' : Locking t u) : Grown node s u := by
  constructor
  · exact h.same.trans h'.same
  · rw [h'.ent]
    exact h.ent
  · rw [h'.base]
    exact h.base
  · exact h'.closes.trans h.closes
  · rw [ftabSearch_congr h'.ent, h'.base, h'.heap]
    exact h.full

theorem locking_modify (s : Files) (i : ℕ) (b : Bool) :
    Locking s (s.modifyFtab i fun e => { e with mutex := b }) :=
  ⟨rfl, rfl, ent_modify_mutex s i b, rfl, rfl⟩

theorem locking_mutex (s : Files) (b : Bool) : Locking s { s with ftabMutex := b } :=
  ⟨rfl, rfl, rfl, rfl, rfl⟩

theorem locking_vfsOpen {v : Option ℕ} {b : Bool} (h : vfsOpen v read write s = some (b, t)) :
    Locking s t := by
  obtain ⟨cs, rfl, hc⟩ := vfsOpen_run h
  exact ⟨rfl, rfl, rfl, hc, rfl⟩

theorem vfsOpen_plain (s : Files) {v : ℕ} (hv : PlainNode s.nodes v) :
    vfsOpen (some v) read write s = some (true, s) := by
  have ht : vfsTraverseSymlink (some v) s = some (some v, s) := by
    rw [vfsTraverseSymlink, Comp.readOr_apply, symlinkFuel, traverseSymlink, if_pos hv.file]
    rfl
  rw [vfsOpen, Comp.bind_of_eq ht]
  simp only [Comp.read_bind, hv.noHook]
  rfl

/-- Both mutexes are released at the end. -/
theorem locking_release (s : Files) (i : ℕ) :
    Locking s { s.modifyFtab i (fun e => { e with mutex := false }) with ftabMutex := false } :=
  (locking_modify s i false).trans (locking_mutex _ false)

theorem ftabOpenFirst_step {e : Ftab} (hi : s.ent i = some e)
    (h : ftabOpenFirst i node proc read write excl s = some (res, t)) :
    res = none ∧ Locking s t ∨ res = some ⟨t.ftabBase, i⟩ ∧ s.SameBut t ∧ t.ftabBase = s.ftabBase ∧
      t.closes = s.closes ∧ (∃ v, traverseSymlink s.nodes symlinkFuel (some node) = some v) ∧
      t.ent = Function.update s.ent i (some (firstEnt node proc read write excl)) := by
  obtain ⟨ok, u, hv, h⟩ := Comp.bind_eq_some.mp h
  have hl := locking_vfsOpen hv
  cases ok with
  | false =>
    cases h
    exact .inl ⟨rfl, hl⟩
  | true =>
    cases h
    refine .inr ⟨rfl, hl.same.trans rfl, hl.base, hl.closes, vfsOpen_resolves hv, ?_⟩
    refine (locking_release _ i).ent.trans ?_
    rw [ent_modify_at u i (G := fun _ => firstEnt node proc read write excl) (hl.ent ▸ hi)
      fun e => rfl, hl.ent]

theorem ftabOpenAgain_step {e : Ftab} (hi : s.ent i = some e.unlocked)
    (h : ftabOpenAgain i node proc e read write excl s = some (res, t)) :
    res = none ∧ Locking s t ∧ (PlainNode s.nodes node →
        (e.excl = none ∨ e.excl = some proc) → excl = true ∧ e.refs ≠ 0) ∨
      res = some ⟨t.ftabBase, i⟩ ∧ s.SameBut t ∧ t.ftabBase = s.ftabBase ∧ t.closes = s.closes ∧
      (e.excl = none ∨ e.excl = some proc) ∧ (excl = true → e.refs = 0) ∧
      t.ent = Function.update s.ent i (some (againEnt e.unlocked read write)) := by
  unfold ftabOpenAgain at h
  by_cases h1 : e.excl ≠ none ∧ e.excl ≠ some proc
  · rw [if_pos h1] at h
    cases h
    exact .inl ⟨rfl, locking_release s i, fun _ hx => absurd h1 (not_and_or.mpr (hx.imp not_not.mpr not_not.mpr))⟩
  by_cases h2 : excl = true ∧ e.refs ≠ 0
  · rw [if_neg h1, if_pos h2] at h
    cases h
    exact .inl ⟨rfl, locking_release s i, fun _ _ => h2⟩
  rw [if_neg h1, if_neg h2] at h
  obtain ⟨ok, u, hv, h⟩ := Comp.bind_eq_some.mp h
  have hl : Locking s u := by
    split_ifs at hv
    · exact locking_vfsOpen hv
    · cases hv
      exact ⟨rfl, rfl, rfl, rfl, rfl⟩
  cases ok with
  | false =>
    cases h
    refine .inl ⟨rfl, hl.trans (locking_release u i), fun hplain _ => ?_⟩
    rw [Comp.ite_apply, vfsOpen_plain s hplain] at hv
    split_ifs at hv <;> cases hv
  | true =>
    cases h
    refine .inr ⟨rfl, hl.same.trans rfl, hl.base, hl.closes, ?_, ?_, ?_⟩
    · by_contra hx
      exact h1 (not_or.mp hx)
    · intro hx
      by_contra hr
      exact h2 ⟨hx, hr⟩
    · refine (locking_release _ i).ent.trans ?_
      rw [ent_modify_at u i (G := fun e' => { e' with
        read := read || e.read, write := write || e.write, refs := refsInc e'.refs })
        (hl.ent ▸ hi) fun e => rfl, hl.ent]
      rfl

/-- What `ftab_open` can do. -/
theorem ftabOpen_step (h : ftabOpen node proc read write excl s = some (res, t)) :
    OpenStep s node proc read write excl res t := by
  obtain ⟨_, s₁, ha, h⟩ := Comp.bind_eq_some.mp h
  obtain ⟨-, rfl⟩ := ftabAcquire_run ha
  have hs₁ := locking_mutex s true
  rw [Comp.read_bind] at h
  obtain ⟨slot, u, hslot, h⟩ := Comp.bind_eq_some.mp h
  have hgrow : Grown node s u ∧ (∀ i, ftabSearch s node = some i → slot = some i) ∧
      ∀ i, slot = some i → ∃ e, u.ent i = some e ∧
      (e.node = none ∨ e.node = some node ∧ ftabSearch s node = some i ∧ Locking s u) ∧
      ∀ j < i, ∃ e, s.ent j = some e ∧ e.node ≠ none ∧ e.node ≠ some node := by
    cases hsearch : ftabSearch { s with ftabMutex := true } node with
    | some i =>
      rw [hsearch] at hslot
      cases hslot
      obtain ⟨⟨e, he, hn⟩, hlt⟩ := ftabSearch_some hsearch
      have hfound : ftabSearch s node = some i := hsearch
      refine ⟨hs₁.grown (.refl (by simp [hfound])), fun j hj => by rw [← hfound, hj], ?_⟩
      rintro i hi
      cases hi
      refine ⟨e, he, hn.imp id fun hn => ⟨hn, hsearch, hs₁⟩, fun j hj => ?_⟩
      obtain ⟨a, ha, -⟩ := List.findIdx?_eq_some_iff_getElem.mp hsearch
      have hja := ent_of_getElem? s j (List.getElem?_eq_getElem (hj.trans a))
      exact ⟨_, hja, hlt j hj _ hja⟩
    | none =>
      rw [hsearch] at hslot
      have hfull := ftabSearch_none hsearch
      obtain ⟨hg, hnew⟩ := ftabGrow_run hsearch hslot
      have hnone : ftabSearch s node = none := hsearch
      refine ⟨⟨hs₁.same.trans hg.same, hg.ent, hg.base, hg.closes, hg.full⟩,
        fun j hj => by simp [hnone] at hj, fun i hi => ?_⟩
      obtain ⟨hz, -, hlt⟩ := hnew i hi
      refine ⟨_, hz, .inl rfl, fun j hj => ?_⟩
      obtain ⟨e, he⟩ := hlt j hj
      exact ⟨e, he, hfull j e he⟩
  obtain ⟨hg, hfound, hslots⟩ := hgrow
  cases slot with
  | none =>
    cases h
    refine .refused ((locking_mutex u false).grown hg) fun _ i e hi => ?_
    cases hfound i hi
  | some i =>
    obtain ⟨e, he, hn, hlt⟩ := hslots i rfl
    obtain ⟨_, u₁, ha, h⟩ := Comp.bind_eq_some.mp h
    obtain ⟨-, rfl⟩ := ftabEntAcquire_run ha
    have hl := locking_modify u i true
    obtain ⟨e', u₂, he', h⟩ := Comp.bind_eq_some.mp h
    rw [Comp.readOr_apply, Option.map_eq_some_iff] at he'
    obtain ⟨a, ha', hau⟩ := he'
    cases hau
    have hent : (u.modifyFtab i fun e => { e with mutex := true }).ent i = some e'.unlocked :=
      ent_of_getElem? _ i ha'
    rw [hl.ent, he] at hent
    cases hent
    have hg' := hl.grown hg
    by_cases hnode : e'.node = none
    · rw [if_pos hnode] at h
      rcases ftabOpenFirst_step (by rw [hl.ent]; exact he) h with ⟨rfl, hlt'⟩ |
        ⟨rfl, hsame, hb, hc, hres, ht⟩
      · refine .refused (hlt'.grown hg') fun _ j a hj ha hna _ => ?_
        cases hfound j hj
        rcases hg.ent i with hi | ⟨hi, -⟩
        · rw [hi, ha] at he
          cases he
          rw [Ftab.unlocked_node, hnode] at hna
          cases hna
        · rw [hi] at ha
          cases ha
      · rw [hl.same.nodes, hg.same.nodes] at hres
        refine .first hg (hl.same.trans hsame) hb hc he hnode hres hlt ?_
        rw [ht, hl.ent]
    · rw [if_neg hnode] at h
      obtain ⟨hnode', hsearch, hls⟩ := hn.resolve_left hnode
      have hls' := hls.trans hl
      rcases ftabOpenAgain_step (by rw [hl.ent]; exact he) h with ⟨rfl, hlt', hwhy⟩ |
        ⟨rfl, hsame, hb, hc, hx, hr, ht⟩
      · refine .refused (hlt'.grown hg') fun hplain j a hj ha _ hx => ?_
        cases hfound j hj
        rw [hls.ent, ha] at he
        cases he
        rw [← hls'.same.nodes] at hplain
        exact hwhy hplain hx
      · refine .again (hls'.same.trans hsame) (hb.trans hls'.base) (hc.trans hls'.closes)
          (hls.ent ▸ he) hnode' hx hr hsearch ?_
        rw [ht, hls'.ent]

end Open

/-- The entry after one reference less. -/
def Ftab.release (e : Ftab) : Ftab := { e with refs := refsDec e.refs }

theorem Ftab.release_node (e : Ftab) : e.release.node = e.node := by
  cases e
  rfl

theorem Ftab.release_excl (e : Ftab) : e.release.excl = e.excl := by
  cases e
  rfl

theorem Ftab.release_refs {e : Ftab} (hpos : 0 < e.refs) (hlt : e.refs < ftabRefsMod) :
    e.release.refs = e.refs - 1 := by
  have hr : e.release.refs = refsDec e.refs := rfl
  rw [hr]
  unfold refsDec
  unfold ftabRefsMod at hlt ⊢
  omega

/-- What `ftab_close` can do: nothing for a process that an exclusive entry keeps out, otherwise one
reference is dropped, and the entry with the last one. -/
inductive CloseStep (s : Files) (i proc : ℕ) : Files → Prop
  | kept {e} (he : s.ent i = some e) (hx : ¬ (e.excl = none ∨ e.excl = some proc)) :
      CloseStep s i proc s
  | dropped {t e} (he : s.ent i = some e) (hx : e.excl = none ∨ e.excl = some proc)
      (hr : e.release.refs ≠ 0) (hs : s.SameBut t) (hb : t.ftabBase = s.ftabBase)
      (hc : t.closes = s.closes) (ht : t.ent = Function.update s.ent i (some e.release)) :
      CloseStep s i proc t
  | freed {t e} (he : s.ent i = some e) (hx : e.excl = none ∨ e.excl = some proc)
      (hr : e.release.refs = 0) (hs : s.SameBut t) (hb : t.ftabBase = s.ftabBase)
      (hc : t.closes = s.closes ++ [e.node]) (ht : t.ent = Function.update s.ent i (some ftabZero)) :
      CloseStep s i proc t

theorem ftabClose_step {s t : Files} {p : FtabPtr} {proc : ℕ}
    (h : ftabClose p proc s = some ((), t)) : p.base = s.ftabBase ∧ CloseStep s p.idx proc t := by
  obtain ⟨e, s', he, h⟩ := Comp.bind_eq_some.mp h
  rw [ftabDeref, Comp.readOr_apply, Option.map_eq_some_iff] at he
  obtain ⟨a, ha, hau⟩ := he
  cases hau
  have hb : p.base = s.ftabBase := by
    by_contra hb
    rw [Files.ftabAt, if_neg hb] at ha
    cases ha
  rw [Files.ftabAt, if_pos hb] at ha
  have hent := ent_of_getElem? s p.idx ha
  refine ⟨hb, ?_⟩
  by_cases hx : e.excl ≠ none ∧ e.excl ≠ some proc
  · rw [if_pos hx] at h
    cases h
    exact .kept hent fun hor => hor.elim hx.1 hx.2
  have hx' : e.unlocked.excl = none ∨ e.unlocked.excl = some proc := by
    by_contra hn
    exact hx (not_or.mp hn)
  rw [if_neg hx] at h
  obtain ⟨_, u, hacq, h⟩ := Comp.bind_eq_some.mp h
  obtain ⟨-, rfl⟩ := ftabEntAcquire_run hacq
  have hl := locking_modify s p.idx true
  rw [Comp.modify_bind] at h
  have hrel : ∀ q, refsDec e.refs = q → e.unlocked.release = { e.unlocked with refs := q } := by
    rintro q rfl
    rfl
  generalize refsDec e.refs = q at h hrel
  have hq := hrel q rfl
  have hmod := ent_modify_at (s.modifyFtab p.idx fun e => { e with mutex := true }) p.idx
    (g := fun e' => { e' with refs := q }) (G := fun e' => { e' with refs := q })
    (hl.ent ▸ hent) fun e' => rfl
  have hs₁ := hl.same.trans (sameBut_modify (s.modifyFtab p.idx fun e => { e with mutex := true }) p.idx
    fun e' => { e' with refs := q })
  generalize hv : (s.modifyFtab p.idx fun e => { e with mutex := true }).modifyFtab p.idx
    (fun e' => { e' with refs := q }) = v at h hmod hs₁
  have hbv : v.ftabBase = s.ftabBase := by rw [← hv]; rfl
  have hcv : v.closes = s.closes := by rw [← hv]; rfl
  rw [hl.ent] at hmod
  by_cases hr : q = 0
  · rw [Comp.when_true hr, Comp.bind_assoc] at h
    obtain ⟨_, w, hclose, h⟩ := Comp.bind_eq_some.mp h
    obtain ⟨cs, hw, hcl⟩ := vfsClose_run hclose
    rw [Comp.modify_bind, ftabEntRelease_run] at h
    have hew : w.ent = v.ent := hw ▸ ent_calls v (v.calls ++ cs)
    have hbw : w.ftabBase = v.ftabBase := by rw [hw]
    have hsw : v.SameBut w := hw ▸ sameBut_calls v (v.calls ++ cs)
    have hz := ent_modify_at w p.idx (g := fun _ => ftabZero) (G := fun _ => ftabZero)
      (by rw [hew, hmod, Function.update_self]) fun _ => rfl
    rw [hew, hmod, Function.update_idem] at hz
    have hm := locking_modify (w.modifyFtab p.idx fun _ => ftabZero) p.idx false
    cases h
    exact .freed hent hx' (by rw [hq]; exact hr)
      ((hs₁.trans hsw).trans ((sameBut_modify w p.idx _).trans hm.same))
      (hm.base.trans ((ftabBase_modify w p.idx _).trans (hbw.trans hbv)))
      (hm.closes.trans ((closes_modify w p.idx _).trans (hcl.trans (by rw [hcv]; rfl))))
      (hm.ent.trans hz)
  · rw [Comp.when_false hr, Comp.pure_bind, ftabEntRelease_run] at h
    have hm := locking_modify v p.idx false
    cases h
    exact .dropped hent hx' (by rw [hq]; exact hr) (hs₁.trans hm.same) (hm.base.trans hbv)
      (hm.closes.trans hcv) (hm.ent.trans (hmod.trans (by rw [hq])))

end SysX
