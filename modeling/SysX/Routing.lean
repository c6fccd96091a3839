import SysX.Pointers

/-!
Which hook a read or a write on a descriptor reaches, and at which offset.
-/
namespace SysX

/-! The locks of entries. -/

/-- No entry in use is locked, except for the one at `i` at most. -/
def FreeLocksBut (i : Option ℕ) (s : Files) : Prop :=
  ∀ (j : ℕ) e, some j ≠ i → s.ftab[j]? = some e → e.node ≠ none → e.mutex = false

/-- No entry in use is locked. -/
def FreeLocks (s : Files) : Prop := FreeLocksBut none s

section Locks

variable {s t : Files} {i : ℕ} {o : Option ℕ}

theorem FreeLocks.but (h : FreeLocks s) (o : Option ℕ) : FreeLocksBut o s :=
  fun j e _ => h j e nofun

theorem FreeLocksBut.congr (h : FreeLocksBut o s) (ht : t.ftab = s.ftab) : FreeLocksBut o t := by
  unfold FreeLocksBut
  rw [ht]
  exact h

theorem getElem?_modifyFtab (s : Files) (i j : ℕ) (g : Ftab → Ftab) :
    (s.modifyFtab i g).ftab[j]? = if i = j then s.ftab[j]?.map g else s.ftab[j]? := by
  rw [Files.modifyFtab, List.getElem?_modify]
  split_ifs <;> simp

theorem FreeLocksBut.modify (h : FreeLocksBut (some i) s) (g : Ftab → Ftab) :
    FreeLocksBut (some i) (s.modifyFtab i g) := by
  intro j e hj he
  rw [getElem?_modifyFtab, if_neg fun hi => hj (by rw [hi])] at he
  exact h j e hj he

theorem FreeLocksBut.unlock (h : FreeLocksBut (some i) s) :
    FreeLocks (s.modifyFtab i fun e => { e with mutex := false }) := by
  intro j e _ he hn
  rw [getElem?_modifyFtab] at he
  by_cases hi : i = j
  · rw [if_pos hi, Option.map_eq_some_iff] at he
    obtain ⟨a, -, rfl⟩ := he
    rfl
  · rw [if_neg hi] at he
    exact h j e (fun hj => hi (Option.some.inj hj).symm) he hn

theorem vfsOpen_ftab {v : Option ℕ} {r w b : Bool} (h : vfsOpen v r w s = some (b, t)) :
    t.ftab = s.ftab := by
  obtain ⟨cs, rfl, -⟩ := vfsOpen_run h
  rfl

theorem ftabOpenFirst_locks {node proc : ℕ} {read write excl : Bool} {res : Option FtabPtr} {e : Ftab}
    (hs : FreeLocksBut (some i) s) (hi : s.ftab[i]? = some e) (he : e.node = none)
    (h : ftabOpenFirst i node proc read write excl s = some (res, t)) : FreeLocks t := by
  obtain ⟨ok, u, hv, h⟩ := Comp.bind_eq_some.mp h
  have hu := hs.congr (vfsOpen_ftab hv)
  cases ok with
  | false =>
    -- the entry stays locked, but it is not in use
    cases h
    intro j a _ ha hn
    by_cases hj : j = i
    · subst hj
      rw [vfsOpen_ftab hv, hi] at ha
      cases ha
      exact absurd he hn
    · exact hu j a (fun hij => hj (Option.some.inj hij)) ha hn
  | true =>
    cases h
    exact (hu.modify _).unlock

theorem ftabOpenAgain_locks {node proc : ℕ} {read write excl : Bool} {res : Option FtabPtr} {e : Ftab}
    (hs : FreeLocksBut (some i) s)
    (h : ftabOpenAgain i node proc e read write excl s = some (res, t)) : FreeLocks t := by
  unfold ftabOpenAgain at h
  by_cases h1 : e.excl ≠ none ∧ e.excl ≠ some proc
  · rw [if_pos h1] at h
    cases h
    exact hs.unlock
  by_cases h2 : excl = true ∧ e.refs ≠ 0
  · rw [if_neg h1, if_pos h2] at h
    cases h
    exact hs.unlock
  rw [if_neg h1, if_neg h2] at h
  obtain ⟨ok, u, hv, h⟩ := Comp.bind_eq_some.mp h
  have hu : FreeLocksBut (some i) u := by
    split_ifs at hv
    · exact hs.congr (vfsOpen_ftab hv)
    · cases hv
      exact hs
  cases ok with
  | false =>
    cases h
    exact hu.unlock
  | true =>
    cases h
    exact (hu.modify _).unlock

theorem ftabGrow_locks {r : Option ℕ} (hs : FreeLocks s) (h : ftabGrow s = some (r, t)) :
    FreeLocks t := by
  simp only [ftabGrow, ftabRealloc, Comp.bind_assoc, Comp.read_bind, Comp.modify_bind,
    Comp.pure_bind] at h
  cases hb : s.ftabHeap s.ftabCalls with
  | none =>
    rw [hb] at h
    cases h
    exact hs
  | some b =>
    rw [hb] at h
    cases h
    intro j e hj he hn
    rcases Nat.lt_or_ge j s.ftab.length with hlt | hge
    · rw [List.getElem?_append_left hlt] at he
      exact hs j e hj he hn
    · rw [List.getElem?_append_right hge] at he
      cases List.eq_of_mem_replicate (List.mem_of_getElem? he)
      rfl

theorem ftabOpen_locks {node proc : ℕ} {read write excl : Bool} {res : Option FtabPtr}
    (hs : FreeLocks s) (h : ftabOpen node proc read write excl s = some (res, t)) : FreeLocks t := by
  obtain ⟨_, s₁, ha, h⟩ := Comp.bind_eq_some.mp h
  obtain ⟨-, rfl⟩ := ftabAcquire_run ha
  have hs₁ : FreeLocks { s with ftabMutex := true } := hs
  rw [Comp.read_bind] at h
  obtain ⟨slot, u, hslot, h⟩ := Comp.bind_eq_some.mp h
  have hu : FreeLocks u := by
    cases hsearch : ftabSearch { s with ftabMutex := true } node with
    | some i =>
      rw [hsearch] at hslot
      cases hslot
      exact hs₁
    | none =>
      rw [hsearch] at hslot
      exact ftabGrow_locks hs₁ hslot
  cases slot with
  | none =>
    cases h
    exact hu
  | some i =>
    obtain ⟨_, u₁, ha, h⟩ := Comp.bind_eq_some.mp h
    obtain ⟨-, rfl⟩ := ftabEntAcquire_run ha
    obtain ⟨e, u₂, he, h⟩ := Comp.bind_eq_some.mp h
    rw [Comp.readOr_apply, Option.map_eq_some_iff] at he
    obtain ⟨a, ha', hau⟩ := he
    cases hau
    have hlock := (hu.but (some i)).modify fun e => { e with mutex := true }
    by_cases hnode : e.node = none
    · rw [if_pos hnode] at h
      exact ftabOpenFirst_locks hlock ha' hnode h
    · rw [if_neg hnode] at h
      exact ftabOpenAgain_locks hlock h

theorem ftabClose_locks {p : FtabPtr} {proc : ℕ} (hs : FreeLocks s)
    (h : ftabClose p proc s = some ((), t)) : FreeLocks t := by
  obtain ⟨e, s', he, h⟩ := Comp.bind_eq_some.mp h
  rw [ftabDeref, Comp.readOr_apply, Option.map_eq_some_iff] at he
  obtain ⟨a, -, hau⟩ := he
  cases hau
  by_cases hx : e.excl ≠ none ∧ e.excl ≠ some proc
  · rw [if_pos hx] at h
    cases h
    exact hs
  rw [if_neg hx] at h
  obtain ⟨_, u, hacq, h⟩ := Comp.bind_eq_some.mp h
  obtain ⟨-, rfl⟩ := ftabEntAcquire_run hacq
  rw [Comp.modify_bind] at h
  have hv := ((hs.but (some p.idx)).modify fun e => { e with mutex := true }).modify
    fun e' => { e' with refs := refsDec e.refs }
  generalize (s.modifyFtab p.idx fun e => { e with mutex := true }).modifyFtab p.idx
    (fun e' => { e' with refs := refsDec e.refs }) = v at h hv
  by_cases hr : refsDec e.refs = 0
  · rw [Comp.when_true hr, Comp.bind_assoc] at h
    obtain ⟨_, w, hclose, h⟩ := Comp.bind_eq_some.mp h
    obtain ⟨cs, hw, -⟩ := vfsClose_run hclose
    rw [Comp.modify_bind, ftabEntRelease_run] at h
    have hw' : FreeLocksBut (some p.idx) w := hv.congr (by rw [hw])
    cases h
    exact (hw'.modify fun _ => ftabZero).unlock
  · rw [Comp.when_false hr, Comp.pure_bind, ftabEntRelease_run] at h
    cases h
    exact hv.unlock

theorem procFdOpen_locks {proc node : ℕ} {dup read write append excl : Bool} {r : Option ℕ}
    (hs : FreeLocks s) (h : procFdOpen proc node dup read write append excl s = some (r, t)) :
    FreeLocks t := by
  obtain ⟨res, u, ho, h⟩ := Comp.bind_eq_some.mp h
  have hu := ftabOpen_locks hs ho
  cases res with
  | none =>
    cases h
    exact hu
  | some p =>
    simp only [Comp.read_bind] at h
    cases hsearch : fdSearch (u.fds proc) dup p with
    | some i =>
      rw [hsearch] at h
      cases h
      exact hu
    | none =>
      simp only [hsearch, otherAlloc, Comp.bind_assoc, Comp.read_bind, Comp.modify_bind,
        Comp.pure_bind] at h
      cases hh : u.otherHeap u.otherCalls with
      | false =>
        rw [hh] at h
        cases h
        exact hu
      | true =>
        rw [hh] at h
        cases h
        exact hu

theorem procFdClose_locks {proc fd : ℕ} (hs : FreeLocks s)
    (h : procFdClose proc fd s = some ((), t)) : FreeLocks t := by
  rw [procFdClose, Comp.read_bind] at h
  cases hg : procFdGet s proc fd with
  | none =>
    rw [hg] at h
    cases h
    exact hs
  | some x =>
    rw [hg] at h
    obtain ⟨_, u, hc, h⟩ := Comp.bind_eq_some.mp h
    have hu := ftabClose_locks hs hc
    cases h
    exact hu

end Locks

/-! Reads and writes. -/

/-- The node whose hook a transfer on `node` reaches, and the hook. -/
def hookTarget {H : Type} (nodes : ℕ → VfsNode) (hook : VfsNode → Option H) (node : Option ℕ) :
    Option (ℕ × H) :=
  match traverseSymlink nodes symlinkFuel node with
  | some (some v) =>
    if (nodes v).flags &&& vfsFile = 0 then none else (hook (nodes v)).map fun h => (v, h)
  | _ => none

/-- What a read of the node returns, and the calls of hooks it makes. -/
def readCall (nodes : ℕ → VfsNode) (node : Option ℕ) (offset size buf : ℕ) : ℕ × List HookCall :=
  match hookTarget nodes VfsNode.readHook node with
  | some (v, h) =>
    let r := h.run (nodes v) offset size
    (r.ret, [.read v offset size buf r.touched])
  | none => (0, [])

def writeCall (nodes : ℕ → VfsNode) (node : Option ℕ) (offset size buf : ℕ) : ℕ × List HookCall :=
  match hookTarget nodes VfsNode.writeHook node with
  | some (v, h) =>
    let r := h.run (nodes v) offset size
    (r.ret, [.write v offset size buf r.touched])
  | none => (0, [])

section Targets

variable {nodes : ℕ → VfsNode} {u v : Option ℕ}

theorem hookTarget_hook {H : Type} {hook : VfsNode → Option H} {w : ℕ} {h : H}
    (ht : hookTarget nodes hook v = some (w, h)) : hook (nodes w) = some h := by
  unfold hookTarget at ht
  split at ht
  · split_ifs at ht
    rw [Option.map_eq_some_iff] at ht
    obtain ⟨g, hg, he⟩ := ht
    cases he
    exact hg
  · cases ht

/-- A node tells its hook. -/
theorem hookTarget_eq {H : Type} {hook : VfsNode → Option H}
    (h : (hookTarget nodes hook u).map Prod.fst = (hookTarget nodes hook v).map Prod.fst) :
    hookTarget nodes hook u = hookTarget nodes hook v := by
  cases hu : hookTarget nodes hook u with
  | none =>
    rw [hu, Option.map_none, eq_comm, Option.map_eq_none_iff] at h
    exact h.symm
  | some a =>
    obtain ⟨w, g⟩ := a
    cases hv : hookTarget nodes hook v with
    | none =>
      rw [hu, hv] at h
      cases h
    | some b =>
      obtain ⟨w', g'⟩ := b
      rw [hu, hv] at h
      cases h
      have hg := hookTarget_hook hu
      rw [hookTarget_hook hv] at hg
      cases hg
      rfl

/-- The calls of a read name the node they reach. -/
theorem readCall_eq_iff (offset size buf : ℕ) :
    readCall nodes u offset size buf = readCall nodes v offset size buf ↔
      hookTarget nodes VfsNode.readHook u = hookTarget nodes VfsNode.readHook v := by
  constructor
  · intro h
    apply hookTarget_eq
    unfold readCall at h
    cases hu : hookTarget nodes VfsNode.readHook u with
    | none =>
      cases hv : hookTarget nodes VfsNode.readHook v with
      | none => rfl
      | some b => simp [hu, hv] at h
    | some a =>
      cases hv : hookTarget nodes VfsNode.readHook v with
      | none => simp [hu, hv] at h
      | some b =>
        simp only [hu, hv, Prod.mk.injEq, List.cons.injEq, HookCall.read.injEq] at h
        simp [h.2.1.1]
  · intro h
    unfold readCall
    rw [h]

theorem writeCall_eq_iff (offset size buf : ℕ) :
    writeCall nodes u offset size buf = writeCall nodes v offset size buf ↔
      hookTarget nodes VfsNode.writeHook u = hookTarget nodes VfsNode.writeHook v := by
  constructor
  · intro h
    apply hookTarget_eq
    unfold writeCall at h
    cases hu : hookTarget nodes VfsNode.writeHook u with
    | none =>
      cases hv : hookTarget nodes VfsNode.writeHook v with
      | none => rfl
      | some b => simp [hu, hv] at h
    | some a =>
      cases hv : hookTarget nodes VfsNode.writeHook v with
      | none => simp [hu, hv] at h
      | some b =>
        simp only [hu, hv, Prod.mk.injEq, List.cons.injEq, HookCall.write.injEq] at h
        simp [h.2.1.1]
  · intro h
    unfold writeCall
    rw [h]

end Targets

/-- Every transfer resolves the node first. -/
def Resolves (nodes : ℕ → VfsNode) (node : Option ℕ) : Prop :=
  ∃ v, traverseSymlink nodes symlinkFuel node = some v

section Transfers

variable {s t : Files} {proc fd size buf offset : ℕ}

theorem vfsRead_run {node : Option ℕ} (h : Resolves s.nodes node) :
    vfsRead node offset size buf s = some ((readCall s.nodes node offset size buf).1,
      { s with calls := s.calls ++ (readCall s.nodes node offset size buf).2 }) := by
  obtain ⟨v, hv⟩ := h
  have ht : vfsTraverseSymlink node s = some (v, s) := by
    rw [vfsTraverseSymlink, Comp.readOr_apply, hv]
    rfl
  rw [vfsRead, Comp.bind_of_eq ht, readCall, hookTarget, hv]
  cases v with
  | none => simp
  | some v =>
    simp only [Comp.read_bind]
    by_cases hf : (s.nodes v).flags &&& vfsFile = 0
    · simp [hf]
    · cases hh : (s.nodes v).readHook with
      | none => simp [hf]
      | some g => simp [hf, Files.log]

theorem vfsWrite_run {node : Option ℕ} (h : Resolves s.nodes node) :
    vfsWrite node offset size buf s = some ((writeCall s.nodes node offset size buf).1,
      { s with calls := s.calls ++ (writeCall s.nodes node offset size buf).2 }) := by
  obtain ⟨v, hv⟩ := h
  have ht : vfsTraverseSymlink node s = some (v, s) := by
    rw [vfsTraverseSymlink, Comp.readOr_apply, hv]
    rfl
  rw [vfsWrite, Comp.bind_of_eq ht, writeCall, hookTarget, hv]
  cases v with
  | none => simp
  | some v =>
    simp only [Comp.read_bind]
    by_cases hf : (s.nodes v).flags &&& vfsFile = 0
    · simp [hf]
    · cases hh : (s.nodes v).writeHook with
      | none => simp [hf]
      | some g => simp [hf, Files.log]

/-- A transfer leaves the calls of hooks behind, and every entry as it is. -/
structure Transferred (s t : Files) (cs : List HookCall) : Prop where
  same : t = { s with ftab := t.ftab, calls := s.calls ++ cs }
  ent : t.ent = s.ent
  locks : FreeLocks s → FreeLocks t

theorem ftabFirstNode_ent (s : Files) : ftabFirstNode s = (s.ent 0).map (·.node) := by
  rw [ftabFirstNode, Files.ent, List.head?_eq_getElem?, Option.map_map]
  rfl

theorem ftabDeref_run {p : FtabPtr} {e : Ftab} (hb : p.base = s.ftabBase)
    (he : s.ftab[p.idx]? = some e) : ftabDeref p s = some (e, s) := by
  rw [ftabDeref, Comp.readOr_apply, Files.ftabAt, if_pos hb, he]
  rfl

theorem ftabEntAcquire_free {i : ℕ} {e : Ftab} (he : s.ftab[i]? = some e) (hm : e.mutex = false) :
    ftabEntAcquire i s = some ((), s.modifyFtab i fun e => { e with mutex := true }) := by
  rw [ftabEntAcquire, Comp.bind_apply, Comp.readOr_apply, he]
  simp [hm]

theorem transferred_lock (s : Files) (i : ℕ) (cs : List HookCall) :
    Transferred s (({ s.modifyFtab i (fun e => { e with mutex := true }) with
      calls := s.calls ++ cs } : Files).modifyFtab i fun e => { e with mutex := false }) cs := by
  constructor
  · rfl
  · rw [ent_modify_mutex, ent_calls, ent_modify_mutex]
  · intro h
    exact FreeLocksBut.unlock ((h.but (some i)).modify fun e => { e with mutex := true })

/-- `ftab_read` on an entry in use goes to the node of the first entry. -/
theorem ftabRead_run (offset size buf : ℕ) {p : FtabPtr} {e : Ftab} {node : Option ℕ} (hb : p.base = s.ftabBase)
    (he : s.ftab[p.idx]? = some e) (hm : e.mutex = false) (hx : e.admits proc = true)
    (hr : e.read = true) (hfirst : ftabFirstNode s = some node) (hres : Resolves s.nodes node) :
    ∃ t, ftabRead p proc offset size buf s =
        some ((readCall s.nodes node offset size buf).1, t) ∧
      Transferred s t (readCall s.nodes node offset size buf).2 := by
  refine ⟨_, ?_, transferred_lock s p.idx _⟩
  rw [ftabRead, Comp.bind_of_eq (ftabDeref_run hb he), Comp.bind_of_eq (ftabEntAcquire_free he hm)]
  have hnode : ftabFirstNode (s.modifyFtab p.idx fun e => { e with mutex := true }) = some node := by
    rw [ftabFirstNode_ent, ent_modify_mutex, ← ftabFirstNode_ent, hfirst]
  have hread : (do
      let node ← Comp.readOr ftabFirstNode
      vfsRead node offset size buf : FileOp ℕ) (s.modifyFtab p.idx fun e => { e with mutex := true }) =
      some ((readCall s.nodes node offset size buf).1,
        { s.modifyFtab p.idx (fun e => { e with mutex := true }) with
          calls := s.calls ++ (readCall s.nodes node offset size buf).2 }) := by
    rw [Comp.bind_apply, Comp.readOr_apply, hnode]
    exact vfsRead_run (s := s.modifyFtab p.idx fun e => { e with mutex := true }) hres
  simp only [hx, hr, Bool.and_self, if_true]
  rw [Comp.bind_of_eq hread]
  rfl

theorem ftabWrite_run (offset size buf : ℕ) {p : FtabPtr} {e : Ftab} {node : Option ℕ} (hb : p.base = s.ftabBase)
    (he : s.ftab[p.idx]? = some e) (hm : e.mutex = false) (hx : e.admits proc = true)
    (hw : e.write = true) (hfirst : ftabFirstNode s = some node) (hres : Resolves s.nodes node) :
    ∃ t, ftabWrite p proc offset size buf s =
        some ((writeCall s.nodes node offset size buf).1, t) ∧
      Transferred s t (writeCall s.nodes node offset size buf).2 := by
  refine ⟨_, ?_, transferred_lock s p.idx _⟩
  rw [ftabWrite, Comp.bind_of_eq (ftabDeref_run hb he), Comp.bind_of_eq (ftabEntAcquire_free he hm)]
  have hnode : ftabFirstNode (s.modifyFtab p.idx fun e => { e with mutex := true }) = some node := by
    rw [ftabFirstNode_ent, ent_modify_mutex, ← ftabFirstNode_ent, hfirst]
  have hwrite : (do
      let node ← Comp.readOr ftabFirstNode
      vfsWrite node offset size buf : FileOp ℕ) (s.modifyFtab p.idx fun e => { e with mutex := true }) =
      some ((writeCall s.nodes node offset size buf).1,
        { s.modifyFtab p.idx (fun e => { e with mutex := true }) with
          calls := s.calls ++ (writeCall s.nodes node offset size buf).2 }) := by
    rw [Comp.bind_apply, Comp.readOr_apply, hnode]
    exact vfsWrite_run (s := s.modifyFtab p.idx fun e => { e with mutex := true }) hres
  simp only [hx, hw, Bool.and_self, if_true]
  rw [Comp.bind_of_eq hwrite]
  rfl

/-- A descriptor in use, with its entry. -/
structure LiveFd (s : Files) (proc fd : ℕ) (f : Fd) (p : FtabPtr) (e : Ftab) : Prop where
  slot : (s.fds proc)[fd]? = some f
  ftab : f.ftab = some p
  base : p.base = s.ftabBase
  ent : s.ftab[p.idx]? = some e
  free : e.mutex = false
  admits : e.admits proc = true

theorem LiveFd.get {f : Fd} {p : FtabPtr} {e : Ftab} (h : LiveFd s proc fd f p e) :
    procFdGet s proc fd = some (f, p) := by
  rw [procFdGet, h.slot, Option.bind_some, h.ftab]
  rfl

/-- A transfer on a descriptor moves its offset, and does nothing else to descriptors and entries. -/
structure FdTransferred (s t : Files) (proc fd offset : ℕ) (cs : List HookCall) : Prop where
  same : t = { s with ftab := t.ftab, fds := t.fds, calls := s.calls ++ cs }
  fds : t.fds = Function.update s.fds proc ((s.fds proc).modify fd fun f =>
    { f with offset := offset })
  ent : t.ent = s.ent
  locks : FreeLocks s → FreeLocks t

theorem Transferred.setOffset {f : Fd} {cs : List HookCall} {g : Fd → Fd} (h : Transferred s t cs)
    (hf : (s.fds proc)[fd]? = some f) (hg : g f = { f with offset := offset }) :
    FdTransferred s (t.setFds proc ((t.fds proc).modify fd g)) proc fd offset cs := by
  have hfds : t.fds = s.fds := by rw [h.same]
  have hmod : (s.fds proc).modify fd g = (s.fds proc).modify fd fun f => { f with offset := offset } := by
    apply List.ext_getElem?
    intro i
    rw [List.getElem?_modify, List.getElem?_modify]
    by_cases hi : fd = i
    · subst hi
      simp [hf, hg]
    · simp [hi]
  constructor
  · rw [h.same]
    rfl
  · rw [← hmod, ← hfds]
    rfl
  · exact h.ent
  · exact h.locks

theorem procFdRead_run (size buf : ℕ) {f : Fd} {p : FtabPtr} {e : Ftab} {node : Option ℕ}
    (h : LiveFd s proc fd f p e) (hf : f.read = true) (he : e.read = true)
    (hfirst : ftabFirstNode s = some node) (hres : Resolves s.nodes node) :
    ∃ t, procFdRead proc fd size buf s = some ((readCall s.nodes node f.offset size buf).1, t) ∧
      FdTransferred s t proc fd (w64 (f.offset + (readCall s.nodes node f.offset size buf).1))
        (readCall s.nodes node f.offset size buf).2 := by
  obtain ⟨t, ht, htr⟩ := ftabRead_run f.offset size buf h.base h.ent h.free
    h.admits he hfirst hres
  refine ⟨_, ?_, htr.setOffset (g := fun f' => { f' with
    offset := w64 (f'.offset + (readCall s.nodes node f.offset size buf).1) }) h.slot rfl⟩
  rw [procFdRead, Comp.read_bind, h.get]
  simp only [hf, if_true]
  rw [Comp.bind_of_eq ht]
  rfl

/-- The offset of a write: an appending descriptor seeks to the end of the node first. -/
def writeOffset (nodes : ℕ → VfsNode) (node : ℕ) (append : Bool) (offset : ℕ) : ℕ :=
  if append then (nodes node).length else offset

theorem procFdWrite_run (size buf : ℕ) {f : Fd} {p : FtabPtr} {e : Ftab} {node : Option ℕ} {v : ℕ}
    (h : LiveFd s proc fd f p e) (hf : f.write = true) (he : e.write = true) (hv : e.node = some v)
    (hfirst : ftabFirstNode s = some node) (hres : Resolves s.nodes node)
    (ho : offset = writeOffset s.nodes v f.append f.offset) :
    ∃ t, procFdWrite proc fd size buf s = some ((writeCall s.nodes node offset size buf).1, t) ∧
      FdTransferred s t proc fd (w64 (offset + (writeCall s.nodes node offset size buf).1))
        (writeCall s.nodes node offset size buf).2 := by
  obtain ⟨t, ht, htr⟩ := ftabWrite_run offset size buf h.base h.ent h.free
    h.admits he hfirst hres
  refine ⟨_, ?_, htr.setOffset (g := fun f' => { f' with
    offset := w64 (offset + (writeCall s.nodes node offset size buf).1) }) h.slot rfl⟩
  have hoff : (if f.append then do
        let e ← ftabDeref p
        Comp.readOr fun s => e.node.map fun v => (s.nodes v).length
      else pure f.offset : FileOp ℕ) s = some (offset, s) := by
    rw [ho, writeOffset]
    cases f.append with
    | false => rfl
    | true =>
      simp only [if_true]
      rw [Comp.bind_of_eq (ftabDeref_run h.base h.ent), hv]
      rfl
  rw [procFdWrite, Comp.read_bind, h.get]
  simp only [hf, if_true]
  rw [Comp.bind_of_eq hoff, Comp.bind_of_eq ht]
  rfl

theorem countP_modify {l : List Fd} {P : Fd → Bool} {g : Fd → Fd} (hg : ∀ f, P (g f) = P f) (i : ℕ) :
    (l.modify i g).countP P = l.countP P := by
  induction l generalizing i with
  | nil => simp
  | cons f l ih =>
    cases i with
    | zero => simp [List.countP_cons, hg]
    | succ i => simp [List.countP_cons, ih]

theorem FdTransferred.getElem? {cs : List HookCall} (h : FdTransferred s t proc fd offset cs)
    (p k : ℕ) : (t.fds p)[k]? = if p = proc ∧ k = fd then
      (s.fds p)[k]?.map fun f => { f with offset := offset } else (s.fds p)[k]? := by
  rw [h.fds]
  by_cases hp : p = proc
  · subst hp
    rw [Function.update_self, List.getElem?_modify]
    by_cases hk : fd = k
    · simp [hk]
    · simp [hk, Ne.symm hk]
  · simp [hp]

theorem FdTransferred.inv {cs : List HookCall} (h : FdTransferred s t proc fd offset cs)
    (inv : FdInv s) : FdInv t := by
  have hb : t.ftabBase = s.ftabBase := (congrArg Files.ftabBase h.same).trans rfl
  have hlive : t.live = s.live := (congrArg Files.live h.same).trans rfl
  have hslots : ∀ j, t.slotCount j = s.slotCount j := by
    intro j
    rw [Files.slotCount, hlive, h.fds, refersTo_congr hb]
    apply ownedCount_congr
    intro p _
    by_cases hp : p = proc
    · subst hp
      rw [Function.update_self]
      exact countP_modify (P := s.refersTo j) (g := fun f => { f with offset := offset })
        (fun _ => rfl) fd
    · rw [Function.update_of_ne hp]
  constructor
  · rw [hlive]
    exact inv.live
  · intro p hp f hf q hq
    rw [hlive] at hp
    rw [hb, h.ent]
    obtain ⟨k, hk⟩ := List.getElem?_of_mem hf
    rw [h.getElem?] at hk
    split_ifs at hk with hpk
    · rw [Option.map_eq_some_iff] at hk
      obtain ⟨a, ha, rfl⟩ := hk
      exact inv.valid p hp a (List.mem_of_getElem? ha) q hq
    · exact inv.valid p hp f (List.mem_of_getElem? hk) q hq
  · intro j
    rw [hslots, refsOf_congr (s := s) (by rw [h.ent])]
    exact inv.count j
  · rw [h.ent]
    exact inv.pos

end Transfers

/-! Histories. -/

/-- What a history tells of an open descriptor: what it was opened on and for, and where the next
transfer belongs, which is the sum of the sizes so far or, after a write of an appending
descriptor, the end of that write. -/
structure OpenFd where
  node : ℕ
  read : Bool
  write : Bool
  append : Bool
  pos : ℕ
  deriving DecidableEq

def OpenFd.afterRead (g : OpenFd) (n : ℕ) : OpenFd := { g with pos := g.pos + n }

def OpenFd.afterWrite (g : OpenFd) (length n : ℕ) : OpenFd :=
  if g.write then { g with pos := (if g.append then length else g.pos) + n } else g

/-- The open descriptors of the processes. -/
abbrev History := ℕ → ℕ → Option OpenFd

def History.set (h : History) (proc fd : ℕ) (o : Option OpenFd) : History :=
  Function.update h proc (Function.update (h proc) fd o)

/-- Histories of calls by live processes from `s₀`. `P` holds of every state in which a node is
opened. -/
inductive RouteRun (P : Files → ℕ → Prop) (s₀ : Files) : Files → History → Prop
  | init : RouteRun P s₀ s₀ fun _ _ => none
  | heap {s h} (r : RouteRun P s₀ s h) (f : ℕ → Option ℕ) (o : ℕ → Bool) :
      RouteRun P s₀ { s with ftabHeap := f, otherHeap := o } h
  | opened {s t h proc node dup read write append excl fd} (r : RouteRun P s₀ s h)
      (hp : proc ∈ s.live) (hP : P s node)
      (hr : procFdOpen proc node dup read write append excl s = some (some fd, t)) :
      RouteRun P s₀ t (h.set proc fd (some ⟨node, read, write, append, 0⟩))
  | refused {s t h proc node dup read write append excl} (r : RouteRun P s₀ s h)
      (hp : proc ∈ s.live) (hP : P s node)
      (hr : procFdOpen proc node dup read write append excl s = some (none, t)) : RouteRun P s₀ t h
  | closed {s t h proc fd} (r : RouteRun P s₀ s h) (hp : proc ∈ s.live)
      (hr : procFdClose proc fd s = some ((), t)) : RouteRun P s₀ t (h.set proc fd none)
  | read {s t h proc fd size buf n} (r : RouteRun P s₀ s h) (hp : proc ∈ s.live)
      (hr : procFdRead proc fd size buf s = some (n, t)) :
      RouteRun P s₀ t (h.set proc fd ((h proc fd).map fun g => g.afterRead n))
  | wrote {s t h proc fd size buf n} (r : RouteRun P s₀ s h) (hp : proc ∈ s.live)
      (hr : procFdWrite proc fd size buf s = some (n, t)) :
      RouteRun P s₀ t (h.set proc fd ((h proc fd).map fun g =>
        g.afterWrite (s.nodes g.node).length n))

/-- The slot of a descriptor is as its history says, and so is its entry. -/
structure SlotFor (s : Files) (proc fd : ℕ) (g : OpenFd) (q : FtabPtr) (e : Ftab) : Prop where
  slot : (s.fds proc)[fd]? = some ⟨some q, g.read, g.write, g.append, w64 g.pos⟩
  ent : s.ent q.idx = some e
  node : e.node = some g.node
  read : g.read = true → e.read = true
  write : g.write = true → e.write = true

/-- Descriptors and history agree. -/
structure Routed (s : Files) (h : History) : Prop where
  inv : FdInv s
  locks : FreeLocks s
  resolves : ∀ i e, s.ent i = some e → e.node ≠ none → Resolves s.nodes e.node
  used : ∀ p ∈ s.live, ∀ fd g, h p fd = some g → ∃ q e, SlotFor s p fd g q e
  unused : ∀ p ∈ s.live, ∀ fd, h p fd = none → procFdGet s p fd = none

section Runs

variable {s t s₀ : Files} {h : History} {proc fd node : ℕ}

theorem History.set_apply (h : History) (proc fd p k : ℕ) (o : Option OpenFd) :
    h.set proc fd o p k = if p = proc ∧ k = fd then o else h p k := by
  unfold History.set
  by_cases hp : p = proc
  · subst hp
    by_cases hk : k = fd
    · subst hk
      simp
    · simp [hk]
  · simp [hp]

theorem SlotFor.congr {g : OpenFd} {q : FtabPtr} {e e' : Ftab} (hs : SlotFor s proc fd g q e)
    (hf : (t.fds proc)[fd]? = (s.fds proc)[fd]?) (he : t.ent q.idx = some e') (hx : e.Extends e') :
    SlotFor t proc fd g q e' :=
  ⟨hf.trans hs.slot, he, hx.node.trans hs.node, fun hr => hx.read (hs.read hr),
    fun hw => hx.write (hs.write hw)⟩

theorem procFdGet_congr (hf : (t.fds proc)[fd]? = (s.fds proc)[fd]?) :
    procFdGet t proc fd = procFdGet s proc fd := by
  rw [procFdGet, hf]
  rfl

theorem procFdGet_none_iff : procFdGet s proc fd = none ↔
    ∀ f, (s.fds proc)[fd]? = some f → f.ftab = none := by
  rw [procFdGet, Option.bind_eq_none_iff]
  simp

/-- The descriptor that the history tells of is in use. -/
theorem Routed.liveFd {g : OpenFd} {q : FtabPtr} {e : Ftab} (hr : Routed s h) (hp : proc ∈ s.live)
    (hs : SlotFor s proc fd g q e) :
    ∃ a, LiveFd s proc fd ⟨some q, g.read, g.write, g.append, w64 g.pos⟩ q a ∧ a.unlocked = e := by
  obtain ⟨hb, b, hb', hn, hx⟩ := hr.inv.valid proc hp _ (List.mem_of_getElem? hs.slot) q rfl
  rw [hs.ent] at hb'
  cases hb'
  obtain ⟨a, ha, rfl⟩ := getElem?_of_ent hs.ent
  refine ⟨a, ⟨hs.slot, rfl, hb, ha, hr.locks q.idx a nofun ha hn, ?_⟩, rfl⟩
  have hx' : a.excl = none ∨ a.excl = some proc := hx
  rcases hx' with hx' | hx' <;> simp [Ftab.admits, hx']

/-- Where a descriptor is in use, the table has a first entry, and its node resolves. -/
theorem Routed.first {i : ℕ} {e : Ftab} (hr : Routed s h) (hi : s.ent i = some e) :
    ∃ node, ftabFirstNode s = some node ∧ Resolves s.nodes node := by
  have hlt : 0 < s.ftab.length := by
    obtain ⟨a, ha, -⟩ := getElem?_of_ent hi
    obtain ⟨hlt, -⟩ := List.getElem?_eq_some_iff.mp ha
    omega
  have h0 := ent_of_getElem? s 0 (List.getElem?_eq_getElem hlt)
  rw [ftabFirstNode_ent, h0]
  refine ⟨_, rfl, ?_⟩
  cases hn : s.ftab[0].node with
  | none =>
    refine ⟨none, ?_⟩
    change traverseSymlink s.nodes symlinkFuel s.ftab[0].node = some none
    rw [hn, symlinkFuel, traverseSymlink]
  | some v => exact hr.resolves 0 _ h0 (by simp [hn])

theorem OpenStep.resolves {read write excl : Bool} {res : Option FtabPtr}
    (ho : OpenStep s node proc read write excl res t)
    (hres : ∀ i e, s.ent i = some e → e.node ≠ none → Resolves s.nodes e.node) :
    ∀ i e, t.ent i = some e → e.node ≠ none → Resolves t.nodes e.node := by
  intro i e he hn
  rw [ho.same.nodes]
  rcases ho.used he hn with hs | ⟨p, rfl, rfl⟩
  · exact hres i e hs hn
  · cases ho with
    | first hg _ _ _ _ _ hr _ ht =>
      rw [ht, Function.update_self] at he
      cases he
      exact hr
    | @again _ i a _ _ _ ha hna _ _ _ ht =>
      rw [ht, Function.update_self] at he
      cases he
      exact hres i a ha (by simp [hna])

theorem Routed.heap (hr : Routed s h) (f : ℕ → Option ℕ) (o : ℕ → Bool) :
    Routed { s with ftabHeap := f, otherHeap := o } h := by
  refine ⟨hr.inv.heap f o, hr.locks, hr.resolves, fun p hp k g hg => ?_, hr.unused⟩
  obtain ⟨q, e, hs⟩ := hr.used p hp k g hg
  exact ⟨q, e, hs.slot, hs.ent, hs.node, hs.read, hs.write⟩

section Open

variable {dup read write append excl : Bool}

/-- A refused open leaves descriptors and history as they are. -/
theorem Routed.refused (hr : Routed s h) (hp : proc ∈ s.live) (hok : FdOpenOk s node)
    (ho : procFdOpen proc node dup read write append excl s = some (none, t)) : Routed t h := by
  have hstep := procFdOpen_step ho
  have inv := hr.inv.fdOpenStep hp hok hstep
  have locks := procFdOpen_locks hr.locks ho
  have key : ∀ {res u}, OpenStep s node proc read write excl res u → t.ent = u.ent →
      t.fds = s.fds → t.nodes = u.nodes → t.live = s.live → Routed t h := by
    intro res u hu hent hfds hnodes hlive
    refine ⟨inv, locks, ?_, fun p hp' k g hg => ?_, fun p hp' k hk => ?_⟩
    · rw [hent, hnodes]
      exact hu.resolves hr.resolves
    · rw [hlive] at hp'
      obtain ⟨q, e, hs⟩ := hr.used p hp' k g hg
      obtain ⟨e', he', hx⟩ := hu.extends hs.ent (by simp [hs.node])
      exact ⟨q, e', hs.congr (by rw [hfds]) (by rw [hent, he']) hx⟩
    · rw [hlive] at hp'
      rw [procFdGet_congr (s := s) (by rw [hfds])]
      exact hr.unused p hp' k hk
  cases hstep with
  | refused hu => exact key hu rfl hu.same.fds rfl hu.same.live
  | full hu => exact key hu rfl hu.same.fds rfl hu.same.live

/-- A descriptor is opened. -/
theorem Routed.opened (hr : Routed s h) (hp : proc ∈ s.live) (hok : FdOpenOk s node)
    (ho : procFdOpen proc node dup read write append excl s = some (some fd, t)) :
    Routed t (h.set proc fd (some ⟨node, read, write, append, 0⟩)) := by
  have hstep := procFdOpen_step ho
  have inv := hr.inv.fdOpenStep hp hok hstep
  have locks := procFdOpen_locks hr.locks ho
  cases hstep with
  | @opened u p i l n hu hl hs =>
    replace hl := hl.imp And.left And.left
    obtain ⟨f, hi, -⟩ := fdSearch_some hs
    obtain ⟨hlt, -⟩ := List.getElem?_eq_some_iff.mp hi
    obtain ⟨⟨e, hopen⟩, -⟩ := hu.opened hok
    have hat : ((u.setFds proc (l.set fd (fdOpened p read write append))).fds proc)[fd]? =
        some (fdOpened p read write append) := by
      simp [Files.setFds, hlt]
    have hoff : ∀ q k, ¬ (q = proc ∧ k = fd) →
        ((u.setFds proc (l.set fd (fdOpened p read write append))).fds q)[k]? =
          if q = proc then l[k]? else (s.fds q)[k]? := by
      intro q k hqk
      by_cases hq : q = proc
      · subst hq
        have hk : fd ≠ k := fun hk => hqk ⟨rfl, hk.symm⟩
        simp [Files.setFds, hk]
      · simp [Files.setFds, hq, hu.same.fds]
    have hold : ∀ (k : ℕ) f, (s.fds proc)[k]? = some f → l[k]? = some f := by
      intro k f hk
      rcases hl with rfl | rfl
      · exact hk
      · obtain ⟨hlt', -⟩ := List.getElem?_eq_some_iff.mp hk
        rw [List.getElem?_append_left hlt', hk]
    have hnew : ∀ (k : ℕ) f, l[k]? = some f → (s.fds proc)[k]? = some f ∨ f = fdZero := by
      intro k f hk
      rcases hl with rfl | rfl
      · exact .inl hk
      · rcases Nat.lt_or_ge k (s.fds proc).length with hlt' | hge
        · rw [List.getElem?_append_left hlt'] at hk
          exact .inl hk
        · rw [List.getElem?_append_right hge] at hk
          exact .inr (List.eq_of_mem_replicate (List.mem_of_getElem? hk))
    refine ⟨inv, locks, hu.resolves hr.resolves, fun q hq k g hg => ?_, fun q hq k hg => ?_⟩
    · rw [History.set_apply] at hg
      by_cases hqk : q = proc ∧ k = fd
      · rw [if_pos hqk] at hg
        cases hg
        obtain ⟨rfl, rfl⟩ := hqk
        exact ⟨p, e, hat, hopen.ent, hopen.node, hopen.read, hopen.write⟩
      · rw [if_neg hqk] at hg
        obtain ⟨x, b, hsx⟩ := hr.used q (hu.same.live ▸ hq) k g hg
        obtain ⟨b', hb', hx⟩ := hu.extends hsx.ent (by simp [hsx.node])
        refine ⟨x, b', hsx.congr ?_ hb' hx⟩
        refine (hoff q k hqk).trans ?_
        split_ifs with hqp
        · subst hqp
          rw [hsx.slot]
          exact hold k _ hsx.slot
        · rfl
    · rw [History.set_apply] at hg
      by_cases hqk : q = proc ∧ k = fd
      · rw [if_pos hqk] at hg
        cases hg
      · rw [if_neg hqk] at hg
        have hnone := procFdGet_none_iff.mp (hr.unused q (hu.same.live ▸ hq) k hg)
        refine procFdGet_none_iff.mpr fun a ha => ?_
        have ha' := (hoff q k hqk).symm.trans ha
        split_ifs at ha' with hqp
        · subst hqp
          rcases hnew k a ha' with hs' | rfl
          · exact hnone a hs'
          · rfl
        · exact hnone a ha'

end Open

/-- A descriptor is closed. -/
theorem Routed.closed (hr : Routed s h) (hp : proc ∈ s.live)
    (hc : procFdClose proc fd s = some ((), t)) : Routed t (h.set proc fd none) := by
  have hstep := procFdClose_step hc
  have inv := hr.inv.fdCloseStep hp hstep
  have locks := procFdClose_locks hr.locks hc
  cases hstep with
  | dead hdead =>
    refine ⟨hr.inv, hr.locks, hr.resolves, fun p hp' k g hg => ?_, fun p hp' k hk => ?_⟩
    · rw [History.set_apply] at hg
      split_ifs at hg
      exact hr.used p hp' k g hg
    · rw [History.set_apply] at hk
      split_ifs at hk with hpk
      · rw [hpk.1, hpk.2]
        exact hdead
      · exact hr.unused p hp' k hk
  | @closed f p u hg hb hclose =>
    obtain ⟨⟨e, hcl⟩, -⟩ := hr.inv.closed hp hg hclose
    have hoff : ∀ q k, ¬ (q = proc ∧ k = fd) →
        ((u.setFds proc ((s.fds proc).set fd fdZero)).fds q)[k]? = (s.fds q)[k]? := by
      intro q k hqk
      by_cases hq : q = proc
      · subst hq
        have hk : fd ≠ k := fun hk => hqk ⟨rfl, hk.symm⟩
        simp [Files.setFds, hk]
      · simp [Files.setFds, hq, hclose.same.fds]
    refine ⟨inv, locks, fun i a ha hn => ?_, fun q hq k g hgk => ?_, fun q hq k hgk => ?_⟩
    · obtain ⟨-, -, b, hb', hx⟩ := hcl.back i a ha hn
      have hres := hr.resolves i b hb' (by rwa [← hx.node])
      change Resolves u.nodes a.node
      rw [hclose.same.nodes, hx.node]
      exact hres
    · have hqs : q ∈ s.live := hclose.same.live ▸ hq
      rw [History.set_apply] at hgk
      split_ifs at hgk with hqk
      obtain ⟨x, b, hsx⟩ := hr.used q hqs k g hgk
      have hslot := (hoff q k hqk).trans hsx.slot
      obtain ⟨-, b', a, hb', -, -, ha, hx⟩ := hr.inv.close_keeps hp hg hclose hqs
        (List.mem_of_getElem? hslot) rfl
      rw [hsx.ent] at hb'
      cases hb'
      exact ⟨x, a, hsx.congr (hoff q k hqk) ha hx⟩
    · rw [History.set_apply] at hgk
      have hqs : q ∈ s.live := hclose.same.live ▸ hq
      by_cases hqk : q = proc ∧ k = fd
      · obtain ⟨rfl, rfl⟩ := hqk
        refine procFdGet_none_iff.mpr fun a ha => ?_
        change (Function.update u.fds q ((s.fds q).set k fdZero) q)[k]? = some a at ha
        rw [Function.update_self, List.getElem?_set_self', Option.map_eq_map,
          Option.map_eq_some_iff] at ha
        obtain ⟨b, -, rfl⟩ := ha
        rfl
      · rw [if_neg hqk] at hgk
        rw [procFdGet_congr (hoff q k hqk)]
        exact hr.unused q hqs k hgk

theorem History.set_self (h : History) (proc fd : ℕ) : h.set proc fd (h proc fd) = h := by
  funext p k
  rw [History.set_apply]
  split_ifs with hpk
  · rw [hpk.1, hpk.2]
  · rfl

/-- A transfer moves the position of its descriptor. -/
theorem Routed.transferred {g : OpenFd} {q : FtabPtr} {e : Ftab} {cs : List HookCall} {pos : ℕ}
    (hr : Routed s h) (hs : SlotFor s proc fd g q e)
    (ht : FdTransferred s t proc fd (w64 pos) cs) :
    Routed t (h.set proc fd (some { g with pos := pos })) := by
  have hlive : t.live = s.live := (congrArg Files.live ht.same).trans rfl
  have hnodes : t.nodes = s.nodes := (congrArg Files.nodes ht.same).trans rfl
  have hoff : ∀ p k, ¬ (p = proc ∧ k = fd) → (t.fds p)[k]? = (s.fds p)[k]? := fun p k hpk => by
    rw [ht.getElem?, if_neg hpk]
  refine ⟨ht.inv hr.inv, ht.locks hr.locks, ?_, fun p hp k g' hg => ?_, fun p hp k hk => ?_⟩
  · rw [ht.ent, hnodes]
    exact hr.resolves
  · rw [hlive] at hp
    rw [History.set_apply] at hg
    by_cases hpk : p = proc ∧ k = fd
    · rw [if_pos hpk] at hg
      cases hg
      obtain ⟨rfl, rfl⟩ := hpk
      refine ⟨q, e, ?_, by rw [ht.ent, hs.ent], hs.node, hs.read, hs.write⟩
      rw [ht.getElem?, if_pos ⟨rfl, rfl⟩, hs.slot]
      rfl
    · rw [if_neg hpk] at hg
      obtain ⟨x, b, hsx⟩ := hr.used p hp k g' hg
      exact ⟨x, b, hsx.congr (hoff p k hpk) (by rw [ht.ent, hsx.ent]) (.refl b)⟩
  · rw [hlive] at hp
    rw [History.set_apply] at hk
    by_cases hpk : p = proc ∧ k = fd
    · rw [if_pos hpk] at hk
      cases hk
    · rw [if_neg hpk] at hk
      rw [procFdGet_congr (hoff p k hpk)]
      exact hr.unused p hp k hk

theorem w64_add (m n : ℕ) : w64 (w64 m + n) = w64 (m + n) := by
  unfold w64
  exact Nat.mod_add_mod ..

/-- A read on a descriptor of the history: it reaches the node of the first entry. -/
theorem Routed.read_run {g : OpenFd} {q : FtabPtr} {e : Ftab} (hr : Routed s h) (hp : proc ∈ s.live)
    (hs : SlotFor s proc fd g q e) (hg : g.read = true) (size buf : ℕ) :
    ∃ node t, ftabFirstNode s = some node ∧
      procFdRead proc fd size buf s = some ((readCall s.nodes node (w64 g.pos) size buf).1, t) ∧
      FdTransferred s t proc fd (w64 (g.pos + (readCall s.nodes node (w64 g.pos) size buf).1))
        (readCall s.nodes node (w64 g.pos) size buf).2 := by
  obtain ⟨a, ha, rfl⟩ := hr.liveFd hp hs
  obtain ⟨node, hfirst, hres⟩ := hr.first hs.ent
  obtain ⟨t, ht, htr⟩ := procFdRead_run size buf ha hg (hs.read hg) hfirst hres
  refine ⟨node, t, hfirst, ht, ?_⟩
  rw [w64_add] at htr
  exact htr

theorem w64_writeOffset (g : OpenFd) (nodes : ℕ → VfsNode) (n : ℕ) :
    w64 (writeOffset nodes g.node g.append (w64 g.pos) + n) =
      w64 ((if g.append then (nodes g.node).length else g.pos) + n) := by
  unfold writeOffset
  cases g.append with
  | false => exact w64_add g.pos n
  | true => rfl

theorem Routed.write_run {g : OpenFd} {q : FtabPtr} {e : Ftab} (hr : Routed s h) (hp : proc ∈ s.live)
    (hs : SlotFor s proc fd g q e) (hg : g.write = true) (size buf : ℕ) {offset : ℕ}
    (ho : offset = writeOffset s.nodes g.node g.append (w64 g.pos)) :
    ∃ node t, ftabFirstNode s = some node ∧
      procFdWrite proc fd size buf s = some ((writeCall s.nodes node offset size buf).1, t) ∧
      FdTransferred s t proc fd
        (w64 ((if g.append then (s.nodes g.node).length else g.pos) +
          (writeCall s.nodes node offset size buf).1))
        (writeCall s.nodes node offset size buf).2 := by
  obtain ⟨a, ha, rfl⟩ := hr.liveFd hp hs
  obtain ⟨node, hfirst, hres⟩ := hr.first hs.ent
  obtain ⟨t, ht, htr⟩ := procFdWrite_run size buf ha hg (hs.write hg) hs.node
    hfirst hres ho
  refine ⟨node, t, hfirst, ht, ?_⟩
  rw [← w64_writeOffset, ← ho]
  exact htr

theorem Routed.read {size buf n : ℕ} (hr : Routed s h) (hp : proc ∈ s.live)
    (ho : procFdRead proc fd size buf s = some (n, t)) :
    Routed t (h.set proc fd ((h proc fd).map fun g => g.afterRead n)) := by
  cases hg : h proc fd with
  | none =>
    rw [procFdRead, Comp.read_bind, hr.unused proc hp fd hg] at ho
    cases ho
    rw [Option.map_none, ← hg, History.set_self]
    exact hr
  | some g =>
    obtain ⟨q, e, hs⟩ := hr.used proc hp fd g hg
    by_cases hread : g.read = true
    · obtain ⟨node, t', -, ht', htr⟩ := hr.read_run hp hs hread size buf
      rw [ht'] at ho
      cases ho
      exact hr.transferred hs htr
    · obtain ⟨a, ha, -⟩ := hr.liveFd hp hs
      rw [procFdRead, Comp.read_bind, ha.get] at ho
      simp only [hread, Bool.false_eq_true, if_false] at ho
      cases ho
      have hsame : (some g).map (fun g => g.afterRead 0) = h proc fd := by rw [hg]; rfl
      rw [hsame, History.set_self]
      exact hr

theorem Routed.wrote {size buf n : ℕ} (hr : Routed s h) (hp : proc ∈ s.live)
    (ho : procFdWrite proc fd size buf s = some (n, t)) :
    Routed t (h.set proc fd ((h proc fd).map fun g =>
      g.afterWrite (s.nodes g.node).length n)) := by
  cases hg : h proc fd with
  | none =>
    rw [procFdWrite, Comp.read_bind, hr.unused proc hp fd hg] at ho
    cases ho
    rw [Option.map_none, ← hg, History.set_self]
    exact hr
  | some g =>
    obtain ⟨q, e, hs⟩ := hr.used proc hp fd g hg
    by_cases hwrite : g.write = true
    · obtain ⟨node, t', -, ht', htr⟩ := hr.write_run hp hs hwrite size buf rfl
      rw [ht'] at ho
      cases ho
      have hafter : ∀ m, (some g).map (fun g => g.afterWrite (s.nodes g.node).length m) =
          some { g with pos := (if g.append then (s.nodes g.node).length else g.pos) + m } := by
        intro m
        simp [OpenFd.afterWrite, hwrite]
      rw [hafter]
      exact hr.transferred hs htr
    · obtain ⟨a, ha, -⟩ := hr.liveFd hp hs
      rw [procFdWrite, Comp.read_bind, ha.get] at ho
      simp only [hwrite, Bool.false_eq_true, if_false] at ho
      cases ho
      have hsame : (some g).map (fun g => g.afterWrite (s.nodes g.node).length 0) = h proc fd := by
        rw [hg]
        simp [OpenFd.afterWrite, hwrite]
      rw [hsame, History.set_self]
      exact hr

theorem FdsStart.routed (h₀ : FdsStart s) : Routed s fun _ _ => none := by
  have hent : ∀ i, s.ent i = none := fun i => by simp [Files.ent, h₀.ftab]
  refine ⟨h₀.inv, fun j e _ he => ?_, fun i e he => ?_, by simp, fun p hp k _ => ?_⟩
  · rw [h₀.ftab] at he
    cases he
  · rw [hent] at he
    cases he
  · exact procFdGet_none_iff.mpr fun f hf => h₀.slots p hp f (List.mem_of_getElem? hf)

theorem RouteRun.routed (h₀ : FdsStart s₀) (run : RouteRun FdOpenOk s₀ s h) : Routed s h := by
  induction run with
  | init => exact h₀.routed
  | heap r f o ih => exact ih.heap f o
  | opened r hp hP hr ih => exact ih.opened hp hP hr
  | refused r hp hP hr ih => exact ih.refused hp hP hr
  | closed r hp hr ih => exact ih.closed hp hr
  | read r hp hr ih => exact ih.read hp hr
  | wrote r hp hr ih => exact ih.wrote hp hr

end Runs

/-- A read on the descriptor returns what the hook of the node returns, and calls no other hook. -/
def ReadsFrom (s : Files) (proc fd size buf node offset : ℕ) : Prop :=
  ∃ t, procFdRead proc fd size buf s =
      some ((readCall s.nodes (some node) offset size buf).1, t) ∧
    t.calls = s.calls ++ (readCall s.nodes (some node) offset size buf).2

def WritesTo (s : Files) (proc fd size buf node offset : ℕ) : Prop :=
  ∃ t, procFdWrite proc fd size buf s =
      some ((writeCall s.nodes (some node) offset size buf).1, t) ∧
    t.calls = s.calls ++ (writeCall s.nodes (some node) offset size buf).2

/-- A transfer with a hook of this kind comes to the same for the node and for that of the first
entry of the table. -/
def FirstActsFor {H : Type} (s : Files) (hook : VfsNode → Option H) (node : ℕ) : Prop :=
  ∃ first, ftabFirstNode s = some first ∧
    hookTarget s.nodes hook first = hookTarget s.nodes hook (some node)

/-- A transfer on a live descriptor reaches the node it was opened on, at the position its history
gives, exactly when the first entry of the table acts for that node. -/
def RoutesExactly (s : Files) (h : History) : Prop :=
  ∀ proc ∈ s.live, ∀ fd f q, procFdGet s proc fd = some (f, q) →
    ∃ g, h proc fd = some g ∧ ∀ size buf,
      (g.read = true → (ReadsFrom s proc fd size buf g.node (w64 g.pos) ↔
        FirstActsFor s VfsNode.readHook g.node)) ∧
      (g.write = true →
        (WritesTo s proc fd size buf g.node (writeOffset s.nodes g.node g.append (w64 g.pos)) ↔
          FirstActsFor s VfsNode.writeHook g.node))

/-- As long as the table is not moved under descriptors in use, and no count wraps, the first entry
decides where a transfer goes. -/
theorem fd_transfers_routed {s₀ s : Files} {h : History} (h₀ : FdsStart s₀)
    (run : RouteRun FdOpenOk s₀ s h) : RoutesExactly s h := by
  intro proc hp fd f q hlive
  have hr := run.routed h₀
  cases hg : h proc fd with
  | none =>
    rw [hr.unused proc hp fd hg] at hlive
    cases hlive
  | some g =>
    obtain ⟨x, e, hs⟩ := hr.used proc hp fd g hg
    refine ⟨g, rfl, fun size buf => ⟨fun hread => ?_, fun hwrite => ?_⟩⟩
    · obtain ⟨node, t, hfirst, ht, htr⟩ := hr.read_run hp hs hread size buf
      have hcalls : t.calls = _ := (congrArg Files.calls htr.same).trans rfl
      constructor
      · rintro ⟨t', ht', hc'⟩
        rw [ht, Option.some.injEq, Prod.mk.injEq] at ht'
        obtain ⟨hret, rfl⟩ := ht'
        rw [hcalls] at hc'
        exact ⟨node, hfirst, (readCall_eq_iff _ _ _).mp (Prod.ext hret (List.append_cancel_left hc'))⟩
      · rintro ⟨first, hf, htarget⟩
        rw [hfirst] at hf
        cases hf
        have heq := (readCall_eq_iff (w64 g.pos) size buf).mpr htarget
        rw [heq] at ht hcalls
        exact ⟨t, ht, hcalls⟩
    · obtain ⟨node, t, hfirst, ht, htr⟩ := hr.write_run hp hs hwrite size buf rfl
      have hcalls : t.calls = _ := (congrArg Files.calls htr.same).trans rfl
      constructor
      · rintro ⟨t', ht', hc'⟩
        rw [ht, Option.some.injEq, Prod.mk.injEq] at ht'
        obtain ⟨hret, rfl⟩ := ht'
        rw [hcalls] at hc'
        exact ⟨node, hfirst, (writeCall_eq_iff _ _ _).mp (Prod.ext hret (List.append_cancel_left hc'))⟩
      · rintro ⟨first, hf, htarget⟩
        rw [hfirst] at hf
        cases hf
        have heq := (writeCall_eq_iff (writeOffset s.nodes g.node g.append (w64 g.pos)) size buf).mpr
          htarget
        rw [heq] at ht hcalls
        exact ⟨t, ht, hcalls⟩

theorem fd_transfers_routed_sample :
    RouteRun FdOpenOk filesSample (after (procFdOpen 1 11 false true false false false) filesSample)
      (History.set (fun _ _ => none) 1 0 (some ⟨11, true, false, false, 0⟩)) ∧
    RoutesExactly (after (procFdOpen 1 11 false true false false false) filesSample)
      (History.set (fun _ _ => none) 1 0 (some ⟨11, true, false, false, 0⟩)) := by
  have run : RouteRun FdOpenOk filesSample
      (after (procFdOpen 1 11 false true false false false) filesSample)
      (History.set (fun _ _ => none) 1 0 (some ⟨11, true, false, false, 0⟩)) :=
    .opened .init (by decide) ⟨fun _ _ _ => .inr filesSample_start.slots, by
      intro i e _ he
      simp [Files.ent, filesSample] at he⟩
      (run_after (c := procFdOpen 1 11 false true false false false) (by decide +kernel))
  exact ⟨run, fd_transfers_routed filesSample_start run⟩

/-- Two nodes are opened, and a read on the second descriptor goes to the first node. -/
theorem fd_read_misrouted : ¬ ∀ s₀ s h, FdsStart s₀ → s₀.ftabMutex = false →
    RouteRun (fun _ _ => True) s₀ s h → ∀ proc ∈ s.live, ∀ fd f q,
    procFdGet s proc fd = some (f, q) → ∃ g, h proc fd = some g ∧ ∀ size buf, g.read = true →
      ReadsFrom s proc fd size buf g.node (w64 g.pos) := by
  intro h
  let s₁ := after (procFdOpen 1 11 false true false false false) filesSample
  let s₂ := after (procFdOpen 1 12 false true false false false) s₁
  let h₁ := History.set (fun _ _ => none) 1 0 (some ⟨11, true, false, false, 0⟩)
  let h₂ := History.set h₁ 1 1 (some ⟨12, true, false, false, 0⟩)
  have r₁ : RouteRun (fun _ _ => True) filesSample s₁ h₁ :=
    .opened .init (by decide) trivial
      (run_after (c := procFdOpen 1 11 false true false false false) (by decide +kernel))
  have r₂ : RouteRun (fun _ _ => True) filesSample s₂ h₂ :=
    .opened r₁ (by decide +kernel) trivial
      (run_after (c := procFdOpen 1 12 false true false false false) (by decide +kernel))
  have hfd : procFdGet s₂ 1 1 = some (fdOpened ⟨1, 1⟩ true false false, ⟨1, 1⟩) := by decide +kernel
  obtain ⟨g, hg, hreads⟩ := h _ _ _ filesSample_start rfl r₂ 1 (by decide +kernel) 1 _ _ hfd
  have hg' : h₂ 1 1 = some ⟨12, true, false, false, 0⟩ := by decide +kernel
  rw [hg'] at hg
  cases hg
  obtain ⟨t, ht, hcalls⟩ := hreads 4 0 rfl
  have hrun : (procFdRead 1 1 4 0 s₂).map (fun r => r.2.calls) = some [.read 11 0 4 0 4] := by
    decide +kernel
  have hspec : s₂.calls ++ (readCall s₂.nodes (some 12) (w64 0) 4 0).2 = [.read 12 0 4 0 4] := by
    decide +kernel
  rw [ht, Option.map_some, hcalls, hspec] at hrun
  cases hrun

end SysX
