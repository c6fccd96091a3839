import SysX.FileTable
import SysX.Lib.Owners

/-!
What opening and closing descriptors does, and the invariant of the slots that refer to entries of the
file table.
-/
namespace SysX

theorem OpenStep.same {s t : Files} {node proc : ℕ} {read write excl : Bool} {r : Option FtabPtr}
    (h : OpenStep s node proc read write excl r t) : s.SameBut t := by
  cases h with
  | refused h => exact h.same
  | first h hu => exact h.same.trans hu
  | again hs => exact hs

theorem CloseStep.same {s t : Files} {i proc : ℕ} (h : CloseStep s i proc t) : s.SameBut t := by
  cases h with
  | kept => exact .refl s
  | dropped _ _ _ hs => exact hs
  | freed _ _ _ hs => exact hs

theorem CloseStep.base {s t : Files} {i proc : ℕ} (h : CloseStep s i proc t) :
    t.ftabBase = s.ftabBase := by
  cases h with
  | kept => rfl
  | dropped _ _ _ _ hb => exact hb
  | freed _ _ _ _ hb => exact hb

/-- The slot of a descriptor that `proc_fd_open` fills. -/
def fdOpened (p : FtabPtr) (read write append : Bool) : Fd := ⟨some p, read, write, append, 0⟩

/-- What `proc_fd_open` can do. The last case covers a list of slots that had to grow. -/
inductive FdOpenStep (s : Files) (proc node : ℕ) (dup read write append excl : Bool) :
    Option ℕ → Files → Prop
  | refused {t} (h : OpenStep s node proc read write excl none t) :
      FdOpenStep s proc node dup read write append excl none t
  | full {u p n} (h : OpenStep s node proc read write excl (some p) u)
      (hs : fdSearch (s.fds proc) dup p = none) (hh : s.otherHeap s.otherCalls = false) :
      FdOpenStep s proc node dup read write append excl none { u with otherCalls := n }
  | opened {u p i l n} (h : OpenStep s node proc read write excl (some p) u)
      (hl : l = s.fds proc ∧ n = s.otherCalls ∨
        l = s.fds proc ++ List.replicate procFdsAllocSz fdZero ∧ n = s.otherCalls + 1)
      (hs : fdSearch l dup p = some i) :
      FdOpenStep s proc node dup read write append excl (some i)
        { u.setFds proc (l.set i (fdOpened p read write append)) with otherCalls := n }

section FdSteps

variable {s t : Files} {proc node fd : ℕ} {dup read write append excl : Bool} {r : Option ℕ}

theorem fdSearch_some {l : List Fd} {p : FtabPtr} {i : ℕ} (h : fdSearch l dup p = some i) :
    ∃ f, l[i]? = some f ∧ (f.ftab = none ∨ dup = false ∧ f.ftab = some p) := by
  obtain ⟨hi, hp, -⟩ := List.findIdx?_eq_some_iff_getElem.mp h
  exact ⟨_, List.getElem?_eq_getElem hi, by simpa using hp⟩

theorem fdSearch_grown {l : List Fd} {p : FtabPtr} (h : fdSearch l dup p = none) :
    fdSearch (l ++ List.replicate procFdsAllocSz fdZero) dup p = some l.length := by
  unfold fdSearch at h ⊢
  rw [List.findIdx?_append, h]
  simp [procFdsAllocSz, List.replicate_succ, List.findIdx?_cons, fdZero]

theorem procFdOpen_step (h : procFdOpen proc node dup read write append excl s = some (r, t)) :
    FdOpenStep s proc node dup read write append excl r t := by
  obtain ⟨res, u, ho, h⟩ := Comp.bind_eq_some.mp h
  have hstep := ftabOpen_step ho
  cases res with
  | none =>
    cases h
    exact .refused hstep
  | some p =>
    simp only [Comp.read_bind] at h
    rw [hstep.same.fds] at h
    cases hs : fdSearch (s.fds proc) dup p with
    | some i =>
      simp only [hs, Comp.pure_bind_apply, Comp.modify_bind, Comp.pure_apply, Option.some.injEq,
        Prod.mk.injEq] at h
      obtain ⟨rfl, rfl⟩ := h
      rw [hstep.same.fds]
      exact .opened (n := u.otherCalls) hstep (.inl ⟨rfl, hstep.same.otherCalls⟩) hs
    | none =>
      simp only [hs, otherAlloc, Comp.bind_assoc, Comp.read_bind, Comp.modify_bind,
        Comp.pure_bind] at h
      cases hh : u.otherHeap u.otherCalls with
      | false =>
        rw [hh] at h
        cases h
        rw [hstep.same.otherHeap, hstep.same.otherCalls] at hh
        exact .full hstep hs hh
      | true =>
        simp only [hh, if_true, Comp.bind_assoc, Comp.modify_bind, Comp.pure_bind_apply,
          Comp.pure_apply, Option.some.injEq, Prod.mk.injEq] at h
        obtain ⟨rfl, rfl⟩ := h
        have hfill : FdOpenStep s proc node dup read write append excl (some (s.fds proc).length)
            { u.setFds proc ((s.fds proc ++ List.replicate procFdsAllocSz fdZero).set
                (s.fds proc).length (fdOpened p read write append)) with
              otherCalls := u.otherCalls + 1 } :=
          .opened hstep (.inr ⟨rfl, by rw [hstep.same.otherCalls]⟩) (fdSearch_grown hs)
        simpa [Files.setFds, fdOpened, Function.update_idem] using hfill

/-- What `proc_fd_close` can do. -/
inductive FdCloseStep (s : Files) (proc fd : ℕ) : Files → Prop
  | dead (h : procFdGet s proc fd = none) : FdCloseStep s proc fd s
  | closed {f p u} (hg : procFdGet s proc fd = some (f, p)) (hb : p.base = s.ftabBase)
      (h : CloseStep s p.idx proc u) :
      FdCloseStep s proc fd (u.setFds proc ((s.fds proc).set fd fdZero))

theorem procFdClose_step (h : procFdClose proc fd s = some ((), t)) : FdCloseStep s proc fd t := by
  rw [procFdClose, Comp.read_bind] at h
  cases hg : procFdGet s proc fd with
  | none =>
    rw [hg] at h
    cases h
    exact .dead hg
  | some x =>
    rw [hg] at h
    obtain ⟨_, u, hc, h⟩ := Comp.bind_eq_some.mp h
    obtain ⟨hb, hstep⟩ := ftabClose_step hc
    cases h
    have hclosed := FdCloseStep.closed hg hb hstep
    rw [← hstep.same.fds] at hclosed
    exact hclosed

theorem procFdGet_some {f : Fd} {p : FtabPtr} (h : procFdGet s proc fd = some (f, p)) :
    (s.fds proc)[fd]? = some f ∧ f.ftab = some p := by
  rw [procFdGet, Option.bind_eq_some_iff] at h
  obtain ⟨g, hg, hp⟩ := h
  rw [Option.map_eq_some_iff] at hp
  obtain ⟨q, hq, hqe⟩ := hp
  cases hqe
  exact ⟨hg, hq⟩

end FdSteps

/-! The descriptors that refer to an entry. -/

def Files.refersTo (s : Files) (i : ℕ) (f : Fd) : Bool := f.ftab = some ⟨s.ftabBase, i⟩

/-- The descriptors of live processes that refer to an entry. -/
def Files.slotCount (s : Files) (i : ℕ) : ℕ := ownedCount (s.refersTo i) s.live s.fds

/-- No live process has a descriptor in use. -/
def Files.NoSlots (s : Files) : Prop := ∀ p ∈ s.live, ∀ f ∈ s.fds p, f.ftab = none

/-- The count of an entry, which is 0 for one that is not in use. -/
def Files.refsOf (s : Files) (i : ℕ) : ℕ :=
  match s.ent i with
  | some e => if e.node = none then 0 else e.refs
  | none => 0

/-- Every descriptor of a live process refers to an entry in use that lets the process in, and an
entry counts all the descriptors that refer to it. -/
structure FdInv (s : Files) : Prop where
  live : s.live.Nodup
  valid : ∀ p ∈ s.live, ∀ f ∈ s.fds p, ∀ q, f.ftab = some q →
    q.base = s.ftabBase ∧ ∃ e, s.ent q.idx = some e ∧ e.node ≠ none ∧
      (e.excl = none ∨ e.excl = some p)
  count : ∀ i, s.slotCount i ≤ s.refsOf i
  pos : ∀ i e, s.ent i = some e → e.node ≠ none → 0 < e.refs ∧ e.refs < ftabRefsMod

/-- The table is not moved away under descriptors in use, and the count of the entry that is opened
once more does not wrap. -/
structure FdOpenOk (s : Files) (node : ℕ) : Prop where
  base : ftabSearch s node = none → ∀ b, s.ftabHeap s.ftabCalls = some b →
    b = s.ftabBase ∨ s.NoSlots
  refs : ∀ i e, ftabSearch s node = some i → s.ent i = some e → e.node = some node →
    e.refs + 1 < ftabRefsMod

/-- The entry is for the same node and process, and allows at least the same access. -/
structure Ftab.Extends (e e' : Ftab) : Prop where
  node : e'.node = e.node
  excl : e'.excl = e.excl
  read : e.read = true → e'.read = true
  write : e.write = true → e'.write = true

theorem Ftab.Extends.refl (e : Ftab) : e.Extends e := ⟨rfl, rfl, id, id⟩

section Slots

variable {s t u : Files} {proc node fd i j : ℕ} {dup read write append excl : Bool} {r : Option ℕ}
  {e : Ftab}

theorem refsOf_used (he : s.ent i = some e) (hn : e.node ≠ none) : s.refsOf i = e.refs := by
  simp [Files.refsOf, he, hn]

theorem refsOf_unused (h : ∀ e, s.ent i = some e → e.node = none) : s.refsOf i = 0 := by
  unfold Files.refsOf
  cases he : s.ent i with
  | none => rfl
  | some e => simp [h e he]

theorem refsOf_congr (h : t.ent i = s.ent i) : t.refsOf i = s.refsOf i := by
  rw [Files.refsOf, h]
  rfl

theorem refersTo_congr (hb : t.ftabBase = s.ftabBase) (i : ℕ) : t.refersTo i = s.refersTo i := by
  unfold Files.refersTo
  rw [hb]

theorem slotCount_congr (hb : t.ftabBase = s.ftabBase) (hl : t.live = s.live) (hf : t.fds = s.fds)
    (i : ℕ) : t.slotCount i = s.slotCount i := by
  unfold Files.slotCount Files.refersTo
  rw [hb, hl, hf]

theorem Files.NoSlots.slotCount (h : s.NoSlots) (i : ℕ) : s.slotCount i = 0 := by
  rw [Files.slotCount, ownedCount_eq_zero]
  intro p hp f hf
  simp [Files.refersTo, h p hp f hf]

/-- A slot of one process is filled or emptied. -/
theorem slotCount_set {l : List Fd} {f g : Fd} (hn : s.live.Nodup) (hp : proc ∈ s.live)
    (hl : l = s.fds proc ∨ l = s.fds proc ++ List.replicate procFdsAllocSz fdZero)
    (hi : l[i]? = some f) (j : ℕ) :
    (s.setFds proc (l.set i g)).slotCount j + (if s.refersTo j f then 1 else 0) =
      s.slotCount j + if s.refersTo j g then 1 else 0 := by
  have hu : (s.setFds proc (l.set i g)).slotCount j + (s.fds proc).countP (s.refersTo j) =
      s.slotCount j + (l.set i g).countP (s.refersTo j) :=
    ownedCount_update (s.refersTo j) s.fds (l.set i g) hn hp
  have hcount : l.countP (s.refersTo j) = (s.fds proc).countP (s.refersTo j) := by
    rcases hl with rfl | rfl
    · rfl
    · rw [List.countP_append, List.countP_replicate]
      simp [Files.refersTo, fdZero]
  obtain ⟨hlt, hf⟩ := List.getElem?_eq_some_iff.mp hi
  have hset := List.countP_set (p := s.refersTo j) (a := g) hlt
  have hpos : s.refersTo j f = true → 0 < l.countP (s.refersTo j) := fun h =>
    List.countP_pos_iff.mpr ⟨f, List.mem_of_getElem? hi, h⟩
  rw [hf] at hset
  split_ifs at hset ⊢ with h1 h2
  all_goals
    try have := hpos h1
    omega

/-! Opening an entry. -/

theorem Grown.refsOf (h : Grown node s t) (i : ℕ) : t.refsOf i = s.refsOf i := by
  rcases h.ent i with hi | ⟨hs, ht⟩
  · exact refsOf_congr hi
  · rw [refsOf_unused (s := s) (by simp [hs]), refsOf_unused (s := t) (by simp [ht, ftabZero])]

theorem Grown.used (h : Grown node s t) (hn : e.node ≠ none) :
    t.ent i = some e ↔ s.ent i = some e := by
  rcases h.ent i with hi | ⟨hs, ht⟩
  · rw [hi]
  · rw [hs, ht]
    constructor
    · rintro ⟨⟩
      exact absurd rfl hn
    · rintro ⟨⟩

theorem OpenStep.base {res : Option FtabPtr} (h : OpenStep s node proc read write excl res t)
    (hok : FdOpenOk s node) : t.ftabBase = s.ftabBase ∨ s.NoSlots := by
  have grown : ∀ {u}, Grown node s u → u.ftabBase = s.ftabBase ∨ s.NoSlots := fun hg =>
    hg.base.elim .inl fun hb => hok.base hb.1 _ hb.2
  cases h with
  | refused hg => exact grown hg
  | first hg _ hb => exact hb ▸ grown hg
  | again _ hb => exact .inl hb

theorem OpenStep.slotCount {res : Option FtabPtr}
    (h : OpenStep s node proc read write excl res t) (hok : FdOpenOk s node) (i : ℕ) :
    t.slotCount i = s.slotCount i := by
  rcases h.base hok with hb | hs
  · exact slotCount_congr hb h.same.live h.same.fds i
  · have ht : t.NoSlots := by
      unfold Files.NoSlots
      rw [h.same.live, h.same.fds]
      exact hs
    rw [hs.slotCount, ht.slotCount]

theorem OpenStep.extends {res : Option FtabPtr} (h : OpenStep s node proc read write excl res t)
    (he : s.ent j = some e) (hn : e.node ≠ none) : ∃ e', t.ent j = some e' ∧ e.Extends e' := by
  cases h with
  | refused hg => exact ⟨e, (hg.used hn).mpr he, .refl e⟩
  | @first u _ i a hg _ _ _ hi ha _ _ ht =>
    have hu := (hg.used hn).mpr he
    have hj : j ≠ i := by
      rintro rfl
      rw [hi] at hu
      cases hu
      exact hn ha
    exact ⟨e, by rw [ht, Function.update_of_ne hj, hu], .refl e⟩
  | @again _ i a _ _ _ hi _ _ _ _ ht =>
    by_cases hj : j = i
    · subst hj
      rw [hi] at he
      cases he
      refine ⟨againEnt e read write, by rw [ht, Function.update_self], rfl, rfl, ?_, ?_⟩
      · intro hr
        simp [againEnt, hr]
      · intro hw
        simp [againEnt, hw]
    · exact ⟨e, by rw [ht, Function.update_of_ne hj, he], .refl e⟩

/-- The entry that an open returns. -/
structure OpenedEnt (t : Files) (node proc : ℕ) (read write : Bool) (p : FtabPtr) (e : Ftab) :
    Prop where
  base : p.base = t.ftabBase
  ent : t.ent p.idx = some e
  node : e.node = some node
  excl : e.excl = none ∨ e.excl = some proc
  read : read = true → e.read = true
  write : write = true → e.write = true
  pos : 0 < e.refs
  lt : e.refs < ftabRefsMod

theorem OpenStep.opened {p : FtabPtr} (h : OpenStep s node proc read write excl (some p) t)
    (hok : FdOpenOk s node) :
    (∃ e, OpenedEnt t node proc read write p e) ∧
      ∀ j, t.refsOf j = s.refsOf j + if j = p.idx then 1 else 0 := by
  cases h with
  | @first u _ i a hg _ _ _ hi ha _ _ ht =>
    have at_i : t.ent i = some (firstEnt node proc read write excl) := by
      rw [ht, Function.update_self]
    refine ⟨⟨_, rfl, at_i, rfl, ?_, id, id, Nat.one_pos, (by decide +kernel : 1 < ftabRefsMod)⟩, ?_⟩
    · cases excl <;> simp [firstEnt]
    · intro j
      split_ifs with hj
      · have hu : u.refsOf i = 0 := refsOf_unused fun e he => by
          rw [hi] at he
          cases he
          exact ha
        rw [hj, ← hg.refsOf, hu]
        exact refsOf_used at_i (by simp [firstEnt])
      · rw [← hg.refsOf j]
        exact refsOf_congr (by rw [ht, Function.update_of_ne hj])
  | @again _ i a _ _ _ hi hn hx _ hf ht =>
    have at_i : t.ent i = some (againEnt a read write) := by rw [ht, Function.update_self]
    have hlt := hok.refs i a hf hi hn
    have hr : (againEnt a read write).refs = a.refs + 1 := refsInc_of_lt hlt
    refine ⟨⟨_, rfl, at_i, hn, hx, ?_, ?_, by rw [hr]; omega, by rw [hr]; exact hlt⟩, ?_⟩
    · intro h
      simp [againEnt, h]
    · intro h
      simp [againEnt, h]
    · intro j
      split_ifs with hj
      · rw [hj, refsOf_used hi (by simp [hn]), ← hr]
        exact refsOf_used at_i (by simp [againEnt, hn])
      · exact refsOf_congr (by rw [ht, Function.update_of_ne hj])

/-- The entries in use after an open: the one that was opened, and those from before. -/
theorem OpenStep.used {res : Option FtabPtr} (h : OpenStep s node proc read write excl res t)
    (he : t.ent j = some e) (hn : e.node ≠ none) :
    s.ent j = some e ∨ ∃ p, res = some p ∧ p.idx = j := by
  cases h with
  | refused hg => exact .inl ((hg.used hn).mp he)
  | @first u _ i a hg _ _ _ _ _ _ _ ht =>
    by_cases hj : j = i
    · exact .inr ⟨_, rfl, hj.symm⟩
    · rw [ht, Function.update_of_ne hj] at he
      exact .inl ((hg.used hn).mp he)
  | @again _ i a _ _ _ _ _ _ _ _ ht =>
    by_cases hj : j = i
    · exact .inr ⟨_, rfl, hj.symm⟩
    · rw [ht, Function.update_of_ne hj] at he
      exact .inl he

theorem FdInv.openStep {res : Option FtabPtr} (inv : FdInv s) (hok : FdOpenOk s node)
    (h : OpenStep s node proc read write excl res t) : FdInv t := by
  constructor
  · rw [h.same.live]
    exact inv.live
  · intro p hp f hf q hq
    rw [h.same.live] at hp
    rw [h.same.fds] at hf
    obtain ⟨hb, e, he, hn, hx⟩ := inv.valid p hp f hf q hq
    obtain ⟨e', he', hext⟩ := h.extends he hn
    refine ⟨?_, e', he', by rwa [hext.node], by rwa [hext.excl]⟩
    rcases h.base hok with hbase | hs
    · rw [hb, hbase]
    · rw [hs p hp f hf] at hq
      cases hq
  · intro i
    rw [h.slotCount hok]
    refine (inv.count i).trans ?_
    cases res with
    | none =>
      cases h with
      | refused hg => rw [hg.refsOf]
    | some p => simp [(h.opened hok).2]
  · intro i e he hn
    rcases h.used he hn with hs | ⟨p, rfl, rfl⟩
    · exact inv.pos i e hs hn
    · obtain ⟨⟨e', hopen⟩, -⟩ := h.opened hok
      rw [hopen.ent] at he
      cases he
      exact ⟨hopen.pos, hopen.lt⟩

theorem refersTo_opened {p : FtabPtr} (hb : p.base = s.ftabBase) (append : Bool) (j : ℕ) :
    s.refersTo j (fdOpened p read write append) = decide (j = p.idx) := by
  obtain ⟨base, idx⟩ := p
  cases hb
  simp [Files.refersTo, fdOpened, eq_comm]

/-- How the counts of descriptors change when a slot is filled. -/
theorem slotCount_opened {p : FtabPtr} {l : List Fd} {f : Fd} (hn : s.live.Nodup)
    (hp : proc ∈ s.live) (hb : p.base = s.ftabBase)
    (hl : l = s.fds proc ∨ l = s.fds proc ++ List.replicate procFdsAllocSz fdZero)
    (hi : l[i]? = some f) (read write append : Bool) (j : ℕ) :
    (s.setFds proc (l.set i (fdOpened p read write append))).slotCount j +
      (if s.refersTo j f then 1 else 0) = s.slotCount j + if j = p.idx then 1 else 0 := by
  rw [slotCount_set hn hp hl hi j, refersTo_opened hb]
  simp

theorem mem_fds_set {l : List Fd} {g f : Fd} {p : ℕ}
    (hl : l = s.fds proc ∨ l = s.fds proc ++ List.replicate procFdsAllocSz fdZero)
    (hf : f ∈ (s.setFds proc (l.set i g)).fds p) :
    f ∈ s.fds p ∨ f = fdZero ∨ p = proc ∧ f = g := by
  by_cases hp : p = proc
  · subst hp
    simp only [Files.setFds, Function.update_self] at hf
    rcases List.mem_or_eq_of_mem_set hf with hf | hf
    · rcases hl with rfl | rfl
      · exact .inl hf
      · rcases List.mem_append.mp hf with hf | hf
        · exact .inl hf
        · exact .inr (.inl (List.eq_of_mem_replicate hf))
    · exact .inr (.inr ⟨rfl, hf⟩)
  · simp only [Files.setFds, Function.update_of_ne hp] at hf
    exact .inl hf

/-- `proc_fd_open` keeps the invariant. -/
theorem FdInv.fdOpenStep (inv : FdInv s) (hp : proc ∈ s.live) (hok : FdOpenOk s node)
    (h : FdOpenStep s proc node dup read write append excl r t) : FdInv t := by
  cases h with
  | refused h => exact inv.openStep hok h
  | full h hs hh =>
    have hu := inv.openStep hok h
    exact ⟨hu.live, hu.valid, hu.count, hu.pos⟩
  | @opened u p i l n h hl hs =>
    have hu := inv.openStep hok h
    obtain ⟨⟨e, hopen⟩, hrefs⟩ := h.opened hok
    replace hl := hl.imp And.left And.left
    rw [← h.same.fds] at hl
    have hpu : proc ∈ u.live := by rwa [h.same.live]
    obtain ⟨f, hi, hf⟩ := fdSearch_some hs
    constructor
    · exact hu.live
    · intro p' hp' f' hf' q hq
      rcases mem_fds_set hl hf' with hf' | rfl | ⟨rfl, rfl⟩
      · exact hu.valid p' hp' f' hf' q hq
      · cases hq
      · cases hq
        exact ⟨hopen.base, e, hopen.ent, by simp [hopen.node], hopen.excl⟩
    · intro j
      have hcount := slotCount_opened hu.live hpu hopen.base hl hi read write append j
      have hold := inv.count j
      rw [← h.slotCount hok] at hold
      have hj := hrefs j
      change (u.setFds proc (l.set i (fdOpened p read write append))).slotCount j ≤ u.refsOf j
      omega
    · exact hu.pos

/-! Closing an entry. -/

/-- One reference to the entry `e` at `i` is dropped, and with the last one the file is closed. -/
structure Closed (s u : Files) (i : ℕ) (e : Ftab) : Prop where
  ent : s.ent i = some e
  used : e.node ≠ none
  refs : ∀ j, u.refsOf j + (if j = i then 1 else 0) = s.refsOf j
  back : ∀ j a, u.ent j = some a → a.node ≠ none → 0 < a.refs ∧ a.refs < ftabRefsMod ∧
    ∃ b, s.ent j = some b ∧ b.Extends a
  keep : ∀ j b, s.ent j = some b → b.node ≠ none → u.refsOf j ≠ 0 → ∃ a, u.ent j = some a ∧
    b.Extends a
  closes : u.closes = s.closes ++ if u.refsOf i = 0 then [e.node] else []
  freed : u.refsOf i = 0 → u.ent i = some ftabZero

theorem CloseStep.closed (inv : FdInv s) (h : CloseStep s i proc u) (he : s.ent i = some e)
    (hn : e.node ≠ none) (hx : e.excl = none ∨ e.excl = some proc) : Closed s u i e := by
  obtain ⟨hpos, hlt⟩ := inv.pos i e he hn
  have hrel := Ftab.release_refs hpos hlt
  have hs := refsOf_used he hn
  cases h with
  | kept he' hx' =>
    rw [he] at he'
    cases he'
    exact absurd hx hx'
  | dropped he' _ hr hsame hb hc ht =>
    rw [he] at he'
    cases he'
    have at_i : u.ent i = some e.release := by rw [ht, Function.update_self]
    have off : ∀ j, j ≠ i → u.ent j = s.ent j := fun j hj => by rw [ht, Function.update_of_ne hj]
    have hext : e.Extends e.release := ⟨e.release_node, e.release_excl, by cases e; exact id,
      by cases e; exact id⟩
    have hu : u.refsOf i = e.refs - 1 := by
      rw [refsOf_used at_i (by rwa [e.release_node]), hrel]
    refine ⟨he, hn, ?_, ?_, ?_, ?_, ?_⟩
    · intro j
      by_cases hj : j = i
      · rw [hj, if_pos rfl, hu, hs]
        omega
      · rw [if_neg hj, refsOf_congr (off j hj), Nat.add_zero]
    · intro j a ha hna
      by_cases hj : j = i
      · subst hj
        rw [at_i] at ha
        cases ha
        exact ⟨by omega, by omega, e, he, hext⟩
      · rw [off j hj] at ha
        exact ⟨(inv.pos j a ha hna).1, (inv.pos j a ha hna).2, a, ha, .refl a⟩
    · intro j b hb' _ _
      by_cases hj : j = i
      · subst hj
        rw [he] at hb'
        cases hb'
        exact ⟨_, at_i, hext⟩
      · exact ⟨b, by rw [off j hj, hb'], .refl b⟩
    · have hne : u.refsOf i ≠ 0 := by omega
      rw [if_neg hne, List.append_nil, hc]
    · intro h0
      omega
  | freed he' _ hr hsame hb hc ht =>
    rw [he] at he'
    cases he'
    have at_i : u.ent i = some ftabZero := by rw [ht, Function.update_self]
    have off : ∀ j, j ≠ i → u.ent j = s.ent j := fun j hj => by rw [ht, Function.update_of_ne hj]
    have hu : u.refsOf i = 0 := refsOf_unused fun a ha => by
      rw [at_i] at ha
      cases ha
      rfl
    refine ⟨he, hn, ?_, ?_, ?_, ?_, ?_⟩
    · intro j
      by_cases hj : j = i
      · rw [hj, if_pos rfl, hu, hs]
        omega
      · rw [if_neg hj, refsOf_congr (off j hj), Nat.add_zero]
    · intro j a ha hna
      have hj : j ≠ i := by
        rintro rfl
        rw [at_i] at ha
        cases ha
        exact hna rfl
      rw [off j hj] at ha
      exact ⟨(inv.pos j a ha hna).1, (inv.pos j a ha hna).2, a, ha, .refl a⟩
    · intro j b hb' _ hne
      have hj : j ≠ i := by
        rintro rfl
        exact hne hu
      exact ⟨b, by rw [off j hj, hb'], .refl b⟩
    · rw [if_pos hu, hc]
    · intro _
      exact at_i

/-- What `proc_fd_close` of a descriptor in use does. -/
theorem FdInv.closed {f : Fd} {p : FtabPtr} (inv : FdInv s) (hp : proc ∈ s.live)
    (hg : procFdGet s proc fd = some (f, p)) (h : CloseStep s p.idx proc u) :
    (∃ e, Closed s u p.idx e) ∧ ∀ j,
      (u.setFds proc ((s.fds proc).set fd fdZero)).slotCount j + (if j = p.idx then 1 else 0) =
        s.slotCount j := by
  obtain ⟨hfd, hq⟩ := procFdGet_some hg
  obtain ⟨hb, e, he, hn, hx⟩ := inv.valid proc hp f (List.mem_of_getElem? hfd) p hq
  have hclosed := h.closed inv he hn hx
  refine ⟨⟨e, hclosed⟩, fun j => ?_⟩
  have hbase := h.base
  have hset := slotCount_set (g := fdZero) inv.live hp (.inl rfl) hfd j
  have hu : (u.setFds proc ((s.fds proc).set fd fdZero)).slotCount j =
      (s.setFds proc ((s.fds proc).set fd fdZero)).slotCount j :=
    slotCount_congr (s := s.setFds proc _) (t := u.setFds proc _) hbase h.same.live
      (by simp [Files.setFds, h.same.fds]) j
  have hf : s.refersTo j f = decide (j = p.idx) := by
    obtain ⟨base, idx⟩ := p
    cases hb
    simp [Files.refersTo, hq, eq_comm]
  have hz : s.refersTo j fdZero = false := by simp [Files.refersTo, fdZero]
  rw [hf, hz] at hset
  simpa [hu] using hset

/-- The descriptors that are left keep their entries. -/
theorem FdInv.close_keeps {p : FtabPtr} {f : Fd} (inv : FdInv s) (hp : proc ∈ s.live)
    (hg : procFdGet s proc fd = some (f, p)) (h : CloseStep s p.idx proc u) {p' : ℕ} {f' : Fd}
    {q : FtabPtr} (hp' : p' ∈ s.live)
    (hf' : f' ∈ (u.setFds proc ((s.fds proc).set fd fdZero)).fds p') (hq : f'.ftab = some q) :
    q.base = s.ftabBase ∧ ∃ b a, s.ent q.idx = some b ∧ b.node ≠ none ∧
      (b.excl = none ∨ b.excl = some p') ∧ u.ent q.idx = some a ∧ b.Extends a := by
  obtain ⟨⟨e, hclosed⟩, hslots⟩ := inv.closed hp hg h
  have hfds : (u.setFds proc ((s.fds proc).set fd fdZero)).fds =
      (s.setFds proc ((s.fds proc).set fd fdZero)).fds := by simp [Files.setFds, h.same.fds]
  have hmem := hf'
  rw [hfds] at hf'
  rcases mem_fds_set (.inl rfl) hf' with hf' | rfl | ⟨rfl, rfl⟩
  · obtain ⟨hb, b, he, hn, hx⟩ := inv.valid p' hp' f' hf' q hq
    have hpos : 0 < (u.setFds proc ((s.fds proc).set fd fdZero)).slotCount q.idx := by
      rw [Files.slotCount, ownedCount_pos]
      refine ⟨p', h.same.live ▸ hp', f', hmem, ?_⟩
      obtain ⟨base, idx⟩ := q
      cases hb
      simp [Files.refersTo, hq, Files.setFds, h.base]
    have h1 := hslots q.idx
    have h2 := hclosed.refs q.idx
    have h3 := inv.count q.idx
    obtain ⟨a, ha, hext⟩ := hclosed.keep q.idx b he hn (by omega)
    exact ⟨hb, b, a, he, hn, hx, ha, hext⟩
  · cases hq
  · cases hq

/-- `proc_fd_close` keeps the invariant. -/
theorem FdInv.fdCloseStep (inv : FdInv s) (hp : proc ∈ s.live) (h : FdCloseStep s proc fd t) :
    FdInv t := by
  cases h with
  | dead => exact inv
  | @closed f p u hg hb h =>
    obtain ⟨⟨e, hclosed⟩, hslots⟩ := inv.closed hp hg h
    constructor
    · exact h.same.live ▸ inv.live
    · intro p' hp' f' hf' q hq
      have hlive : p' ∈ s.live := h.same.live ▸ hp'
      obtain ⟨hb', b, a, -, hn, hx, ha, hext⟩ := inv.close_keeps hp hg h hlive hf' hq
      exact ⟨hb'.trans h.base.symm, a, ha, by rwa [hext.node], by rwa [hext.excl]⟩
    · intro j
      have h1 := hslots j
      have h2 := hclosed.refs j
      have h3 := inv.count j
      change (u.setFds proc ((s.fds proc).set fd fdZero)).slotCount j ≤ u.refsOf j
      omega
    · intro j a ha hna
      obtain ⟨hpos, hlt, -⟩ := hclosed.back j a ha hna
      exact ⟨hpos, hlt⟩

end Slots
end SysX
