import SysX.Exclusive

/-! The mutexes of the file table, and where a call leaves one held. -/
namespace SysX

/-- No mutex of the table or of an entry is held. -/
structure Files.Free (s : Files) : Prop where
  table : s.ftabMutex = false
  entries : ∀ (j : ℕ) (e : Ftab), s.ftab[j]? = some e → e.mutex = false

/-- The mutexes of the table and of entry `i` are held. -/
structure Files.Held (s : Files) (i : ℕ) : Prop where
  table : s.ftabMutex = true
  entries : ∀ (j : ℕ) (e : Ftab), s.ftab[j]? = some e → (e.mutex = true ↔ j = i)

/-- The node is refused by the device behind it. -/
def Refuses (s : Files) (node : ℕ) (read write : Bool) : Prop :=
  ∃ v h, traverseSymlink s.nodes symlinkFuel (some node) = some (some v) ∧ (s.nodes v).openHook = some h ∧ h read write = false

/-- The node is opened for the first time, in an empty entry or in a new one. -/
def FirstOpen (s : Files) (node : ℕ) : Prop :=
  (∃ i e, ftabSearch s node = some i ∧ s.ftab[i]? = some e ∧ e.node = none) ∨
    ftabSearch s node = none ∧ s.ftabHeap s.ftabCalls ≠ none

section Locks

variable {s t : Files} {i node proc : ℕ} {read write excl : Bool} {res : Option FtabPtr}

theorem Files.Held.not_free (h : s.Held i) : ¬ s.Free := fun hf => by
  have ht := h.table
  rw [hf.table] at ht
  cases ht

/-- A change of the entry that is held, apart from its mutex. -/
theorem Files.Held.modify (h : s.Held i) {g : Ftab → Ftab} (hg : ∀ e, (g e).mutex = e.mutex) : (s.modifyFtab i g).Held i := by
  refine ⟨h.table, fun j e he => ?_⟩
  simp only [Files.modifyFtab, List.getElem?_modify] at he
  obtain ⟨a, ha, rfl⟩ := Option.map_eq_some_iff.mp he
  rw [← h.entries j a ha]
  split_ifs
  · rw [hg]
  · exact Iff.rfl

theorem Files.Held.calls (h : s.Held i) (cs : List HookCall) : ({ s with calls := cs } : Files).Held i := ⟨h.table, h.entries⟩

/-- Both mutexes are released. -/
theorem Files.Held.release (h : s.Held i) :
    ({ s.modifyFtab i (fun e => { e with mutex := false }) with ftabMutex := false } : Files).Free := by
  refine ⟨rfl, fun j e he => ?_⟩
  simp only [Files.modifyFtab, List.getElem?_modify] at he
  obtain ⟨a, ha, rfl⟩ := Option.map_eq_some_iff.mp he
  split_ifs with hij
  · rfl
  · rw [Bool.eq_false_iff]
    exact fun hm => hij ((h.entries j a ha).mp hm).symm

theorem vfsOpen_refuses {b : Bool} (h : vfsOpen (some node) read write s = some (b, t)) :
    b = false ↔ Refuses s node read write := by
  obtain ⟨u, s', hu, h⟩ := Comp.bind_eq_some.mp h
  rw [vfsTraverseSymlink, Comp.readOr_apply, Option.map_eq_some_iff] at hu
  obtain ⟨a, ha, hau⟩ := hu
  cases hau
  have hno : (∀ v g, u = some v → (s.nodes v).openHook = some g → g read write = true) → ¬ Refuses s node read write := by
    rintro hall ⟨v, g, hv, hg, hfalse⟩
    have htrue := hall v g (Option.some.inj (ha.symm.trans hv)) hg
    rw [hfalse] at htrue
    cases htrue
  cases u with
  | none =>
    cases h
    exact ⟨by simp, fun hr => absurd hr (hno (by simp))⟩
  | some v =>
    simp only [Comp.read_bind] at h
    cases hh : (s.nodes v).openHook with
    | none =>
      rw [hh] at h
      cases h
      refine ⟨by simp, fun hr => absurd hr (hno fun w g hw hg => ?_)⟩
      cases hw
      rw [hh] at hg
      cases hg
    | some g =>
      rw [hh] at h
      cases h
      refine ⟨fun hfalse => ⟨v, g, ha, hh, hfalse⟩, ?_⟩
      rintro ⟨w, g', hw, hg', hfalse⟩
      obtain rfl : v = w := Option.some.inj (Option.some.inj (ha.symm.trans hw))
      obtain rfl : g = g' := Option.some.inj (hh.symm.trans hg')
      exact hfalse

/-- The first open of a node that refuses keeps both mutexes. -/
theorem ftabOpenFirst_frees (h : s.Held i) (hrun : ftabOpenFirst i node proc read write excl s = some (res, t)) :
    t.Free ↔ ¬ Refuses s node read write := by
  obtain ⟨ok, u, hv, hrun⟩ := Comp.bind_eq_some.mp hrun
  have hu : u.Held i := by
    obtain ⟨cs, rfl, -⟩ := vfsOpen_run hv
    exact h.calls _
  rw [← vfsOpen_refuses hv]
  cases ok with
  | false =>
    cases hrun
    exact ⟨fun hf => absurd hf hu.not_free, fun hn => absurd rfl hn⟩
  | true =>
    cases hrun
    refine ⟨fun _ => nofun, fun _ => ?_⟩
    exact (hu.modify (g := fun e => { e with
      node := some node, read := read, write := write, refs := 1
      excl := if excl then some proc else none }) fun _ => rfl).release

/-- Another open of a node releases both mutexes. -/
theorem ftabOpenAgain_frees {e : Ftab} (h : s.Held i) (hrun : ftabOpenAgain i node proc e read write excl s = some (res, t)) :
    t.Free := by
  unfold ftabOpenAgain at hrun
  split_ifs at hrun with h1 h2
  · cases hrun
    exact h.release
  · cases hrun
    exact h.release
  · obtain ⟨ok, u, hv, hrun⟩ := Comp.bind_eq_some.mp hrun
    have hu : u.Held i := by
      split_ifs at hv
      · obtain ⟨cs, rfl, -⟩ := vfsOpen_run hv
        exact h.calls _
      · cases hv
        exact h
    cases ok with
    | false =>
      cases hrun
      exact hu.release
    | true =>
      cases hrun
      exact (hu.modify (g := fun a => { a with
        read := read || e.read, write := write || e.write, refs := refsInc a.refs }) fun _ => rfl).release

/-- The mutex of an entry is taken with that of the table. -/
theorem Files.Free.acquire (h : s.Free) (i : ℕ) :
    (({ s with ftabMutex := true } : Files).modifyFtab i fun e => { e with mutex := true }).Held i := by
  refine ⟨rfl, fun j e he => ?_⟩
  simp only [Files.modifyFtab, List.getElem?_modify] at he
  obtain ⟨a, ha, rfl⟩ := Option.map_eq_some_iff.mp he
  have hfree := h.entries j a ha
  split_ifs with hij
  · exact ⟨fun _ => hij.symm, fun _ => rfl⟩
  · simp only [hfree, Bool.false_eq_true, false_iff]
    exact fun hji => hij hji.symm

/-- A table that grows has no mutex more that is held. -/
theorem Files.Free.grow (h : s.Free) (base calls : ℕ) : ({ s with
    ftabCalls := calls
    ftab := s.ftab ++ List.replicate ftabAllocSz ftabZero
    ftabBase := base } : Files).Free := by
  refine ⟨h.table, fun j e he => ?_⟩
  obtain hmem | hmem := List.mem_append.mp (List.mem_of_getElem? he)
  · obtain ⟨k, hk⟩ := List.mem_iff_getElem?.mp hmem
    exact h.entries k e hk
  · rw [List.eq_of_mem_replicate hmem]
    rfl

/-- The slot that `ftab_open` works in, with the table that has it. -/
theorem ftabOpen_slot {i : ℕ} {e : Ftab} {u : Files} (h : u.Free) (hi : u.ftab[i]? = some e)
    (hnodes : u.nodes = s.nodes) (hrun : (do
      ftabEntAcquire i
      let e ← Comp.readOr fun s => s.ftab[i]?
      if e.node = none then ftabOpenFirst i node proc read write excl
      else ftabOpenAgain i node proc e read write excl) { u with ftabMutex := true } = some (res, t)) :
    t.Free ↔ ¬ (e.node = none ∧ Refuses s node read write) := by
  obtain ⟨_, v, ha, hrun⟩ := Comp.bind_eq_some.mp hrun
  obtain ⟨-, rfl⟩ := ftabEntAcquire_run ha
  have hheld := h.acquire i
  have hget : (({ u with ftabMutex := true } : Files).modifyFtab i fun e => { e with mutex := true }).ftab[i]? =
      some { e with mutex := true } := by
    simp [Files.modifyFtab, hi]
  rw [Comp.bind_of_eq (by rw [Comp.readOr_apply, hget]; rfl)] at hrun
  have hrefuses : Refuses (({ u with ftabMutex := true } : Files).modifyFtab i fun e => { e with mutex := true }) node read
      write ↔ Refuses s node read write := by
    unfold Refuses
    change (∃ v h, traverseSymlink u.nodes symlinkFuel (some node) = some (some v) ∧ (u.nodes v).openHook = some h ∧
      h read write = false) ↔ _
    rw [hnodes]
  by_cases hnode : e.node = none
  · rw [if_pos hnode] at hrun
    rw [ftabOpenFirst_frees hheld hrun, hrefuses]
    simp [hnode]
  · rw [if_neg hnode] at hrun
    refine ⟨fun _ hno => hnode hno.1, fun _ => ftabOpenAgain_frees hheld hrun⟩

/-- `ftab_open` leaves no mutex held but where it opens a node for the first time and the node refuses. -/
theorem ftabOpen_frees (h : s.Free) (hrun : ftabOpen node proc read write excl s = some (res, t)) :
    t.Free ↔ ¬ (FirstOpen s node ∧ Refuses s node read write) := by
  obtain ⟨_, s₁, ha, hrun⟩ := Comp.bind_eq_some.mp hrun
  obtain ⟨-, rfl⟩ := ftabAcquire_run ha
  rw [Comp.read_bind, show ftabSearch { s with ftabMutex := true } node = ftabSearch s node from rfl] at hrun
  cases hsearch : ftabSearch s node with
  | some i =>
    simp only [hsearch, Comp.pure_bind] at hrun
    obtain ⟨hi, -, -⟩ := List.findIdx?_eq_some_iff_getElem.mp hsearch
    rw [ftabOpen_slot h (List.getElem?_eq_getElem hi) rfl hrun]
    have hfirst : FirstOpen s node ↔ s.ftab[i].node = none := by
      constructor
      · rintro (⟨j, e, hj, he, hnode⟩ | ⟨hnone, -⟩)
        · obtain rfl : i = j := Option.some.inj (hsearch.symm.trans hj)
          obtain rfl : s.ftab[i] = e := Option.some.inj ((List.getElem?_eq_getElem hi).symm.trans he)
          exact hnode
        · rw [hsearch] at hnone
          cases hnone
      · exact fun hnode => Or.inl ⟨i, _, hsearch, List.getElem?_eq_getElem hi, hnode⟩
    rw [hfirst]
  | none =>
    simp only [hsearch] at hrun
    cases hb : s.ftabHeap s.ftabCalls with
    | none =>
      have hgrow : ftabGrow { s with ftabMutex := true } =
          some (none, { s with ftabMutex := true, ftabCalls := s.ftabCalls + 1 }) := by
        simp only [ftabGrow, Comp.read_bind, ftabRealloc, Comp.bind_assoc, Comp.modify_bind, Comp.pure_bind, hb]
        rfl
      rw [Comp.bind_of_eq hgrow] at hrun
      cases hrun
      have hnot : ¬ FirstOpen s node := by
        rintro (⟨j, e, hj, -⟩ | ⟨-, hne⟩)
        · rw [hsearch] at hj
          cases hj
        · exact hne hb
      exact ⟨fun _ hno => hnot hno.1, fun _ => ⟨rfl, h.entries⟩⟩
    | some base =>
      have hgrow : ftabGrow { s with ftabMutex := true } = some (some s.ftab.length, { s with
          ftabMutex := true
          ftabCalls := s.ftabCalls + 1
          ftab := s.ftab ++ List.replicate ftabAllocSz ftabZero
          ftabBase := base }) := by
        simp only [ftabGrow, Comp.read_bind, ftabRealloc, Comp.bind_assoc, Comp.modify_bind, Comp.pure_bind, hb]
        rfl
      rw [Comp.bind_of_eq hgrow] at hrun
      have hi : (s.ftab ++ List.replicate ftabAllocSz ftabZero)[s.ftab.length]? = some ftabZero := by
        rw [List.getElem?_append_right (Nat.le_refl _), Nat.sub_self]
        rfl
      rw [ftabOpen_slot (s := s) (h.grow base (s.ftabCalls + 1)) hi rfl hrun]
      have hfirst : FirstOpen s node := Or.inr ⟨hsearch, by simp [hb]⟩
      exact not_congr ⟨fun hr => ⟨hfirst, hr.2⟩, fun hr => ⟨rfl, hr.2⟩⟩

/-- No mutex is held but that of entry `i`. -/
structure Files.FreeBut (s : Files) (i : ℕ) : Prop where
  table : s.ftabMutex = false
  entries : ∀ (j : ℕ) (e : Ftab), s.ftab[j]? = some e → j ≠ i → e.mutex = false

theorem Files.FreeBut.modify (h : s.FreeBut i) (g : Ftab → Ftab) : (s.modifyFtab i g).FreeBut i := by
  refine ⟨h.table, fun j e he hj => ?_⟩
  simp only [Files.modifyFtab, List.getElem?_modify, if_neg (Ne.symm hj)] at he
  obtain ⟨a, ha, rfl⟩ := Option.map_eq_some_iff.mp he
  exact h.entries j a ha hj

theorem Files.FreeBut.calls (h : s.FreeBut i) (cs : List HookCall) : ({ s with calls := cs } : Files).FreeBut i :=
  ⟨h.table, h.entries⟩

theorem Files.FreeBut.release (h : s.FreeBut i) : (s.modifyFtab i fun e => { e with mutex := false }).Free := by
  refine ⟨h.table, fun j e he => ?_⟩
  simp only [Files.modifyFtab, List.getElem?_modify] at he
  obtain ⟨a, ha, rfl⟩ := Option.map_eq_some_iff.mp he
  split_ifs with hij
  · rfl
  · exact h.entries j a ha (Ne.symm hij)

/-- `ftab_close` leaves no mutex held. -/
theorem ftabClose_frees {p : FtabPtr} (h : s.Free) (hrun : ftabClose p proc s = some ((), t)) : t.Free := by
  obtain ⟨e, s', he, hrun⟩ := Comp.bind_eq_some.mp hrun
  rw [ftabDeref, Comp.readOr_apply, Option.map_eq_some_iff] at he
  obtain ⟨a, -, hau⟩ := he
  cases hau
  split_ifs at hrun
  · cases hrun
    exact h
  obtain ⟨_, u, ha, hrun⟩ := Comp.bind_eq_some.mp hrun
  obtain ⟨-, rfl⟩ := ftabEntAcquire_run ha
  have hs : s.FreeBut p.idx := ⟨h.table, fun j e he _ => h.entries j e he⟩
  rw [Comp.modify_bind] at hrun
  obtain ⟨_, v, hv, hrun⟩ := Comp.bind_eq_some.mp hrun
  have hu := (hs.modify fun e => { e with mutex := true }).modify fun b => { b with refs := refsDec e.refs }
  cases hrun
  apply Files.FreeBut.release
  unfold Comp.when at hv
  split_ifs at hv
  · obtain ⟨_, w, hclose, hw⟩ := Comp.bind_eq_some.mp hv
    obtain ⟨cs, rfl, -⟩ := vfsClose_run hclose
    cases hw
    exact (hu.calls _).modify _
  · cases hv
    exact hu

/-- From a table with all mutexes free, `ftab_open` comes to one with all mutexes free, and a call that fails leaves every
entry as it was, exactly where it does not open the node for the first time against the will of its device; `ftab_close`
leaves all mutexes free in every case. -/
theorem ftab_locks_balanced_iff (h : s.Free) :
    (∀ node proc read write excl res t, ftabOpen node proc read write excl s = some (res, t) →
      ((t.Free ∧ (res = none → ∀ i e, s.ent i = some e → t.ent i = some e)) ↔
        ¬ (FirstOpen s node ∧ Refuses s node read write))) ∧
      ∀ p proc t, ftabClose p proc s = some ((), t) → t.Free := by
  refine ⟨fun node proc read write excl res t hrun => ?_, fun p proc t hrun => ftabClose_frees h hrun⟩
  rw [← ftabOpen_frees h hrun]
  refine ⟨And.left, fun hf => ⟨hf, fun hres i e he => ?_⟩⟩
  have hstep := ftabOpen_step hrun
  rw [hres] at hstep
  cases hstep with
  | refused hg _ =>
    obtain heq | ⟨hnone, -⟩ := hg.ent i
    · rw [heq, he]
    · rw [hnone] at he
      cases he

end Locks

/-- An empty table, and nodes with a device that refuses to be opened. -/
def refusingSample : Files :=
  { filesSample with nodes := fun _ => ⟨vfsFile, 0, none, false, none, none, some fun _ _ => false, false⟩ }

theorem refusingSample_free : refusingSample.Free := ⟨rfl, fun _ _ he => nomatch he⟩

theorem ftab_locks_balanced_sample :
    (∀ node proc read write excl res t, ftabOpen node proc read write excl refusingSample = some (res, t) →
      ((t.Free ∧ (res = none → ∀ i e, refusingSample.ent i = some e → t.ent i = some e)) ↔
        ¬ (FirstOpen refusingSample node ∧ Refuses refusingSample node read write))) ∧
      ∀ p proc t, ftabClose p proc refusingSample = some ((), t) → t.Free :=
  ftab_locks_balanced_iff refusingSample_free

/-- A refused first open keeps the mutex of the table, and the next open of any node waits for it forever. -/
theorem ftab_open_keeps_mutex : ∃ t, ftabOpen 11 1 true false false refusingSample = some (none, t) ∧ ¬ t.Free ∧
    ftabOpen 12 1 true false false t = none := by
  have hrun : (ftabOpen 11 1 true false false refusingSample).map Prod.fst = some none := by decide +kernel
  refine ⟨_, run_after hrun, fun hf => ?_, by decide +kernel⟩
  have hheld : (after (ftabOpen 11 1 true false false) refusingSample).ftabMutex = true := by decide +kernel
  rw [hf.table] at hheld
  cases hheld

end SysX
