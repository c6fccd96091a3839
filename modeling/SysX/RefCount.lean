import SysX.Processes
import SysX.Pointers

/-!
Reference counts of the file table over whole runs: opening and closing, making, forking and deleting
processes.
-/
namespace SysX

/-- Every entry counts exactly the descriptors of live processes that refer to it. -/
structure Counted (s : Files) : Prop extends FdInv s where
  exact : ∀ i, s.refsOf i = s.slotCount i

/-- No file is closed, and no entry loses a descriptor. -/
structure CountsUp (s t : Files) : Prop where
  closes : t.closes = s.closes
  slots : ∀ i, s.slotCount i ≤ t.slotCount i

theorem CountsUp.refl (s : Files) : CountsUp s s := ⟨rfl, fun _ => le_refl _⟩

theorem CountsUp.trans {s t u : Files} (h : CountsUp s t) (h' : CountsUp t u) : CountsUp s u :=
  ⟨h'.closes.trans h.closes, fun i => (h.slots i).trans (h'.slots i)⟩

/-- The block that the first of `k` attempts to grow the table gets. -/
def Files.growBlock (s : Files) (k : ℕ) : Option ℕ :=
  (List.range k).findSome? fun n => s.ftabHeap (s.ftabCalls + n)

/-- `FdOpenOk` for `k` opens of one node in a row. -/
structure FdOpensOk (s : Files) (node k : ℕ) : Prop where
  base : ftabSearch s node = none → ∀ b, s.growBlock k = some b → b = s.ftabBase ∨ s.NoSlots
  refs : ∀ i e, ftabSearch s node = some i → s.ent i = some e → e.node = some node →
    e.refs + k < ftabRefsMod

section

variable {s t u : Files} {proc node fd i k : ℕ} {dup read write append excl : Bool} {r : Option ℕ}
  {res : Option FtabPtr}

theorem growBlock_succ (s : Files) (k : ℕ) : s.growBlock (k + 1) =
    (s.ftabHeap s.ftabCalls).or
      ((List.range k).findSome? fun n => s.ftabHeap (s.ftabCalls + 1 + n)) := by
  rw [Files.growBlock, List.range_succ_eq_map, List.findSome?_cons, List.findSome?_map]
  cases h : s.ftabHeap s.ftabCalls with
  | none => simp [Function.comp_def, Nat.add_assoc, Nat.add_comm 1]
  | some b => simp

theorem FdOpensOk.first (h : FdOpensOk s node (k + 1)) : FdOpenOk s node := by
  constructor
  · intro hf b hb
    exact h.base hf b (by rw [growBlock_succ, hb]; rfl)
  · intro i e hf he hn
    have := h.refs i e hf he hn
    omega

theorem OpenStep.closes (h : OpenStep s node proc read write excl res t) : t.closes = s.closes := by
  cases h with
  | refused hg => exact hg.closes
  | first hg _ _ hc => exact hc.trans hg.closes
  | again _ _ hc => exact hc

theorem Grown.before (hg : Grown node s t) (hlt : ∀ j < i, ∀ e, t.ent j = some e →
    e.node ≠ none ∧ e.node ≠ some node) :
    ∀ j < i, ∀ e, s.ent j = some e → e.node ≠ none ∧ e.node ≠ some node := by
  intro j hj e he
  rcases hg.ent j with h | ⟨h, -⟩
  · exact hlt j hj e (h ▸ he)
  · rw [h] at he
    cases he

/-- A node that was opened is found where it was opened. -/
theorem OpenStep.found {p : FtabPtr} (h : OpenStep s node proc read write excl (some p) t) :
    ftabSearch t node = some p.idx := by
  cases h with
  | @first u _ i a hg _ _ _ _ _ _ hlt ht =>
    refine ftabSearch_of_ent (e := firstEnt node proc read write excl)
      (by rw [ht, Function.update_self]) (.inr rfl) fun j hj e he => ?_
    obtain ⟨b, hb, hn, hne⟩ := hlt j hj
    rw [ht, Function.update_of_ne (Nat.ne_of_lt hj), (hg.used hn).mpr hb] at he
    cases he
    exact ⟨hn, hne⟩
  | @again _ i a _ _ _ _ hn _ _ hf ht =>
    refine ftabSearch_of_ent (e := againEnt a read write) (by rw [ht, Function.update_self])
      (.inr hn) fun j hj e he => ?_
    rw [ht, Function.update_of_ne (Nat.ne_of_lt hj)] at he
    exact (ftabSearch_some hf).2 j hj e he

/-- After one open of a node, the next ones are fine too. -/
theorem FdOpensOk.next (h : FdOpensOk s node (k + 1)) (hk : k + 1 < ftabRefsMod)
    (ho : OpenStep s node proc read write excl res t) (hent : u.ent = t.ent)
    (hb : u.ftabBase = t.ftabBase) (hcalls : u.ftabCalls = t.ftabCalls)
    (hheap : u.ftabHeap = t.ftabHeap) (hslots : res = none → s.NoSlots → u.NoSlots) :
    FdOpensOk u node k := by
  have hsearch := ftabSearch_congr hent node
  constructor
  · rw [hsearch, hb]
    intro hf b hgrow
    cases ho with
    | refused hg =>
      obtain ⟨hs, hnone, hbase, hc⟩ := hg.full hf
      rw [hbase]
      refine (h.base hs b ?_).imp_right (hslots rfl)
      rw [growBlock_succ, hnone, ← hc, ← hg.same.ftabHeap, ← hheap, ← hcalls]
      exact hgrow
    | first hg hu hb' hc hi he hres hlt ht =>
      have := (OpenStep.first hg hu hb' hc hi he hres hlt ht).found
      rw [hf] at this
      cases this
    | again hs hb' hc hi he hx hexcl hf' ht =>
      have := (OpenStep.again hs hb' hc hi he hx hexcl hf' ht).found
      rw [hf] at this
      cases this
  · rw [hsearch, hent]
    intro i e hf he hn
    cases ho with
    | refused hg =>
      have hs := (hg.used (by simp [hn])).mp he
      have hlt := h.refs i e (ftabSearch_of_ent hs (.inr hn) (hg.before (ftabSearch_some hf).2))
        hs hn
      omega
    | first hg hu hb' hc hi ha hres hlt ht =>
      have hfound := (OpenStep.first hg hu hb' hc hi ha hres hlt ht).found
      rw [hf] at hfound
      cases hfound
      rw [ht, Function.update_self] at he
      cases he
      have hr : (firstEnt node proc read write excl).refs = 1 := rfl
      omega
    | @again _ j a hs hb' hc hi ha hx hexcl hf' ht =>
      have hfound := (OpenStep.again hs hb' hc hi ha hx hexcl hf' ht).found
      rw [hf] at hfound
      cases hfound
      rw [ht, Function.update_self] at he
      cases he
      have hlt := h.refs _ _ hf' hi ha
      have hr : (againEnt a read write).refs = a.refs + 1 := refsInc_of_lt (by omega)
      omega

/-! Opening and closing descriptors. -/

theorem fdSearch_old {l : List Fd} {p : FtabPtr} {f : Fd}
    (hl : l = s.fds proc ∨ l = s.fds proc ++ List.replicate procFdsAllocSz fdZero)
    (hs : fdSearch l dup p = some i) (hi : l[i]? = some f)
    (hempty : ∀ k f, fdSearch (s.fds proc) dup p = some k → (s.fds proc)[k]? = some f →
      f.ftab = none) : f.ftab = none := by
  rcases hl with rfl | rfl
  · exact hempty i f hs hi
  · cases hf : fdSearch (s.fds proc) dup p with
    | some k =>
      have hik : i = k := by
        unfold fdSearch at hs hf
        rw [List.findIdx?_append, hf] at hs
        exact (Option.some.inj hs).symm
      obtain ⟨hlt, -⟩ := List.findIdx?_eq_some_iff_getElem.mp hf
      rw [hik, List.getElem?_append_left hlt] at hi
      exact hempty k f hf hi
    | none =>
      have hlen := fdSearch_grown hf
      rw [hs] at hlen
      cases hlen
      rw [List.getElem?_append_right (Nat.le_refl _), Nat.sub_self] at hi
      cases hi
      rfl

/-- How the counts change when an empty slot is filled. -/
theorem FdInv.slotCount_filled {p : FtabPtr} {l : List Fd} (h : FdInv s) (hp : proc ∈ s.live)
    (hok : FdOpenOk s node) (ho : OpenStep s node proc read write excl (some p) u)
    (hl : l = s.fds proc ∨ l = s.fds proc ++ List.replicate procFdsAllocSz fdZero)
    (hs : fdSearch l dup p = some i) (append : Bool)
    (hempty : ∀ k f, fdSearch (s.fds proc) dup p = some k → (s.fds proc)[k]? = some f →
      f.ftab = none) (j : ℕ) :
    (u.setFds proc (l.set i (fdOpened p read write append))).slotCount j =
      s.slotCount j + if j = p.idx then 1 else 0 := by
  obtain ⟨⟨e, hopen⟩, -⟩ := ho.opened hok
  obtain ⟨f, hi, -⟩ := fdSearch_some hs
  have hf := fdSearch_old hl hs hi hempty
  rw [← ho.same.fds] at hl
  have hset := slotCount_opened (ho.same.live ▸ h.live) (ho.same.live ▸ hp) hopen.base hl hi read
    write append j
  rw [ho.slotCount hok] at hset
  have hrf : u.refersTo j f = false := by simp [Files.refersTo, hf]
  rw [hrf] at hset
  simpa using hset

theorem Counted.refusedStep (h : Counted s) (hok : FdOpenOk s node)
    (ho : OpenStep s node proc read write excl none t) : Counted t ∧ CountsUp s t := by
  have hc := ho.slotCount hok
  refine ⟨⟨h.toFdInv.openStep hok ho, fun i => ?_⟩, ho.closes, fun i => (hc i).ge⟩
  cases ho with
  | refused hg => rw [hg.refsOf, hc, h.exact]

/-- An open that fills an empty slot counts. -/
theorem Counted.fdOpenStep (h : Counted s) (hp : proc ∈ s.live) (hok : FdOpenOk s node)
    (hroom : ∀ p t, OpenStep s node proc read write excl (some p) t →
      fdSearch (s.fds proc) dup p = none → s.otherHeap s.otherCalls = true)
    (hempty : ∀ p t, OpenStep s node proc read write excl (some p) t →
      ∀ k f, fdSearch (s.fds proc) dup p = some k → (s.fds proc)[k]? = some f → f.ftab = none)
    (hstep : FdOpenStep s proc node dup read write append excl r t) :
    Counted t ∧ CountsUp s t := by
  have inv := h.toFdInv.fdOpenStep hp hok hstep
  cases hstep with
  | refused ho => exact h.refusedStep hok ho
  | full ho hs hh =>
    rw [hroom _ _ ho hs] at hh
    cases hh
  | @opened u p i l n ho hl hs =>
    have hrefs := (ho.opened hok).2
    have hslots := h.toFdInv.slotCount_filled hp hok ho (hl.imp And.left And.left) hs append
      (hempty p u ho)
    refine ⟨⟨inv, fun j => ?_⟩, ho.closes, fun j => ?_⟩
    · have hj := hslots j
      have hj' := hrefs j
      have hx := h.exact j
      change u.refsOf j = (u.setFds proc (l.set i (fdOpened p read write append))).slotCount j
      omega
    · have hj := hslots j
      change s.slotCount j ≤ (u.setFds proc (l.set i (fdOpened p read write append))).slotCount j
      omega

/-- The entries whose last descriptor a step takes away are freed, each with one call of `vfs_close`,
and no other file is closed. -/
def FreesExactly (s t : Files) : Prop :=
  ∃ freed : List ℕ, freed.Nodup ∧ (∀ i, i ∈ freed ↔ 0 < s.slotCount i ∧ t.slotCount i = 0) ∧
    (∀ i ∈ freed, t.ent i = some ftabZero) ∧
    t.closes = s.closes ++ freed.map fun i => (s.ent i).bind (·.node)

theorem CountsUp.frees (h : CountsUp s t) : FreesExactly s t := by
  refine ⟨[], List.nodup_nil, fun i => ?_, nofun, by simp [h.closes]⟩
  have := h.slots i
  simp only [List.not_mem_nil, false_iff]
  omega

theorem Counted.fdCloseStep (h : Counted s) (hp : proc ∈ s.live) (hstep : FdCloseStep s proc fd t) :
    Counted t ∧ FreesExactly s t := by
  have inv := h.toFdInv.fdCloseStep hp hstep
  cases hstep with
  | dead => exact ⟨h, (CountsUp.refl s).frees⟩
  | @closed f p u hg hb hc =>
    obtain ⟨⟨e, hclosed⟩, hslots⟩ := h.toFdInv.closed hp hg hc
    have hexact : ∀ j, u.refsOf j =
        (u.setFds proc ((s.fds proc).set fd fdZero)).slotCount j := by
      intro j
      have h1 := hslots j
      have h2 := hclosed.refs j
      have h3 := h.exact j
      omega
    refine ⟨⟨inv, hexact⟩, ?_⟩
    by_cases hz : u.refsOf p.idx = 0
    · refine ⟨[p.idx], by simp, fun j => ?_, fun j hj => ?_, ?_⟩
      · rw [List.mem_singleton, ← hexact]
        have h1 := hslots j
        have h2 := hexact j
        constructor
        · rintro rfl
          rw [if_pos rfl] at h1
          exact ⟨by omega, hz⟩
        · rintro ⟨hpos, h0⟩
          by_contra hj
          rw [if_neg hj] at h1
          omega
      · rw [List.mem_singleton] at hj
        subst hj
        exact hclosed.freed hz
      · have hclose := hclosed.closes
        rw [if_pos hz] at hclose
        change u.closes = _
        simpa [hclosed.ent] using hclose
    · refine ⟨[], List.nodup_nil, fun j => ?_, nofun, ?_⟩
      · simp only [List.not_mem_nil, false_iff, ← hexact]
        have h1 := hslots j
        have h2 := hexact j
        rintro ⟨hpos, h0⟩
        by_cases hj : j = p.idx
        · subst hj
          exact hz h0
        · rw [if_neg hj] at h1
          omega
      · have hclose := hclosed.closes
        rw [if_neg hz] at hclose
        change u.closes = _
        simpa using hclose

/-! Making a process. -/

/-- There is room for `k` more descriptors, if need be after the list has grown once. -/
def StdRoom (s : Files) (proc k : ℕ) : Prop :=
  s.fds proc = [] ∧ s.otherHeap s.otherCalls = true ∧ k ≤ procFdsAllocSz ∨
    k ≤ (s.fds proc).countP fun f => f.ftab = none

theorem StdRoom.room {p : FtabPtr} (h : StdRoom s proc (k + 1))
    (hs : fdSearch (s.fds proc) dup p = none) : s.otherHeap s.otherCalls = true := by
  rcases h with ⟨-, hh, -⟩ | hk
  · exact hh
  · obtain ⟨f, hf, hn⟩ := List.countP_pos_iff.mp (Nat.lt_of_lt_of_le (Nat.succ_pos k) hk)
    have := List.findIdx?_eq_none_iff.mp hs f hf
    rw [decide_eq_true_eq] at hn
    simp [hn] at this

theorem StdRoom.next (h : StdRoom s proc (k + 1))
    (hstep : FdOpenStep s proc node dup read write append excl r t) : StdRoom t proc k := by
  cases hstep with
  | refused ho =>
    unfold StdRoom
    rw [ho.same.fds, ho.same.otherHeap, ho.same.otherCalls]
    exact h.imp (fun ⟨hf, hh, hk⟩ => ⟨hf, hh, by omega⟩) fun hk => by omega
  | full ho hs hh =>
    rw [h.room hs] at hh
    cases hh
  | @opened u p i l n ho hl hs =>
    obtain ⟨f, hi, -⟩ := fdSearch_some hs
    obtain ⟨hlt, hf⟩ := List.getElem?_eq_some_iff.mp hi
    have hcount : k + 1 ≤ l.countP fun f => f.ftab = none := by
      rcases h with ⟨hnil, -, hk⟩ | hk
      · rw [hnil] at hl
        rcases hl with ⟨rfl, -⟩ | ⟨rfl, -⟩
        · cases hi
        · simpa [List.countP_replicate, fdZero] using hk
      · rcases hl with ⟨rfl, -⟩ | ⟨rfl, -⟩
        · exact hk
        · rw [List.countP_append]
          omega
    have hset := List.countP_set (p := fun f : Fd => decide (f.ftab = none))
      (a := fdOpened p read write append) hlt
    right
    change k ≤ (Function.update u.fds proc (l.set i (fdOpened p read write append)) proc).countP
      fun f => f.ftab = none
    rw [Function.update_self, hset]
    split_ifs <;> omega

/-- The process table, the nodes and the descriptors of the other processes stay. -/
structure SameProcs (s t : Files) (proc : ℕ) : Prop where
  pidtab : t.pidtab = s.pidtab
  pid : t.pid = s.pid
  nodes : t.nodes = s.nodes
  devConsole : t.devConsole = s.devConsole
  fds : ∀ q ≠ proc, t.fds q = s.fds q

theorem SameProcs.trans (h : SameProcs s t proc) (h' : SameProcs t u proc) : SameProcs s u proc :=
  ⟨h'.pidtab.trans h.pidtab, h'.pid.trans h.pid, h'.nodes.trans h.nodes,
    h'.devConsole.trans h.devConsole, fun q hq => (h'.fds q hq).trans (h.fds q hq)⟩

theorem SameProcs.live (h : SameProcs s t proc) : t.live = s.live := by
  rw [Files.live, h.pidtab]
  rfl

theorem FdOpenStep.procs (h : FdOpenStep s proc node dup read write append excl r t) :
    SameProcs s t proc := by
  cases h with
  | refused ho =>
    exact ⟨ho.same.pidtab, ho.same.pid, ho.same.nodes, ho.same.devConsole, fun q _ => by
      rw [ho.same.fds]⟩
  | full ho =>
    exact ⟨ho.same.pidtab, ho.same.pid, ho.same.nodes, ho.same.devConsole, fun q _ => by
      rw [ho.same.fds]⟩
  | opened ho =>
    exact ⟨ho.same.pidtab, ho.same.pid, ho.same.nodes, ho.same.devConsole, fun q hq =>
      (Function.update_of_ne hq _ _).trans (by rw [ho.same.fds])⟩

theorem FdCloseStep.procs (h : FdCloseStep s proc fd t) : SameProcs s t proc := by
  cases h with
  | dead => exact ⟨rfl, rfl, rfl, rfl, fun _ _ => rfl⟩
  | closed _ _ hc =>
    exact ⟨hc.same.pidtab, hc.same.pid, hc.same.nodes, hc.same.devConsole, fun q hq =>
      (Function.update_of_ne hq _ _).trans (by rw [hc.same.fds])⟩

/-- Whether the next opens of a node are fine is not affected by what an open does to the slots. -/
theorem FdOpensOk.nextFd (h : FdOpensOk s node (k + 1)) (hk : k + 1 < ftabRefsMod)
    (hstep : FdOpenStep s proc node dup read write append excl r t) : FdOpensOk t node k := by
  have noSlots : ∀ {u : Files}, s.SameBut u → s.NoSlots → u.NoSlots := by
    intro u hu hs
    unfold Files.NoSlots
    rw [hu.live, hu.fds]
    exact hs
  cases hstep with
  | refused ho => exact h.next hk ho rfl rfl rfl rfl fun _ => noSlots ho.same
  | full ho => exact h.next hk ho rfl rfl rfl rfl nofun
  | opened ho => exact h.next hk ho rfl rfl rfl rfl nofun

/-- One of the opens of the console for a new process. -/
theorem Counted.stdOpen (h : Counted s) (hp : proc ∈ s.live) (hok : FdOpensOk s node (k + 1))
    (hroom : StdRoom s proc (k + 1))
    (hstep : FdOpenStep s proc node true read write append excl r t) :
    Counted t ∧ CountsUp s t := by
  refine h.fdOpenStep hp hok.first (fun _ _ _ => hroom.room) (fun p _ _ j f hj hf => ?_) hstep
  obtain ⟨g, hg, hn⟩ := fdSearch_some hj
  rw [hf] at hg
  cases hg
  exact hn.resolve_right fun hn => by cases hn.1

/-- The opens of the console for a new process do not disturb the counts. -/
theorem Counted.stdOpens {u₀ u₁ u₂ u₃ : Files} {r₁ r₂ r₃ : Option ℕ} (h : Counted u₀)
    (hp : proc ∈ u₀.live) (hok : FdOpensOk u₀ node 3) (hroom : StdRoom u₀ proc 3)
    (h₁ : FdOpenStep u₀ proc node true true false false false r₁ u₁)
    (h₂ : FdOpenStep u₁ proc node true false true false false r₂ u₂)
    (h₃ : FdOpenStep u₂ proc node true false true false false r₃ u₃) :
    Counted u₃ ∧ CountsUp u₀ u₃ ∧ SameProcs u₀ u₃ proc := by
  have hmod : 3 < ftabRefsMod := by decide +kernel
  obtain ⟨c₁, up₁⟩ := h.stdOpen hp hok hroom h₁
  have hp₁ : proc ∈ u₁.live := h₁.procs.live ▸ hp
  have hok₁ := hok.nextFd hmod h₁
  have hroom₁ := hroom.next h₁
  obtain ⟨c₂, up₂⟩ := c₁.stdOpen hp₁ hok₁ hroom₁ h₂
  have hp₂ : proc ∈ u₂.live := h₂.procs.live ▸ hp₁
  obtain ⟨c₃, up₃⟩ := c₂.stdOpen hp₂ (hok₁.nextFd (by omega) h₂) (hroom₁.next h₂) h₃
  exact ⟨c₃, (up₁.trans up₂).trans up₃, (h₁.procs.trans h₂.procs).trans h₃.procs⟩

/-- The descriptors of one more process. -/
theorem slotCount_added {dst : ℕ} (hl : u.live.Perm (dst :: s.live))
    (hb : u.ftabBase = s.ftabBase) (hf : ∀ q ∈ s.live, u.fds q = s.fds q) (j : ℕ) :
    u.slotCount j = (u.fds dst).countP (s.refersTo j) + s.slotCount j := by
  rw [Files.slotCount, refersTo_congr hb, ownedCount_perm _ _ hl, ownedCount_cons, Files.slotCount]
  congr 1
  exact ownedCount_congr fun q hq => by rw [hf q hq]

theorem Added.fds_old (h : Added s u proc) (hn : proc ∉ s.live) : ∀ q ∈ s.live, u.fds q = s.fds q := by
  intro q hq
  rw [h.fds, Function.update_of_ne]
  rintro rfl
  exact hn hq

theorem Counted.added (h : Counted s) (ha : Added s u proc) (hn : proc ∉ s.live) :
    Counted u ∧ CountsUp s u := by
  have hslots : ∀ j, u.slotCount j = s.slotCount j := by
    intro j
    rw [slotCount_added ha.live ha.base (ha.fds_old hn), ha.fds, Function.update_self]
    simp
  have hrefs : ∀ j, u.refsOf j = s.refsOf j := fun j => refsOf_congr (by rw [ha.ent])
  refine ⟨⟨⟨?_, ?_, ?_, ?_⟩, ?_⟩, ha.closes, fun j => (hslots j).ge⟩
  · exact ha.live.nodup_iff.mpr (List.nodup_cons.mpr ⟨hn, h.live⟩)
  · intro p hp f hf q hq
    rcases List.mem_cons.mp (ha.live.mem_iff.mp hp) with rfl | hp
    · rw [ha.fds, Function.update_self] at hf
      cases hf
    · rw [ha.fds_old hn p hp] at hf
      rw [ha.base, ha.ent]
      exact h.valid p hp f hf q hq
  · intro j
    rw [hslots, hrefs]
    exact h.count j
  · rw [ha.ent]
    exact h.pos
  · intro j
    rw [hslots, hrefs, h.exact]

theorem Unmade.live (h : Unmade s t proc) : t.live = s.live := by
  rw [Files.live, h.pidtab]
  rfl

theorem Counted.unmade (h : Counted s) (hu : Unmade s t proc) (hn : proc ∉ s.live) :
    Counted t ∧ CountsUp s t := by
  have hfds : ∀ q ∈ s.live, t.fds q = s.fds q := fun q hq => hu.fds q fun he => hn (he ▸ hq)
  have hslots : ∀ j, t.slotCount j = s.slotCount j := by
    intro j
    rw [Files.slotCount, refersTo_congr hu.base, hu.live]
    exact ownedCount_congr fun q hq => by rw [hfds q hq]
  have hrefs : ∀ j, t.refsOf j = s.refsOf j := fun j => refsOf_congr (by rw [hu.ent])
  refine ⟨⟨⟨?_, ?_, ?_, ?_⟩, ?_⟩, hu.closes, fun j => (hslots j).ge⟩
  · rw [hu.live]
    exact h.live
  · intro p hp f hf q hq
    rw [hu.live] at hp
    rw [hfds p hp] at hf
    rw [hu.base, hu.ent]
    exact h.valid p hp f hf q hq
  · intro j
    rw [hslots, hrefs]
    exact h.count j
  · rw [hu.ent]
    exact h.pos
  · intro j
    rw [hslots, hrefs, h.exact]

/-- The table is not moved under descriptors in use, no count wraps, and the new process gets its
descriptors. -/
structure CreateOk (s : Files) : Prop where
  console : FdOpensOk s s.devConsole 3
  room : s.otherHeap (s.otherCalls + 1 + s.pidGrows) = true

theorem FdOpensOk.added (h : FdOpensOk s node k) (ha : Added s u proc) (hn : proc ∉ s.live) :
    FdOpensOk u node k := by
  have hsearch := ftabSearch_congr ha.ent node
  constructor
  · intro hf b hb
    rw [Files.growBlock, ha.ftabHeap, ha.ftabCalls] at hb
    rw [ha.base]
    refine (h.base (hsearch ▸ hf) b hb).imp_right fun hs p hp f hf' => ?_
    rcases List.mem_cons.mp (ha.live.mem_iff.mp hp) with rfl | hp
    · rw [ha.fds, Function.update_self] at hf'
      cases hf'
    · rw [ha.fds_old hn p hp] at hf'
      exact hs p hp f hf'
  · rw [hsearch, ha.ent]
    exact h.refs

theorem CreateOk.room_added (h : CreateOk s) (ha : Added s u proc) : StdRoom u proc 3 := by
  refine .inl ⟨by rw [ha.fds, Function.update_self], ?_, by decide⟩
  rw [ha.otherHeap, ha.otherCalls]
  exact h.room

/-- The counts, and a PID table that knows the processes; the console is a plain device. -/
structure ProcInv (s : Files) : Prop extends Counted s where
  pid : ∀ p ∈ s.live, s.pidtab[s.pid p]? = some (some p)
  plain : PlainNode s.nodes s.devConsole

theorem pid_added (h : ∀ p ∈ s.live, s.pidtab[s.pid p]? = some (some p)) (ha : Added s u proc)
    (hn : proc ∉ s.live) : ∀ p ∈ u.live, u.pidtab[u.pid p]? = some (some p) := by
  intro p hp
  rcases List.mem_cons.mp (ha.live.mem_iff.mp hp) with rfl | hp
  · exact ha.pid
  · rw [ha.pids p fun he => hn (he ▸ hp)]
    exact ha.kept _ p (h p hp)

theorem pid_same (h : ∀ p ∈ s.live, s.pidtab[s.pid p]? = some (some p)) (hs : SameProcs s t proc) :
    ∀ p ∈ t.live, t.pidtab[t.pid p]? = some (some p) := by
  rw [hs.live, hs.pidtab, hs.pid]
  exact h

theorem PlainNode.same (h : PlainNode s.nodes s.devConsole) (hs : SameProcs s t proc) :
    PlainNode t.nodes t.devConsole := by
  rw [hs.nodes, hs.devConsole]
  exact h

/-- `proc_create` keeps the counts. -/
theorem ProcInv.create {parent : Option ℕ} {vmmOk : Bool} (h : ProcInv s) (hn : s.nextProc ∉ s.live)
    (hok : ∀ q, r = some q → CreateOk s) (hr : procCreate parent vmmOk s = some (r, t)) :
    ProcInv t ∧ CountsUp s t := by
  rcases procCreate_run hr with ⟨-, hu⟩ | ⟨hq, u₀, u₁, u₂, u₃, r₁, r₂, r₃, f, ha, h₁, h₂, h₃, rfl⟩
  · obtain ⟨hc, hup⟩ := h.toCounted.unmade hu hn
    refine ⟨⟨hc, ?_, ?_⟩, hup⟩
    · rw [hu.live, hu.pidtab, hu.pid]
      exact h.pid
    · rw [hu.nodes, hu.devConsole]
      exact h.plain
  · have hcreate := hok _ hq
    obtain ⟨c₀, up₀⟩ := h.toCounted.added ha hn
    have hp : s.nextProc ∈ u₀.live := ha.live.mem_iff.mpr (List.mem_cons_self ..)
    obtain ⟨c₃, up₃, procs⟩ := c₀.stdOpens hp (hcreate.console.added ha hn) (hcreate.room_added ha)
      (procFdOpen_step h₁) (procFdOpen_step h₂) (procFdOpen_step h₃)
    have hpid := pid_same (pid_added h.pid ha hn) procs
    have hplain : PlainNode u₀.nodes u₀.devConsole := by
      rw [ha.nodes, ha.devConsole]
      exact h.plain
    have hplain₃ := hplain.same procs
    exact ⟨⟨⟨⟨c₃.live, c₃.valid, c₃.count, c₃.pos⟩, c₃.exact⟩, hpid, hplain₃⟩,
      (up₀.trans up₃).closes, (up₀.trans up₃).slots⟩

/-! Forking. -/

/-- The console is open as the entry `c`. -/
structure ConsoleAt (s : Files) (node c : ℕ) (e : Ftab) : Prop where
  found : ftabSearch s node = some c
  ent : s.ent c = some e
  node : e.node = some node

/-- Entries in use keep the process that holds them. -/
def SameExcl (s t : Files) : Prop :=
  ∀ j e, t.ent j = some e → e.node ≠ none → ∃ a, s.ent j = some a ∧ a.node ≠ none ∧ a.excl = e.excl

theorem SameExcl.trans (h : SameExcl s t) (h' : SameExcl t u) : SameExcl s u := by
  intro j e he hn
  obtain ⟨a, ha, hna, hx⟩ := h' j e he hn
  obtain ⟨b, hb, hnb, hx'⟩ := h j a ha hna
  exact ⟨b, hb, hnb, hx'.trans hx⟩

theorem Grown.sameExcl (hg : Grown node s t) : SameExcl s t :=
  fun _ e he hn => ⟨e, (hg.used hn).mp he, hn, rfl⟩

/-- A node that is open already does not get a new entry. -/
theorem ConsoleAt.again {e : Ftab} {c : ℕ} (h : ConsoleAt s node c e)
    (ho : OpenStep s node proc read write excl res t) :
    res = none ∧ Grown node s t ∧ t.ftabBase = s.ftabBase ∧ ConsoleAt t node c e ∨
    res = some ⟨t.ftabBase, c⟩ ∧ (e.excl = none ∨ e.excl = some proc) ∧ t.ftabBase = s.ftabBase ∧
      SameExcl s t ∧ ∃ e', ConsoleAt t node c e' ∧ e'.excl = e.excl := by
  have hsome : e.node ≠ none := by simp [h.node]
  have hbefore := (ftabSearch_some h.found).2
  cases ho with
  | refused hg =>
    have he := (hg.used hsome).mpr h.ent
    have hbase := hg.base.resolve_right fun hb => by
      rw [h.found] at hb
      cases hb.1
    refine .inl ⟨rfl, hg, hbase, ftabSearch_of_ent he (.inr h.node) fun j hj a ha => ?_, he, h.node⟩
    rcases hg.ent j with hj' | ⟨hj', -⟩
    · exact hbefore j hj a (hj' ▸ ha)
    · have hlt : s.ent c = none := by
        rw [Files.ent, Option.map_eq_none_iff, List.getElem?_eq_none_iff] at hj' ⊢
        omega
      rw [h.ent] at hlt
      cases hlt
  | @first u _ i a hg _ _ _ hi ha _ hlt ht =>
    exfalso
    rcases Nat.lt_trichotomy i c with hic | hic | hic
    · rcases hg.ent i with hi' | ⟨hi', -⟩
      · exact (hbefore i hic a (by rw [← hi', hi])).1 ha
      · have hnone : s.ent c = none := by
          rw [Files.ent, Option.map_eq_none_iff, List.getElem?_eq_none_iff] at hi' ⊢
          omega
        rw [h.ent] at hnone
        cases hnone
    · subst hic
      rw [(hg.used hsome).mpr h.ent] at hi
      cases hi
      exact hsome ha
    · obtain ⟨b, hb, -, hne⟩ := hlt c hic
      rw [h.ent] at hb
      cases hb
      exact hne h.node
  | @again _ i a hs hb hc hi hn hx hexcl hf ht =>
    rw [h.found] at hf
    cases hf
    rw [h.ent] at hi
    cases hi
    have hfound := (OpenStep.again hs hb hc h.ent hn hx hexcl h.found ht).found
    refine .inr ⟨rfl, hx, hb, fun j a ha hna => ?_, againEnt e read write, ⟨hfound, ?_, hn⟩, rfl⟩
    · by_cases hj : j = c
      · subst hj
        rw [ht, Function.update_self] at ha
        cases ha
        exact ⟨e, h.ent, hsome, rfl⟩
      · rw [ht, Function.update_of_ne hj] at ha
        exact ⟨a, ha, hna, rfl⟩
    · rw [ht, Function.update_self]

/-- One of the opens of the console where it is open for everyone. -/
theorem Counted.stdOpen_at {e : Ftab} {c : ℕ} (h : Counted s) (hp : proc ∈ s.live)
    (hok : FdOpensOk s node (k + 1)) (hroom : StdRoom s proc (k + 1)) (hc : ConsoleAt s node c e)
    (hx : e.excl = none) (hplain : PlainNode s.nodes node)
    (hstep : FdOpenStep s proc node true read write append false r t) :
    t.ftabBase = s.ftabBase ∧ SameExcl s t ∧ (∃ e', ConsoleAt t node c e' ∧ e'.excl = none) ∧
      ∀ j, t.slotCount j = s.slotCount j + if j = c then 1 else 0 := by
  cases hstep with
  | refused ho =>
    cases ho with
    | refused hg hr =>
      cases (hr hplain c e hc.found hc.ent hc.node (.inl hx)).1
  | full ho hs hh =>
    rw [hroom.room hs] at hh
    cases hh
  | @opened u p i l n ho hl hs =>
    rcases hc.again ho with ⟨hnone, -⟩ | ⟨hp', -, hb, hsame, e', hc', hx'⟩
    · cases hnone
    · cases hp'
      refine ⟨hb, hsame, ⟨e', ⟨hc'.found, hc'.ent, hc'.node⟩, hx'.trans hx⟩, ?_⟩
      refine h.toFdInv.slotCount_filled hp hok.first ho (hl.imp And.left And.left) hs append ?_
      intro j f hj hf
      obtain ⟨g, hg, hn⟩ := fdSearch_some hj
      rw [hf] at hg
      cases hg
      exact hn.resolve_right fun hn => by cases hn.1

/-- One of the opens of the console where another process holds it. -/
theorem ConsoleAt.shut {e : Ftab} {c : ℕ} (hc : ConsoleAt s node c e) (hx : e.excl ≠ none)
    (hx' : e.excl ≠ some proc)
    (hstep : FdOpenStep s proc node dup read write append excl r t) :
    t.ftabBase = s.ftabBase ∧ SameExcl s t ∧ ConsoleAt t node c e ∧ t.fds = s.fds := by
  cases hstep with
  | refused ho =>
    rcases hc.again ho with ⟨-, hg, hb, hc'⟩ | ⟨hnone, -⟩
    · exact ⟨hb, hg.sameExcl, hc', ho.same.fds⟩
    · cases hnone
  | full ho =>
    rcases hc.again ho with ⟨hnone, -⟩ | ⟨-, hadm, -⟩
    · cases hnone
    · exact absurd hadm (not_or.mpr ⟨hx, hx'⟩)
  | opened ho =>
    rcases hc.again ho with ⟨hnone, -⟩ | ⟨-, hadm, -⟩
    · cases hnone
    · exact absurd hadm (not_or.mpr ⟨hx, hx'⟩)

/-- Where an inherited list of descriptors replaces the one of the new process, the first three of
them stand for the three opens of the console. -/
def StdInherited (s : Files) (src : ℕ) : Prop :=
  ∃ c e, ConsoleAt s s.devConsole c e ∧
    (e.excl = none ∧ ((s.fds src).take 3).map (·.ftab) = List.replicate 3 (some ⟨s.ftabBase, c⟩) ∨
      e.excl ≠ none ∧ ∀ f ∈ (s.fds src).take 3, f.ftab = none)

/-- What the opens of the console leave to `proc_fork`. -/
structure StdOpened (s u : Files) (src dst : ℕ) : Prop where
  base : u.ftabBase = s.ftabBase
  excl : SameExcl s u
  list : ∀ j, (u.fds dst).countP (s.refersTo j) = ((s.fds src).take 3).countP (s.refersTo j)

theorem countP_refersTo {l : List Fd} {n : ℕ} {p : FtabPtr}
    (h : l.map (·.ftab) = List.replicate n (some p)) (hb : p.base = s.ftabBase) (j : ℕ) :
    l.countP (s.refersTo j) = if j = p.idx then n else 0 := by
  have hcount : l.countP (s.refersTo j) =
      (l.map (·.ftab)).countP fun o => decide (o = some ⟨s.ftabBase, j⟩) := by
    rw [List.countP_map]
    rfl
  obtain ⟨base, idx⟩ := p
  cases hb
  rw [hcount, h, List.countP_replicate]
  simp [eq_comm]

/-- The holder of an entry in use is a live process. -/
theorem Counted.holder_live {e : Ftab} {x : ℕ} (h : Counted s) (he : s.ent i = some e)
    (hn : e.node ≠ none) (hx : e.excl = some x) : x ∈ s.live := by
  have hpos := (h.pos i e he hn).1
  rw [← refsOf_used he hn, h.exact, Files.slotCount, ownedCount_pos] at hpos
  obtain ⟨p, hp, f, hf, hr⟩ := hpos
  rw [Files.refersTo, decide_eq_true_eq] at hr
  obtain ⟨-, a, ha, -, hxa⟩ := h.valid p hp f hf _ hr
  rw [he] at ha
  cases ha
  rw [hx] at hxa
  cases hxa with
  | inl hxa => cases hxa
  | inr hxa =>
    cases hxa
    exact hp

theorem Counted.stdOpened {u₀ u₁ u₂ u₃ : Files} {src dst : ℕ} {r₁ r₂ r₃ : Option ℕ} (h : Counted s)
    (hplain : PlainNode s.nodes s.devConsole) (hstd : StdInherited s src) (ha : Added s u₀ dst)
    (hn : dst ∉ s.live) (hok : CreateOk s)
    (h₁ : FdOpenStep u₀ dst s.devConsole true true false false false r₁ u₁)
    (h₂ : FdOpenStep u₁ dst s.devConsole true false true false false r₂ u₂)
    (h₃ : FdOpenStep u₂ dst s.devConsole true false true false false r₃ u₃) :
    StdOpened s u₃ src dst := by
  obtain ⟨c, e, hc, hcases⟩ := hstd
  have hc₀ : ConsoleAt u₀ s.devConsole c e :=
    ⟨(ftabSearch_congr ha.ent _).trans hc.found, by rw [ha.ent]; exact hc.ent, hc.node⟩
  have hsame₀ : SameExcl s u₀ := fun j a haj hna => ⟨a, by rw [← ha.ent]; exact haj, hna, rfl⟩
  rcases hcases with ⟨hx, hlist⟩ | ⟨hx, hlist⟩
  · have hmod : 3 < ftabRefsMod := by decide +kernel
    obtain ⟨c₀, up₀⟩ := h.added ha hn
    have hp : dst ∈ u₀.live := ha.live.mem_iff.mpr (List.mem_cons_self ..)
    have hok₀ := hok.console.added ha hn
    have hroom₀ := hok.room_added ha
    have hplain₀ : PlainNode u₀.nodes s.devConsole := ha.nodes ▸ hplain
    obtain ⟨hb₁, hs₁, ⟨e₁, hc₁, hx₁⟩, hn₁⟩ := c₀.stdOpen_at hp hok₀ hroom₀ hc₀ hx hplain₀ h₁
    have hp₁ : dst ∈ u₁.live := h₁.procs.live ▸ hp
    have hok₁ := hok₀.nextFd hmod h₁
    have hroom₁ := hroom₀.next h₁
    have hplain₁ : PlainNode u₁.nodes s.devConsole := h₁.procs.nodes ▸ hplain₀
    have c₁ := (c₀.stdOpen hp hok₀ hroom₀ h₁).1
    obtain ⟨hb₂, hs₂, ⟨e₂, hc₂, hx₂⟩, hn₂⟩ := c₁.stdOpen_at hp₁ hok₁ hroom₁ hc₁ hx₁ hplain₁ h₂
    have hp₂ : dst ∈ u₂.live := h₂.procs.live ▸ hp₁
    have hplain₂ : PlainNode u₂.nodes s.devConsole := h₂.procs.nodes ▸ hplain₁
    have c₂ := (c₁.stdOpen hp₁ hok₁ hroom₁ h₂).1
    obtain ⟨hb₃, hs₃, -, hn₃⟩ := c₂.stdOpen_at hp₂ (hok₁.nextFd (by omega) h₂) (hroom₁.next h₂) hc₂
      hx₂ hplain₂ h₃
    have hbase : u₃.ftabBase = s.ftabBase := hb₃.trans (hb₂.trans (hb₁.trans ha.base))
    have procs := (h₁.procs.trans h₂.procs).trans h₃.procs
    refine ⟨hbase, ((hsame₀.trans hs₁).trans hs₂).trans hs₃, fun j => ?_⟩
    have hfds : ∀ q ∈ s.live, u₃.fds q = s.fds q := fun q hq => by
      rw [procs.fds q fun he => hn (he ▸ hq), ha.fds_old hn q hq]
    have hadd := slotCount_added (procs.live ▸ ha.live) hbase hfds j
    have hold := slotCount_added ha.live ha.base (ha.fds_old hn) j
    rw [ha.fds, Function.update_self, List.countP_nil] at hold
    rw [countP_refersTo hlist rfl]
    have e₁ := hn₁ j
    have e₂ := hn₂ j
    have e₃ := hn₃ j
    split_ifs at * <;> omega
  · have hx' : e.excl ≠ some dst := fun hx' => hn (h.holder_live hc.ent (by simp [hc.node]) hx')
    obtain ⟨hb₁, hs₁, hc₁, hf₁⟩ := hc₀.shut hx hx' h₁
    obtain ⟨hb₂, hs₂, hc₂, hf₂⟩ := hc₁.shut hx hx' h₂
    obtain ⟨hb₃, hs₃, -, hf₃⟩ := hc₂.shut hx hx' h₃
    refine ⟨hb₃.trans (hb₂.trans (hb₁.trans ha.base)), ((hsame₀.trans hs₁).trans hs₂).trans hs₃, ?_⟩
    intro j
    rw [hf₃, hf₂, hf₁, ha.fds, Function.update_self, List.countP_nil, eq_comm, List.countP_eq_zero]
    intro f hf
    simp [Files.refersTo, hlist f hf]

/-- The loop of `proc_fork` before the descriptor `i` of the new process `dst`: the entries count all
but the descriptors that are still to come, of `m` in all. `u` is the state in which the loop starts. -/
structure Forking (u : Files) (dst m i : ℕ) (v : Files) : Prop where
  len : (v.fds dst).length = m
  procs : SameProcs u v dst
  base : v.ftabBase = u.ftabBase
  closes : v.closes = u.closes
  ents : ∀ j e, u.ent j = some e → e.node ≠ none → ∃ e', v.ent j = some e' ∧ e.Extends e'
  pos : ∀ j e, v.ent j = some e → e.node ≠ none → 0 < e.refs ∧ e.refs < ftabRefsMod
  slots : ∀ k f p, (v.fds dst)[k]? = some f → f.ftab = some p → p.base = v.ftabBase ∧
    ∃ e, v.ent p.idx = some e ∧ e.node ≠ none ∧ (k < i → e.excl = none)
  count : ∀ j, v.refsOf j + ((v.fds dst).drop i).countP (v.refersTo j) = v.slotCount j
  bound : ∀ j e, v.ent j = some e → e.node ≠ none → e.excl = none →
    e.refs + ((v.fds dst).drop i).countP (v.refersTo j) < ftabRefsMod

theorem countP_drop {l : List Fd} {f : Fd} (hi : l[i]? = some f) (P : Fd → Bool) :
    (l.drop i).countP P = (l.drop (i + 1)).countP P + if P f then 1 else 0 := by
  obtain ⟨hlt, hf⟩ := List.getElem?_eq_some_iff.mp hi
  rw [List.drop_eq_getElem_cons hlt, hf, List.countP_cons]

theorem refersTo_slot {f : Fd} {p : FtabPtr} (hp : f.ftab = some p) (hb : p.base = s.ftabBase)
    (j : ℕ) : s.refersTo j f = decide (j = p.idx) := by
  obtain ⟨base, idx⟩ := p
  cases hb
  simp [Files.refersTo, hp, eq_comm]

/-- One inherited descriptor is counted, or dropped. -/
theorem Forking.step {v w : Files} {dst m : ℕ} (hn : u.live.Nodup) (hd : dst ∈ u.live)
    (h : Forking u dst m i v) (hr : ReopenStep v dst i w) : Forking u dst m (i + 1) w := by
  cases hr with
  | @unused f hf hnone =>
    have hdrop : ∀ j, ((v.fds dst).drop i).countP (v.refersTo j) =
        ((v.fds dst).drop (i + 1)).countP (v.refersTo j) := by
      intro j
      rw [countP_drop hf]
      simp [Files.refersTo, hnone]
    refine ⟨h.len, h.procs, h.base, h.closes, h.ents, h.pos, fun k g p hg hp => ?_, fun j => ?_,
      fun j e he hne hx => ?_⟩
    · obtain ⟨hb, e, he, hne, hx⟩ := h.slots k g p hg hp
      refine ⟨hb, e, he, hne, fun hk => ?_⟩
      rcases Nat.lt_succ_iff_lt_or_eq.mp hk with hk | rfl
      · exact hx hk
      · rw [hf] at hg
        cases hg
        rw [hnone] at hp
        cases hp
    · rw [← hdrop]
      exact h.count j
    · rw [← hdrop]
      exact h.bound j e he hne hx
  | @dropped f p e hf hp he hx =>
    obtain ⟨hb, -⟩ := h.slots i f p hf hp
    have hfds : (v.setFds dst ((v.fds dst).set i fdZero)).fds dst = (v.fds dst).set i fdZero :=
      Function.update_self ..
    have hdrop : ∀ j, (((v.fds dst).set i fdZero).drop (i + 1)).countP (v.refersTo j) =
        ((v.fds dst).drop (i + 1)).countP (v.refersTo j) := fun j => by
      rw [List.drop_set_of_lt (Nat.lt_succ_self i)]
    have hlive : (v.live).Nodup ∧ dst ∈ v.live := by
      rw [h.procs.live]
      exact ⟨hn, hd⟩
    have hset := fun j => slotCount_set (g := fdZero) hlive.1 hlive.2 (.inl rfl) hf j
    have hzero : ∀ j, v.refersTo j fdZero = false := fun j => by simp [Files.refersTo, fdZero]
    constructor
    · rw [hfds, List.length_set, h.len]
    · exact h.procs.trans ⟨rfl, rfl, rfl, rfl, fun q hq => Function.update_of_ne hq _ _⟩
    · exact h.base
    · exact h.closes
    · exact h.ents
    · exact h.pos
    · intro k g q hg hq
      rw [hfds, List.getElem?_set] at hg
      split_ifs at hg with hik hlt
      · cases hg
        cases hq
      · obtain ⟨hb', a, ha, hna, hxa⟩ := h.slots k g q hg hq
        exact ⟨hb', a, ha, hna, fun hk => hxa (by omega)⟩
    · intro j
      have hc := h.count j
      have hs := hset j
      rw [countP_drop hf, refersTo_slot hp hb] at hc
      rw [refersTo_slot hp hb, hzero] at hs
      rw [hfds]
      have hd' := hdrop j
      change v.refsOf j + (((v.fds dst).set i fdZero).drop (i + 1)).countP (v.refersTo j) = _
      simp only [decide_eq_true_eq, Bool.false_eq_true, if_false] at hc hs
      omega
    · intro j a ha hna hxa
      have hbd := h.bound j a ha hna hxa
      rw [countP_drop hf] at hbd
      rw [hfds]
      have hd' := hdrop j
      change a.refs + (((v.fds dst).set i fdZero).drop (i + 1)).countP (v.refersTo j) < _
      omega
  | @counted f p e w hf hp he hx hs hb hc ht =>
    obtain ⟨hbp, a, ha, hna, -⟩ := h.slots i f p hf hp
    rw [he] at ha
    cases ha
    have hfd : w.fds = v.fds := hs.fds
    have hrt : ∀ j, w.refersTo j = v.refersTo j := refersTo_congr hb
    have hbd := h.bound p.idx e he hna hx
    rw [countP_drop hf, refersTo_slot hp hbp] at hbd
    simp only [decide_true, if_true] at hbd
    have hinc : refsInc e.refs = e.refs + 1 := refsInc_of_lt (by omega)
    have at_i : w.ent p.idx = some { e with refs := refsInc e.refs } := by
      rw [ht, Function.update_self]
    have off : ∀ j, j ≠ p.idx → w.ent j = v.ent j := fun j hj => by rw [ht, Function.update_of_ne hj]
    have hext : e.Extends { e with refs := refsInc e.refs } := ⟨rfl, rfl, id, id⟩
    have fwd : ∀ j a, v.ent j = some a → ∃ a', w.ent j = some a' ∧ a.Extends a' := by
      intro j a ha
      by_cases hj : j = p.idx
      · subst hj
        rw [he] at ha
        cases ha
        exact ⟨_, at_i, hext⟩
      · exact ⟨a, by rw [off j hj, ha], .refl a⟩
    constructor
    · rw [hfd, h.len]
    · exact h.procs.trans ⟨hs.pidtab, hs.pid, hs.nodes, hs.devConsole, fun q _ => by rw [hfd]⟩
    · exact hb.trans h.base
    · exact hc.trans h.closes
    · intro j a ha hna'
      obtain ⟨b, hb', hab⟩ := h.ents j a ha hna'
      obtain ⟨b', hb'', hbb⟩ := fwd j b hb'
      exact ⟨b', hb'', hbb.node.trans hab.node, hbb.excl.trans hab.excl,
        fun hr => hbb.read (hab.read hr), fun hw => hbb.write (hab.write hw)⟩
    · intro j a ha hna'
      by_cases hj : j = p.idx
      · subst hj
        rw [at_i] at ha
        cases ha
        simp only [hinc]
        omega
      · rw [off j hj] at ha
        exact h.pos j a ha hna'
    · intro k g q hg hq
      rw [hfd] at hg
      obtain ⟨hb', a, ha, hna', hxa⟩ := h.slots k g q hg hq
      obtain ⟨a', ha', haa⟩ := fwd _ a ha
      refine ⟨hb'.trans hb.symm, a', ha', by rwa [haa.node], fun hk => ?_⟩
      rw [haa.excl]
      rcases Nat.lt_succ_iff_lt_or_eq.mp hk with hk | rfl
      · exact hxa hk
      · rw [hf] at hg
        cases hg
        rw [hp] at hq
        cases hq
        rw [he] at ha
        cases ha
        exact hx
    · intro j
      have hcount := h.count j
      have hslots := slotCount_congr (s := v) (t := w) hb hs.live hfd j
      rw [countP_drop hf, refersTo_slot hp hbp] at hcount
      rw [hfd, hrt, hslots]
      by_cases hj : j = p.idx
      · subst hj
        rw [refsOf_used he hna] at hcount
        have hw : w.refsOf p.idx = e.refs + 1 := by
          rw [refsOf_used at_i hna, ← hinc]
        simp only [decide_true, if_true] at hcount
        omega
      · rw [refsOf_congr (off j hj)]
        simp only [hj, decide_false, Bool.false_eq_true, if_false] at hcount
        omega
    · intro j a ha hna' hxa
      rw [hfd, hrt]
      by_cases hj : j = p.idx
      · subst hj
        rw [at_i] at ha
        cases ha
        simp only [hinc]
        omega
      · rw [off j hj] at ha
        have := h.bound j a ha hna' hxa
        rw [countP_drop hf] at this
        omega

/-- The descriptors that a fork passes on: the first three stand for those of the new process, and no
count wraps. -/
structure ForkCopies (s : Files) (src : ℕ) : Prop where
  std : StdInherited s src
  refs : ∀ i e, s.ent i = some e → e.node ≠ none → e.excl = none →
    e.refs + (s.fds src).countP (s.refersTo i) < ftabRefsMod

theorem StdInherited.open {src j : ℕ} {f : Fd} {p : FtabPtr} (h : StdInherited s src) (hj : j < 3)
    (hf : (s.fds src)[j]? = some f) (hp : f.ftab = some p) :
    ∃ e, s.ent p.idx = some e ∧ e.excl = none := by
  obtain ⟨c, e, hc, ⟨hx, hlist⟩ | ⟨-, hlist⟩⟩ := h
  · have hmem : f.ftab ∈ ((s.fds src).take 3).map (·.ftab) :=
      List.mem_map_of_mem (List.mem_of_getElem? (by rw [List.getElem?_take, if_pos hj, hf]))
    rw [hlist, hp] at hmem
    cases List.eq_of_mem_replicate hmem
    exact ⟨e, hc.ent, hx⟩
  · have hmem : f ∈ (s.fds src).take 3 :=
      List.mem_of_getElem? (by rw [List.getElem?_take, if_pos hj, hf])
    rw [hlist f hmem] at hp
    cases hp

/-- The loop starts with the descriptors of the parent in place of the child's own. -/
theorem Forking.start {v : Files} {src dst : ℕ} (hs : Counted s) (hu : Counted u)
    (hcopy : ForkCopies s src) (hsrc : src ∈ s.live)
    (hlive : u.live.Perm (dst :: s.live)) (hfds : ∀ q ∈ s.live, u.fds q = s.fds q)
    (hstd : StdOpened s u src dst)
    (hv : v = { u.setFds dst (s.fds src) with parentPid := v.parentPid, otherCalls := v.otherCalls }) :
    Forking u dst (s.fds src).length 3 v := by
  have hdst : v.fds dst = s.fds src := by
    rw [hv]
    exact Function.update_self ..
  have hent : v.ent = u.ent := by
    rw [hv]
    rfl
  have hbase : v.ftabBase = u.ftabBase := by rw [hv]; rfl
  have hsum : ∀ j, u.slotCount j = ((s.fds src).take 3).countP (s.refersTo j) + s.slotCount j := by
    intro j
    rw [slotCount_added hlive hstd.base hfds j, hstd.list]
  have hsplit : ∀ j, (s.fds src).countP (s.refersTo j) =
      ((s.fds src).take 3).countP (s.refersTo j) + ((s.fds src).drop 3).countP (s.refersTo j) := by
    intro j
    rw [← List.countP_append, List.take_append_drop]
  have hrt : ∀ j, v.refersTo j = s.refersTo j := fun j => refersTo_congr (hbase.trans hstd.base) j
  constructor
  · rw [hdst]
  · constructor
    · rw [hv]
      rfl
    · rw [hv]
      rfl
    · rw [hv]
      rfl
    · rw [hv]
      rfl
    · intro q hq
      rw [hv]
      exact Function.update_of_ne hq _ _
  · exact hbase
  · rw [hv]
    rfl
  · intro j e he _
    rw [hent]
    exact ⟨e, he, .refl e⟩
  · rw [hent]
    exact hu.pos
  · intro k f p hf hp
    rw [hdst] at hf
    have hfu : f ∈ u.fds src := by
      rw [hfds src hsrc]
      exact List.mem_of_getElem? hf
    obtain ⟨hb, e, he, hn, -⟩ := hu.valid src (hlive.mem_iff.mpr (List.mem_cons_of_mem _ hsrc)) f hfu p hp
    refine ⟨hb.trans hbase.symm, e, by rw [hent]; exact he, hn, fun hk => ?_⟩
    obtain ⟨a, ha, hx⟩ := hcopy.std.open hk hf hp
    obtain ⟨b, hb', -, hxb⟩ := hstd.excl _ e he hn
    rw [ha] at hb'
    cases hb'
    rw [← hxb, hx]
  · intro j
    have hrefs : v.refsOf j = u.refsOf j := refsOf_congr (by rw [hent])
    rw [hrefs, hu.exact, hdst, hrt]
    have hnd : u.live.Nodup ∧ dst ∈ u.live :=
      ⟨hu.live, hlive.mem_iff.mpr (List.mem_cons_self ..)⟩
    have hset : v.slotCount j + (u.fds dst).countP (u.refersTo j) =
        u.slotCount j + (s.fds src).countP (u.refersTo j) := by
      rw [hv]
      exact ownedCount_update (u.refersTo j) u.fds (s.fds src) hnd.1 hnd.2
    rw [refersTo_congr hstd.base, hstd.list, hsplit] at hset
    omega
  · intro j e he hn hx
    rw [hent] at he
    rw [hdst, hrt]
    obtain ⟨a, ha, hna, hxa⟩ := hstd.excl j e he hn
    have hb := hcopy.refs j a ha hna (hxa.trans hx)
    have h1 := hu.exact j
    have h2 := hs.exact j
    rw [refsOf_used he hn, hsum] at h1
    rw [refsOf_used ha hna] at h2
    have h3 := hsplit j
    omega

theorem Forking.loop {v w : Files} {dst m : ℕ} (hn : u.live.Nodup) (hd : dst ∈ u.live)
    (h : Forking u dst m 3 v)
    (hr : Comp.forRange (forkReopen dst) (m - 3) 3 v = some ((), w)) :
    Forking u dst m (3 + (m - 3)) w := by
  have hstep : ∀ i, 3 ≤ i → i < 3 + (m - 3) → Comp.Ensures (fun x => Forking u dst m i x)
      (forkReopen dst i) fun _ x => Forking u dst m (i + 1) x := by
    intro i _ _ x _ y hx hxy
    exact hx.step hn hd (forkReopen_step hxy)
  exact Comp.forRange_ensures (J := fun i x => Forking u dst m i x) hstep v () w h hr

/-- After the loop the entries count all descriptors. -/
theorem Forking.counted {w : Files} {src dst m : ℕ} (hu : Counted u) (hd : dst ∉ s.live)
    (hlive : u.live.Perm (dst :: s.live)) (hfds : ∀ q ∈ s.live, u.fds q = s.fds q)
    (hstd : StdOpened s u src dst) (hcl : u.closes = s.closes)
    (h : Forking u dst m (3 + (m - 3)) w) : Counted w ∧ CountsUp s w := by
  have hlen : (w.fds dst).length ≤ 3 + (m - 3) := by
    rw [h.len]
    omega
  have hcount : ∀ j, w.refsOf j = w.slotCount j := by
    intro j
    have := h.count j
    rw [List.drop_eq_nil_of_le hlen] at this
    simpa using this
  refine ⟨⟨⟨?_, ?_, fun j => (hcount j).ge, h.pos⟩, hcount⟩, h.closes.trans hcl, fun j => ?_⟩
  · rw [h.procs.live]
    exact hu.live
  · intro p hp f hf q hq
    by_cases hpd : p = dst
    · subst hpd
      obtain ⟨k, hk, hkf⟩ := List.getElem_of_mem hf
      obtain ⟨hb, e, he, hn, hx⟩ := h.slots k f q (by rw [List.getElem?_eq_getElem hk, hkf]) hq
      exact ⟨hb, e, he, hn, .inl (hx (by omega))⟩
    · rw [h.procs.fds p hpd] at hf
      rw [h.procs.live] at hp
      obtain ⟨hb, e, he, hn, hx⟩ := hu.valid p hp f hf q hq
      obtain ⟨e', he', hext⟩ := h.ents _ e he hn
      exact ⟨hb.trans h.base.symm, e', he', by rwa [hext.node], by rwa [hext.excl]⟩
  · have hfds' : ∀ q ∈ s.live, w.fds q = s.fds q := fun q hq => by
      rw [h.procs.fds q fun he => hd (he ▸ hq), hfds q hq]
    rw [slotCount_added (h.procs.live ▸ hlive) (h.base.trans hstd.base) hfds' j]
    omega

/-- What `proc_fork` needs to keep the counts, as far as it gets. -/
structure ForkOk (s : Files) (src : ℕ) (vmmOk : Bool) : Prop where
  create : ∀ dst u, procCreate (some src) vmmOk s = some (some dst, u) → CreateOk s
  copies : ∀ dst u, procCreate (some src) vmmOk s = some (some dst, u) →
    u.otherHeap u.otherCalls = true → ForkCopies s src

theorem ProcInv.setCalls (h : ProcInv s) (f : ℕ → ℕ) (n : ℕ) :
    ProcInv { s with parentPid := f, otherCalls := n } :=
  ⟨⟨⟨h.live, h.valid, h.count, h.pos⟩, h.exact⟩, h.pid, h.plain⟩

/-- `proc_fork` keeps the counts. -/
theorem ProcInv.fork {src : ℕ} {vmmOk taskOk : Bool} (h : ProcInv s) (hsrc : src ∈ s.live)
    (hn : s.nextProc ∉ s.live) (hok : ForkOk s src vmmOk)
    (hr : procFork src vmmOk taskOk s = some (r, t)) : ProcInv t ∧ CountsUp s t := by
  obtain ⟨c, u, hc, hcases⟩ := procFork_run hr
  have hcreate : ∀ q, c = some q → CreateOk s := by
    rintro q rfl
    exact hok.create q u hc
  obtain ⟨hu, hup⟩ := h.create hn hcreate hc
  rcases hcases with ⟨-, rfl⟩ | ⟨dst, f, rfl, ⟨-, rfl⟩ | ⟨hheap, hloop⟩⟩
  · exact ⟨hu, hup⟩
  · exact ⟨hu.setCalls f _, hup.closes, hup.slots⟩
  · have hcopy := hok.copies dst u hc hheap
    rcases procCreate_run hc with ⟨hnone, -⟩ |
      ⟨hdst, u₀, u₁, u₂, u₃, r₁, r₂, r₃, g, ha, h₁, h₂, h₃, rfl⟩
    · cases hnone
    cases hdst
    have hs₁ := procFdOpen_step h₁
    have hs₂ := procFdOpen_step h₂
    have hs₃ := procFdOpen_step h₃
    have hstd := h.toCounted.stdOpened h.plain hcopy.std ha hn (hcreate _ rfl) hs₁ hs₂ hs₃
    have procs := (hs₁.procs.trans hs₂.procs).trans hs₃.procs
    have hlive : u₃.live.Perm (s.nextProc :: s.live) := procs.live ▸ ha.live
    have hfds : ∀ q ∈ s.live, u₃.fds q = s.fds q := fun q hq => by
      rw [procs.fds q fun he => hn (he ▸ hq), ha.fds_old hn q hq]
    have hu₃ : Counted u₃ := ⟨⟨hu.live, hu.valid, hu.count, hu.pos⟩, hu.exact⟩
    have hd : s.nextProc ∈ u₃.live := hlive.mem_iff.mpr (List.mem_cons_self ..)
    have hsf : u₃.fds src = s.fds src := hfds src hsrc
    simp only [hsf] at hloop
    have hstart := Forking.start
      (v := { u₃ with parentPid := f, otherCalls := u₃.otherCalls + 1 }.setFds s.nextProc (s.fds src))
      h.toCounted hu₃ hcopy hsrc hlive hfds hstd rfl
    have hend := hstart.loop hu₃.live hd hloop
    obtain ⟨ht, hcu⟩ := hend.counted hu₃ hn hlive hfds hstd hup.closes
    have hpid := pid_same (pid_added h.pid ha hn) procs
    have hplain : PlainNode u₀.nodes u₀.devConsole := by
      rw [ha.nodes, ha.devConsole]
      exact h.plain
    exact ⟨⟨ht, pid_same hpid hend.procs, (hplain.same procs).same hend.procs⟩, hcu⟩

/-! Deleting. -/

/-- A process without descriptors in use can be deleted. -/
theorem ProcInv.delete (h : ProcInv s) (hp : proc ∈ s.live) (hok : ∀ f ∈ s.fds proc, f.ftab = none)
    (hr : procDoDelete proc s = some ((), t)) : ProcInv t ∧ CountsUp s t := by
  have hperm := filterMap_set_none (h.pid proc hp)
  rw [procDoDelete_run hr]
  set t' : Files := { s with pidtab := s.pidtab.set (s.pid proc) none } with ht'
  have hnd := hperm.nodup_iff.mpr h.live
  rw [List.nodup_cons] at hnd
  have hmem : ∀ p ∈ t'.live, p ∈ s.live ∧ p ≠ proc := fun p hpt =>
    ⟨hperm.mem_iff.mp (List.mem_cons_of_mem _ hpt), by
      rintro rfl
      exact hnd.1 hpt⟩
  have hslots : ∀ j, t'.slotCount j = s.slotCount j := by
    intro j
    have hadd : s.slotCount j = (s.fds proc).countP (s.refersTo j) + t'.slotCount j :=
      (ownedCount_perm (s.refersTo j) s.fds hperm).symm.trans (ownedCount_cons ..)
    have hzero : (s.fds proc).countP (s.refersTo j) = 0 := by
      rw [List.countP_eq_zero]
      intro f hf
      simp [Files.refersTo, hok f hf]
    omega
  refine ⟨⟨⟨⟨hnd.2, ?_, ?_, h.pos⟩, ?_⟩, ?_, h.plain⟩, rfl, fun j => (hslots j).ge⟩
  · intro p hpt
    exact h.valid p (hmem p hpt).1
  · intro j
    rw [hslots]
    exact h.count j
  · intro j
    rw [hslots]
    exact h.exact j
  · intro p hpt
    obtain ⟨hps, hne⟩ := hmem p hpt
    have hold := h.pid p hps
    have hidx : s.pid proc ≠ s.pid p := by
      intro he
      rw [← he, h.pid proc hp] at hold
      cases hold
      exact hne rfl
    change (s.pidtab.set (s.pid proc) none)[s.pid p]? = _
    rw [List.getElem?_set_ne hidx, hold]

end

/-! Runs. -/

/-- The open is not refused. -/
def FtabOpens (s : Files) (node proc : ℕ) (read write excl : Bool) : Prop :=
  ∃ p t, ftabOpen node proc read write excl s = some (some p, t)

/-- What `proc_fd_open` needs to keep the counts: besides `FdOpenOk`, the slot that it fills is empty,
and there is one. -/
structure FdCountOk (s : Files) (proc node : ℕ) (dup read write excl : Bool) : Prop
    extends FdOpenOk s node where
  fresh : FtabOpens s node proc read write excl → dup = false → ∀ i e, ftabSearch s node = some i →
    s.ent i = some e → e.node = some node →
    ∀ k f, fdSearch (s.fds proc) false ⟨s.ftabBase, i⟩ = some k → (s.fds proc)[k]? = some f →
      f.ftab = none
  room : FtabOpens s node proc read write excl → (∀ f ∈ s.fds proc, f.ftab ≠ none) →
    s.otherHeap s.otherCalls = true

/-- One call. Where `checked` holds, so do the conditions under which the call keeps the counts. -/
inductive ProcStep (checked : Prop) : Files → Files → Prop
  | heap (s : Files) (f : ℕ → Option ℕ) (o : ℕ → Bool) (a : ℕ) :
      ProcStep checked s { s with ftabHeap := f, otherHeap := o, nextProc := a }
  | created {s t parent vmmOk r} (hn : s.nextProc ∉ s.live) (hp : ∀ q, parent = some q → q ∈ s.live)
      (hc : checked → ∀ q, r = some q → CreateOk s)
      (hr : procCreate parent vmmOk s = some (r, t)) : ProcStep checked s t
  | opened {s t proc node dup read write append excl r} (hp : proc ∈ s.live)
      (hc : checked → FdCountOk s proc node dup read write excl)
      (hr : procFdOpen proc node dup read write append excl s = some (r, t)) : ProcStep checked s t
  | closed {s t proc fd} (hp : proc ∈ s.live) (hr : procFdClose proc fd s = some ((), t)) :
      ProcStep checked s t
  | forked {s t src vmmOk taskOk r} (hn : s.nextProc ∉ s.live) (hp : src ∈ s.live)
      (hc : checked → ForkOk s src vmmOk)
      (hr : procFork src vmmOk taskOk s = some (r, t)) : ProcStep checked s t
  | deleted {s t proc} (hp : proc ∈ s.live) (hc : checked → ∀ f ∈ s.fds proc, f.ftab = none)
      (hr : procDoDelete proc s = some ((), t)) : ProcStep checked s t

inductive ProcRun (checked : Prop) (s₀ : Files) : Files → Prop
  | init : ProcRun checked s₀ s₀
  | step {s t} (h : ProcRun checked s₀ s) (hs : ProcStep checked s t) : ProcRun checked s₀ t

/-- The start: no process, no open file, and a console. -/
structure ProcsStart (s : Files) : Prop where
  ftab : s.ftab = []
  pidtab : s.pidtab = []
  plain : PlainNode s.nodes s.devConsole

/-- The count of every entry in use is the number of descriptors of live processes that refer to it. -/
def RefsCounted (s : Files) : Prop :=
  ∀ i e, s.ent i = some e → e.node ≠ none → e.refs = s.slotCount i

section

variable {s s₀ t : Files} {proc node : ℕ} {dup read write append excl : Bool} {r : Option ℕ}

theorem ProcsStart.inv (h : ProcsStart s) : ProcInv s := by
  have hlive : s.live = [] := by
    rw [Files.live, h.pidtab]
    rfl
  have hslots : s.NoSlots := fun p hp => by
    rw [hlive] at hp
    cases hp
  have hstart : FdsStart s := ⟨h.ftab, by rw [hlive]; exact List.nodup_nil, hslots⟩
  refine ⟨⟨hstart.inv, fun i => ?_⟩, fun p hp => ?_, h.plain⟩
  · rw [hslots.slotCount]
    exact refsOf_unused fun e he => by simp [Files.ent, h.ftab] at he
  · rw [hlive] at hp
    cases hp

theorem FdCountOk.empty {p : FtabPtr} (hok : FdCountOk s proc node dup read write excl)
    (h : FdInv s) (hp : proc ∈ s.live) (hopens : FtabOpens s node proc read write excl)
    (ho : OpenStep s node proc read write excl (some p) t) :
    ∀ k f, fdSearch (s.fds proc) dup p = some k → (s.fds proc)[k]? = some f → f.ftab = none := by
  intro k f hk hf
  obtain ⟨g, hg, hn⟩ := fdSearch_some hk
  rw [hf] at hg
  cases hg
  rcases hn with hn | ⟨rfl, hn⟩
  · exact hn
  · obtain ⟨hb, e, he, hne, -⟩ := h.valid proc hp f (List.mem_of_getElem? hf) p hn
    cases ho with
    | @first u _ i a hg _ _ _ hi ha _ _ ht =>
      rw [(hg.used hne).mpr he] at hi
      cases hi
      exact absurd ha hne
    | @again _ i a _ hbase _ hi hnode _ _ hsearch _ =>
      rw [hbase] at hk
      exact hok.fresh hopens rfl i a hsearch hi hnode k f hk hf

theorem Counted.opened (h : Counted s) (hp : proc ∈ s.live)
    (hok : FdCountOk s proc node dup read write excl)
    (hr : procFdOpen proc node dup read write append excl s = some (r, t)) :
    Counted t ∧ CountsUp s t := by
  obtain ⟨res, u, ho, hrest⟩ := Comp.bind_eq_some.mp hr
  cases res with
  | none =>
    cases hrest
    exact h.refusedStep hok.toFdOpenOk (ftabOpen_step ho)
  | some p =>
    have hopens : FtabOpens s node proc read write excl := ⟨p, u, ho⟩
    refine h.fdOpenStep hp hok.toFdOpenOk (fun q v _ hs => ?_)
      (fun q v hv => hok.empty h.toFdInv hp hopens hv) (procFdOpen_step hr)
    refine hok.room hopens fun f hf hnone => ?_
    have := List.findIdx?_eq_none_iff.mp hs f hf
    simp [hnone] at this

/-- One call keeps the counts, and frees exactly the entries that it leaves without a descriptor. -/
theorem ProcInv.step (h : ProcInv s) (hs : ProcStep True s t) : ProcInv t ∧ FreesExactly s t := by
  cases hs with
  | heap f o a =>
    exact ⟨⟨⟨⟨h.live, h.valid, h.count, h.pos⟩, h.exact⟩, h.pid, h.plain⟩,
      CountsUp.frees ⟨rfl, fun _ => le_refl _⟩⟩
  | created hn hp hc hr =>
    obtain ⟨ht, hup⟩ := h.create hn (hc trivial) hr
    exact ⟨ht, hup.frees⟩
  | opened hp hc hr =>
    obtain ⟨ht, hup⟩ := h.toCounted.opened hp (hc trivial) hr
    have procs := (procFdOpen_step hr).procs
    exact ⟨⟨ht, pid_same h.pid procs, h.plain.same procs⟩, hup.frees⟩
  | closed hp hr =>
    have hstep := procFdClose_step hr
    obtain ⟨ht, hfree⟩ := h.toCounted.fdCloseStep hp hstep
    exact ⟨⟨ht, pid_same h.pid hstep.procs, h.plain.same hstep.procs⟩, hfree⟩
  | forked hn hp hc hr =>
    obtain ⟨ht, hup⟩ := h.fork hp hn (hc trivial) hr
    exact ⟨ht, hup.frees⟩
  | deleted hp hc hr =>
    obtain ⟨ht, hup⟩ := h.delete hp (hc trivial) hr
    exact ⟨ht, hup.frees⟩

theorem ProcRun.inv (h₀ : ProcsStart s₀) (run : ProcRun True s₀ s) : ProcInv s := by
  induction run with
  | init => exact h₀.inv
  | step h hs ih => exact (ih.step hs).1

end

/-- As long as every call meets its condition, the count of an entry in use is the number of
descriptors that refer to it, and a file is closed exactly when its last descriptor goes. -/
theorem ftab_refs_counted {s₀ s : Files} (h₀ : ProcsStart s₀) (run : ProcRun True s₀ s) :
    RefsCounted s ∧ ∀ t, ProcStep True s t → FreesExactly s t := by
  have inv := run.inv h₀
  refine ⟨fun i e he hn => ?_, fun t ht => (inv.step ht).2⟩
  rw [← inv.exact, refsOf_used he hn]

/-- A machine before its first process. -/
def bootSample : Files := { filesSample with pidtab := [], nextProc := 1 }

theorem bootSample_start : ProcsStart bootSample := ⟨rfl, rfl, by decide, rfl⟩

theorem bootSample_create : CreateOk bootSample := by
  refine ⟨⟨fun _ _ _ => .inr fun p hp => ?_, fun i e hi => ?_⟩, rfl⟩
  · cases hp
  · cases hi

theorem ftab_refs_counted_sample :
    ProcRun True bootSample (after (procCreate none true) bootSample) ∧
      RefsCounted (after (procCreate none true) bootSample) ∧
      ∀ t, ProcStep True (after (procCreate none true) bootSample) t →
        FreesExactly (after (procCreate none true) bootSample) t := by
  have run : ProcRun True bootSample (after (procCreate none true) bootSample) :=
    .step .init (.created (by decide) (fun _ hq => by cases hq) (fun _ _ _ => bootSample_create)
      (run_after (c := procCreate none true) (a := some 1) (by decide +kernel)))
  exact ⟨run, ftab_refs_counted bootSample_start run⟩

/-- A process is made and deleted: the console keeps its three references. -/
theorem ftab_refs_deleted : ¬ ∀ s₀ s, ProcsStart s₀ → s₀.ftabMutex = false →
    ProcRun False s₀ s → RefsCounted s := by
  intro h
  let s₁ := after (procCreate none true) bootSample
  let s₂ := after (procDoDelete 1) s₁
  have r₁ : ProcRun False bootSample s₁ :=
    .step .init (.created (by decide) (fun _ hq => by cases hq) nofun
      (run_after (c := procCreate none true) (a := some 1) (by decide +kernel)))
  have hlive : 1 ∈ s₁.live := by decide +kernel
  have r₂ : ProcRun False bootSample s₂ :=
    .step r₁ (.deleted hlive nofun
      (run_after (c := procDoDelete 1) (a := ()) (by decide +kernel)))
  have hent : s₂.ent 0 = some ⟨some 10, true, true, 3, none, false⟩ := by decide +kernel
  have hcount : s₂.slotCount 0 = 0 := by decide +kernel
  have href := h bootSample s₂ bootSample_start rfl r₂ 0 _ hent (by simp)
  rw [hcount] at href
  cases href

end SysX
