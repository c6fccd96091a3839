import SysX.FileTable

/-!
Uniqueness and exclusivity of file table entries, over the histories of `ftab_open` and `ftab_close`.
-/
namespace SysX

/-- An entry that a process has opened and not closed yet. -/
structure Handle where
  proc : ℕ
  node : ℕ
  ptr : FtabPtr
  deriving DecidableEq, Repr

/-- Histories of calls from `s₀`, with the handles that are open. A handle is closed by its own process,
and `P` holds of every state in which a node is opened. -/
inductive FtabRun (P : Files → ℕ → Prop) (s₀ : Files) : Files → List Handle → Prop
  | init : FtabRun P s₀ s₀ []
  | opened {s t held node proc read write excl p} (h : FtabRun P s₀ s held) (hP : P s node)
      (hr : ftabOpen node proc read write excl s = some (some p, t)) :
      FtabRun P s₀ t (⟨proc, node, p⟩ :: held)
  | refused {s t held node proc read write excl} (h : FtabRun P s₀ s held) (hP : P s node)
      (hr : ftabOpen node proc read write excl s = some (none, t)) : FtabRun P s₀ t held
  | closed {s t held x} (h : FtabRun P s₀ s held) (hx : x ∈ held)
      (hr : ftabClose x.ptr x.proc s = some ((), t)) : FtabRun P s₀ t (held.erase x)

/-- Each node occurs in at most one entry. -/
def UniqueNodes (s : Files) : Prop :=
  ∀ i j e e', s.ent i = some e → s.ent j = some e' → e.node ≠ none → e.node = e'.node → i = j

/-- Where a process holds a node exclusively, no other process has it open. -/
def ExclusiveNodes (s : Files) (held : List Handle) : Prop :=
  ∀ i e v p, s.ent i = some e → e.node = some v → e.excl = some p →
    ∀ x ∈ held, x.node = v → x.proc = p

/-- No empty entry stands before the one of the node, and its reference count does not wrap. -/
structure FtabOpenOk (s : Files) (node : ℕ) : Prop where
  noHole : ∀ i j e e', s.ent i = some e → s.ent j = some e' → e.node = none →
    e'.node = some node → j < i
  refs : ∀ i e, s.ent i = some e → e.node = some node → e.refs + 1 < ftabRefsMod

/-- The handles that refer to an entry. -/
def refCount (held : List Handle) (i : ℕ) : ℕ := held.countP fun x => x.ptr.idx = i

/-- Every handle refers to an entry for its node that lets its process in, and every entry counts
its handles. -/
structure FtabInv (s : Files) (held : List Handle) : Prop where
  unique : UniqueNodes s
  valid : ∀ x ∈ held, ∃ e, s.ent x.ptr.idx = some e ∧ e.node = some x.node ∧
    (e.excl = none ∨ e.excl = some x.proc)
  refs : ∀ i e, s.ent i = some e → e.node ≠ none →
    e.refs = refCount held i ∧ 0 < e.refs ∧ e.refs < ftabRefsMod

section Inv

variable {s t : Files} {held : List Handle} {node proc : ℕ} {read write excl : Bool}

theorem FtabInv.exclusive (h : FtabInv s held) : ExclusiveNodes s held := by
  intro i e v p he hv hp x hx hxv
  obtain ⟨e', he', hv', hx'⟩ := h.valid x hx
  have hi : i = x.ptr.idx := h.unique i _ e e' he he' (by rw [hv]; simp) (by rw [hv, hv', hxv])
  rw [← hi, he] at he'
  cases he'
  rw [hp] at hx'
  exact (Option.some.inj (hx'.resolve_left nofun)).symm

/-- Empty entries count nothing. -/
theorem FtabInv.refCount_of_empty (h : FtabInv s held) {i : ℕ}
    (hi : ∀ e, s.ent i = some e → e.node = none) : refCount held i = 0 := by
  rw [refCount, List.countP_eq_zero]
  intro x hx hxi
  obtain ⟨e, he, hn, -⟩ := h.valid x hx
  rw [decide_eq_true_eq] at hxi
  rw [hxi] at he
  rw [hi e he] at hn
  cases hn

theorem FtabInv.grown (h : FtabInv s held) (hg : Grown node s t) : FtabInv t held := by
  have old : ∀ i e, t.ent i = some e → e.node ≠ none → s.ent i = some e := by
    intro i e he hn
    rcases hg.ent i with hi | ⟨-, hi⟩
    · rw [← hi, he]
    · rw [hi] at he
      cases he
      exact absurd rfl hn
  have keep : ∀ i e, s.ent i = some e → t.ent i = some e := by
    intro i e he
    rcases hg.ent i with hi | ⟨hi, -⟩
    · rw [hi, he]
    · rw [hi] at he
      cases he
  constructor
  · intro i j e e' he he' hn heq
    exact h.unique i j e e' (old i e he hn) (old j e' he' (heq ▸ hn)) hn heq
  · intro x hx
    obtain ⟨e, he, hrest⟩ := h.valid x hx
    exact ⟨e, keep _ e he, hrest⟩
  · intro i e he hn
    exact h.refs i e (old i e he hn) hn

/-- An entry is written: the others stay as they are. -/
theorem FtabInv.update {i : ℕ} {e' : Ftab} {x : Handle} (h : FtabInv s held)
    (ht : t.ent = Function.update s.ent i (some e')) (hx : x.ptr.idx = i)
    (hn : e'.node = some x.node) (hadm : ∀ y ∈ x :: held, y.ptr.idx = i → y.node = x.node ∧
      (e'.excl = none ∨ e'.excl = some y.proc))
    (huniq : ∀ j e, s.ent j = some e → e.node = some x.node → j = i)
    (hrefs : e'.refs = refCount held i + 1 ∧ e'.refs < ftabRefsMod) : FtabInv t (x :: held) := by
  have at_i : t.ent i = some e' := by rw [ht, Function.update_self]
  have off : ∀ j, j ≠ i → t.ent j = s.ent j := fun j hj => by rw [ht, Function.update_of_ne hj]
  constructor
  · intro j k a b ha hb hna hab
    by_cases hj : j = i <;> by_cases hk : k = i
    · rw [hj, hk]
    · rw [hj, at_i] at ha
      cases ha
      rw [off k hk] at hb
      exact absurd (huniq k b hb (by rw [← hab, hn])) hk
    · rw [hk, at_i] at hb
      cases hb
      rw [off j hj] at ha
      exact absurd (huniq j a ha (by rw [hab, hn])) hj
    · rw [off j hj] at ha
      rw [off k hk] at hb
      exact h.unique j k a b ha hb hna hab
  · intro y hy
    by_cases hyi : y.ptr.idx = i
    · obtain ⟨hyn, hya⟩ := hadm y hy hyi
      exact ⟨e', by rw [hyi, at_i], by rw [hn, hyn], hya⟩
    · rcases List.mem_cons.mp hy with rfl | hy
      · exact absurd hx hyi
      · rw [off _ hyi]
        exact h.valid y hy
  · intro j a ha hna
    by_cases hj : j = i
    · rw [hj, at_i] at ha
      cases ha
      have hc : refCount (x :: held) j = refCount held i + 1 := by
        rw [refCount, List.countP_cons, hj]
        simp [hx, refCount]
      rw [hc]
      exact ⟨hrefs.1, by omega, hrefs.2⟩
    · rw [off j hj] at ha
      have hc : refCount (x :: held) j = refCount held j := by
        rw [refCount, List.countP_cons]
        simp [hx, Ne.symm hj, refCount]
      rw [hc]
      exact h.refs j a ha hna

theorem FtabInv.opened {p : FtabPtr} (h : FtabInv s held) (hok : FtabOpenOk s node)
    (hr : ftabOpen node proc read write excl s = some (some p, t)) :
    FtabInv t (⟨proc, node, p⟩ :: held) := by
  cases ftabOpen_step hr with
  | @first u _ i e hg hu hb hc hi he _ hlt ht =>
    have hu' := h.grown hg
    have hempty : ∀ a, u.ent i = some a → a.node = none := fun a ha => by
      rw [hi] at ha
      cases ha
      exact he
    refine hu'.update ht rfl rfl (fun y hy hyi => ?_) (fun j a ha hn => ?_) ?_
    · rcases List.mem_cons.mp hy with rfl | hy
      · exact ⟨rfl, by cases excl <;> simp [firstEnt]⟩
      · obtain ⟨a, ha, hna, -⟩ := hu'.valid y hy
        rw [show y.ptr.idx = i from hyi] at ha
        rw [hempty a ha] at hna
        cases hna
    · have ha' : s.ent j = some a := by
        rcases hg.ent j with hj | ⟨-, hj⟩
        · rw [← hj, ha]
        · rw [hj] at ha
          cases ha
          cases hn
      rcases Nat.lt_trichotomy j i with hj | hj | hj
      · obtain ⟨b, hb', -, hne⟩ := hlt j hj
        rw [ha'] at hb'
        cases hb'
        exact absurd hn hne
      · exact hj
      · rcases hg.ent i with hii | ⟨hii, -⟩
        · exact absurd (hok.noHole i j e a (by rw [← hii, hi]) ha' he hn) (by omega)
        · have : s.ent j = none := by
            rw [Files.ent, Option.map_eq_none_iff, List.getElem?_eq_none_iff] at hii ⊢
            omega
          rw [this] at ha'
          cases ha'
    · rw [hu'.refCount_of_empty hempty]
      exact ⟨rfl, (by decide +kernel : 1 < ftabRefsMod)⟩
  | @again _ i e hs hb hc hi he hx hexcl hf ht =>
    obtain ⟨hcount, hpos, hlt⟩ := h.refs i e hi (by rw [he]; simp)
    have hlt' := hok.refs i e hi he
    refine h.update ht rfl he (fun y hy hyi => ?_) (fun j a ha hn => ?_) ?_
    · rcases List.mem_cons.mp hy with rfl | hy
      · exact ⟨rfl, hx⟩
      · obtain ⟨a, ha, hna, hadm⟩ := h.valid y hy
        rw [show y.ptr.idx = i from hyi, hi] at ha
        cases ha
        rw [he] at hna
        exact ⟨(Option.some.inj hna).symm, hadm⟩
    · exact h.unique j i a e ha hi (by rw [hn]; simp) (by rw [hn, he])
    · have hw : (againEnt e read write).refs = e.refs + 1 := refsInc_of_lt hlt'
      rw [hw, ← hcount]
      exact ⟨rfl, hlt'⟩

theorem FtabInv.refused (h : FtabInv s held)
    (hr : ftabOpen node proc read write excl s = some (none, t)) : FtabInv t held := by
  cases ftabOpen_step hr with
  | refused hg => exact h.grown hg

theorem FtabInv.closed {x : Handle} (h : FtabInv s held) (hx : x ∈ held)
    (hr : ftabClose x.ptr x.proc s = some ((), t)) : FtabInv t (held.erase x) := by
  obtain ⟨a, ha, hna, hadm⟩ := h.valid x hx
  obtain ⟨hcount, hpos, hlt⟩ := h.refs _ a ha (by rw [hna]; simp)
  have herase : ∀ j, refCount (held.erase x) j =
      refCount held j - if x.ptr.idx = j then 1 else 0 := by
    intro j
    have hp := (List.perm_cons_erase hx).countP_eq fun y => decide (y.ptr.idx = j)
    simp only [List.countP_cons, decide_eq_true_eq] at hp
    unfold refCount
    omega
  have off : ∀ {e' : Option Ftab}, t.ent = Function.update s.ent x.ptr.idx e' →
      ∀ j, j ≠ x.ptr.idx → t.ent j = s.ent j := fun ht j hj => by rw [ht, Function.update_of_ne hj]
  have rest : ∀ j e, j ≠ x.ptr.idx → s.ent j = some e → e.node ≠ none →
      e.refs = refCount (held.erase x) j ∧ 0 < e.refs ∧ e.refs < ftabRefsMod := by
    intro j e hj he hn
    rw [herase, if_neg (Ne.symm hj)]
    exact h.refs j e he hn
  cases (ftabClose_step hr).2 with
  | kept he hx' =>
    rw [ha] at he
    cases he
    exact absurd hadm hx'
  | dropped he hx' hr0 hs hb hc ht =>
    rw [ha] at he
    cases he
    have at_i : t.ent x.ptr.idx = some a.release := by rw [ht, Function.update_self]
    constructor
    · intro j k b c hb' hc' hnb hbc
      have back : ∀ j b, t.ent j = some b → ∃ b', s.ent j = some b' ∧ b'.node = b.node := by
        intro j b hb
        by_cases hj : j = x.ptr.idx
        · rw [hj, at_i] at hb
          cases hb
          exact ⟨a, hj ▸ ha, (Ftab.release_node a).symm⟩
        · exact ⟨b, by rw [← off ht j hj, hb], rfl⟩
      obtain ⟨b', hb'', hbn⟩ := back j b hb'
      obtain ⟨c', hc'', hcn⟩ := back k c hc'
      exact h.unique j k b' c' hb'' hc'' (by rw [hbn]; exact hnb) (by rw [hbn, hcn, hbc])
    · intro y hy
      obtain ⟨b, hb', hnb, hadmb⟩ := h.valid y (List.mem_of_mem_erase hy)
      by_cases hyi : y.ptr.idx = x.ptr.idx
      · rw [hyi, ha] at hb'
        cases hb'
        exact ⟨a.release, by rw [hyi, at_i], (Ftab.release_node a).trans hnb, by
          rw [Ftab.release_excl]; exact hadmb⟩
      · exact ⟨b, by rw [off ht _ hyi, hb'], hnb, hadmb⟩
    · intro j e he hn
      by_cases hj : j = x.ptr.idx
      · rw [hj, at_i] at he
        cases he
        have hrel := Ftab.release_refs hpos hlt
        rw [hj, herase, if_pos rfl, ← hcount, hrel]
        rw [hrel] at hr0
        exact ⟨rfl, by omega, by omega⟩
      · rw [off ht j hj] at he
        exact rest j e hj he hn
  | freed he hx' hr0 hs hb hc ht =>
    rw [ha] at he
    cases he
    have at_i : t.ent x.ptr.idx = some ftabZero := by rw [ht, Function.update_self]
    have used : ∀ j e, t.ent j = some e → e.node ≠ none → j ≠ x.ptr.idx ∧ s.ent j = some e := by
      intro j e he hn
      have hj : j ≠ x.ptr.idx := by
        rintro rfl
        rw [at_i] at he
        cases he
        exact hn rfl
      exact ⟨hj, by rw [← off ht j hj, he]⟩
    have hone : refCount held x.ptr.idx = 1 := by
      rw [Ftab.release_refs hpos hlt] at hr0
      omega
    constructor
    · intro j k b c hb' hc' hnb hbc
      exact h.unique j k b c (used j b hb' hnb).2 (used k c hc' (hbc ▸ hnb)).2 hnb hbc
    · intro y hy
      obtain ⟨b, hb', hnb, hadmb⟩ := h.valid y (List.mem_of_mem_erase hy)
      have hyi : y.ptr.idx ≠ x.ptr.idx := by
        intro hyi
        have hz : refCount (held.erase x) x.ptr.idx = 0 := by rw [herase, hone, if_pos rfl]
        rw [refCount, List.countP_eq_zero] at hz
        exact hz y hy (by simpa using hyi)
      exact ⟨b, by rw [off ht _ hyi, hb'], hnb, hadmb⟩
    · intro j e he hn
      obtain ⟨hj, hs'⟩ := used j e he hn
      exact rest j e hj hs' hn

end Inv

theorem FtabRun.inv {s₀ s : Files} {held : List Handle} (h₀ : s₀.ftab = [])
    (run : FtabRun FtabOpenOk s₀ s held) : FtabInv s held := by
  induction run with
  | init =>
    have hent : ∀ i, s₀.ent i = none := fun i => by simp [Files.ent, h₀]
    exact ⟨fun i j e e' he => by simp [hent] at he, by simp, fun i e he => by simp [hent] at he⟩
  | opened h hP hr ih => exact ih.opened hP hr
  | refused h hP hr ih => exact ih.refused hr
  | closed h hx hr ih => exact ih.closed hx hr

/-- In every history of opens and closes in which no node is opened while an empty entry stands before
its own, each node has one entry and exclusive nodes have one process. -/
theorem ftab_unique_exclusive {s₀ s : Files} {held : List Handle} (h₀ : s₀.ftab = [])
    (run : FtabRun FtabOpenOk s₀ s held) : UniqueNodes s ∧ ExclusiveNodes s held :=
  ⟨(run.inv h₀).unique, (run.inv h₀).exclusive⟩

/-- A machine with an empty file table. -/
def filesSample : Files where
  nodes _ := ⟨vfsFile, 0, none, false, some .console, some .console, none, false⟩
  ftab := []
  ftabBase := 0
  ftabMutex := false
  fds _ := []
  pidtab := [some 1, some 2, none, none]
  pid p := p - 1
  parentPid _ := 0
  nextProc := 3
  devConsole := 10
  ftabHeap _ := some 1
  ftabCalls := 0
  otherHeap _ := true
  otherCalls := 0
  calls := []

/-- The state after a call that returns. -/
def after {α : Type} (c : FileOp α) (s : Files) : Files := ((c s).map Prod.snd).getD s

theorem run_after {α : Type} {c : FileOp α} {s : Files} {a : α} (h : (c s).map Prod.fst = some a) :
    c s = some (a, after c s) := by
  unfold after
  cases hc : c s with
  | none => simp [hc] at h
  | some r =>
    rw [hc] at h
    cases h
    rfl

theorem ftab_unique_exclusive_sample :
    FtabRun FtabOpenOk filesSample (after (ftabOpen 11 1 true false true) filesSample)
      [⟨1, 11, ⟨1, 0⟩⟩] ∧
    UniqueNodes (after (ftabOpen 11 1 true false true) filesSample) ∧
    ExclusiveNodes (after (ftabOpen 11 1 true false true) filesSample) [⟨1, 11, ⟨1, 0⟩⟩] := by
  have run : FtabRun FtabOpenOk filesSample (after (ftabOpen 11 1 true false true) filesSample)
      [⟨1, 11, ⟨1, 0⟩⟩] :=
    .opened .init ⟨fun i j e e' he => by simp [Files.ent, filesSample] at he,
      fun i e he => by simp [Files.ent, filesSample] at he⟩
      (run_after (c := ftabOpen 11 1 true false true) (by decide +kernel))
  exact ⟨run, ftab_unique_exclusive rfl run⟩

/-- Two nodes are opened, the first is closed, and the second is opened again: it gets the entry of the
first besides its own. -/
theorem ftab_reopen_fills_hole : ¬ ∀ s₀ s held, s₀.ftab = [] → s₀.ftabMutex = false →
    FtabRun (fun _ _ => True) s₀ s held → UniqueNodes s ∧ ExclusiveNodes s held := by
  intro h
  let s₁ := after (ftabOpen 11 1 true false false) filesSample
  let s₂ := after (ftabOpen 12 1 true false true) s₁
  let s₃ := after (ftabClose ⟨1, 0⟩ 1) s₂
  let s₄ := after (ftabOpen 12 2 true false false) s₃
  have r₁ : FtabRun (fun _ _ => True) filesSample s₁ [⟨1, 11, ⟨1, 0⟩⟩] :=
    .opened .init trivial
      (run_after (c := ftabOpen 11 1 true false false) (by decide +kernel))
  have r₂ : FtabRun (fun _ _ => True) filesSample s₂ [⟨1, 12, ⟨1, 1⟩⟩, ⟨1, 11, ⟨1, 0⟩⟩] :=
    .opened r₁ trivial (run_after (c := ftabOpen 12 1 true false true) (by decide +kernel))
  have r₃ : FtabRun (fun _ _ => True) filesSample s₃ [⟨1, 12, ⟨1, 1⟩⟩] :=
    .closed (x := ⟨1, 11, ⟨1, 0⟩⟩) r₂ (by decide)
      (run_after (c := ftabClose ⟨1, 0⟩ 1) (by decide +kernel))
  have r₄ : FtabRun (fun _ _ => True) filesSample s₄ [⟨2, 12, ⟨1, 0⟩⟩, ⟨1, 12, ⟨1, 1⟩⟩] :=
    .opened r₃ trivial (run_after (c := ftabOpen 12 2 true false false) (by decide +kernel))
  have e₀ : s₄.ent 0 = some (firstEnt 12 2 true false false) := by decide +kernel
  have e₁ : s₄.ent 1 = some (firstEnt 12 1 true false true) := by decide +kernel
  have hu := (h _ _ _ rfl rfl r₄).1 0 1 _ _ e₀ e₁ (by simp [firstEnt]) rfl
  cases hu

end SysX
