import SysX.Quiet
import SysX.Lib.Pairing

/-!
The pairs of the trap table: each entry for copy-on-write points to the one that shares its page, which points
back. What the functions of the table do to them, whatever the page tables hold.
-/
namespace SysX

theorem TrapPtr.mk_eq {b k : ℕ} {p : TrapPtr} : ⟨b, k⟩ = p ↔ b = p.base ∧ k = p.idx := by
  cases p
  simp

/-- `trap->info` is the entry `j` of the block at `b`. -/
def Trap.PointsTo (b : ℕ) (t : Trap) (j : ℕ) : Prop := t.info = some ⟨b, j⟩

/-- The entries of a table at `b` outside `E` are paired. -/
abbrev PairedTraps (b : ℕ) (E : Set ℕ) (l : List Trap) : Prop :=
  PairedBut (fun t => t.type = .cow) (Trap.PointsTo b) E l

/-- The `info` of every entry for copy-on-write points to such an entry of the current table that points back. -/
def TrapsPaired (s : Machine) : Prop :=
  ∀ i t, s.vmmTraps[i]? = some t → t.type = .cow →
    ∃ p u, t.info = some p ∧ s.trapAt p = some u ∧ u.type = .cow ∧ u.info = some ⟨s.vmmTrapsBase, i⟩

theorem Trap.pointsTo_unique {b : ℕ} (t : Trap) (i j : ℕ) (hi : t.PointsTo b i) (hj : t.PointsTo b j) : i = j := by
  cases hi.symm.trans hj
  rfl

theorem trapsPaired_iff {s : Machine} : TrapsPaired s ↔ PairedTraps s.vmmTrapsBase ∅ s.vmmTraps := by
  constructor
  · intro h i t ht hcow _
    obtain ⟨p, u, hp, hu, hcow', hback⟩ := h i t ht hcow
    rw [Machine.trapAt] at hu
    split_ifs at hu with hb
    refine ⟨p.idx, by simp, ⟨t, ht, hcow, ?_⟩, u, hu, hcow', hback⟩
    rw [Trap.PointsTo, hp, ← hb]
  · intro h i t ht hcow
    obtain ⟨j, -, ⟨t', ht', -, hp⟩, u, hu, hcow', hback⟩ := h i t ht hcow (by simp)
    cases ht.symm.trans ht'
    refine ⟨_, u, hp, ?_, hcow', hback⟩
    rw [Machine.trapAt, if_pos rfl, hu]

/-! While the mutex is held, nothing changes the table: what would change it waits forever. -/

section Locked

variable {I : Machine → Prop} (hI : MemStable I) (hlock : ∀ s, I s → s.vmmTrapsMutex = true) {K : Callees}
include hlock

/-- Nothing after the acquisition is reached. -/
theorem trapsAcquire_locked {α : Type} {f : Unit → Kernel α} {Q : α → Machine → Prop} :
    Comp.Ensures I (trapsAcquire >>= f) Q := by
  intro s a t hs h
  obtain ⟨_, u, hacq, -⟩ := Comp.bind_eq_some.mp h
  rw [trapsAcquire, Comp.read_bind, if_pos (hlock s hs)] at hacq
  cases hacq

theorem vmmNewTrap_locked {Q : Option TrapPtr → Machine → Prop} (vmm vaddr : ℕ) (type : TrapType) :
    Comp.Ensures I (vmmNewTrap vmm vaddr type) Q := trapsAcquire_locked hlock

theorem vmmIsCow_locked {Q : Option TrapPtr → Machine → Prop} (vmm va : ℕ) :
    Comp.Ensures I (vmmIsCow K vmm va true) Q := by
  intro s a t hs h
  have hpg : (if true = true then pure (some 0) else vmmGetPgsz K vmm va : Kernel (Option ℕ)) s =
      some (some 0, s) := rfl
  rw [vmmIsCow, Comp.bind_of_eq hpg] at h
  exact (trapsAcquire_locked hlock : Comp.Ensures I _ Q) s a t hs h

theorem vmmUnmapResolveCow_locked (vmm va pgsz : ℕ) : Comp.Keeps I (vmmUnmapResolveCow K vmm va pgsz) :=
  Comp.Ensures.bind (R := fun _ _ => False) (vmmIsCow_locked hlock vmm va) fun _ _ _ _ h => h.elim

include hI

theorem callees_keep_locked (n : ℕ) : (callees n).Keep I := by
  induction n with
  | zero => exact ⟨fun _ _ _ _ _ _ _ _ _ => .fault _, fun _ _ _ => .fault _⟩
  | succ n ih =>
    constructor
    · intro vmm pa sz lo hi align idx reverse flags
      exact ih.allocMap hI _ _ _ _ _ _ _ _ _
    · intro vmm va idx
      exact ih.pgunmap hI (fun _ _ _ => vmmUnmapResolveCow_locked hlock _ _ _) _ _ _

end Locked

/-- The entry after `vmm_delete_trap`. -/
def Trap.unused (t : Trap) : Trap := { t with type := .none }

/-- Both entries of a pair are deleted. -/
theorem PairedTraps.delete {b i j : ℕ} {l : List Trap} {t : Trap} (h : PairedTraps b ∅ l) (ht : l[i]? = some t)
    (hcow : t.type = .cow) (hp : t.info = some ⟨b, j⟩) :
    PairedTraps b ∅ ((l.modify j Trap.unused).modify i Trap.unused) := by
  obtain ⟨m, -, hm⟩ := h i t ht hcow (by simp)
  obtain ⟨t', ht', -, hp'⟩ := hm.left
  cases ht.symm.trans ht'
  obtain rfl : m = j := t.pointsTo_unique m j hp' hp
  have hdead : ∀ (n : ℕ) (l' : List Trap) a, (l'.modify n Trap.unused)[n]? = some a → ¬ a.type = .cow := by
    intro n l' a ha
    rw [List.getElem?_modify_eq] at ha
    obtain ⟨t, -, rfl⟩ := Option.map_eq_some_iff.mp ha
    simp [Trap.unused]
  have hfirst : PairedTraps b {i} (l.modify m Trap.unused) := by
    have hset := (h.unpair Trap.pointsTo_unique hm).modify (i := m) (by simp) Trap.unused
    rw [Set.pair_comm] at hset
    exact hset.drop (hdead m l)
  have hsecond := hfirst.modify (i := i) (by simp) Trap.unused
  rw [← insert_empty_eq] at hsecond
  exact hsecond.drop (hdead i _)

theorem modifyTrap_of_base {s : Machine} {p : TrapPtr} (h : p.base = s.vmmTrapsBase) (g : Trap → Trap) :
    s.modifyTrap p g = { s with vmmTraps := s.vmmTraps.modify p.idx g } := if_pos h

@[simp] theorem modifyTrap_heap (s : Machine) (p : TrapPtr) (g : Trap → Trap) :
    (s.modifyTrap p g).heap = s.heap := by
  unfold Machine.modifyTrap
  split_ifs <;> rfl

@[simp] theorem modifyTrap_heapCalls (s : Machine) (p : TrapPtr) (g : Trap → Trap) :
    (s.modifyTrap p g).heapCalls = s.heapCalls := by
  unfold Machine.modifyTrap
  split_ifs <;> rfl

@[simp] theorem modifyTrap_base (s : Machine) (p : TrapPtr) (g : Trap → Trap) :
    (s.modifyTrap p g).vmmTrapsBase = s.vmmTrapsBase := by
  unfold Machine.modifyTrap
  split_ifs <;> rfl

theorem modifyTrap_traps (s : Machine) (p : TrapPtr) (g : Trap → Trap) : (s.modifyTrap p g).vmmTraps =
    if p.base = s.vmmTrapsBase then s.vmmTraps.modify p.idx g else s.vmmTraps := by
  unfold Machine.modifyTrap
  split_ifs <;> rfl

/-! The invariant of the functions that place traps. From the allocation `c` on, every block that `krealloc` gave
for the table is the one at `b`, or else nothing is said. -/

/-- An allocation from `c` on gave another block than the one at `b`. -/
def Moved (b c : ℕ) (s : Machine) : Prop :=
  ∃ n, c ≤ n ∧ n < s.heapCalls ∧ s.heap n ≠ none ∧ s.heap n ≠ some b

/-- The entries `ps` have just been taken and point nowhere yet; the others are paired. -/
structure HeldTraps (b : ℕ) (ps : List TrapPtr) (s : Machine) : Prop where
  base : s.vmmTraps ≠ [] → s.vmmTrapsBase = b
  here : ∀ p ∈ ps, p.base = s.vmmTrapsBase ∧ ∃ t, s.vmmTraps[p.idx]? = some t ∧ t.type = .cow
  nodup : ps.Nodup
  paired : PairedTraps s.vmmTrapsBase {i | ⟨s.vmmTrapsBase, i⟩ ∈ ps} s.vmmTraps

structure GrownTraps (H : ℕ → Option ℕ) (b c : ℕ) (ps : List TrapPtr) (s : Machine) : Prop where
  heap : s.heap = H
  calls : c ≤ s.heapCalls
  traps : Moved b c s ∨ HeldTraps b ps s

section Place

variable {H : ℕ → Option ℕ} {b c : ℕ} {ps : List TrapPtr} {K : Callees} {s : Machine}

/-- The invariant looks at the table and at the heap only. -/
theorem GrownTraps.congr {t : Machine} (h : GrownTraps H b c ps s) (hheap : t.heap = s.heap)
    (hcalls : t.heapCalls = s.heapCalls) (htraps : t.vmmTraps = s.vmmTraps)
    (hbase : t.vmmTrapsBase = s.vmmTrapsBase) : GrownTraps H b c ps t := by
  constructor
  · rw [hheap, h.heap]
  · rw [hcalls]
    exact h.calls
  · refine h.traps.imp (fun hmoved => ?_) fun hheld => ?_
    · rw [Moved, hheap, hcalls]
      exact hmoved
    · constructor
      · rw [htraps, hbase]
        exact hheld.base
      · rw [htraps, hbase]
        exact hheld.here
      · exact hheld.nodup
      · rw [htraps, hbase]
        exact hheld.paired

theorem GrownTraps.stable : MemStable (GrownTraps H b c ps) := fun _ _ _ h => h.congr rfl rfl rfl rfl

/-- A write to the table keeps the invariant where it keeps the pairs. -/
theorem GrownTraps.modifyTrap {ps' : List TrapPtr} {p : TrapPtr} {g : Trap → Trap} (h : GrownTraps H b c ps s)
    (hheld : HeldTraps b ps s → HeldTraps b ps' (s.modifyTrap p g)) :
    GrownTraps H b c ps' (s.modifyTrap p g) := by
  constructor
  · rw [modifyTrap_heap, h.heap]
  · rw [modifyTrap_heapCalls]
    exact h.calls
  · refine h.traps.imp (fun hmoved => ?_) hheld
    rw [Moved, modifyTrap_heap, modifyTrap_heapCalls]
    exact hmoved

/-- The slot of an entry that is not in use is taken. -/
theorem HeldTraps.take {i : ℕ} {t : Trap} (h : HeldTraps b ps s) (ht : s.vmmTraps[i]? = some t)
    (hnone : t.type = .none) (vmm vaddr : ℕ) :
    HeldTraps b (⟨s.vmmTrapsBase, i⟩ :: ps) (s.modifyTrap ⟨s.vmmTrapsBase, i⟩ fun t =>
      { t with type := .cow, vmm := vmm, vaddr := vaddr }) := by
  have hfree : (⟨s.vmmTrapsBase, i⟩ : TrapPtr) ∉ ps := by
    intro hmem
    obtain ⟨-, u, hu, hcow⟩ := h.here _ hmem
    cases ht.symm.trans hu
    rw [hnone] at hcow
    cases hcow
  rw [Machine.modifyTrap, if_pos rfl]
  constructor
  · intro hne
    apply h.base
    rintro hnil
    simp [hnil] at ht
  · intro p hp
    rcases List.mem_cons.mp hp with rfl | hmem
    · exact ⟨rfl, _, by rw [List.getElem?_modify_eq, ht]; rfl, rfl⟩
    · obtain ⟨hbase, u, hu, hcow⟩ := h.here p hmem
      refine ⟨hbase, u, ?_, hcow⟩
      have hne : i ≠ p.idx := by
        rintro rfl
        rw [← hbase] at hfree
        exact hfree hmem
      exact (List.getElem?_modify_ne _ _ hne).trans hu
  · exact List.nodup_cons.mpr ⟨hfree, h.nodup⟩
  · have hset : {k | (⟨s.vmmTrapsBase, k⟩ : TrapPtr) ∈ (⟨s.vmmTrapsBase, i⟩ :: ps : List TrapPtr)} =
        insert i {k | (⟨s.vmmTrapsBase, k⟩ : TrapPtr) ∈ ps} := by
      ext k
      simp
    have hdead : ¬ t.type = .cow := by simp [hnone]
    have hpaired := (h.paired.aside ht hdead).modify (Set.mem_insert i _) fun t : Trap =>
      { t with type := .cow, vmm := vmm, vaddr := vaddr }
    rw [← hset] at hpaired
    exact hpaired

/-- The table grows in place, or for the first time. -/
theorem HeldTraps.grow (h : HeldTraps b ps s) (hb : s.vmmTraps ≠ [] → s.vmmTrapsBase = b) (vmm vaddr : ℕ) :
    HeldTraps b (⟨b, s.vmmTraps.length⟩ :: ps) { s with
      vmmTraps := s.vmmTraps ++ ⟨.cow, vmm, vaddr, none⟩ :: List.replicate (trapAllocSz - 1) trapZero
      vmmTrapsBase := b } := by
  have hlt : ∀ p ∈ ps, p.base = b ∧ p.idx < s.vmmTraps.length := by
    intro p hp
    obtain ⟨hbase, u, hu, -⟩ := h.here p hp
    have hlt := (List.getElem?_eq_some_iff.mp hu).1
    exact ⟨hbase.trans (hb (List.ne_nil_of_length_pos (by omega))), hlt⟩
  constructor
  · exact fun _ => rfl
  · intro p hp
    rcases List.mem_cons.mp hp with rfl | hmem
    · exact ⟨rfl, ⟨.cow, vmm, vaddr, none⟩, by simp, rfl⟩
    · obtain ⟨-, u, hu, hcow⟩ := h.here p hmem
      exact ⟨(hlt p hmem).1, u, (List.getElem?_append_left (hlt p hmem).2).trans hu, hcow⟩
  · refine List.nodup_cons.mpr ⟨fun hmem => ?_, h.nodup⟩
    have := (hlt _ hmem).2
    simp at this
  · have hset : {k | (⟨b, k⟩ : TrapPtr) ∈ (⟨b, s.vmmTraps.length⟩ :: ps : List TrapPtr)} =
        insert s.vmmTraps.length {k | (⟨b, k⟩ : TrapPtr) ∈ ps} := by
      ext k
      simp
    have hrest : ∀ t ∈ List.replicate (trapAllocSz - 1) trapZero, ¬ t.type = .cow := by
      intro t ht
      rw [(List.mem_replicate.mp ht).2]
      decide
    have hold : PairedTraps b {k | (⟨b, k⟩ : TrapPtr) ∈ ps} s.vmmTraps := by
      by_cases hnil : s.vmmTraps = []
      · rw [hnil]
        exact .nil
      · rw [← hb hnil]
        exact h.paired
    have hpaired := hold.append (a := ⟨.cow, vmm, vaddr, none⟩) hrest
    rw [← hset] at hpaired
    exact hpaired

theorem trapsAcquire_some {t : Machine} {r : Unit} (h : trapsAcquire s = some (r, t)) :
    s.vmmTrapsMutex = false ∧ t = { s with vmmTrapsMutex := true } := by
  rw [trapsAcquire, Comp.read_bind] at h
  split_ifs at h with hm
  · cases h
  · cases h
    exact ⟨by simpa using hm, rfl⟩

/-- What `vmm_new_trap` does to the table and the heap. -/
theorem vmmNewTrap_some {vmm vaddr : ℕ} {type : TrapType} {t : Machine} {r : Option TrapPtr}
    (h : vmmNewTrap vmm vaddr type s = some (r, t)) :
    (∃ i u, s.vmmTraps[i]? = some u ∧ u.type = .none ∧ r = some ⟨s.vmmTrapsBase, i⟩ ∧
      t = { s.modifyTrap ⟨s.vmmTrapsBase, i⟩ fun t => { t with type := type, vmm := vmm, vaddr := vaddr } with
        vmmTrapsMutex := false }) ∨
    (s.heap s.heapCalls = none ∧ r = none ∧
      t = { s with heapCalls := s.heapCalls + 1, vmmTrapsMutex := false }) ∨
    ∃ base, s.heap s.heapCalls = some base ∧ r = some ⟨base, s.vmmTraps.length⟩ ∧
      t = { s with
        vmmTraps := s.vmmTraps ++ ⟨type, vmm, vaddr, none⟩ :: List.replicate (trapAllocSz - 1) trapZero
        vmmTrapsBase := base
        heapCalls := s.heapCalls + 1
        vmmTrapsMutex := false } := by
  obtain ⟨_, u, hacq, h⟩ := Comp.bind_eq_some.mp h
  obtain ⟨-, rfl⟩ := trapsAcquire_some hacq
  rw [Comp.read_bind] at h
  cases hslot : s.vmmTraps.findIdx? fun t => t.type = .none with
  | some i =>
    simp only [hslot] at h
    obtain ⟨hi, hnone, -⟩ := List.findIdx?_eq_some_iff_getElem.mp hslot
    cases h
    refine .inl ⟨i, _, List.getElem?_eq_getElem hi, by simpa using hnone, rfl, ?_⟩
    simp only [Machine.modifyTrap, if_true]
  | none =>
    simp only [hslot] at h
    cases hblock : s.heap s.heapCalls with
    | none =>
      rw [krealloc, Comp.bind_assoc, Comp.read_bind] at h
      simp only [hblock] at h
      cases h
      exact .inr (.inl ⟨rfl, rfl, rfl⟩)
    | some base =>
      rw [krealloc, Comp.bind_assoc, Comp.read_bind] at h
      simp only [hblock] at h
      cases h
      exact .inr (.inr ⟨base, rfl, rfl, rfl⟩)

theorem GrownTraps.newTrap (vmm vaddr : ℕ) : Comp.Ensures (GrownTraps H b c ps) (vmmNewTrap vmm vaddr .cow)
    fun r => GrownTraps H b c (r.toList ++ ps) := by
  intro s r t hs h
  rcases vmmNewTrap_some h with ⟨i, u, hu, hnone, rfl, rfl⟩ | ⟨-, rfl, rfl⟩ | ⟨base, hblock, rfl, rfl⟩
  · have htake : GrownTraps H b c (⟨s.vmmTrapsBase, i⟩ :: ps)
        (s.modifyTrap ⟨s.vmmTrapsBase, i⟩ fun t => { t with type := .cow, vmm := vmm, vaddr := vaddr }) :=
      hs.modifyTrap fun hheld => hheld.take hu hnone vmm vaddr
    exact htake.congr rfl rfl rfl rfl
  · refine ⟨hs.heap, hs.calls.trans (Nat.le_succ _), hs.traps.imp ?_ ?_⟩
    · rintro ⟨n, hn, hlt, hne⟩
      exact ⟨n, hn, Nat.lt_succ_of_lt hlt, hne⟩
    · rintro ⟨hb, hhere, hnodup, hpaired⟩
      exact ⟨hb, hhere, hnodup, hpaired⟩
  · refine ⟨hs.heap, hs.calls.trans (Nat.le_succ _), ?_⟩
    rcases hs.traps with ⟨n, hn, hlt, hne⟩ | hheld
    · exact .inl ⟨n, hn, Nat.lt_succ_of_lt hlt, hne⟩
    · by_cases hb : base = b
      · subst hb
        obtain ⟨hb, hhere, hnodup, hpaired⟩ := hheld.grow hheld.base vmm vaddr
        exact .inr ⟨hb, hhere, hnodup, hpaired⟩
      · refine .inl ⟨s.heapCalls, hs.calls, Nat.lt_succ_self _, ?_, ?_⟩
        · rw [hblock]
          exact nofun
        · rw [hblock]
          simpa using hb

/-- An entry in hand is deleted. -/
theorem HeldTraps.delete {p : TrapPtr} (h : HeldTraps b (p :: ps) s) :
    HeldTraps b ps (s.modifyTrap p Trap.unused) := by
  have hbase := (h.here p List.mem_cons_self).1
  obtain ⟨hnot, hnodup⟩ := List.nodup_cons.mp h.nodup
  have hne : ∀ q ∈ ps, p.idx ≠ q.idx := by
    intro q hq heq
    have hbq := (h.here q (List.mem_cons_of_mem _ hq)).1
    have hpq : p = q := TrapPtr.mk_eq.mpr ⟨hbase.trans hbq.symm, heq⟩
    exact hnot (hpq ▸ hq)
  rw [modifyTrap_of_base hbase]
  constructor
  · intro hnil
    apply h.base
    rintro hs
    simp [hs] at hnil
  · intro q hq
    obtain ⟨hb, u, hu, hcow⟩ := h.here q (List.mem_cons_of_mem _ hq)
    exact ⟨hb, u, (List.getElem?_modify_ne _ _ (hne q hq)).trans hu, hcow⟩
  · exact hnodup
  · have hset : {k | (⟨s.vmmTrapsBase, k⟩ : TrapPtr) ∈ p :: ps} =
        insert p.idx {k | (⟨s.vmmTrapsBase, k⟩ : TrapPtr) ∈ ps} := by
      ext k
      simp [TrapPtr.mk_eq, hbase]
    have hpaired := h.paired
    rw [hset] at hpaired
    apply (hpaired.modify (Set.mem_insert p.idx _) Trap.unused).drop
    intro a ha
    rw [List.getElem?_modify_eq] at ha
    obtain ⟨t, -, rfl⟩ := Option.map_eq_some_iff.mp ha
    simp [Trap.unused]

/-- The two entries in hand are made to point to each other. -/
theorem HeldTraps.link {p q : TrapPtr} (h : HeldTraps b [q, p] s) :
    HeldTraps b [] ((s.modifyTrap q fun t => { t with info := some p }).modifyTrap p fun t =>
      { t with info := some q }) := by
  obtain ⟨hq, u, hu, hucow⟩ := h.here q (by simp)
  obtain ⟨hp, t, ht, htcow⟩ := h.here p (by simp)
  have hne : q.idx ≠ p.idx := by
    intro heq
    have hqp : q = p := TrapPtr.mk_eq.mpr ⟨hq.trans hp.symm, heq⟩
    have := h.nodup
    simp [hqp] at this
  have hpair : PairedTraps s.vmmTrapsBase {q.idx, p.idx} s.vmmTraps := by
    have hset : {k | (⟨s.vmmTrapsBase, k⟩ : TrapPtr) ∈ [q, p]} = {q.idx, p.idx} := by
      ext k
      simp [TrapPtr.mk_eq, hq, hp]
    rw [← hset]
    exact h.paired
  rw [modifyTrap_of_base hq, modifyTrap_of_base (by exact hp)]
  constructor
  · intro hnil
    apply h.base
    rintro hs
    simp [hs] at hnil
  · simp
  · exact List.nodup_nil
  · have hmates : Mates (fun t => t.type = .cow) (Trap.PointsTo s.vmmTrapsBase)
        ((s.vmmTraps.modify q.idx fun t => { t with info := some p }).modify p.idx fun t =>
          { t with info := some q }) q.idx p.idx := by
      constructor
      · refine ⟨{ u with info := some p }, ?_, hucow, ?_⟩
        · rw [List.getElem?_modify_ne _ _ hne.symm, List.getElem?_modify_eq, hu]
          rfl
        · exact congrArg some (TrapPtr.mk_eq.mpr ⟨hp.symm, rfl⟩).symm
      · refine ⟨{ t with info := some q }, ?_, htcow, ?_⟩
        · rw [List.getElem?_modify_eq, List.getElem?_modify_ne _ _ hne, ht]
          rfl
        · exact congrArg some (TrapPtr.mk_eq.mpr ⟨hq.symm, rfl⟩).symm
    have hempty : {k | (⟨s.vmmTrapsBase, k⟩ : TrapPtr) ∈ ([] : List TrapPtr)} = ∅ := by simp
    rw [hempty]
    exact ((hpair.modify (by simp) _).modify (by simp) _).pair hmates

end Place

/-- A pair of the table is deleted. -/
theorem HeldTraps.deletePair {b i : ℕ} {s : Machine} {t : Trap} {p : TrapPtr} (h : HeldTraps b [] s)
    (ht : s.vmmTraps[i]? = some t) (hcow : t.type = .cow) (hp : t.info = some p) :
    HeldTraps b [] ((s.modifyTrap p Trap.unused).modifyTrap ⟨s.vmmTrapsBase, i⟩ Trap.unused) := by
  have hempty : {k | (⟨s.vmmTrapsBase, k⟩ : TrapPtr) ∈ ([] : List TrapPtr)} = ∅ := by simp
  have hpaired := h.paired
  rw [hempty] at hpaired
  obtain ⟨j, -, ⟨t', ht', -, hj⟩, -⟩ := hpaired i t ht hcow (by simp)
  cases ht.symm.trans ht'
  obtain rfl : p = ⟨s.vmmTrapsBase, j⟩ := by
    rw [Trap.PointsTo, hp] at hj
    exact Option.some_inj.mp hj
  have hdel := hpaired.delete ht hcow hj
  have hfirst : s.modifyTrap ⟨s.vmmTrapsBase, j⟩ Trap.unused =
      { s with vmmTraps := s.vmmTraps.modify j Trap.unused } := modifyTrap_of_base rfl _
  rw [hfirst, modifyTrap_of_base (by exact rfl)]
  constructor
  · intro hnil
    apply h.base
    rintro hs
    simp [hs] at hnil
  · simp
  · exact List.nodup_nil
  · rw [hempty]
    exact hdel

/-! `vmm_cow_setup`, for any predicate that follows the entries in hand. -/

/-- `N ps` holds while the entries `ps` are in hand. -/
structure FollowsTraps (N : List TrapPtr → Machine → Prop) : Prop where
  stable : MemStable (N [])
  new : ∀ ps vmm vaddr, Comp.Ensures (N ps) (vmmNewTrap vmm vaddr .cow) fun r => N (r.toList ++ ps)
  delete : ∀ p ps s, N (p :: ps) s → N ps (s.modifyTrap p Trap.unused)
  link : ∀ p q s, N [q, p] s → N [] ((s.modifyTrap q fun t => { t with info := some p }).modifyTrap p fun t =>
    { t with info := some q })

theorem FollowsTraps.deleteTrap {N : List TrapPtr → Machine → Prop} (hN : FollowsTraps N) (p : Option TrapPtr)
    (ps : List TrapPtr) : Comp.Ensures (N (p.toList ++ ps)) (vmmDeleteTrap p) fun _ => N ps := by
  cases p with
  | none => exact Comp.Keeps.pure (N ps) ()
  | some p => exact .modify fun s hs => hN.delete p ps s hs

theorem GrownTraps.follows (H : ℕ → Option ℕ) (b c : ℕ) : FollowsTraps (GrownTraps H b c) where
  stable := GrownTraps.stable
  new _ vmm vaddr := GrownTraps.newTrap vmm vaddr
  delete _ _ _ h := h.modifyTrap HeldTraps.delete
  link p q s h := by
    constructor
    · simp [h.heap]
    · simpa using h.calls
    · refine h.traps.imp (fun hmoved => ?_) HeldTraps.link
      simpa [Moved] using hmoved

section Setup

variable {N : List TrapPtr → Machine → Prop} (hN : FollowsTraps N) {K : Callees} (hK : K.Keep (N []))
include hN hK

theorem vmmCowSetupLoop_keeps (src dst size fuel done vs vd : ℕ) :
    Comp.Keeps (N []) (vmmCowSetupLoop K src dst size fuel done vs vd) := by
  have hI := hN.stable
  induction fuel generalizing done vs vd with
  | zero => exact .fault _
  | succ fuel ih =>
    refine .ite (fun _ => .bind (hK.vmmGetPgsz _ _) fun pg => ?_) fun _ => .pure _ _
    cases pg with
    | none => exact .pure _ _
    | some pg =>
      refine .bind (hK.vmmGetPgsz _ _) fun pgDst => .ite (fun _ => .pure _ _) fun _ => ?_
      refine .bind (.when fun _ => hK.cowSubdivide hI _ _ _) fun _ => .bind (hK.vmmGetPaddr _ _) fun pa => ?_
      refine .bind (hK.vmmGetFlags _ _) fun flags => .bind (hK.vmmPgmap hI _ _ _ _ _) fun _ => ?_
      refine Comp.Ensures.bind (hN.new [] src vs) fun psrc => Comp.Ensures.bind (hN.new _ dst vd) fun pdst => ?_
      rcases psrc with _ | p <;> rcases pdst with _ | q
      · exact Comp.Ensures.bind (hN.deleteTrap none []) fun _ =>
          Comp.Ensures.bind (hN.deleteTrap none []) fun _ => Comp.Keeps.pure (N []) done
      · exact Comp.Ensures.bind (hN.deleteTrap none [q]) fun _ =>
          Comp.Ensures.bind (hN.deleteTrap (some q) []) fun _ => Comp.Keeps.pure (N []) done
      · exact Comp.Ensures.bind (hN.deleteTrap (some p) []) fun _ =>
          Comp.Ensures.bind (hN.deleteTrap none []) fun _ => Comp.Keeps.pure (N []) done
      · refine Comp.Ensures.bind (R := fun _ s' => ∃ s, N [q, p] s ∧
          s' = s.modifyTrap q fun t => { t with info := some p }) (.modify fun s hs => ⟨s, hs, rfl⟩) fun _ => ?_
        refine Comp.Ensures.bind (R := fun _ => N []) (.modify ?_) fun _ => ?_
        · rintro _ ⟨s, hs, rfl⟩
          exact hN.link p q s hs
        · exact .bind (hK.vmmGetFlags _ _) fun _ => .bind (hK.vmmSetFlags hI _ _ _) fun _ => ih _ _ _

theorem vmmCowSetup_keeps (src vs dst vd size : ℕ) : Comp.Keeps (N []) (vmmCowSetup K src vs dst vd size) :=
  vmmCowSetupLoop_keeps hN hK _ _ _ _ _ _ _

end Setup

/-! `vmm_cow_duplicate` holds the mutex while it works, and deletes both entries of a pair. -/

/-- The table is locked, with the entries `T`. -/
structure LockedTraps (T : List Trap) (b c : ℕ) (H : ℕ → Option ℕ) (s : Machine) : Prop where
  locked : s.vmmTrapsMutex = true
  traps : s.vmmTraps = T
  base : s.vmmTrapsBase = b
  calls : s.heapCalls = c
  heap : s.heap = H

theorem LockedTraps.stable (T : List Trap) (b c : ℕ) (H : ℕ → Option ℕ) : MemStable (LockedTraps T b c H) :=
  fun _ _ _ ⟨hlock, htraps, hbase, hcalls, hheap⟩ => ⟨hlock, htraps, hbase, hcalls, hheap⟩

/-- `J` looks at the table and the heap only, and survives the deletion of a pair. -/
structure KeptByDeletion (J : Machine → Prop) : Prop where
  congr : ∀ s t, J s → t.heap = s.heap → t.heapCalls = s.heapCalls → t.vmmTraps = s.vmmTraps →
    t.vmmTrapsBase = s.vmmTrapsBase → J t
  delete : ∀ s i u p, J s → s.vmmTraps[i]? = some u → u.type = .cow → u.info = some p →
    J ((s.modifyTrap p Trap.unused).modifyTrap ⟨s.vmmTrapsBase, i⟩ Trap.unused)

section Duplicate

variable {J : Machine → Prop} {K : Callees}

/-- What happens to the table when `vmm_cow_duplicate` returns: nothing, or an entry and the one that it
points to are deleted. -/
theorem vmmCowDuplicate_traps (hK : ∀ T b c H, K.Keep (LockedTraps T b c H)) {s t : Machine} {vmm vaddr : ℕ}
    {idx : ℕ} {r : Bool} (h : vmmCowDuplicate K vmm vaddr (some idx) s = some (r, t)) :
    t.heap = s.heap ∧ t.heapCalls = s.heapCalls ∧ t.vmmTrapsBase = s.vmmTrapsBase ∧
      (t.vmmTraps = s.vmmTraps ∨ ∃ i u p, s.vmmTraps[i]? = some u ∧ u.type = .cow ∧ u.info = some p ∧
        t.vmmTraps = ((s.modifyTrap p Trap.unused).modifyTrap ⟨s.vmmTrapsBase, i⟩ Trap.unused).vmmTraps) := by
  have hL := LockedTraps.stable s.vmmTraps s.vmmTrapsBase s.heapCalls s.heap
  have hKL := hK s.vmmTraps s.vmmTrapsBase s.heapCalls s.heap
  have hpg : (if (some idx : Option ℕ) = none then vmmGetPgsz K vmm vaddr else pure (some idx)) s =
      some (some idx, s) := rfl
  rw [vmmCowDuplicate, Comp.bind_of_eq hpg] at h
  obtain ⟨_, u, hacq, h⟩ := Comp.bind_eq_some.mp h
  obtain ⟨-, rfl⟩ := trapsAcquire_some hacq
  have hu : LockedTraps s.vmmTraps s.vmmTrapsBase s.heapCalls s.heap { s with vmmTrapsMutex := true } :=
    ⟨rfl, rfl, rfl, rfl, rfl⟩
  -- Where the mutex is released without a deletion, the table is what it was.
  have hrelease : ∀ {u t : Machine} {r : Bool}, LockedTraps s.vmmTraps s.vmmTrapsBase s.heapCalls s.heap u →
      (do trapsRelease; pure false : Kernel Bool) u = some (r, t) →
      t.heap = s.heap ∧ t.heapCalls = s.heapCalls ∧ t.vmmTrapsBase = s.vmmTrapsBase ∧ t.vmmTraps = s.vmmTraps := by
    rintro u t r hu h
    cases h
    exact ⟨hu.heap, hu.calls, hu.base, hu.traps⟩
  rw [Comp.read_bind] at h
  cases hslot : s.vmmTraps.findIdx? fun t => t.isCowAt vmm (vaddr - vaddr % vmmPgsz idx) with
  | none =>
    simp only [hslot] at h
    obtain ⟨hheap, hcalls, hbase, htraps⟩ := hrelease hu h
    exact ⟨hheap, hcalls, hbase, .inl htraps⟩
  | some i =>
    simp only [hslot] at h
    rw [Comp.read_bind] at h
    obtain ⟨hi, hcow, -⟩ := List.findIdx?_eq_some_iff_getElem.mp hslot
    have hat : s.vmmTraps[i]? = some s.vmmTraps[i] := List.getElem?_eq_getElem hi
    have htype : s.vmmTraps[i].type = .cow := by
      simp only [Trap.isCowAt, Bool.and_eq_true, decide_eq_true_eq] at hcow
      exact hcow.1.1
    have hdst : trapDeref ⟨s.vmmTrapsBase, i⟩ { s with vmmTrapsMutex := true } =
        some (s.vmmTraps[i], { s with vmmTrapsMutex := true }) := by
      rw [trapDeref, Comp.readOr_apply, Machine.trapAt, if_pos rfl, hat]
      rfl
    rw [Comp.bind_of_eq hdst] at h
    obtain ⟨src, u, hsrc, h⟩ := Comp.bind_eq_some.mp h
    rw [trapInfo, Comp.readOr_apply, Option.map_eq_some_iff] at hsrc
    obtain ⟨src', hinfo, hsrc⟩ := hsrc
    cases hsrc
    rw [Comp.read_bind, Comp.read_bind] at h
    obtain ⟨copySrc, u, hrun, h⟩ := Comp.bind_eq_some.mp h
    have hu := hKL.allocMap hL _ _ _ _ _ _ _ _ _ _ _ _ hu hrun
    split_ifs at h with hwin
    · obtain ⟨hheap, hcalls, hbase, htraps⟩ := hrelease hu h
      exact ⟨hheap, hcalls, hbase, .inl htraps⟩
    obtain ⟨frame, u, hrun, h⟩ := Comp.bind_eq_some.mp h
    have hu := hL.pmmAllocFree _ _ _ _ hu hrun
    cases frame with
    | none =>
      obtain ⟨hheap, hcalls, hbase, htraps⟩ := hrelease hu h
      exact ⟨hheap, hcalls, hbase, .inl htraps⟩
    | some frame =>
      obtain ⟨srcTrap, u, hrun, h⟩ := Comp.bind_eq_some.mp h
      have hu := Comp.Keeps.readOr _ _ _ _ _ hu hrun
      obtain ⟨_, u, hrun, h⟩ := Comp.bind_eq_some.mp h
      have hu := Comp.Keeps.forRange (fun _ => hKL.cowCopyFrame hL _ _ _ _ _) _ _ _ _ _ hu hrun
      obtain ⟨_, u, hrun, h⟩ := Comp.bind_eq_some.mp h
      have hu := hKL.vmmSetPaddr hL _ _ _ _ _ _ hu hrun
      obtain ⟨flags, u, hrun, h⟩ := Comp.bind_eq_some.mp h
      have hu := hKL.vmmGetFlags _ _ _ _ _ hu hrun
      obtain ⟨_, u, hrun, h⟩ := Comp.bind_eq_some.mp h
      have hu := hKL.vmmSetFlags hL _ _ _ _ _ _ hu hrun
      rw [Comp.read_bind] at h
      obtain ⟨_, u, hrun, h⟩ := Comp.bind_eq_some.mp h
      have hu := Comp.Keeps.when (fun _ => Comp.Keeps.bind (hKL.vmmGetFlags _ _) fun _ =>
        hKL.vmmSetFlags hL _ _ _) _ _ _ hu hrun
      cases h
      refine ⟨?_, ?_, ?_, .inr ⟨i, _, src, hat, htype, hinfo, ?_⟩⟩
      · simp [hu.heap]
      · simp [hu.calls]
      · simp [hu.base]
      · simp only [modifyTrap_traps, modifyTrap_base, hu.traps, hu.base]
        rfl

theorem KeptByDeletion.stable (hJ : KeptByDeletion J) : MemStable J := fun s _ _ hs =>
  hJ.congr s _ hs rfl rfl rfl rfl

theorem KeptByDeletion.cowDuplicate (hJ : KeptByDeletion J) (hK : ∀ T b c H, K.Keep (LockedTraps T b c H))
    (hKJ : K.Keep J) (vmm vaddr : ℕ) (idx : Option ℕ) : Comp.Keeps J (vmmCowDuplicate K vmm vaddr idx) := by
  have hsome : ∀ idx, Comp.Keeps J (vmmCowDuplicate K vmm vaddr (some idx)) := by
    intro idx s r t hs h
    obtain ⟨hheap, hcalls, hbase, htraps | ⟨i, u, p, hu, hcow, hp, htraps⟩⟩ := vmmCowDuplicate_traps hK h
    · exact hJ.congr s t hs hheap hcalls htraps hbase
    · exact hJ.congr _ t (hJ.delete s i u p hs hu hcow hp) (by simp [hheap]) (by simp [hcalls]) htraps
        (by simp [hbase])
  cases idx with
  | some idx => exact hsome idx
  | none =>
    intro s r t hs h
    obtain ⟨pg, u, hpg, h⟩ := Comp.bind_eq_some.mp h
    have hu := hKJ.vmmGetPgsz _ _ _ _ _ hs hpg
    cases pg with
    | none =>
      cases h
      exact hu
    | some pg => exact hsome pg u r t hu h

theorem KeptByDeletion.isCow (hJ : KeptByDeletion J) (hKJ : K.Keep J) (vmm va : ℕ) (validated : Bool) :
    Comp.Keeps J (vmmIsCow K vmm va validated) := by
  refine .bind (.ite (fun _ => .pure _ _) fun _ => hKJ.vmmGetPgsz _ _) fun pg => ?_
  cases pg with
  | none => exact .pure _ _
  | some idx =>
    refine .bind ?_ fun _ => .bind (.read _ _) fun _ => .bind (.read _ _) fun _ =>
      .bind (.modify fun s hs => hJ.congr s _ hs rfl rfl rfl rfl) fun _ => .pure _ _
    intro s r t hs h
    obtain ⟨-, rfl⟩ := trapsAcquire_some h
    exact hJ.congr s _ hs rfl rfl rfl rfl

theorem KeptByDeletion.unmapResolveCow (hJ : KeptByDeletion J) (hK : ∀ T b c H, K.Keep (LockedTraps T b c H))
    (hKJ : K.Keep J) (vmm va pgsz : ℕ) : Comp.Keeps J (vmmUnmapResolveCow K vmm va pgsz) := by
  have hloop : ∀ fuel cow, Comp.Keeps J (unmapResolveLoop K vmm va pgsz fuel cow) := by
    intro fuel
    induction fuel with
    | zero =>
      intro cow
      cases cow with
      | none => exact .pure _ _
      | some cow => exact .fault _
    | succ fuel ih =>
      intro cow
      cases cow with
      | none => exact .pure _ _
      | some cow =>
        exact .bind (.readOr _ _) fun _ => .bind (.readOr _ _) fun _ => .bind (.readOr _ _) fun _ =>
          .bind (hJ.cowDuplicate hK hKJ _ _ _) fun _ => .bind (hJ.isCow hKJ _ _ _) fun _ => ih _
  exact .bind (hJ.isCow hKJ _ _ _) fun _ => .bind (.read _ _) fun _ => hloop _ _

theorem callees_keep_lockedTraps (n : ℕ) (T : List Trap) (b c : ℕ) (H : ℕ → Option ℕ) :
    (callees n).Keep (LockedTraps T b c H) :=
  callees_keep_locked (LockedTraps.stable T b c H) (fun _ hs => hs.locked) n

theorem KeptByDeletion.callees (hJ : KeptByDeletion J) (n : ℕ) : (callees n).Keep J := by
  induction n with
  | zero => exact ⟨fun _ _ _ _ _ _ _ _ _ => .fault _, fun _ _ _ => .fault _⟩
  | succ n ih =>
    have hresolve := hJ.unmapResolveCow (callees_keep_lockedTraps n) ih
    exact ⟨fun _ _ _ _ _ _ _ _ _ => ih.allocMap hJ.stable _ _ _ _ _ _ _ _ _,
      fun _ _ _ => ih.pgunmap hJ.stable hresolve _ _ _⟩

end Duplicate

theorem GrownTraps.keptByDeletion (H : ℕ → Option ℕ) (b c : ℕ) : KeptByDeletion (GrownTraps H b c []) where
  congr _ _ hs hheap hcalls htraps hbase := hs.congr hheap hcalls htraps hbase
  delete s i u p hs hu hcow hp := by
    refine ⟨by simp [hs.heap], by simpa using hs.calls, hs.traps.imp (fun hmoved => ?_) fun hheld => ?_⟩
    · simpa [Moved] using hmoved
    · exact hheld.deletePair hu hcow hp

/-- Nothing is allocated. -/
theorem heapCalls_keptByDeletion (c : ℕ) : KeptByDeletion fun s => s.heapCalls = c where
  congr _ _ hs _ hcalls _ _ := hcalls.trans hs
  delete s i u p hs _ _ _ := by simpa using hs

end SysX
