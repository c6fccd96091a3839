import SysX.TrapPairs

/-!
The scan of `vmm_trap_remove` over the trap table, and the pairs over the histories of all functions that place
or delete traps. The scan deletes an entry of the VMM at once, and its partner only when it gets there; where it
gives up in between, the partner is left alone.
-/
namespace SysX

/-- The entry `k` is at the address `vaddr`, and its partner belongs to the VMM. -/
def Against (b vmm : ℕ) (T : List Trap) (k vaddr : ℕ) : Prop :=
  ∃ (t : Trap) (j : ℕ) (u : Trap), T[k]? = some t ∧ t.type = .cow ∧ t.vaddr = vaddr ∧ t.info = some ⟨b, j⟩ ∧ T[j]? = some u ∧ u.vmm = vmm

/-- The entry `m` belongs to the VMM and its partner `k` to another one. -/
def Waits (b vmm : ℕ) (T : List Trap) (m k : ℕ) : Prop :=
  ∃ t u : Trap, T[m]? = some t ∧ t.type = .cow ∧ t.vmm = vmm ∧ t.info = some ⟨b, k⟩ ∧ T[k]? = some u ∧ u.vmm ≠ vmm

/-- The table `l` when the scan of the table `T` has come to the entry `i`. -/
structure Scanned (b vmm : ℕ) (T l : List Trap) (i : ℕ) : Prop where
  entry : ∀ (k : ℕ) (t : Trap), l[k]? = some t → ∃ u : Trap, T[k]? = some u ∧ (t = u ∨ t = u.unused)
  live : ∀ (k : ℕ) (t : Trap), l[k]? = some t → t.type = .cow → ∃ j u, t.info = some ⟨b, j⟩ ∧ l[j]? = some u ∧
    u.info = some ⟨b, k⟩ ∧ (u.type = .cow ∨ u.vmm = vmm ∧ t.vmm ≠ vmm ∧ j < i ∧ i ≤ k)
  past : ∀ (k : ℕ) (t : Trap) (j : ℕ) (u : Trap), l[k]? = some t → t.type = .cow → k < i → t.info = some ⟨b, j⟩ → l[j]? = some u →
    t.vmm ≠ vmm ∧ u.vmm ≠ vmm

section Scan

variable {b vmm i j k : ℕ} {T l : List Trap} {t u : Trap}

theorem getElem?_unused (h : (l.modify i Trap.unused)[k]? = some t) :
    k ≠ i ∧ l[k]? = some t ∨ k = i ∧ ∃ u : Trap, l[k]? = some u ∧ t = u.unused := by
  by_cases hki : k = i
  · subst hki
    rw [List.getElem?_modify_eq] at h
    obtain ⟨u, hu, rfl⟩ := Option.map_eq_some_iff.mp h
    exact .inr ⟨rfl, u, hu, rfl⟩
  · rw [List.getElem?_modify_ne _ _ (Ne.symm hki)] at h
    exact .inl ⟨hki, h⟩

/-- An entry in use after a deletion is another one. -/
theorem getElem?_unused_cow (h : (l.modify i Trap.unused)[k]? = some t) (hcow : t.type = .cow) :
    k ≠ i ∧ l[k]? = some t := by
  rcases getElem?_unused h with hold | ⟨-, u, -, rfl⟩
  · exact hold
  · cases hcow

theorem Scanned.start (h : PairedTraps b ∅ T) : Scanned b vmm T T 0 := by
  constructor
  · intro k t ht
    exact ⟨t, ht, .inl rfl⟩
  · intro k t ht hcow
    obtain ⟨j, -, ⟨t', ht', -, hp⟩, u, hu, hucow, hback⟩ := h k t ht hcow (by simp)
    cases ht.symm.trans ht'
    exact ⟨j, u, hp, hu, hback, .inl hucow⟩
  · intro k t j u _ _ hk
    exact absurd hk (Nat.not_lt_zero k)

/-- An entry in use is as it was. -/
theorem Scanned.entry_cow (h : Scanned b vmm T l i) (ht : l[k]? = some t) (hcow : t.type = .cow) :
    T[k]? = some t := by
  obtain ⟨u, hu, rfl | rfl⟩ := h.entry k t ht
  · exact hu
  · cases hcow

/-- The fields other than the type are as they were. -/
theorem Scanned.entry_fields (h : Scanned b vmm T l i) (ht : l[k]? = some t) :
    ∃ u, T[k]? = some u ∧ u.vmm = t.vmm ∧ u.info = t.info := by
  obtain ⟨u, hu, rfl | rfl⟩ := h.entry k t ht
  · exact ⟨_, hu, rfl, rfl⟩
  · exact ⟨u, hu, rfl, rfl⟩

theorem Scanned.entry_modify (h : Scanned b vmm T l i) (n : ℕ) : ∀ (k : ℕ) (t : Trap),
    (l.modify n Trap.unused)[k]? = some t → ∃ u : Trap, T[k]? = some u ∧ (t = u ∨ t = u.unused) := by
  intro k t ht
  rcases getElem?_unused ht with ⟨-, ht⟩ | ⟨-, u, hu, rfl⟩
  · exact h.entry k t ht
  · obtain ⟨v, hv, rfl | rfl⟩ := h.entry k u hu
    · exact ⟨_, hv, .inr rfl⟩
    · exact ⟨v, hv, .inr rfl⟩

/-- The scan passes an entry that is not in use. -/
theorem Scanned.skip (h : Scanned b vmm T l i) (ht : l[i]? = some t) (hnone : t.type = .none) :
    Scanned b vmm T l (i + 1) := by
  have hne : ∀ k u, l[k]? = some u → u.type = .cow → k ≠ i := by
    rintro k u hu hcow rfl
    cases ht.symm.trans hu
    rw [hnone] at hcow
    cases hcow
  constructor
  · exact h.entry
  · intro k u hu hcow
    have := hne k u hu hcow
    obtain ⟨j, v, hp, hv, hback, hlive⟩ := h.live k u hu hcow
    refine ⟨j, v, hp, hv, hback, hlive.imp id ?_⟩
    rintro ⟨hvmm, hother, hj, hk⟩
    exact ⟨hvmm, hother, by omega, by omega⟩
  · intro k u j v hu hcow hk
    have := hne k u hu hcow
    exact h.past k u j v hu hcow (by omega)

/-- The scan passes a pair of other VMMs. -/
theorem Scanned.pass (h : Scanned b vmm T l i) (ht : l[i]? = some t) (hp : t.info = some ⟨b, j⟩)
    (hu : l[j]? = some u) (hown : t.vmm ≠ vmm) (hother : u.vmm ≠ vmm) : Scanned b vmm T l (i + 1) := by
  have hi : ∀ k v, k = i → l[k]? = some v → v = t := by
    rintro k v rfl hv
    cases ht.symm.trans hv
    rfl
  constructor
  · exact h.entry
  · intro k v hv hcow
    obtain ⟨m, w, hm, hw, hback, hlive⟩ := h.live k v hv hcow
    refine ⟨m, w, hm, hw, hback, hlive.imp id ?_⟩
    rintro ⟨hvmm, hne, hmi, hk⟩
    refine ⟨hvmm, hne, by omega, ?_⟩
    have hki : k ≠ i := by
      intro hki
      obtain rfl := hi k v hki hv
      cases hp.symm.trans hm
      cases hu.symm.trans hw
      exact hother hvmm
    omega
  · intro k v m w hv hcow hk hm hw
    by_cases hki : k = i
    · obtain rfl := hi k v hki hv
      cases hp.symm.trans hm
      cases hu.symm.trans hw
      exact ⟨hown, hother⟩
    · exact h.past k v m w hv hcow (by omega) hm hw

/-- The scan deletes an entry whose partner belongs to the VMM, and the partner. -/
theorem Scanned.source (h : Scanned b vmm T l i) (ht : l[i]? = some t) (hcow : t.type = .cow)
    (hp : t.info = some ⟨b, j⟩) : Scanned b vmm T ((l.modify j Trap.unused).modify i Trap.unused) (i + 1) := by
  obtain ⟨j', u, hp', hu, hback, -⟩ := h.live i t ht hcow
  cases hp.symm.trans hp'
  -- The mates of the other entries in use are neither of the two.
  have hmate : ∀ k m v w, k ≠ i → k ≠ j → l[k]? = some v → v.info = some ⟨b, m⟩ → l[m]? = some w →
      w.info = some ⟨b, k⟩ → ((l.modify j Trap.unused).modify i Trap.unused)[m]? = some w := by
    intro k m v w hki hkj hv hm hw hwk
    have hmi : i ≠ m := by
      rintro rfl
      cases ht.symm.trans hw
      cases hp.symm.trans hwk
      exact hkj rfl
    have hmj : j ≠ m := by
      rintro rfl
      cases hu.symm.trans hw
      cases hback.symm.trans hwk
      exact hki rfl
    rw [List.getElem?_modify_ne _ _ hmi, List.getElem?_modify_ne _ _ hmj, hw]
  constructor
  · intro k v hv
    rcases getElem?_unused hv with ⟨-, hv⟩ | ⟨-, w, hw, rfl⟩
    · exact h.entry_modify j k v hv
    · obtain ⟨x, hx, rfl | rfl⟩ := h.entry_modify j k w hw
      · exact ⟨_, hx, .inr rfl⟩
      · exact ⟨x, hx, .inr rfl⟩
  · intro k v hv hvcow
    obtain ⟨hki, hv⟩ := getElem?_unused_cow hv hvcow
    obtain ⟨hkj, hv⟩ := getElem?_unused_cow hv hvcow
    obtain ⟨m, w, hm, hw, hwk, hlive⟩ := h.live k v hv hvcow
    refine ⟨m, w, hm, hmate k m v w hki hkj hv hm hw hwk, hwk, hlive.imp id ?_⟩
    rintro ⟨hvmm, hne, hmi, hk⟩
    exact ⟨hvmm, hne, by omega, by omega⟩
  · intro k v m w hv hvcow hk hm hw
    obtain ⟨hki, hv⟩ := getElem?_unused_cow hv hvcow
    obtain ⟨hkj, hv⟩ := getElem?_unused_cow hv hvcow
    obtain ⟨m', x, hm', hx, hxk, -⟩ := h.live k v hv hvcow
    cases hm.symm.trans hm'
    cases (hmate k m v x hki hkj hv hm hx hxk).symm.trans hw
    exact h.past k v m w hv hvcow (by omega) hm hx

/-- The scan deletes an entry of the VMM whose partner belongs to another one. -/
theorem Scanned.own (h : Scanned b vmm T l i) (ht : l[i]? = some t) (hcow : t.type = .cow)
    (hp : t.info = some ⟨b, j⟩) (hu : l[j]? = some u) (hown : t.vmm = vmm) (hother : u.vmm ≠ vmm) :
    Scanned b vmm T (l.modify i Trap.unused) (i + 1) := by
  obtain ⟨j', u', hp', hu', hback, hlive⟩ := h.live i t ht hcow
  cases hp.symm.trans hp'
  cases hu.symm.trans hu'
  have hucow : u.type = .cow := by
    rcases hlive with hucow | ⟨hvmm, -⟩
    · exact hucow
    · exact absurd hvmm hother
  -- The partner is still ahead.
  have hj : i < j := by
    have hji : j ≠ i := by
      rintro rfl
      cases ht.symm.trans hu
      exact hother hown
    by_contra hlt
    exact (h.past j u i t hu hucow (by omega) hback ht).2 hown
  constructor
  · exact h.entry_modify i
  · intro k v hv hvcow
    obtain ⟨hki, hvl⟩ := getElem?_unused_cow hv hvcow
    obtain ⟨m, w, hm, hw, hwk, hlive⟩ := h.live k v hvl hvcow
    by_cases hmi : m = i
    · subst hmi
      cases ht.symm.trans hw
      cases hp.symm.trans hwk
      cases hu.symm.trans hvl
      refine ⟨m, t.unused, hm, ?_, hwk, .inr ⟨hown, hother, Nat.lt_succ_self m, hj⟩⟩
      rw [List.getElem?_modify_eq, ht]
      rfl
    · refine ⟨m, w, hm, ?_, hwk, hlive.imp id ?_⟩
      · rw [List.getElem?_modify_ne _ _ (Ne.symm hmi), hw]
      · rintro ⟨hvmm, hne, hlt, hk⟩
        exact ⟨hvmm, hne, by omega, by omega⟩
  · intro k v m w hv hvcow hk hm hw
    obtain ⟨hki, hvl⟩ := getElem?_unused_cow hv hvcow
    rcases getElem?_unused hw with ⟨-, hwl⟩ | ⟨-, x, hx, rfl⟩
    · exact h.past k v m w hvl hvcow (by omega) hm hwl
    · exact h.past k v m x hvl hvcow (by omega) hm hx

/-- An entry whose partner belongs to the VMM was one from the start. -/
theorem Scanned.against (h : Scanned b vmm T l i) (ht : l[k]? = some t) (hcow : t.type = .cow)
    (hp : t.info = some ⟨b, j⟩) (hu : l[j]? = some u) (hsrc : u.vmm = vmm) : Against b vmm T k t.vaddr := by
  obtain ⟨v, hv, hvmm, -⟩ := h.entry_fields hu
  exact ⟨t, j, v, h.entry_cow ht hcow, hcow, rfl, hp, hv, hvmm.trans hsrc⟩

/-- Such an entry does not wait. -/
theorem Against.not_waits {v m : ℕ} (h : Against b vmm T k v) : ¬ Waits b vmm T k m := by
  obtain ⟨t, j, u, ht, -, -, hp, hu, hvmm⟩ := h
  rintro ⟨t', u', ht', -, -, hp', hu', hother⟩
  cases ht.symm.trans ht'
  cases hp.symm.trans hp'
  cases hu.symm.trans hu'
  exact hother hvmm

/-- Where no entry in use has lost its partner, the table is paired. -/
theorem Scanned.paired (h : Scanned b vmm T l i)
    (hno : ∀ m k, Waits b vmm T m k → l[k]?.map (·.type) = some .cow → m < i → ¬ i ≤ k) (hT : PairedTraps b ∅ T) :
    PairedTraps b ∅ l := by
  intro k t ht hcow _
  obtain ⟨j, u, hp, hu, hback, hlive⟩ := h.live k t ht hcow
  have hucow : u.type = .cow := by
    rcases hlive with hucow | ⟨hvmm, hother, hj, hk⟩
    · exact hucow
    · exfalso
      obtain ⟨m, -, ⟨t', ht', -, hp'⟩, v, hv, hvcow, hvback⟩ := hT k t (h.entry_cow ht hcow) hcow (by simp)
      cases (h.entry_cow ht hcow).symm.trans ht'
      cases hp.symm.trans hp'
      obtain ⟨w, hw, hwvmm, -⟩ := h.entry_fields hu
      cases hv.symm.trans hw
      exact hno j k ⟨v, t, hv, hvcow, hwvmm.trans hvmm, hvback, h.entry_cow ht hcow, hother⟩
        (by rw [ht, Option.map_some, hcow]) hj hk
  exact ⟨j, by simp, ⟨⟨t, ht, hcow, hp⟩, u, hu, hucow, hback⟩⟩

end Scan

/-! `vmm_trap_remove` holds the mutex, so that the functions it calls leave the table alone. -/

theorem vmmCowSetup_lockedTraps (n : ℕ) (T : List Trap) (b c : ℕ) (H : ℕ → Option ℕ) (src vs dst vd size : ℕ) :
    Comp.Keeps (LockedTraps T b c H) (vmmCowSetup (callees n) src vs dst vd size) := by
  let N : List TrapPtr → Machine → Prop := fun ps s => ps = [] ∧ LockedTraps T b c H s
  have hstable : MemStable (N []) := fun s m bm hs => ⟨rfl, LockedTraps.stable T b c H s m bm hs.2⟩
  have hN : FollowsTraps N := by
    constructor
    · exact hstable
    · intro ps vmm vaddr
      exact vmmNewTrap_locked (fun s hs => hs.2.locked) vmm vaddr .cow
    · intro p ps s hs
      cases hs.1
    · intro p q s hs
      cases hs.1
  have hK : (callees n).Keep (N []) := callees_keep_locked hstable (fun s hs => hs.2.locked) n
  intro s r t hs h
  exact (vmmCowSetup_keeps hN hK src vs dst vd size s r t ⟨rfl, hs⟩ h).2

/-- The loop has come to the entry `i`; each address in `resolved` is that of an entry before. -/
structure Removing (H : ℕ → Option ℕ) (b c vmm : ℕ) (T : List Trap) (i : ℕ) (resolved : List Resolved)
    (s : Machine) : Prop where
  locked : s.vmmTrapsMutex = true
  heap : s.heap = H
  calls : c ≤ s.heapCalls
  base : s.vmmTrapsBase = b
  scanned : Scanned b vmm T s.vmmTraps i
  resolved : ∀ r ∈ resolved, ∃ k < i, Against b vmm T k r.vaddr

/-- The scan may give up while an entry waits for its partner: at the second entry with an address, or because
`krealloc` fails. -/
def GivesUp (H : ℕ → Option ℕ) (b c vmm : ℕ) (T : List Trap) (calls : ℕ) : Prop :=
  (∃ k k' v m j, Against b vmm T k v ∧ Against b vmm T k' v ∧ k' < k ∧ Waits b vmm T m j ∧ m < k ∧ k < j) ∨
  ∃ n, c ≤ n ∧ n < calls ∧ H n = none ∧ ∃ m j, Waits b vmm T m j ∧ m < j

/-- What is left when the scan is over. -/
structure Removed (H : ℕ → Option ℕ) (b c vmm : ℕ) (T : List Trap) (s : Machine) : Prop where
  heap : s.heap = H
  base : s.vmmTrapsBase = b
  traps : GivesUp H b c vmm T s.heapCalls ∨ PairedTraps b ∅ s.vmmTraps

section Remove

variable {H : ℕ → Option ℕ} {b c vmm i n : ℕ} {T : List Trap} {resolved : List Resolved} {s t : Machine}

theorem Removing.lockedTraps (h : Removing H b c vmm T i resolved s) :
    LockedTraps s.vmmTraps b s.heapCalls H s := ⟨h.locked, rfl, h.base, rfl, h.heap⟩

/-- The next pass. -/
theorem Removing.next (h : Removing H b c vmm T i resolved s) {resolved' : List Resolved} {l : List Trap}
    (ht : LockedTraps l b n H t) (hn : s.heapCalls ≤ n) (hscan : Scanned b vmm T l (i + 1))
    (hres : ∀ r ∈ resolved', r ∈ resolved ∨ Against b vmm T i r.vaddr) :
    Removing H b c vmm T (i + 1) resolved' t := by
  constructor
  · exact ht.locked
  · exact ht.heap
  · rw [ht.calls]
    exact h.calls.trans hn
  · exact ht.base
  · rw [ht.traps]
    exact hscan
  · intro r hr
    rcases hres r hr with hr | hi
    · obtain ⟨k, hk, hagainst⟩ := h.resolved r hr
      exact ⟨k, by omega, hagainst⟩
    · exact ⟨i, Nat.lt_succ_self i, hi⟩

/-- The mutex is released. -/
theorem LockedTraps.release {l : List Trap} {α : Type} {a r : α} (h : LockedTraps l b n H s)
    (hr : (do trapsRelease; pure a : Kernel α) s = some (r, t)) :
    t.heap = H ∧ t.vmmTrapsBase = b ∧ t.heapCalls = n ∧ t.vmmTraps = l := by
  cases hr
  exact ⟨h.heap, h.base, h.calls, h.traps⟩

theorem LockedTraps.deleteTrap {l : List Trap} (j : ℕ) : Comp.Ensures (LockedTraps l b n H)
    (vmmDeleteTrap (some ⟨b, j⟩)) fun _ => LockedTraps (l.modify j Trap.unused) b n H := by
  apply Comp.Ensures.modify
  rintro s ⟨hlock, rfl, rfl, rfl, rfl⟩
  rw [show (fun t : Trap => { t with type := .none }) = Trap.unused from rfl, modifyTrap_of_base rfl]
  exact ⟨hlock, rfl, rfl, rfl, rfl⟩

/-- The entry that the loop looks at. -/
theorem LockedTraps.deref {l : List Trap} {u : Trap} (h : LockedTraps l b n H s) (hu : l[i]? = some u) :
    trapDeref ⟨s.vmmTrapsBase, i⟩ s = some (u, s) := by
  rw [trapDeref, Comp.readOr_apply, Machine.trapAt, if_pos rfl, h.traps, hu]
  rfl

/-- Whether the partner of an entry belongs to the VMM. -/
theorem LockedTraps.sources {l : List Trap} {j : ℕ} {u v : Trap} (h : LockedTraps l b n H s) (vmm : ℕ) (hcow : u.type = .cow)
    (hp : u.info = some ⟨b, j⟩) (hv : l[j]? = some v) :
    (if u.type = .cow then do
        let p ← trapInfo u
        let info ← trapDeref p
        pure (decide (info.vmm = vmm))
      else pure false : Kernel Bool) s = some (decide (v.vmm = vmm), s) := by
  have hinfo : trapInfo u s = some (⟨s.vmmTrapsBase, j⟩, s) := by
    rw [trapInfo, Comp.readOr_apply, hp, h.base]
    rfl
  rw [if_pos hcow, Comp.bind_of_eq hinfo, Comp.bind_of_eq (h.deref hv)]
  rfl

theorem trapRemoveLoop_removed (hT : PairedTraps b ∅ T) (m fuel i cap : ℕ) (resolved : List Resolved) :
    Comp.Ensures (Removing H b c vmm T i resolved) (trapRemoveLoop (callees m) vmm fuel i cap resolved)
      fun _ => Removed H b c vmm T := by
  induction fuel generalizing i cap resolved with
  | zero =>
    intro s r t _ h
    cases h
  | succ fuel ih =>
    intro s r t hs h
    have hlocked := hs.lockedTraps
    rw [trapRemoveLoop, Comp.read_bind] at h
    by_cases hlen : s.vmmTraps.length ≤ i
    · rw [if_pos hlen] at h
      obtain ⟨hheap, hbase, hcalls, htraps⟩ := hlocked.release h
      refine ⟨hheap, hbase, .inr ?_⟩
      rw [htraps]
      refine hs.scanned.paired (fun m k _ hk _ hik => ?_) hT
      obtain ⟨u, hu, -⟩ := Option.map_eq_some_iff.mp hk
      have := (List.getElem?_eq_some_iff.mp hu).1
      omega
    rw [if_neg hlen, Comp.read_bind] at h
    obtain ⟨t₀, hat⟩ : ∃ t₀, s.vmmTraps[i]? = some t₀ := ⟨_, List.getElem?_eq_getElem (by omega)⟩
    rw [Comp.bind_of_eq (hlocked.deref hat)] at h
    by_cases hnone : t₀.type = .none
    · rw [if_pos hnone] at h
      exact ih _ _ _ s r t (hs.next hlocked le_rfl (hs.scanned.skip hat hnone) fun r hr => .inl hr) h
    rw [if_neg hnone] at h
    have hcow : t₀.type = .cow := by
      cases htype : t₀.type
      · exact absurd htype hnone
      · rfl
    obtain ⟨j, u₀, hp, hu₀, hback, -⟩ := hs.scanned.live i t₀ hat hcow
    rw [Comp.bind_of_eq (hlocked.sources vmm hcow hp hu₀)] at h
    by_cases hsrc : u₀.vmm = vmm
    · have hscan := hs.scanned.source hat hcow hp
      have hagainst := hs.scanned.against hat hcow hp hu₀ hsrc
      simp only [hsrc, decide_true, if_true] at h
      have hKL := callees_keep_lockedTraps m s.vmmTraps b s.heapCalls H
      cases hfind : resolved.find? fun r => r.vaddr = t₀.vaddr with
      | some e =>
        simp only [hfind] at h
        obtain ⟨pgsz, u, hrun, h⟩ := Comp.bind_eq_some.mp h
        have hu := hKL.vmmGetPgsz _ _ _ _ _ hlocked hrun
        rw [hp, hs.base] at h
        obtain ⟨_, u, hrun, h⟩ := Comp.bind_eq_some.mp h
        have hu := LockedTraps.deleteTrap j _ _ _ hu hrun
        obtain ⟨_, u, hrun, h⟩ := Comp.bind_eq_some.mp h
        have hu := LockedTraps.deleteTrap i _ _ _ hu hrun
        cases pgsz with
        | none => exact ih _ _ _ u r t (hs.next hu le_rfl hscan fun r hr => .inl hr) h
        | some idx =>
          obtain ⟨n, u, hrun, h⟩ := Comp.bind_eq_some.mp h
          have hu := vmmCowSetup_lockedTraps m _ _ _ _ _ _ _ _ _ _ _ _ hu hrun
          by_cases hn : n = 0
          · rw [if_pos hn] at h
            obtain ⟨hheap, hbase, hcalls, htraps⟩ := hu.release h
            refine ⟨hheap, hbase, ?_⟩
            by_cases hwait : ∃ m j, Waits b vmm T m j ∧ m < i ∧ i < j
            · obtain ⟨m, j, hw, hm, hj⟩ := hwait
              obtain ⟨k, hk, hagain⟩ := hs.resolved e (List.mem_of_find?_eq_some hfind)
              have haddr : e.vaddr = t₀.vaddr := by simpa using List.find?_some hfind
              exact .inl (.inl ⟨i, k, t₀.vaddr, m, j, hagainst, haddr ▸ hagain, hk, hw, hm, hj⟩)
            · right
              rw [htraps]
              refine hscan.paired (fun m k hw _ hm hk => hwait ⟨m, k, hw, ?_, hk⟩) hT
              have hne : m ≠ i := by
                rintro rfl
                exact hagainst.not_waits hw
              omega
          · rw [if_neg hn] at h
            exact ih _ _ _ u r t (hs.next hu le_rfl hscan fun r hr => .inl hr) h
      | none =>
        simp only [hfind] at h
        obtain ⟨grown, u, hrun, h⟩ := Comp.bind_eq_some.mp h
        obtain ⟨n, hn, hu, hfail⟩ : ∃ n, s.heapCalls ≤ n ∧ LockedTraps s.vmmTraps b n H u ∧
            (grown = none → n = s.heapCalls + 1 ∧ H s.heapCalls = none) := by
          split_ifs at hrun with hcap
          · cases hrun
            refine ⟨s.heapCalls + 1, Nat.le_succ _, ⟨hs.locked, rfl, hs.base, rfl, hs.heap⟩, fun hnone => ⟨rfl, ?_⟩⟩
            rw [← hs.heap]
            exact hnone
          · cases hrun
            exact ⟨s.heapCalls, le_rfl, hlocked, nofun⟩
        cases grown with
        | none =>
          obtain ⟨hheap, hbase, hcalls, htraps⟩ := hu.release h
          refine ⟨hheap, hbase, ?_⟩
          by_cases hwait : ∃ m j, Waits b vmm T m j ∧ m < j
          · obtain ⟨rfl, hnone⟩ := hfail rfl
            rw [hcalls]
            exact .inl (.inr ⟨s.heapCalls, hs.calls, Nat.lt_succ_self _, hnone, hwait⟩)
          · right
            rw [htraps]
            exact hs.scanned.paired (fun m k hw _ hm hk => hwait ⟨m, k, hw, by omega⟩) hT
        | some block =>
          have hKL := callees_keep_lockedTraps m s.vmmTraps b n H
          have hL := LockedTraps.stable s.vmmTraps b n H
          obtain ⟨flags, u, hrun, h⟩ := Comp.bind_eq_some.mp h
          have hu := hKL.vmmGetFlags _ _ _ _ _ hu hrun
          obtain ⟨_, u, hrun, h⟩ := Comp.bind_eq_some.mp h
          have hu := hKL.vmmSetFlags hL _ _ _ _ _ _ hu hrun
          rw [hp, hs.base] at h
          obtain ⟨_, u, hrun, h⟩ := Comp.bind_eq_some.mp h
          have hu := LockedTraps.deleteTrap j _ _ _ hu hrun
          obtain ⟨_, u, hrun, h⟩ := Comp.bind_eq_some.mp h
          have hu := LockedTraps.deleteTrap i _ _ _ hu hrun
          refine ih _ _ _ u r t (hs.next hu hn hscan fun r hr => ?_) h
          rcases List.mem_append.mp hr with hr | hr
          · exact .inl hr
          · rw [List.mem_singleton.mp hr]
            exact .inr hagainst
    · simp only [hsrc, decide_false, Bool.false_eq_true, if_false] at h
      by_cases hown : t₀.vmm = vmm
      · rw [if_pos hown] at h
        rw [hs.base] at h
        obtain ⟨_, u, hrun, h⟩ := Comp.bind_eq_some.mp h
        have hu := LockedTraps.deleteTrap i _ _ _ hlocked hrun
        exact ih _ _ _ u r t (hs.next hu le_rfl (hs.scanned.own hat hcow hp hu₀ hown hsrc) fun r hr => .inl hr) h
      · rw [if_neg hown] at h
        exact ih _ _ _ s r t (hs.next hlocked le_rfl (hs.scanned.pass hat hp hu₀ hown hsrc) fun r hr => .inl hr) h

theorem vmmTrapRemove_removed (m : ℕ) {r : Bool} (hs : PairedTraps s.vmmTrapsBase ∅ s.vmmTraps)
    (h : vmmTrapRemove (callees m) vmm s = some (r, t)) :
    Removed s.heap s.vmmTrapsBase s.heapCalls vmm s.vmmTraps t := by
  obtain ⟨_, u, hacq, h⟩ := Comp.bind_eq_some.mp h
  obtain ⟨-, rfl⟩ := trapsAcquire_some hacq
  have hstart : Removing s.heap s.vmmTrapsBase s.heapCalls vmm s.vmmTraps 0 [] { s with vmmTrapsMutex := true } :=
    ⟨rfl, rfl, le_rfl, rfl, .start hs, fun e he => by cases he⟩
  exact trapRemoveLoop_removed hs m loopFuel 0 0 [] _ r t hstart h

end Remove

/-! The histories of the functions that place and delete traps. -/

inductive TrapCall where
  | cowSetup (src vs dst vd size : ℕ)
  | cowDuplicate (vmm vaddr : ℕ) (pgsz : Option ℕ)
  | trapRemove (vmm : ℕ)
  | pgunmap (vmm va pgsz : ℕ)
  deriving DecidableEq, Repr

def TrapCall.run (K : Callees) : TrapCall → Kernel Unit
  | .cowSetup src vs dst vd size => do let _ ← vmmCowSetup K src vs dst vd size
  | .cowDuplicate vmm vaddr pgsz => do let _ ← vmmCowDuplicate K vmm vaddr pgsz
  | .trapRemove vmm => do let _ ← vmmTrapRemove K vmm
  | .pgunmap vmm va pgsz => vmmPgunmap K vmm va pgsz

/-- Between the calls the rest of the kernel may do anything that leaves the table alone. `P` holds of every
state in which a call is made, with the number of allocations there have been after it. -/
inductive TrapRun (n : ℕ) (P : Machine → TrapCall → ℕ → Prop) : Machine → Prop
  | boot {s} (h : s.vmmTraps = []) : TrapRun n P s
  | call {s t c} (h : TrapRun n P s) (hP : P s c t.heapCalls) (hr : c.run (callees n) s = some ((), t)) :
      TrapRun n P t
  | other {s t} (h : TrapRun n P s) (htraps : t.vmmTraps = s.vmmTraps)
      (hbase : t.vmmTrapsBase = s.vmmTrapsBase) : TrapRun n P t

/-- A table with entries is not moved by the allocations up to `calls`. -/
def GrowsInPlace (s : Machine) (calls : ℕ) : Prop :=
  ∃ b, (s.vmmTraps ≠ [] → b = s.vmmTrapsBase) ∧
    ∀ n, s.heapCalls ≤ n → n < calls → s.heap n = none ∨ s.heap n = some b

/-- While the scan may give up, no entry of the VMM that it has deleted waits for its partner. -/
structure RemovesPairs (s : Machine) (vmm calls : ℕ) : Prop where
  again : ∀ k k' v, Against s.vmmTrapsBase vmm s.vmmTraps k v → Against s.vmmTrapsBase vmm s.vmmTraps k' v →
    k' < k → ∀ m j, Waits s.vmmTrapsBase vmm s.vmmTraps m j → m < k → j ≤ k
  refused : ∀ n, s.heapCalls ≤ n → n < calls → s.heap n = none →
    ∀ m j, Waits s.vmmTrapsBase vmm s.vmmTraps m j → j ≤ m

/-- The condition under which a call keeps the pairs. -/
def TrapCallOk (s : Machine) (c : TrapCall) (calls : ℕ) : Prop :=
  match c with
  | .cowSetup _ _ _ _ _ => GrowsInPlace s calls
  | .trapRemove vmm => RemovesPairs s vmm calls
  | .cowDuplicate _ _ _ => True
  | .pgunmap _ _ _ => True

section Runs

variable {s t : Machine}

theorem heldTraps_nil {b : ℕ} (h : TrapsPaired s) (hb : s.vmmTraps ≠ [] → s.vmmTrapsBase = b) :
    HeldTraps b [] s := by
  constructor
  · exact hb
  · simp
  · exact List.nodup_nil
  · have hempty : {k | (⟨s.vmmTrapsBase, k⟩ : TrapPtr) ∈ ([] : List TrapPtr)} = ∅ := by simp
    rw [hempty]
    exact trapsPaired_iff.mp h

theorem HeldTraps.trapsPaired {b : ℕ} (h : HeldTraps b [] s) : TrapsPaired s := by
  have hempty : {k | (⟨s.vmmTrapsBase, k⟩ : TrapPtr) ∈ ([] : List TrapPtr)} = ∅ := by simp
  have hpaired := h.paired
  rw [hempty] at hpaired
  exact trapsPaired_iff.mpr hpaired

/-- A computation that keeps the invariant keeps the pairs if `krealloc` does not move the table. -/
theorem TrapsPaired.step {α : Type} {c : Kernel α} {r : α} (h : TrapsPaired s)
    (hc : ∀ H b n, Comp.Keeps (GrownTraps H b n []) c) (hP : GrowsInPlace s t.heapCalls)
    (hr : c s = some (r, t)) : TrapsPaired t := by
  obtain ⟨b, hb, hplace⟩ := hP
  have ht := hc s.heap b s.heapCalls s r t ⟨rfl, le_rfl, .inr (heldTraps_nil h fun hne => (hb hne).symm)⟩ hr
  rcases ht.traps with ⟨n, hn, hlt, hne, hne'⟩ | hheld
  · rw [ht.heap] at hne hne'
    rcases hplace n hn hlt with hnone | hsome
    · exact absurd hnone hne
    · exact absurd hsome hne'
  · exact hheld.trapsPaired

/-- A call that allocates nothing. -/
theorem growsInPlace_of_calls (h : t.heapCalls = s.heapCalls) : GrowsInPlace s t.heapCalls := by
  refine ⟨s.vmmTrapsBase, fun _ => rfl, fun n hn hlt => ?_⟩
  omega

theorem TrapsPaired.call {n : ℕ} {c : TrapCall} (h : TrapsPaired s) (hP : TrapCallOk s c t.heapCalls)
    (hr : c.run (callees n) s = some ((), t)) : TrapsPaired t := by
  have hK := callees_keep_lockedTraps n
  cases c with
  | cowSetup src vs dst vd size =>
    obtain ⟨r, u, hr, hu⟩ := Comp.bind_eq_some.mp hr
    cases hu
    exact h.step (fun H b n' => vmmCowSetup_keeps (GrownTraps.follows H b n')
      ((GrownTraps.keptByDeletion H b n').callees n) src vs dst vd size) hP hr
  | cowDuplicate vmm vaddr pgsz =>
    obtain ⟨r, u, hr, hu⟩ := Comp.bind_eq_some.mp hr
    cases hu
    have hkeep : ∀ J, KeptByDeletion J → Comp.Keeps J (vmmCowDuplicate (callees n) vmm vaddr pgsz) :=
      fun J hJ => hJ.cowDuplicate hK (hJ.callees n) vmm vaddr pgsz
    have hcalls := hkeep _ (heapCalls_keptByDeletion s.heapCalls) s r t rfl hr
    exact h.step (fun H b n' => hkeep _ (GrownTraps.keptByDeletion H b n')) (growsInPlace_of_calls hcalls) hr
  | trapRemove vmm =>
    obtain ⟨r, u, hr, hu⟩ := Comp.bind_eq_some.mp hr
    cases hu
    obtain ⟨-, hbase, hgive | hpaired⟩ := vmmTrapRemove_removed n (trapsPaired_iff.mp h) hr
    · exfalso
      rcases hgive with ⟨k, k', v, m, j, hk, hk', hlt, hw, hm, hj⟩ | ⟨i, hi, hlt, hnone, m, j, hw, hm⟩
      · have := hP.again k k' v hk hk' hlt m j hw hm
        omega
      · have := hP.refused i hi hlt hnone m j hw
        omega
    · rw [trapsPaired_iff, hbase]
      exact hpaired
  | pgunmap vmm va pgsz =>
    have hkeep : ∀ J, KeptByDeletion J → Comp.Keeps J (vmmPgunmap (callees n) vmm va pgsz) := fun J hJ =>
      (hJ.callees n).pgunmap hJ.stable (hJ.unmapResolveCow hK (hJ.callees n)) vmm va pgsz
    have hcalls := hkeep _ (heapCalls_keptByDeletion s.heapCalls) s () t rfl hr
    exact h.step (fun H b n' => hkeep _ (GrownTraps.keptByDeletion H b n')) (growsInPlace_of_calls hcalls) hr

end Runs

/-- As long as the table is not moved under entries in use, and no removal gives up halfway through a pair, the
`info` of every entry points to an entry of the current table that points back. -/
theorem traps_paired {n : ℕ} {s : Machine} (run : TrapRun n TrapCallOk s) : TrapsPaired s := by
  induction run with
  | boot h =>
    intro i t ht
    rw [h] at ht
    simp at ht
  | call h hP hr ih => exact ih.call hP hr
  | other h htraps hbase ih =>
    rw [trapsPaired_iff] at ih ⊢
    rw [htraps, hbase]
    exact ih

/-- The current VMM has three pages from 64 KiB on, and another VMM has none. -/
def trapsSample : Machine := { (default : Machine) with
  mem := fun f i =>
    match f, i with
    | 1, 0 => 0x2007#32
    | 1, 767 => 0x1003#32
    | 2, 16 => 0x8007#32
    | 2, 17 => 0x9007#32
    | 2, 18 => 0xA007#32
    | 3, 767 => 0x3003#32
    | _, _ => 0#32
  pmmBitmap := fun i => if i = 0 then 0xFFF#32 else 0#32
  pmmFrames := 32
  vmmCurrent := 0x1000
  kernelEnd := 0xC0001000
  heap := fun n => some (n + 1) }

/-- The page at `va` is shared with the other VMM. -/
def shareSample (va : ℕ) : TrapCall := .cowSetup 0x1000 va 0x3000 va 4096

/-- A page is shared, and the traps of the other VMM are removed. -/
theorem traps_paired_sample :
    let s := Comp.after ((shareSample 0x10000).run (callees 3)) trapsSample
    let t := Comp.after ((TrapCall.trapRemove 0x3000).run (callees 3)) s
    TrapRun 3 TrapCallOk t ∧ TrapsPaired t := by
  intro s t
  have hs : ((shareSample 0x10000).run (callees 3) trapsSample).map Prod.fst = some () := by decide +kernel
  have ht : ((TrapCall.trapRemove 0x3000).run (callees 3) s).map Prod.fst = some () := by decide +kernel
  have hcalls : s.heapCalls = 1 := by decide +kernel
  have hheap : s.heap 1 = some 2 := by decide +kernel
  have htcalls : t.heapCalls = 2 := by decide +kernel
  have htable : s.vmmTraps = [⟨.cow, 0x1000, 0x10000, some ⟨1, 1⟩⟩, ⟨.cow, 0x3000, 0x10000, some ⟨1, 0⟩⟩,
      trapZero, trapZero] := by decide +kernel
  have hgrows : GrowsInPlace trapsSample s.heapCalls := by
    refine ⟨1, fun hne => absurd rfl hne, fun n _ hn => .inr ?_⟩
    rw [hcalls] at hn
    obtain rfl : n = 0 := by omega
    rfl
  have hwaits : ∀ m j, Waits s.vmmTrapsBase 0x3000 s.vmmTraps m j → m = 1 ∧ j = 0 := by
    rintro m j ⟨u, -, hu, hcow, hvmm, hp, -⟩
    rw [htable] at hu
    rcases m with _ | _ | _ | _ | m
    all_goals simp [trapZero] at hu
    all_goals subst hu
    all_goals simp_all
  have hremoves : RemovesPairs s 0x3000 t.heapCalls := by
    constructor
    · intro k k' v _ _ _ m j hw _
      have := (hwaits m j hw).2
      omega
    · intro n hn hlt hnone
      rw [hcalls] at hn
      rw [htcalls] at hlt
      obtain rfl : n = 1 := by omega
      rw [hheap] at hnone
      cases hnone
  have share : TrapRun 3 TrapCallOk s := by
    apply TrapRun.call (c := shareSample 0x10000) (.boot rfl) ?_ (Comp.run_after hs)
    exact hgrows
  have run : TrapRun 3 TrapCallOk t := by
    apply TrapRun.call (c := .trapRemove 0x3000) share ?_ (Comp.run_after ht)
    exact hremoves
  exact ⟨run, traps_paired run⟩

/-- The third page makes the table grow, and it is moved away from the pairs that it holds. -/
theorem traps_moved : ¬ ∀ s, TrapRun 3 (fun _ _ _ => True) s → TrapsPaired s := by
  intro h
  let s₁ := Comp.after ((shareSample 0x10000).run (callees 3)) trapsSample
  let s₂ := Comp.after ((shareSample 0x11000).run (callees 3)) s₁
  let s₃ := Comp.after ((shareSample 0x12000).run (callees 3)) s₂
  have h₁ : ((shareSample 0x10000).run (callees 3) trapsSample).map Prod.fst = some () := by decide +kernel
  have h₂ : ((shareSample 0x11000).run (callees 3) s₁).map Prod.fst = some () := by decide +kernel
  have h₃ : ((shareSample 0x12000).run (callees 3) s₂).map Prod.fst = some () := by decide +kernel
  have run : TrapRun 3 (fun _ _ _ => True) s₃ :=
    .call (.call (.call (.boot rfl) trivial (Comp.run_after h₁)) trivial (Comp.run_after h₂)) trivial
      (Comp.run_after h₃)
  have hat : s₃.vmmTraps[0]? = some ⟨.cow, 0x1000, 0x10000, some ⟨1, 1⟩⟩ := by decide +kernel
  obtain ⟨p, u, hp, hu, -⟩ := h s₃ run 0 _ hat rfl
  cases hp
  have hdead : s₃.trapAt ⟨1, 1⟩ = none := by decide +kernel
  rw [hdead] at hu
  cases hu

end SysX
