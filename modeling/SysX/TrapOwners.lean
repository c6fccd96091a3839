import SysX.SharedPages

/-!
What `vmm_trap_remove` leaves to those with whom the VMM shared its pages. The first entry with an address gets write
permission; at the second one `vmm_cow_setup` is called for a page that is mapped already, and the removal fails.
-/
namespace SysX

/-- The scan acts on the entry `k`: its partner belongs to the VMM. Of a pair of the VMM with itself that is the first. -/
def Taken (b vmm : ℕ) (T : List Trap) (k : ℕ) (t : Trap) : Prop :=
  T[k]? = some t ∧ t.type = .cow ∧
    ∃ (j : ℕ) (u : Trap), t.info = some ⟨b, j⟩ ∧ T[j]? = some u ∧ u.vmm = vmm ∧ (t.vmm = vmm → k ≤ j)

/-- Before the entry `i`, one was taken at the page at `va` of `w`. -/
def Granted (b vmm : ℕ) (T : List Trap) (i w va : ℕ) : Prop :=
  ∃ (k : ℕ) (t : Trap), k < i ∧ Taken b vmm T k t ∧ t.vmm = w * 4096 ∧ t.vaddr = va

/-- The pairs of other VMMs, and what the scan has still to take, are in the table `l` when it has come to `i`. -/
def Spared (b vmm : ℕ) (T l : List Trap) (i : ℕ) : Prop :=
  ∀ (k j : ℕ) (t u : Trap), T[k]? = some t → t.type = .cow → t.info = some ⟨b, j⟩ → T[j]? = some u →
    (t.vmm ≠ vmm ∧ u.vmm ≠ vmm ∨ i ≤ k ∧ (t.vmm = vmm → i ≤ j)) → l[k]? = some t

section Spared

variable {b vmm i j k w va : ℕ} {T l : List Trap} {t u : Trap}

theorem Spared.start : Spared b vmm T T 0 := fun _ _ _ _ ht _ _ _ _ => ht

theorem Spared.taken (h : Spared b vmm T l i) (ht : Taken b vmm T i t) : l[i]? = some t := by
  obtain ⟨hat, hcow, j, u, hp, hu, -, hj⟩ := ht
  exact h i j t u hat hcow hp hu (.inr ⟨le_rfl, hj⟩)

theorem Spared.next (h : Spared b vmm T l i) : Spared b vmm T l (i + 1) := by
  intro k j t u ht hcow hp hu hcase
  refine h k j t u ht hcow hp hu (hcase.imp id ?_)
  rintro ⟨hk, hj⟩
  exact ⟨by omega, fun hown => by have := hj hown; omega⟩

/-- An entry at which the VMM takes part is deleted. -/
theorem Spared.delete (h : Spared b vmm T l i) (hat : T[i]? = some t) (hp : t.info = some ⟨b, j⟩) (hu : T[j]? = some u)
    (hpart : t.vmm = vmm ∨ u.vmm = vmm) : Spared b vmm T (l.modify i Trap.unused) (i + 1) := by
  intro k m v w hv hcow hm hw hcase
  have hne : i ≠ k := by
    rintro rfl
    cases hat.symm.trans hv
    cases hp.symm.trans hm
    cases hu.symm.trans hw
    rcases hcase with ⟨hown, hother⟩ | ⟨hlt, -⟩
    · exact hpart.elim hown hother
    · omega
  rw [List.getElem?_modify_ne _ _ hne]
  exact h.next k m v w hv hcow hm hw hcase

/-- So is its partner, if that belongs to the VMM. -/
theorem Spared.deletePair (h : Spared b vmm T l i) (hat : T[i]? = some t) (hp : t.info = some ⟨b, j⟩)
    (hu : T[j]? = some u) (hback : u.info = some ⟨b, i⟩) (hsrc : u.vmm = vmm) :
    Spared b vmm T ((l.modify j Trap.unused).modify i Trap.unused) (i + 1) := by
  intro k m v w hv hcow hm hw hcase
  have hjk : j ≠ k := by
    rintro rfl
    cases hu.symm.trans hv
    cases hback.symm.trans hm
    rcases hcase with ⟨hother, -⟩ | ⟨-, hlt⟩
    · exact hother hsrc
    · have := hlt hsrc
      omega
  have hold := h.delete hat hp hu (.inr hsrc) k m v w hv hcow hm hw hcase
  by_cases hik : i = k
  · subst hik
    rw [List.getElem?_modify_eq] at hold ⊢
    rw [List.getElem?_modify_ne _ _ hjk]
    exact hold
  · rw [List.getElem?_modify_ne _ _ hik] at hold ⊢
    rw [List.getElem?_modify_ne _ _ hjk]
    exact hold

/-- An entry in use at which the scan finds a partner of the VMM is one that it takes. -/
theorem Scanned.taken (h : Scanned b vmm T l i) (hat : l[i]? = some t) (hcow : t.type = .cow) (hp : t.info = some ⟨b, j⟩)
    (hu : l[j]? = some u) (hsrc : u.vmm = vmm) : Taken b vmm T i t := by
  obtain ⟨v, hv, hvmm, -⟩ := h.entry_fields hu
  refine ⟨h.entry_cow hat hcow, hcow, j, v, hp, hv, hvmm.trans hsrc, fun hown => ?_⟩
  by_contra hlt
  obtain ⟨j', u', hp', hu', hback, hlive⟩ := h.live i t hat hcow
  cases hp.symm.trans hp'
  cases hu.symm.trans hu'
  rcases hlive with hucow | ⟨-, hother, -⟩
  · exact (h.past j u i t hu hucow (by omega) hback hat).1 hsrc
  · exact hother hown

theorem Granted.next_iff (h : Taken b vmm T i t) :
    Granted b vmm T (i + 1) w va ↔ Granted b vmm T i w va ∨ t.vmm = w * 4096 ∧ t.vaddr = va := by
  constructor
  · rintro ⟨k, u, hk, hu, hpage⟩
    by_cases hki : k = i
    · subst hki
      cases h.1.symm.trans hu.1
      exact .inr hpage
    · exact .inl ⟨k, u, by omega, hu, hpage⟩
  · rintro (⟨k, u, hk, hu, hpage⟩ | hpage)
    · exact ⟨k, u, by omega, hu, hpage⟩
    · exact ⟨i, t, Nat.lt_succ_self i, h, hpage⟩

theorem granted_skip (h : ∀ t, ¬ Taken b vmm T i t) : Granted b vmm T (i + 1) w va ↔ Granted b vmm T i w va := by
  constructor
  · rintro ⟨k, u, hk, hu, hpage⟩
    have hki : k ≠ i := by
      rintro rfl
      exact h u hu
    exact ⟨k, u, by omega, hu, hpage⟩
  · rintro ⟨k, u, hk, hu, hpage⟩
    exact ⟨k, u, by omega, hu, hpage⟩

end Spared

/-- The loop has come to the entry `i` of the table that `s₀` had. -/
structure Sweep (D L : Set ℕ) (vmm : ℕ) (s₀ : Machine) (i : ℕ) (resolved : List Resolved) (s : Machine) : Prop where
  locked : LockedTraps s.vmmTraps s₀.vmmTrapsBase s.heapCalls s₀.heap s
  scanned : Scanned s₀.vmmTrapsBase vmm s₀.vmmTraps s.vmmTraps i
  spared : Spared s₀.vmmTrapsBase vmm s₀.vmmTraps s.vmmTraps i
  settled : Settled True D L (4 * (s₀.vmmTraps.length - i) + 6) s
  room : Room s (fun _ => 0#32) 0 (s₀.vmmTraps.length - i + 4)
  cr3 : s.cr3 = s₀.cr3
  pgsz : ∀ w ∈ L, ∀ i < 767, (s.mem w i).pgsz = (s₀.mem w i).pgsz
  pages : ∀ w va f, ProtectedPage L s₀ w va f → ∃ r, accessAt s.mem w (va / 4096) = some (f, r) ∧
    (r = true ↔ Granted s₀.vmmTrapsBase vmm s₀.vmmTraps i w va)
  listed : ∀ r ∈ resolved, ∃ (k : ℕ) (t : Trap), k < i ∧ Taken s₀.vmmTrapsBase vmm s₀.vmmTraps k t ∧
    r = ⟨t.vaddr, t.vmm, t.vaddr⟩
  full : ∀ (k : ℕ) (t : Trap), k < i → Taken s₀.vmmTrapsBase vmm s₀.vmmTraps k t →
    ∃ r ∈ resolved, r.vaddr = t.vaddr
  once : ∀ (k k' : ℕ) (t t' : Trap), k < k' → k' < i → Taken s₀.vmmTrapsBase vmm s₀.vmmTraps k t →
    Taken s₀.vmmTrapsBase vmm s₀.vmmTraps k' t' → t.vaddr ≠ t'.vaddr
  writable : ∀ (k w : ℕ) (t : Trap), k < i → Taken s₀.vmmTrapsBase vmm s₀.vmmTraps k t → t.vmm = w * 4096 →
    FlagsWritable s₀ w t.vaddr

/-- The scan is over, or has met an address for the second time. -/
inductive SweepEnd (D L : Set ℕ) (vmm : ℕ) (s₀ : Machine) : Bool → Machine → Prop
  | done {i : ℕ} {resolved : List Resolved} {s : Machine} (h : Sweep D L vmm s₀ i resolved s)
      (finished : s.vmmTraps.length ≤ i) : SweepEnd D L vmm s₀ true { s with vmmTrapsMutex := false }
  | again {k k' : ℕ} {t t' : Trap} {s : Machine} (lt : k < k') (first : Taken s₀.vmmTrapsBase vmm s₀.vmmTraps k t)
      (second : Taken s₀.vmmTrapsBase vmm s₀.vmmTraps k' t') (same : t.vaddr = t'.vaddr) : SweepEnd D L vmm s₀ false s

section Sweep

variable {D L : Set ℕ} {s₀ s t : Machine} {vmm i j n w x f cap fuel : ℕ} {l : List Trap} {resolved : List Resolved}
  {d u : Trap} {r : Bool} {ok : Prop} {K : Callees}

theorem Room.modifyTrap {W : ℕ → Word} {q : ℕ} (h : Room s W q n) (p : TrapPtr) (g : Trap → Trap) :
    Room (s.modifyTrap p g) W q n := by
  unfold Machine.modifyTrap
  split_ifs <;> exact h

/-- The scan passes an entry that it does not take. -/
theorem Sweep.skip (h : Sweep D L vmm s₀ i resolved s) (hno : ∀ t, ¬ Taken s₀.vmmTrapsBase vmm s₀.vmmTraps i t)
    (hscan : Scanned s₀.vmmTrapsBase vmm s₀.vmmTraps l (i + 1))
    (hspared : Spared s₀.vmmTrapsBase vmm s₀.vmmTraps l (i + 1)) :
    Sweep D L vmm s₀ (i + 1) resolved { s with vmmTraps := l } where
  locked := ⟨h.locked.locked, rfl, h.locked.base, rfl, h.locked.heap⟩
  scanned := hscan
  spared := hspared
  settled := (h.settled.setTraps l s.heapCalls).le (by omega)
  room := h.room.mono (by omega)
  cr3 := h.cr3
  pgsz := h.pgsz
  pages w va f hp := by
    obtain ⟨r, hr, hiff⟩ := h.pages w va f hp
    exact ⟨r, hr, hiff.trans (granted_skip hno).symm⟩
  listed r hr := by
    obtain ⟨k, t, hk, ht⟩ := h.listed r hr
    exact ⟨k, t, by omega, ht⟩
  full k t hk ht := by
    have hki : k ≠ i := by
      rintro rfl
      exact hno t ht
    exact h.full k t (by omega) ht
  once k k' t t' hlt hk ht ht' := by
    have hki : k' ≠ i := by
      rintro rfl
      exact hno t' ht'
    exact h.once k k' t t' hlt (by omega) ht ht'
  writable k w t hk ht := by
    have hki : k ≠ i := by
      rintro rfl
      exact hno t ht
    exact h.writable k w t (by omega) ht

/-- The page of the entry that is taken has got write permission. -/
theorem Sweep.take (h : Sweep D L vmm s₀ i resolved s) (hd : Taken s₀.vmmTrapsBase vmm s₀.vmmTraps i d)
    (hnew : ∀ r ∈ resolved, r.vaddr ≠ d.vaddr) (hvmm : d.vmm = w * 4096) (hpage : ProtectedPage L s₀ w d.vaddr f)
    (hscan : Scanned s₀.vmmTrapsBase vmm s₀.vmmTraps l (i + 1))
    (hspared : Spared s₀.vmmTrapsBase vmm s₀.vmmTraps l (i + 1)) {c : ℕ} (hwrite : FlagsWritable s w d.vaddr)
    (hset : Settled True D L (4 * (s₀.vmmTraps.length - (i + 1)) + 6) t)
    (hrest : SameRest { s with heapCalls := c } t)
    (hin : Within D L (InPage s w (d.vaddr / 4096)) { s with heapCalls := c } t)
    (hroom : Room t (fun _ => 0#32) 0 (s₀.vmmTraps.length - (i + 1) + 4))
    (ha : accessAt t.mem w (d.vaddr / 4096) = some (f, true)) :
    Sweep D L vmm s₀ (i + 1) (resolved ++ [⟨d.vaddr, d.vmm, d.vaddr⟩]) { t with vmmTraps := l } where
  locked := by
    rw [hrest]
    exact ⟨h.locked.locked, rfl, h.locked.base, rfl, h.locked.heap⟩
  scanned := hscan
  spared := hspared
  settled := hset.setTraps l t.heapCalls
  room := hroom
  cr3 := hrest.cr3_eq.trans h.cr3
  pgsz y hy i hi := (hin.pgsz y hy i (.inr hi)).trans (h.pgsz y hy i hi)
  pages y va g hp := by
    obtain ⟨r, hr, hiff⟩ := h.pages y va g hp
    by_cases hsame : y = w ∧ va = d.vaddr
    · obtain ⟨rfl, rfl⟩ := hsame
      cases hp.access.symm.trans hpage.access
      exact ⟨true, ha, fun _ => (Granted.next_iff hd).mpr (.inr ⟨hvmm, rfl⟩), fun _ => rfl⟩
    · have hapart : ¬ InPage s w (d.vaddr / 4096) y (va / 4096) := by
        intro hin
        refine hsame (eq_of_inPage hpage.aligned hp.aligned ?_ ?_ hin)
        · rw [h.pgsz w hpage.vmm _ (slot_of_lt hpage.user)]
          exact hpage.huge
        · rw [h.pgsz y hp.vmm _ (slot_of_lt hp.user)]
          exact hp.huge
      refine ⟨r, (hin.access y hp.vmm _ (offSlot_of_lt hp.user).page (.inr (user_page hp.user)) hapart).trans hr, ?_⟩
      rw [Granted.next_iff hd, hiff, or_iff_left]
      rintro ⟨hvmm', hva⟩
      exact hsame ⟨by omega, hva.symm⟩
  listed r hr := by
    rcases List.mem_append.mp hr with hr | hr
    · obtain ⟨k, t, hk, ht⟩ := h.listed r hr
      exact ⟨k, t, by omega, ht⟩
    · exact ⟨i, d, Nat.lt_succ_self i, hd, List.mem_singleton.mp hr⟩
  full k t hk ht := by
    by_cases hki : k = i
    · subst hki
      cases hd.1.symm.trans ht.1
      exact ⟨_, List.mem_append_right _ (List.mem_singleton_self _), rfl⟩
    · obtain ⟨r, hr, hva⟩ := h.full k t (by omega) ht
      exact ⟨r, List.mem_append_left _ hr, hva⟩
  once k k' t t' hlt hk ht ht' := by
    by_cases hki : k' = i
    · subst hki
      cases hd.1.symm.trans ht'.1
      obtain ⟨r, hr, hva⟩ := h.full k t hlt ht
      rw [← hva]
      exact hnew r hr
    · exact h.once k k' t t' hlt (by omega) ht ht'
  writable k y t hk ht hy := by
    by_cases hki : k = i
    · subst hki
      cases hd.1.symm.trans ht.1
      obtain rfl : y = w := by omega
      rw [FlagsWritable, ← h.cr3, ← h.pgsz y hpage.vmm _ (slot_of_lt hpage.user)]
      exact hwrite
    · exact h.writable k y t (by omega) ht hy

/-- `vmm_cow_setup` does nothing for a destination that is mapped. -/
theorem cowSetupLoop_mapped {src va size : ℕ} (h : Settled True D L (n + 4) s) (hK : K.Closed)
    (hroom : Room s (fun _ => 0#32) 0 3) (hx : x ∈ L) (hw : w ∈ L) (hsrc : src < kernelStart) (hva : va < kernelStart)
    (ha : accessAt s.mem w (va / 4096) = some (f, r)) :
    Comp.Wp True (vmmCowSetupLoop K (x * 4096) (w * 4096) size (fuel + 1) 0 src va) (fun r _ => r = 0) s := by
  rw [vmmCowSetupLoop]
  refine .ite (fun _ => ?_) fun _ => .pure rfl
  refine .bind (h.size hK hroom hx hsrc) fun pgSrc t₁ ⟨_, hset, hfree, hkeep⟩ => ?_
  cases pgSrc with
  | none => exact .pure rfl
  | some idx =>
    refine .bind (hset.size hK hfree hw hva) fun pgDst t₂ ⟨hdst, _, _, _⟩ => ?_
    have hmapped := hkeep w hw _ (user_page hva) _ ha
    obtain ⟨flags, hview, -⟩ := view_of_access hmapped
    have hne : pgDst ≠ none := by
      rintro rfl
      rw [pgszAt_eq_none.mp hdst.symm] at hview
      cases hview
    rw [if_pos hne]
    exact .pure rfl

theorem cowSetup_mapped {src va idx : ℕ} (h : Settled True D L (n + 4) s) (hK : K.Closed)
    (hroom : Room s (fun _ => 0#32) 0 3) (hx : x ∈ L) (hw : w ∈ L) (hsrc : src < kernelStart) (hva : va < kernelStart)
    (hsrc0 : src % 4096 = 0) (hva0 : va % 4096 = 0) (ha : accessAt s.mem w (va / 4096) = some (f, r)) :
    Comp.Wp True (vmmCowSetup K (x * 4096) src (w * 4096) va (vmmPgsz idx)) (fun r _ => r = 0) s := by
  unfold vmmCowSetup
  rw [hsrc0, hva0]
  dsimp only
  rw [Nat.sub_zero, Nat.sub_zero, show loopFuel = 4294967295 + 1 from rfl]
  exact cowSetupLoop_mapped h hK hroom hx hw hsrc hva ha

/-- The trap of a page is deleted, whose address has been met before. -/
theorem Sweep.repeat (h : Sweep D L vmm s₀ i resolved s) (hK : K.Closed)
    (hd : Taken s₀.vmmTrapsBase vmm s₀.vmmTraps i d) {e : Resolved} (he : e ∈ resolved) (hsame : e.vaddr = d.vaddr)
    (hpages : ∀ t ∈ s₀.vmmTraps, t.type = .cow → ∃ w f, t.vmm = w * 4096 ∧ ProtectedPage L s₀ w t.vaddr f) :
    Comp.Wp True (do
      let pgsz ← vmmGetPgsz K d.vmm d.vaddr
      vmmDeleteTrap d.info
      vmmDeleteTrap (some ⟨s.vmmTrapsBase, i⟩)
      match pgsz with
      | none => trapRemoveLoop K vmm fuel (i + 1) cap resolved
      | some idx => do
        let n ← vmmCowSetup K e.srcVmm e.srcVaddr d.vmm d.vaddr (vmmPgsz idx)
        if n = 0 then do
          trapsRelease
          pure false
        else trapRemoveLoop K vmm fuel (i + 1) cap resolved) (SweepEnd D L vmm s₀) s := by
  obtain ⟨w, f, hvmm, hpage⟩ := hpages d (List.mem_of_getElem? hd.1) hd.2.1
  obtain ⟨k, t, hk, ht, rfl⟩ := h.listed e he
  obtain ⟨x, g, hvmm', hpage'⟩ := hpages t (List.mem_of_getElem? ht.1) ht.2.1
  obtain ⟨r, hr, -⟩ := h.pages w d.vaddr f hpage
  have hroom : Room s (fun _ => 0#32) 0 (2 + 2) := h.room.mono (by omega)
  have hset : Settled True D L (4 + 2) s := h.settled.le (by omega)
  rw [hvmm]
  dsimp only
  rw [hvmm']
  refine .bind (hset.size hK hroom hpage.vmm hpage.user) fun pgsz u ⟨hsize, hset, hroom, hkeep⟩ => ?_
  have hmapped := hkeep w hpage.vmm _ (user_page hpage.user) _ hr
  cases pgsz with
  | none =>
    obtain ⟨flags, hview, -⟩ := view_of_access hr
    rw [pgszAt_eq_none.mp hsize.symm] at hview
    cases hview
  | some idx =>
    obtain ⟨j, -, hp, -⟩ := hd.2.2
    rw [hp]
    refine .step rfl (.step rfl ?_)
    refine .bind (cowSetup_mapped (n := 0) ((hset.modifyTrap _ _).modifyTrap _ _) hK ((hroom.modifyTrap _ _).modifyTrap _ _)
      hpage'.vmm hpage.vmm hpage'.user hpage.user hpage'.aligned hpage.aligned (f := f) (r := r) ?_) fun n u₃ hn => ?_
    · rw [(modifyTrap_mem _ _ _).1, (modifyTrap_mem _ _ _).1]
      exact hmapped
    · rw [if_pos hn]
      exact .of_eq rfl (.again hk ht hd hsame)

theorem deleteTrap_run {b : ℕ} (hb : s.vmmTrapsBase = b) (j : ℕ) :
    vmmDeleteTrap (some ⟨b, j⟩) s = some ((), { s with vmmTraps := s.vmmTraps.modify j Trap.unused }) :=
  congrArg (fun u => some ((), u)) (modifyTrap_of_base hb.symm Trap.unused)

/-- The page of an entry gets write permission, whose address has not been met. -/
theorem Sweep.first (h : Sweep D L vmm s₀ i resolved s) (hK : K.Closed) (hi : i < s₀.vmmTraps.length)
    (hd : Taken s₀.vmmTrapsBase vmm s₀.vmmTraps i d) (hp : d.info = some ⟨s₀.vmmTrapsBase, j⟩)
    (hnew : ∀ r ∈ resolved, r.vaddr ≠ d.vaddr) (hheap : ∀ n, s₀.heap n ≠ none)
    (hpages : ∀ t ∈ s₀.vmmTraps, t.type = .cow → ∃ w f, t.vmm = w * 4096 ∧ ProtectedPage L s₀ w t.vaddr f)
    (hscan : Scanned s₀.vmmTrapsBase vmm s₀.vmmTraps ((s.vmmTraps.modify j Trap.unused).modify i Trap.unused) (i + 1))
    (hspared : Spared s₀.vmmTrapsBase vmm s₀.vmmTraps ((s.vmmTraps.modify j Trap.unused).modify i Trap.unused) (i + 1))
    (hok : ok → ∀ w, d.vmm = w * 4096 → FlagsWritable s₀ w d.vaddr)
    (hloop : ∀ cap t, Sweep D L vmm s₀ (i + 1) (resolved ++ [⟨d.vaddr, d.vmm, d.vaddr⟩]) t →
      Comp.Wp ok (trapRemoveLoop K vmm fuel (i + 1) cap (resolved ++ [⟨d.vaddr, d.vmm, d.vaddr⟩])) (SweepEnd D L vmm s₀) t) :
    Comp.Wp ok (do
      let grown ← (if cap = resolved.length then krealloc else pure (some 0))
      match grown with
      | none => do
        trapsRelease
        pure false
      | some _ => do
        let cap := if cap = resolved.length then cap + trapAllocSz else cap
        let flags ← vmmGetFlags K d.vmm d.vaddr
        vmmSetFlags K d.vmm d.vaddr (flags ||| flagRw)
        vmmDeleteTrap d.info
        vmmDeleteTrap (some ⟨s.vmmTrapsBase, i⟩)
        trapRemoveLoop K vmm fuel (i + 1) cap (resolved ++ [⟨d.vaddr, d.vmm, d.vaddr⟩])) (SweepEnd D L vmm s₀) s := by
  obtain ⟨w, f, hvmm, hpage⟩ := hpages d (List.mem_of_getElem? hd.1) hd.2.1
  obtain ⟨r, hr, -⟩ := h.pages w d.vaddr f hpage
  have hgrown : ∃ x c, (if cap = resolved.length then krealloc else pure (some 0) : Kernel (Option ℕ)) s =
      some (some x, { s with heapCalls := c }) := by
    split_ifs
    · obtain ⟨x, hx⟩ := Option.ne_none_iff_exists'.mp (hheap s.heapCalls)
      rw [← h.locked.heap] at hx
      refine ⟨x, s.heapCalls + 1, ?_⟩
      rw [← hx]
      rfl
    · exact ⟨0, s.heapCalls, rfl⟩
  obtain ⟨x, c, hgrown⟩ := hgrown
  refine .step hgrown ?_
  dsimp only
  rw [hvmm, hp]
  have hwritable : FlagsWritable s w d.vaddr ↔ FlagsWritable s₀ w d.vaddr := by
    unfold FlagsWritable
    rw [h.cr3, h.pgsz w hpage.vmm _ (slot_of_lt hpage.user)]
  have hset : Settled True D L (4 * (s₀.vmmTraps.length - (i + 1)) + 6 + 4) { s with heapCalls := c } :=
    (h.settled.setTraps s.vmmTraps c).le (by omega)
  have hroom : Room { s with heapCalls := c } (fun _ => 0#32) 0 (s₀.vmmTraps.length - (i + 1) + 3 + 2) :=
    h.room.mono (by omega)
  have hgrant := (hset.grantRw hK hroom hpage.vmm hpage.user hr).weaken (fun ho => hwritable.mpr (hok ho w hvmm))
    fun _ _ hq => hq
  refine .congr (congrFun (Comp.bind_assoc _ _ _).symm _) (.bind hgrant ?_)
  rintro _ t ⟨hw, hset, hrest, hin, hroom, ha⟩
  have hlocked : LockedTraps s.vmmTraps s₀.vmmTrapsBase c s₀.heap t := by
    rw [hrest]
    exact ⟨h.locked.locked, rfl, h.locked.base, rfl, h.locked.heap⟩
  rw [h.locked.base]
  refine .step (deleteTrap_run hlocked.base j) (.step
    (deleteTrap_run (s := { t with vmmTraps := t.vmmTraps.modify j Trap.unused }) hlocked.base i) ?_)
  dsimp only
  rw [hlocked.traps, ← hvmm]
  exact hloop _ _ (h.take hd hnew hvmm hpage hscan hspared hw hset hrest hin hroom ha)

/-- The loop, one pass for each entry. -/
theorem trapRemoveLoop_swept (hK : K.Closed) (hheap : ∀ n, s₀.heap n ≠ none)
    (hpages : ∀ t ∈ s₀.vmmTraps, t.type = .cow → ∃ w f, t.vmm = w * 4096 ∧ ProtectedPage L s₀ w t.vaddr f)
    (hok : ok → ∀ k w t, Taken s₀.vmmTrapsBase vmm s₀.vmmTraps k t → t.vmm = w * 4096 → FlagsWritable s₀ w t.vaddr)
    (h : Sweep D L vmm s₀ i resolved s) (hi : i ≤ s₀.vmmTraps.length) (hfuel : s₀.vmmTraps.length < fuel + i) :
    Comp.Wp ok (trapRemoveLoop K vmm fuel i cap resolved) (SweepEnd D L vmm s₀) s := by
  induction fuel generalizing i cap resolved s with
  | zero => omega
  | succ fuel ih =>
    rw [trapRemoveLoop]
    refine .read_bind (.ite (fun hlen => .of_eq rfl (.done h hlen)) fun hlen => .read_bind ?_)
    obtain ⟨d, hat⟩ : ∃ d, s.vmmTraps[i]? = some d := ⟨_, List.getElem?_eq_getElem (by omega)⟩
    obtain ⟨d₀, hat₀, -⟩ := h.scanned.entry i d hat
    have hi' : i < s₀.vmmTraps.length := (List.getElem?_eq_some_iff.mp hat₀).1
    have hnext : ∀ {l cap}, (∀ t, ¬ Taken s₀.vmmTrapsBase vmm s₀.vmmTraps i t) →
        Scanned s₀.vmmTrapsBase vmm s₀.vmmTraps l (i + 1) → Spared s₀.vmmTrapsBase vmm s₀.vmmTraps l (i + 1) →
        Comp.Wp ok (trapRemoveLoop K vmm fuel (i + 1) cap resolved) (SweepEnd D L vmm s₀) { s with vmmTraps := l } :=
      fun hno hscan hspared => ih (h.skip hno hscan hspared) hi' (by omega)
    refine .step (h.locked.deref hat) (.ite (fun hnone => ?_) fun hnone => ?_)
    · refine hnext (fun t ht => ?_) (h.scanned.skip hat hnone) h.spared.next
      cases hat.symm.trans (h.spared.taken ht)
      cases hnone.symm.trans ht.2.1
    have hcow : d.type = .cow := by
      cases htype : d.type
      · exact absurd htype hnone
      · rfl
    obtain ⟨j, u, hp, hu, hback, -⟩ := h.scanned.live i d hat hcow
    obtain ⟨v, hv, hvmm, hinfo⟩ := h.scanned.entry_fields hu
    have hd := h.scanned.entry_cow hat hcow
    refine .step (h.locked.sources vmm hcow hp hu) ?_
    by_cases hsrc : u.vmm = vmm
    · have htaken := h.scanned.taken hat hcow hp hu hsrc
      have hscan := h.scanned.source hat hcow hp
      have hspared := h.spared.deletePair hd hp hv (hinfo.trans hback) (hvmm.trans hsrc)
      simp only [hsrc, decide_true, if_true]
      cases hfind : resolved.find? fun r => r.vaddr = d.vaddr with
      | some e =>
        have hsame : e.vaddr = d.vaddr := by simpa using List.find?_some hfind
        have hmem := List.mem_of_find?_eq_some hfind
        exact (h.repeat hK htaken hmem hsame hpages).weaken (fun _ => trivial) fun _ _ => id
      | none =>
        have hnew : ∀ r ∈ resolved, r.vaddr ≠ d.vaddr := by simpa using hfind
        exact h.first hK hi' htaken hp hnew hheap hpages hscan hspared (fun ho w => hok ho i w d htaken)
          fun cap t ht => ih ht hi' (by omega)
    · simp only [hsrc, decide_false, Bool.false_eq_true, if_false]
      have hno : ∀ t, ¬ Taken s₀.vmmTrapsBase vmm s₀.vmmTraps i t := by
        rintro t ⟨ht, -, j', v', hp', hv', hsrc', -⟩
        cases hd.symm.trans ht
        cases hp.symm.trans hp'
        cases hv.symm.trans hv'
        exact hsrc (hvmm.symm.trans hsrc')
      refine .ite (fun hown => ?_) fun hown => ?_
      · rw [h.locked.base]
        refine .step (deleteTrap_run h.locked.base i) ?_
        exact hnext hno (h.scanned.own hat hcow hp hu hown hsrc) (h.spared.delete hd hp hv (.inl hown))
      · exact hnext hno (h.scanned.pass hat hp hu hown hsrc) h.spared.next

end Sweep

/-- Every entry for copy-on-write is one of a pair, and stands for a protected page on the frame of its partner's page. -/
structure CowTable (L : Set ℕ) (s : Machine) : Prop where
  paired : TrapsPaired s
  pages : ∀ t ∈ s.vmmTraps, t.type = .cow → ∃ w f, t.vmm = w * 4096 ∧ ProtectedPage L s w t.vaddr f
  shared : ∀ t ∈ s.vmmTraps, t.type = .cow → ∀ p u, t.info = some p → s.trapAt p = some u → ∀ w x, t.vmm = w * 4096 →
    u.vmm = x * 4096 → accessAt s.mem w (t.vaddr / 4096) = accessAt s.mem x (u.vaddr / 4096)

/-- A pair links a page of the VMM on the frame `f` to a page of another one. -/
def SharesFrame (s : Machine) (vmm f : ℕ) : Prop :=
  ∃ t u : Trap, ∃ (p : TrapPtr) (x : ℕ) (r : Bool), t ∈ s.vmmTraps ∧ t.type = .cow ∧ t.info = some p ∧
    s.trapAt p = some u ∧ t.vmm ≠ vmm ∧ u.vmm = vmm ∧ u.vmm = x * 4096 ∧ accessAt s.mem x (u.vaddr / 4096) = some (f, r)

/-- A trap stands for the page at `va` of `w`, not of the VMM, which is on the frame `f`. -/
def Sharer (s : Machine) (vmm f w va : ℕ) : Prop :=
  w * 4096 ≠ vmm ∧ HasCow s (w * 4096) va ∧ ∃ r, accessAt s.mem w (va / 4096) = some (f, r)

/-- What `vmm_trap_remove` is to do. `orig` tells which pages were writable before they were shared. -/
structure TrapsRemoved (orig : ℕ → ℕ → Bool) (s t : Machine) (vmm : ℕ) : Prop where
  gone : ∀ d ∈ t.vmmTraps, d.type = .cow → d.vmm ≠ vmm ∧ ∀ p u, d.info = some p → t.trapAt p = some u → u.vmm ≠ vmm
  others : ∀ (k : ℕ) (d u : Trap) (p : TrapPtr), d.type = .cow → d.info = some p → s.trapAt p = some u → d.vmm ≠ vmm →
    u.vmm ≠ vmm → (s.vmmTraps[k]? = some d ↔ t.vmmTraps[k]? = some d)
  sharers : ∀ f, SharesFrame s vmm f →
    (∃ w va, (∀ x a, Sharer s vmm f x a ↔ x = w ∧ a = va) ∧ accessAt t.mem w (va / 4096) = some (f, orig w va)) ∨
    ∀ w va, Sharer s vmm f w va → accessAt t.mem w (va / 4096) = some (f, false) ∧
      (flagsAt t.mem w (va / 4096)).getLsbD 6 = true ∧ HasCow t (w * 4096) va

/-- The condition under which it does: no two of the entries that the scan takes have the same address, their flags can be
written, and of each frame that is shared one other page is left, which was writable. -/
structure Removable (orig : ℕ → ℕ → Bool) (s : Machine) (vmm : ℕ) : Prop where
  once : ∀ k k' t t', k < k' → Taken s.vmmTrapsBase vmm s.vmmTraps k t → Taken s.vmmTrapsBase vmm s.vmmTraps k' t' →
    t.vaddr ≠ t'.vaddr
  writable : ∀ k w t, Taken s.vmmTrapsBase vmm s.vmmTraps k t → t.vmm = w * 4096 → FlagsWritable s w t.vaddr
  single : ∀ f, SharesFrame s vmm f → ∃ w va, (∀ x a, Sharer s vmm f x a ↔ x = w ∧ a = va) ∧ orig w va = true

section Remove

variable {D L : Set ℕ} {s t : Machine} {vmm i f : ℕ} {resolved : List Resolved} {orig : ℕ → ℕ → Bool} {K : Callees}

theorem trapAt_some {p : TrapPtr} {u : Trap} (h : s.trapAt p = some u) :
    p = ⟨s.vmmTrapsBase, p.idx⟩ ∧ s.vmmTraps[p.idx]? = some u := by
  unfold Machine.trapAt at h
  split_ifs at h with hb
  refine ⟨?_, h⟩
  rw [← hb]

theorem vmmTrapRemove_swept (ok : Prop) (vmm : ℕ) (h : Settled True D L (4 * s.vmmTraps.length + 6) s) (hK : K.Closed)
    (hroom : Room s (fun _ => 0#32) 0 (s.vmmTraps.length + 4)) (hlen : s.vmmTraps.length < loopFuel)
    (hlock : s.vmmTrapsMutex = false) (hheap : ∀ n, s.heap n ≠ none) (hT : CowTable L s)
    (hok : ok → ∀ k w t, Taken s.vmmTrapsBase vmm s.vmmTraps k t → t.vmm = w * 4096 → FlagsWritable s w t.vaddr) :
    Comp.Wp ok (vmmTrapRemove K vmm) (SweepEnd D L vmm s) s := by
  have hacquire : trapsAcquire s = some ((), { s with vmmTrapsMutex := true }) := by
    unfold trapsAcquire
    rw [Comp.read_bind, hlock]
    rfl
  have hstart : Sweep D L vmm s 0 [] { s with vmmTrapsMutex := true } := by
    constructor
    case locked => exact ⟨rfl, rfl, rfl, rfl, rfl⟩
    case scanned => exact .start (trapsPaired_iff.mp hT.paired)
    case spared => exact .start
    case settled => exact h.setLock true
    case room => exact hroom
    case cr3 => rfl
    case pgsz => exact fun _ _ _ _ => rfl
    case pages =>
      intro w va f hp
      refine ⟨false, hp.access, nofun, ?_⟩
      rintro ⟨k, t, hk, -⟩
      omega
    case listed => nofun
    case full => exact fun k t hk => absurd hk (Nat.not_lt_zero k)
    case once => exact fun k k' t t' _ hk => absurd hk (Nat.not_lt_zero k')
    case writable => exact fun k w t hk => absurd hk (Nat.not_lt_zero k)
  exact .step hacquire (trapRemoveLoop_swept hK hheap hT.pages hok hstart (Nat.zero_le _) hlen)

/-- When the scan is over, it has taken every entry that there was to take. -/
theorem Sweep.all (h : Sweep D L vmm s i resolved t) (hover : t.vmmTraps.length ≤ i) {k : ℕ} {d : Trap}
    (hd : Taken s.vmmTrapsBase vmm s.vmmTraps k d) : k < i := by
  by_contra hk
  obtain ⟨hat, hcow, j, u, hp, hu, -, hj⟩ := hd
  by_cases hji : d.vmm = vmm → i ≤ j
  · have hkept := h.spared k j d u hat hcow hp hu (.inr ⟨by omega, hji⟩)
    have := (List.getElem?_eq_some_iff.mp hkept).1
    omega
  · obtain ⟨hown, hlt⟩ := Classical.not_imp.mp hji
    have := hj hown
    omega

/-- A page of another VMM that is paired with one of the VMM gets write permission. -/
theorem Sweep.granted (h : Sweep D L vmm s i resolved t) (hover : t.vmmTraps.length ≤ i) (hT : CowTable L s)
    (hf : SharesFrame s vmm f) : ∃ w va, Sharer s vmm f w va ∧ accessAt t.mem w (va / 4096) = some (f, true) := by
  obtain ⟨d, u, p, x, r, hmem, hcow, hp, hu, hother, hown, hx, ha⟩ := hf
  obtain ⟨w, g, hw, hpage⟩ := hT.pages d hmem hcow
  have hsame := hT.shared d hmem hcow p u hp hu w x hw hx
  cases hpage.access.symm.trans (hsame.trans ha)
  obtain ⟨k, hk⟩ := List.getElem?_of_mem hmem
  obtain ⟨hptr, hat⟩ := trapAt_some hu
  have htaken : Taken s.vmmTrapsBase vmm s.vmmTraps k d :=
    ⟨hk, hcow, p.idx, u, hp.trans (congrArg some hptr), hat, hown, fun hd => absurd hd hother⟩
  obtain ⟨r', hr', hiff⟩ := h.pages w d.vaddr f hpage
  refine ⟨w, d.vaddr, ⟨hw ▸ hother, ⟨d, hmem, Trap.isCowAt_iff.mpr ⟨hcow, hw, rfl⟩⟩, _, hpage.access⟩, ?_⟩
  rw [hr', hiff.mpr ⟨k, d, h.all hover htaken, htaken, hw, rfl⟩]

/-- `vmm_trap_remove`, where allocations succeed. -/
theorem vmm_trap_remove_iff (n : ℕ) (h : Settled True D L (4 * s.vmmTraps.length + 6) s)
    (hroom : Room s (fun _ => 0#32) 0 (s.vmmTraps.length + 4)) (hheap : ∀ n, s.heap n ≠ none)
    (hlen : s.vmmTraps.length < loopFuel) (hlock : s.vmmTrapsMutex = false) (hT : CowTable L s) :
    (∃ t, vmmTrapRemove (callees (n + 1)) vmm s = some (true, t) ∧ TrapsRemoved orig s t vmm) ↔ Removable orig s vmm := by
  have hK := callees_closed n
  constructor
  · rintro ⟨t, hrun, hremoved⟩
    have hend := (vmmTrapRemove_swept False vmm h hK hroom hlen hlock hheap hT False.elim).2 true t hrun
    rcases hend with @⟨i, resolved, u, hsweep, hover⟩
    constructor
    case once =>
      exact fun k k' d d' hlt hd hd' => hsweep.once k k' d d' hlt (hsweep.all hover hd') hd hd'
    case writable => exact fun k w d hd => hsweep.writable k w d (hsweep.all hover hd) hd
    case single =>
      intro f hf
      obtain ⟨x, a, hsharer, ha⟩ := hsweep.granted hover hT hf
      rcases hremoved.sharers f hf with ⟨w, va, honly, horig⟩ | hprotected
      · obtain ⟨rfl, rfl⟩ := (honly x a).mp hsharer
        have hsame := Option.some.inj (ha.symm.trans horig)
        exact ⟨x, a, honly, (congrArg Prod.snd hsame).symm⟩
      · cases ha.symm.trans (hprotected x a hsharer).1
  · intro hcond
    obtain ⟨r, t, hrun, hend⟩ := (vmmTrapRemove_swept True vmm h hK hroom hlen hlock hheap hT
      fun _ => hcond.writable).total trivial
    cases hend with
    | again lt first second same => exact absurd same (hcond.once _ _ _ _ lt first second)
    | @done i resolved u hsweep hover =>
      refine ⟨_, hrun, ?_⟩
      constructor
      case gone =>
        intro d hd hcow
        obtain ⟨k, hk⟩ := List.getElem?_of_mem hd
        obtain ⟨j, v, hp, hv, -⟩ := hsweep.scanned.live k d hk hcow
        have hlt : k < i := (List.getElem?_eq_some_iff.mp hk).1.trans_le hover
        obtain ⟨hown, hother⟩ := hsweep.scanned.past k d j v hk hcow hlt hp hv
        refine ⟨hown, fun p w hp' hw => ?_⟩
        cases hp.symm.trans hp'
        cases hv.symm.trans (trapAt_some hw).2
        exact hother
      case others =>
        intro k d v p hcow hp hv hown hother
        obtain ⟨hptr, hat⟩ := trapAt_some hv
        constructor
        · exact fun hk => hsweep.spared k p.idx d v hk hcow (hp.trans (congrArg some hptr)) hat (.inl ⟨hown, hother⟩)
        · exact fun hk => hsweep.scanned.entry_cow hk hcow
      case sharers =>
        intro f hf
        obtain ⟨x, a, hsharer, ha⟩ := hsweep.granted hover hT hf
        obtain ⟨w, va, honly, horig⟩ := hcond.single f hf
        obtain ⟨rfl, rfl⟩ := (honly x a).mp hsharer
        exact .inl ⟨x, a, honly, by rw [horig]; exact ha⟩

end Remove

/-- Three VMMs have the page at 4 MiB on the same frame; the pairs start at that of the second one. -/
def groupSample : Machine := { (default : Machine) with
  mem := fun f i =>
    match f, i with
    | 1, 0 => 0x2007#32
    | 1, 1 => 0x5007#32
    | 1, 767 => 0x1003#32
    | 3, 1 => 0x6007#32
    | 3, 767 => 0x3003#32
    | 9, 1 => 0xA007#32
    | 9, 767 => 0x9003#32
    | 5, 0 => 0x8205#32
    | 6, 0 => 0x8205#32
    | 10, 0 => 0x8205#32
    | _, _ => 0#32
  pmmBitmap := fun i => if i = 0 then 0xFFF#32 else 0#32
  pmmFrames := 128
  vmmCurrent := 0x1000
  kernelEnd := 0xC0001000
  heap := fun n => some (n + 2)
  vmmTraps := [⟨.cow, 0x3000, 0x400000, some ⟨1, 1⟩⟩, ⟨.cow, 0x1000, 0x400000, some ⟨1, 0⟩⟩,
    ⟨.cow, 0x3000, 0x400000, some ⟨1, 3⟩⟩, ⟨.cow, 0x9000, 0x400000, some ⟨1, 2⟩⟩]
  vmmTrapsBase := 1 }

/-- Two VMMs share the page. -/
def pairSample : Machine := { groupSample with
  vmmTraps := [⟨.cow, 0x3000, 0x400000, some ⟨1, 1⟩⟩, ⟨.cow, 0x1000, 0x400000, some ⟨1, 0⟩⟩] }

theorem groupSample_slot {v i : ℕ} (hv : v = 1 ∨ v = 3 ∨ v = 9) (hi : i ≠ 767) (ht : (groupSample.mem v i).HasTable) :
    v = 1 ∧ i = 0 ∨ v = 1 ∧ i = 1 ∨ v = 3 ∧ i = 1 ∨ v = 9 ∧ i = 1 := by
  by_contra hno
  have hz : groupSample.mem v i = 0#32 := by
    rcases hv with rfl | rfl | rfl
    all_goals
      simp only [groupSample]
      split <;> simp_all
  rw [hz] at ht
  exact Word.not_hasTable_zero ht

theorem groupSample_tables : Tables {1, 3, 9, 8} {1, 3, 9} groupSample := by
  constructor
  case frames => decide
  case sub =>
    rintro v (rfl | rfl | rfl)
    · exact .inl rfl
    · exact .inr (.inl rfl)
    · exact .inr (.inr (.inl rfl))
  case dir =>
    rintro v (rfl | rfl | rfl | rfl)
    all_goals exact ⟨by decide, by decide⟩
  case self =>
    rintro v (rfl | rfl | rfl)
    all_goals exact ⟨by decide, by decide, by decide, by decide⟩
  case present =>
    intro v hv i _ hi ht
    rcases groupSample_slot hv hi ht with ⟨rfl, rfl⟩ | ⟨rfl, rfl⟩ | ⟨rfl, rfl⟩ | ⟨rfl, rfl⟩ <;> decide
  case rw =>
    intro v hv i _ hi ht
    rcases groupSample_slot hv hi ht with ⟨rfl, rfl⟩ | ⟨rfl, rfl⟩ | ⟨rfl, rfl⟩ | ⟨rfl, rfl⟩ <;> decide
  case used =>
    intro v hv i _ hi ht
    rcases groupSample_slot hv hi ht with ⟨rfl, rfl⟩ | ⟨rfl, rfl⟩ | ⟨rfl, rfl⟩ | ⟨rfl, rfl⟩ <;> decide
  case notDir =>
    intro v hv i _ hi ht
    rcases groupSample_slot hv hi ht with ⟨rfl, rfl⟩ | ⟨rfl, rfl⟩ | ⟨rfl, rfl⟩ | ⟨rfl, rfl⟩ <;> decide
  case sep =>
    intro v hv w hw i _ j _ hi hj ht ht' heq
    rcases groupSample_slot hv hi ht with ⟨rfl, rfl⟩ | ⟨rfl, rfl⟩ | ⟨rfl, rfl⟩ | ⟨rfl, rfl⟩
    all_goals rcases groupSample_slot hw hj ht' with ⟨rfl, rfl⟩ | ⟨rfl, rfl⟩ | ⟨rfl, rfl⟩ | ⟨rfl, rfl⟩
    all_goals first | exact ⟨rfl, .inl rfl⟩ | exact absurd heq (by decide)

theorem groupSample_settled : Settled True {1, 3, 9, 8} {1, 3, 9} 84 groupSample where
  tables := groupSample_tables
  cur := .inl rfl
  aligned := rfl
  guard := by
    refine ⟨fun _ => ⟨List.range' 32 84, List.length_range', List.nodup_range', fun f hf => ?_⟩,
      fun hno => absurd trivial hno⟩
    obtain ⟨hlo, hhi⟩ := List.mem_range'_1.mp hf
    have hword : groupSample.pmmBitmap (f / 32) = 0#32 := if_neg (by omega)
    have hframes : groupSample.pmmFrames = 128 := rfl
    refine ⟨by omega, ?_⟩
    unfold used pmmBit
    rw [hword]
    simp
  spread := ⟨fun k hk => (by cases hk), fun _ hno => absurd rfl hno⟩
  kernel k hk := by cases hk

theorem groupSample_room : Room groupSample (fun _ => 0#32) 0 8 := by
  have hfree : ∀ p ∈ [1, 2, 3, 4, 5, 6, 7, 8],
      1 ≤ p ∧ p < userPages ∧ view groupSample.mem groupSample.cr3 p = none := by decide
  refine ⟨[1, 2, 3, 4, 5, 6, 7, 8], rfl, by decide, fun p hp => ?_⟩
  obtain ⟨hlo, hhi, hview⟩ := hfree p hp
  exact ⟨Nat.zero_le p, hlo, hhi, rfl, hview⟩

theorem groupSample_page {w : ℕ} (hw : w = 1 ∨ w = 3 ∨ w = 9) (traps : List Trap) :
    ProtectedPage {1, 3, 9} { groupSample with vmmTraps := traps } w 0x400000 8 := by
  have haccess : accessAt groupSample.mem w (0x400000 / 4096) = some (8, false) := by
    rcases hw with rfl | rfl | rfl <;> decide
  exact ⟨hw, by decide, by decide, fun _ => by decide, haccess⟩

theorem groupSample_cows (traps : List Trap) (hpaired : TrapsPaired { groupSample with vmmTraps := traps })
    (hvmm : ∀ t ∈ traps, ∃ w, (w = 1 ∨ w = 3 ∨ w = 9) ∧ t.vmm = w * 4096 ∧ t.vaddr = 0x400000) :
    CowTable {1, 3, 9} { groupSample with vmmTraps := traps } := by
  constructor
  case paired => exact hpaired
  case pages =>
    intro t ht _
    obtain ⟨w, hw, hvmm, hva⟩ := hvmm t ht
    exact ⟨w, 8, hvmm, hva ▸ groupSample_page hw traps⟩
  case shared =>
    intro t ht _ p u _ hu w x hw hx
    obtain ⟨w', hw', hvmm', hva⟩ := hvmm t ht
    obtain ⟨x', hx', hvmm'', hva'⟩ := hvmm u (trapAt_mem hu)
    obtain rfl : w = w' := by omega
    obtain rfl : x = x' := by omega
    rw [hva, hva']
    exact (groupSample_page hw' traps).access.trans (groupSample_page hx' traps).access.symm

/-- The third VMM's page is the second to be taken at its address, and the removal fails. -/
theorem third_sharer_fails : ¬ ∀ (D L : Set ℕ) (s : Machine) (vmm : ℕ) (orig : ℕ → ℕ → Bool),
    Settled True D L (4 * s.vmmTraps.length + 6) s → Room s (fun _ => 0#32) 0 (s.vmmTraps.length + 4) →
    (∀ n, s.heap n ≠ none) → s.vmmTraps.length < loopFuel → s.vmmTrapsMutex = false → CowTable L s →
    ∃ t, vmmTrapRemove (callees 2) vmm s = some (true, t) ∧ TrapsRemoved orig s t vmm := by
  intro h
  have hcows : CowTable {1, 3, 9} groupSample := by
    refine groupSample_cows groupSample.vmmTraps (fun i d hd _ => ?_) fun t ht => ?_
    · rcases i with _ | _ | _ | _ | i
      all_goals cases hd
      all_goals exact ⟨_, _, rfl, rfl, rfl, rfl⟩
    · simp only [groupSample, List.mem_cons, List.not_mem_nil, or_false] at ht
      rcases ht with rfl | rfl | rfl | rfl
      · exact ⟨3, by decide, rfl, rfl⟩
      · exact ⟨1, by decide, rfl, rfl⟩
      · exact ⟨3, by decide, rfl, rfl⟩
      · exact ⟨9, by decide, rfl, rfl⟩
  have hruns : (vmmTrapRemove (callees 2) 0x3000 groupSample).map Prod.fst = some false := by decide +kernel
  obtain ⟨t, hrun, -⟩ := h _ _ groupSample 0x3000 (fun _ _ => true) (groupSample_settled.le (by decide))
    (groupSample_room.mono (by decide)) nofun (by decide) rfl hcows
  rw [hrun] at hruns
  cases hruns

theorem pairSample_cows : CowTable {1, 3, 9} pairSample := by
  refine groupSample_cows pairSample.vmmTraps (fun i d hd _ => ?_) fun t ht => ?_
  · rcases i with _ | _ | i
    all_goals cases hd
    all_goals exact ⟨_, _, rfl, rfl, rfl, rfl⟩
  · rcases List.mem_pair.mp ht with rfl | rfl
    · exact ⟨3, by decide, rfl, rfl⟩
    · exact ⟨1, by decide, rfl, rfl⟩

theorem pairSample_taken {k : ℕ} {t : Trap} (h : Taken 1 0x3000 pairSample.vmmTraps k t) :
    k = 1 ∧ t = ⟨.cow, 0x1000, 0x400000, some ⟨1, 0⟩⟩ := by
  obtain ⟨hat, -, j, u, hp, hu, hsrc, -⟩ := h
  rcases k with _ | _ | k
  · cases hat
    cases hp
    cases hu
    cases hsrc
  · cases hat
    exact ⟨rfl, rfl⟩
  · cases hat

theorem pairSample_removable : Removable (fun _ _ => true) pairSample 0x3000 where
  once k k' t t' hlt hk hk' := by
    have := (pairSample_taken hk).1
    have := (pairSample_taken hk').1
    omega
  writable k w t hk hw := by
    obtain ⟨-, rfl⟩ := pairSample_taken hk
    obtain rfl : w = 1 := by
      have : 0x1000 = w * 4096 := hw
      omega
    exact .inl rfl
  single f hf := by
    have hframe : accessAt groupSample.mem 3 (0x400000 / 4096) = some (8, false) :=
      (groupSample_page (.inr (.inl rfl)) []).access
    have hframe' : accessAt groupSample.mem 1 (0x400000 / 4096) = some (8, false) :=
      (groupSample_page (.inl rfl) []).access
    obtain ⟨t, u, p, x, r, -, -, -, hu, -, hown, hx, ha⟩ := hf
    have hva : u.vaddr = 0x400000 := by rcases List.mem_pair.mp (trapAt_mem hu) with rfl | rfl <;> rfl
    obtain rfl : x = 3 := by omega
    rw [hva] at ha
    cases hframe.symm.trans ha
    refine ⟨1, 0x400000, fun y a => ⟨?_, ?_⟩, rfl⟩
    · rintro ⟨hy, ⟨d, hd, hcow⟩, -⟩
      obtain ⟨-, hvmm, hva⟩ := Trap.isCowAt_iff.mp hcow
      rcases List.mem_pair.mp hd with rfl | rfl
      · exact absurd hvmm.symm hy
      · exact ⟨by have : 0x1000 = y * 4096 := hvmm; omega, hva.symm⟩
    · rintro ⟨rfl, rfl⟩
      exact ⟨by decide, ⟨_, List.mem_cons_of_mem _ List.mem_cons_self, by decide⟩, false, hframe'⟩

/-- The other VMM gets its page for itself. -/
theorem vmm_trap_remove_sample : ∃ t, vmmTrapRemove (callees 2) 0x3000 pairSample = some (true, t) ∧
    TrapsRemoved (fun _ _ => true) pairSample t 0x3000 := by
  have hsettled : Settled True {1, 3, 9, 8} {1, 3, 9} 84 pairSample := groupSample_settled.setTraps _ 0
  have hroom : Room pairSample (fun _ => 0#32) 0 8 := groupSample_room
  exact (vmm_trap_remove_iff 1 (hsettled.le (by decide)) (hroom.mono (by decide)) nofun (by decide) rfl
    pairSample_cows).mpr pairSample_removable

end SysX
