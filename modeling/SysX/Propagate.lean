import SysX.Foreign

/-!
The propagation of a kernel entry: `vmm_pgmap` copies the directory entry it changed into the
directory of one process, whatever the number of tasks in the ring.
-/
namespace SysX

/-- `proc_get(task_common(task_kernel)->pid)->vmm`, the one VMM an entry is copied to. -/
def kernelVmm (s : Machine) : Option ℕ :=
  (s.taskRing.head?.map fun t => (s.task t).pid).bind fun pid =>
    (if pid < s.procPidtab.length then (s.procPidtab[pid]?).join else none).map fun p =>
      (s.proc p).vmm

/-- The directory that entries are copied to is one of `D`, and it exists where `ok` demands it. -/
structure Propagates (ok : Prop) (D : Set ℕ) (s : Machine) : Prop where
  dir : ∀ k, kernelVmm s = some k → k / 4096 ∈ D ∧ k % 4096 = 0
  run : ok → s.taskRing ≠ [] → kernelVmm s ≠ none

/-- The copy on the tables alone. -/
def propagateAt (s : Machine) (v i : ℕ) : Machine :=
  match kernelVmm s with
  | none => s
  | some k => if k = v * 4096 then s else s.set (k / 4096) i (s.mem v i)

section Copy

variable {D L : Set ℕ} {s s₁ : Machine} {W : ℕ → Word} {K : Callees} {ok : Prop} {v n i : ℕ}

/-- The lookups before the loop. -/
theorem kernelVmm_run {α : Type} (f : List ℕ → ℕ → Kernel α) (s : Machine) :
    (do
      let ring ← Comp.read (·.taskRing)
      let pid ← Comp.readOr fun s => ring.head?.map fun t => (s.task t).pid
      let proc ← procGet pid
      let procVmm ← Comp.readOr fun s => proc.map fun p => (s.proc p).vmm
      f ring procVmm : Kernel α) s = (kernelVmm s).bind fun k => f s.taskRing k s := by
  rw [Comp.read_bind, Comp.bind_apply, Comp.readOr_apply, kernelVmm]
  cases s.taskRing.head?.map fun t => (s.task t).pid with
  | none => rfl
  | some pid =>
    simp only [Option.map_some, Option.bind_some]
    rw [procGet, Comp.read_bind, Comp.bind_apply, Comp.readOr_apply]
    cases (if pid < s.procPidtab.length then (s.procPidtab[pid]?).join else none) with
    | none => rfl
    | some p => rfl

theorem kernelVmm_wp {α : Type} {f : List ℕ → ℕ → Kernel α} {Q : α → Machine → Prop} {k : ℕ}
    (hk : kernelVmm s = some k) (h : Comp.Wp ok (f s.taskRing k) Q s) :
    Comp.Wp ok (do
      let ring ← Comp.read (·.taskRing)
      let pid ← Comp.readOr fun s => ring.head?.map fun t => (s.task t).pid
      let proc ← procGet pid
      let procVmm ← Comp.readOr fun s => proc.map fun p => (s.proc p).vmm
      f ring procVmm : Kernel α) Q s := by
  refine .congr ?_ h
  rw [kernelVmm_run, hk]
  rfl

/-- A kernel entry may be copied to any directory. -/
theorem Tables.fits_copy (h : Tables D L s) (hv : v ∈ L) (hi : i < 1024) (hk : 768 ≤ i) (w : ℕ) :
    Fits D L s w i (s.mem v i) := by
  intro ht
  have hne : i ≠ 767 := by omega
  refine ⟨h.present v hv i hi hne ht, h.rw v hv i hi hne ht, h.used v hv i hi hne ht,
    h.notDir v hv i hi hne ht, fun u hu j hj hj' _ ht' heq => ?_⟩
  exact ⟨(h.sep u hu v hv j hj i hi hj' hne ht' ht heq).1, .inr hk⟩

/-- An entry of the kernel half of any directory changes in both states. -/
theorem Windowed.setDir (h : Windowed D L s s₁ W) {q : ℕ} (hq : q ∈ D) (hk : 768 ≤ i) {d : Word}
    (hd : Fits D L s q i d) (hd₁ : Fits D L s₁ q i d) :
    Windowed D L (s.set q i d) (s₁.set q i d) W := by
  have ht := h.logical.setPde (show i ≠ 767 by omega) hd
  have ht₁ := h.actual.setPde (show i ≠ 767 by omega) hd₁
  by_cases hc : q = s.cr3
  · subst hc
    exact h.setKernel hk ht ht₁
  · exact h.set (h.outside_dir hq hc) ht ht₁

theorem Windowed.guard_dir (h : Windowed D L s s₁ W) {q : ℕ} (hq : q ∈ D) (hi : i ≠ 0)
    (hg : Guard ok s s₁ n) (d : Word) : Guard ok (s.set q i d) (s₁.set q i d) n := by
  refine ⟨hg.frames, fun hok => (hg.null hok).set d (fun _ => hi) fun e => ?_⟩
  exact h.logical.pt_ne h.cur hq (by decide) (by decide) (hg.null hok).table e.symm

theorem Windowed.mem_pde (h : Windowed D L s s₁ W) (hv : v ∈ D) (hk : 767 ≤ i) :
    s₁.mem v i = s.mem v i := by
  by_cases hc : v = s.cr3
  · subst hc
    exact h.slot_kernel hk
  · rw [h.mem_dir hv hc]

/-- `vmm_set_paddr` on a window moves it to another frame. -/
theorem Windowed.retarget (h : Windowed D L s s₁ W) (ok : Prop) (K : Callees) {p g : ℕ} (hw : W p ≠ 0#32) :
    ∃ t, vmmSetPaddr K s.vmmCurrent (p * 4096) (g * 4096) s₁ = some ((), t) ∧
      Windowed D L s t (Function.update W p ((W p).setPt g)) ∧ ∀ n, Guard ok s s₁ n → Guard ok s t n := by
  obtain ⟨h1, hu, hv⟩ := h.clear p hw
  have hrun := vmmSetPaddr_cur (K := K) h.actual h.cur₁ (offSlot_of_user hu) (g * 4096)
  have ht := h.hasTable_window hw
  have hpte : pteAt s₁.mem s.cr3 p = W p := by rw [h.pte p hu, if_neg hw]
  rw [h.vmmCurrent_eq, h.cr3_eq] at hrun
  refine ⟨_, hrun, ?_, fun n hgu => ⟨?_, hgu.null⟩⟩
  all_goals
    unfold setPaddrAt
    simp only [page_slot, page_div, hpte, ht.2, Bool.false_eq_true, if_false, if_neg hw]
  · exact h.place h1 hu hv ht _
  · exact hgu.frames

/-- A window entry stays usable when it is moved. -/
structure WriteWindow (x : Word) : Prop where
  present : x.present = true
  rw : x.rw = true
  trapped : x.trapped = false

theorem WriteWindow.setPt {x : Word} (h : WriteWindow x) (f : ℕ) : WriteWindow (x.setPt f) := by
  refine ⟨by rw [Word.setPt_present, h.present], ?_, by rw [Word.setPt_trapped, h.trapped]⟩
  rw [Word.rw, Word.getLsbD_setPt]
  exact h.rw

theorem writeWindow_windowPte (pa : ℕ) : WriteWindow (windowPte (flagPresent ||| flagRw) pa) :=
  ⟨(windowPte_present _ _).trans rfl, (windowPte_rw _ _).trans rfl,
    (windowPte_trapped _ _).trans rfl⟩

/-- The directory `v` is reached at the address `a` as long as the windows `W` stay open. -/
def PdReached (D L : Set ℕ) (s : Machine) (W : ℕ → Word) (a v : ℕ) : Prop :=
  ∀ σ t W', Windowed D L σ t W' → σ.vmmCurrent = s.vmmCurrent → (∀ r, W r ≠ 0#32 → W' r = W r) →
    PageAt t false a v

/-- One pass of the loop, for a VMM other than the target. -/
theorem Windowed.propagate_pass {σ : Machine} {t : Machine} {p q a : ℕ} {x d : Word}
    (h : Windowed D L σ t (Function.update W p x)) (hx : WriteWindow x) (hp : W p = 0#32)
    (hσ : σ.vmmCurrent = s.vmmCurrent) (ha : PdReached D L s W a v) (hv : v ∈ L) (hq : q ∈ D)
    (hi : i < 1024) (hk : 768 ≤ i) (hd : σ.mem v i = d) (hg : Guard ok σ t n) (K : Callees) :
    Comp.Wp ok (do
      vmmSetPaddr K s.vmmCurrent (p * 4096) (q * 4096)
      let e ← load (a + 4 * i)
      store (p * 4096 + 4 * i) e) (fun _ u => ∃ y, WriteWindow y ∧
        Windowed D L (σ.set q i d) u (Function.update W p y) ∧ Guard ok (σ.set q i d) u n) t := by
  have hwx : Function.update W p x p ≠ 0#32 := by
    rw [Function.update_self]
    exact Word.ne_zero_of_present hx.present
  obtain ⟨t₁, hrun, h₁, hg₁⟩ := h.retarget ok K (g := q) hwx
  rw [hσ] at hrun
  rw [Function.update_self, Function.update_idem] at h₁
  have hy := hx.setPt q
  have hself : Function.update W p (x.setPt q) p = x.setPt q := Function.update_self ..
  have hlt := (h.logical.dir q hq).2
  have hwin : PageAt t₁ true (p * 4096) q := by
    have := h₁.pageAt (p := p) true (by rw [hself]; exact hy.present) fun _ => by
      rw [hself]; exact hy.rw
    rwa [hself, Word.setPt_pt, Nat.mod_eq_of_lt hlt] at this
  have hpd : PageAt t₁ false a v := ha σ t₁ _ h₁ hσ fun r hr => by
    rw [Function.update_of_ne]
    rintro rfl
    exact hr hp
  have hm : t₁.mem v i = d := (h₁.mem_pde (h.logical.sub hv) (by omega)).trans hd
  refine .step hrun (.step (hpd.load hi) (.of_eq (hwin.store hi _) ?_))
  rw [hm]
  refine ⟨_, hy, h₁.setDir hq hk ?_ ?_, h₁.guard_dir hq (by omega) (hg₁ n hg) d⟩
  · rw [← hd]
    exact h₁.logical.fits_copy hv hi hk q
  · rw [← hm]
    exact h₁.actual.fits_copy hv hi hk q

theorem Windowed.propagatePde (h : Windowed D L s s₁ W) (hK : K.Closed) {a q₀ m : ℕ}
    (hring : s.taskRing ≠ []) (hpr : Propagates ok D s) (ha : PdReached D L s W a v) (hv : v ∈ L)
    (hi : i < 1024) (hk : 768 ≤ i) (hq₀ : q₀ < 1048576) (hg : Guard ok s s₁ (n + 1))
    (hroom : Room s W q₀ (m + 1)) :
    Comp.Wp ok (propagatePde K (v * 4096) (q₀ * 4096) (a + 4 * i) i) (fun _ t =>
      Windowed D L (propagateAt s v i) t W ∧ Guard ok (propagateAt s v i) t n) s₁ := by
  obtain ⟨K', hKa, hKu⟩ := hK
  have hK : K.Closed := ⟨K', hKa, hKu⟩
  have hopen := h.open_room windowFlags_write hK (g := 0) hq₀ hg hroom
  rw [Nat.zero_mul] at hopen
  unfold SysX.propagatePde
  refine .read_bind ?_
  rw [h.vmmCurrent_eq]
  refine .bind hopen fun win t ⟨p, hwin, ho, hg', _⟩ => ?_
  have hcur : t.vmmCurrent = s.vmmCurrent := ho.windowed.vmmCurrent_eq
  have hkt : kernelVmm t = kernelVmm s := by
    rw [ho.windowed.rest]
    rfl
  have hrt : t.taskRing = s.taskRing := by rw [ho.windowed.rest]
  rw [hwin, Comp.when_true ho.free.addr_ne_zero]
  cases hkv : kernelVmm s with
  | none =>
    refine .of_fault ?_ fun hok => hpr.run hok hring hkv
    rw [kernelVmm_run, hkt, hkv]
    rfl
  | some k =>
    obtain ⟨hq, hk4⟩ := hpr.dir k hkv
    have hkq : k = k / 4096 * 4096 := by omega
    refine kernelVmm_wp (hkt.trans hkv) ?_
    rw [hrt]
    have hclose : ∀ σ u y, σ.vmmCurrent = s.vmmCurrent → WriteWindow y →
        Windowed D L σ u (Function.update W p y) → Guard ok σ u n →
        Comp.Wp ok (K.vmmPgunmap s.vmmCurrent (p * 4096) 0)
          (fun _ t => Windowed D L σ t W ∧ Guard ok σ t n) u := by
      intro σ u y hσ hy hw hgu
      have hwy : Function.update W p y p = y := Function.update_self ..
      have := hw.close_wp (p := p) hK (by rw [hwy]; exact Word.ne_zero_of_present hy.present)
        (by rw [hwy]; exact hy.trapped) hgu
      rw [update_update_cancel ho.free.2.2.1, hσ] at this
      exact this
    have hx := writeWindow_windowPte (0 * 4096)
    by_cases hkv' : k = v * 4096
    · have hprop : propagateAt s v i = s := by
        simp only [propagateAt, hkv, if_pos hkv']
      rw [hprop]
      refine .bind (Comp.Wp.forList (I := fun u => u = t) (fun _ _ u hu => ?_) rfl) fun _ u hu => ?_
      · rw [Comp.when_false (not_not.mpr hkv')]
        exact .pure hu
      · exact hclose s u _ rfl hx (hu ▸ ho.windowed) (hu ▸ hg')
    · have hprop : propagateAt s v i = s.set (k / 4096) i (s.mem v i) := by
        simp only [propagateAt, hkv, if_neg hkv']
      have hqv : v ≠ k / 4096 := fun e => hkv' (by rw [e]; exact hkq)
      have hsame : (s.set (k / 4096) i (s.mem v i)).mem v i = s.mem v i := by
        rw [Machine.set_mem_of_ne _ _ _ _ hqv]
      rw [hprop]
      obtain ⟨τ, rest, hτ⟩ := List.exists_cons_of_ne_nil hring
      have pass := fun σ u y (hw : Windowed D L σ u (Function.update W p y)) (hy : WriteWindow y)
          (hσ : σ.vmmCurrent = s.vmmCurrent) (hd : σ.mem v i = s.mem v i) (hgu : Guard ok σ u n) =>
        hw.propagate_pass hy ho.free.2.2.1 hσ ha hv hq hi hk hd hgu K
      rw [← hkq] at pass
      rw [hτ, Comp.forList_cons, Comp.bind_assoc, Comp.when_true hkv']
      refine .bind (pass s t _ ho.windowed hx rfl rfl hg') fun _ u hu => ?_
      refine .bind (Comp.Wp.forList (I := fun u => ∃ y, WriteWindow y ∧
        Windowed D L (s.set (k / 4096) i (s.mem v i)) u (Function.update W p y) ∧
        Guard ok (s.set (k / 4096) i (s.mem v i)) u n) (fun _ _ u hu => ?_) hu) fun _ u hu => ?_
      · obtain ⟨y, hy, hw, hgu⟩ := hu
        have := pass _ u y hw hy rfl hsame hgu
        rwa [Machine.set_set] at this
      · obtain ⟨y, hy, hw, hgu⟩ := hu
        exact hclose _ u y rfl hy hw hgu

/-- Without a free page for its window nothing is copied. -/
theorem Windowed.propagatePde_blocked (h : Windowed D L s s₁ W) (hK : K.Closed) {vmm entry q₀ : ℕ}
    (hq₀ : q₀ < 1048576) (hg : Guard ok s s₁ (n + 1)) (hroom : ¬ Room s W q₀ 1) :
    Comp.Wp ok (SysX.propagatePde K vmm (q₀ * 4096) entry i) (fun _ t => t = s₁) s₁ := by
  obtain ⟨K', hKa, -⟩ := hK
  have hopen := h.openWindow windowFlags_write K' hq₀ (show 0 % 4096 = 0 by decide) hg
  rw [← hKa] at hopen
  unfold SysX.propagatePde
  refine .read_bind ?_
  rw [h.vmmCurrent_eq]
  refine .bind hopen fun win t hwin => ?_
  rcases hwin with ⟨rfl, rfl, -⟩ | ⟨p, -, hle, hfree, -⟩
  · rw [Comp.when_false (not_not.mpr rfl)]
    exact .pure rfl
  · refine absurd ⟨[p], rfl, List.pairwise_singleton _ p, fun r hr => ?_⟩ hroom
    rw [List.mem_singleton.mp hr]
    exact ⟨hle, hfree⟩

/-- The entry is copied or, without a page for the window, it is not. -/
def Spread (s : Machine) (v i : ℕ) (t : Machine) : Prop := t = s ∨ t = propagateAt s v i

theorem Windowed.propagatePde_spread (h : Windowed D L s s₁ W) (hK : K.Closed) {a q₀ : ℕ}
    (hring : s.taskRing ≠ []) (hpr : Propagates ok D s) (ha : PdReached D L s W a v) (hv : v ∈ L)
    (hi : i < 1024) (hk : 768 ≤ i) (hq₀ : q₀ < 1048576) (hg : Guard ok s s₁ (n + 1)) :
    Comp.Wp ok (SysX.propagatePde K (v * 4096) (q₀ * 4096) (a + 4 * i) i) (fun _ t => ∃ σ,
      Spread s v i σ ∧ Windowed D L σ t W ∧ Guard ok σ t n) s₁ := by
  by_cases hroom : Room s W q₀ 1
  · exact (h.propagatePde (m := 0) hK hring hpr ha hv hi hk hq₀ hg hroom).mono fun _ t ht =>
      ⟨_, .inr rfl, ht⟩
  · refine (h.propagatePde_blocked hK hq₀ hg hroom).mono fun _ t ht => ⟨s, .inl rfl, ?_⟩
    rw [ht]
    exact ⟨h, hg.mono (Nat.le_succ n)⟩

end Copy

end SysX
