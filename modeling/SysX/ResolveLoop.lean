import SysX.PrivateCopy
import SysX.Lib.FirstFit

/-!
The loop of `vmm_unmap_resolve_cow`: it ends only when every pass resolves a trap, and each pass takes a window behind the
kernel for good.
-/
namespace SysX

/-! What the passes do to the trap table. -/

section Table

variable (base vmm va : ℕ)

/-- The entry that a trap pointer reaches. -/
def entryAt (l : List Trap) (p : TrapPtr) : Option Trap := if p.base = base then l[p.idx]? else none

/-- The trap table behind a pass that succeeds: of the traps for the partner's page the first is resolved. -/
def passTraps (l : List Trap) : Option (List Trap) := do
  let i ← l.findIdx? fun t => t.isCowAt vmm va
  let d ← l[i]?
  let p ← d.info
  let u ← entryAt base l p
  let j ← l.findIdx? fun t => t.isCowAt u.vmm u.vaddr
  let e ← l[j]?
  let r ← e.info
  let _ ← entryAt base l r
  some ((l.modify r.idx Trap.unused).modify j Trap.unused)

def liveTraps (l : List Trap) : ℕ := l.countP fun t => t.type = .cow

variable {base vmm va}

theorem liveTraps_modify (l : List Trap) (j : ℕ) :
    liveTraps (l.modify j Trap.unused) + (if ∃ t, l[j]? = some t ∧ t.type = .cow then 1 else 0) = liveTraps l := by
  induction l generalizing j with
  | nil => simp [liveTraps]
  | cons t l ih =>
    cases j with
    | zero => by_cases ht : t.type = .cow <;> simp [liveTraps, Trap.unused, ht]
    | succ j =>
      have h := ih j
      unfold liveTraps at h ⊢
      rw [List.modify_succ_cons, List.countP_cons, List.countP_cons]
      simp only [List.getElem?_cons_succ]
      omega

/-- A pass that succeeds takes a trap out of use. -/
theorem passTraps_live {l l' : List Trap} (h : passTraps base vmm va l = some l') : liveTraps l' < liveTraps l := by
  unfold passTraps at h
  simp only [Option.bind_eq_bind, Option.bind_eq_some_iff] at h
  obtain ⟨_, _, _, _, _, _, u, _, j, hj, e, he, r, _, _, _, h⟩ := h
  cases h
  obtain ⟨hlt, hcow, -⟩ := List.findIdx?_eq_some_iff_getElem.mp hj
  have hfirst := liveTraps_modify l r.idx
  have hsecond := liveTraps_modify (l.modify r.idx Trap.unused) j
  have hlive : ∃ t, l[j]? = some t ∧ t.type = .cow :=
    ⟨_, List.getElem?_eq_getElem hlt, (Trap.isCowAt_iff.mp hcow).1⟩
  by_cases hrj : r.idx = j
  · rw [hrj, if_pos hlive] at hfirst
    rw [hrj] at hsecond ⊢
    omega
  · have hkept : ∃ t, (l.modify r.idx Trap.unused)[j]? = some t ∧ t.type = .cow := by
      rw [List.getElem?_modify_ne _ _ hrj]
      exact hlive
    rw [if_pos hkept] at hsecond
    omega

/-- The number of passes, each with success, until no trap stands for the page. -/
def cowPasses (base vmm va : ℕ) (l : List Trap) : ℕ :=
  match h : passTraps base vmm va l with
  | none => 0
  | some l' => cowPasses base vmm va l' + 1
termination_by liveTraps l
decreasing_by exact passTraps_live h

theorem cowPasses_none {l : List Trap} (h : passTraps base vmm va l = none) : cowPasses base vmm va l = 0 := by
  rw [cowPasses]
  split <;> simp_all

theorem cowPasses_some {l l' : List Trap} (h : passTraps base vmm va l = some l') :
    cowPasses base vmm va l = cowPasses base vmm va l' + 1 := by
  rw [cowPasses]
  split <;> simp_all

end Table

section Pass

variable {ok : Prop} {D L : Set ℕ} {s t : Machine} {n idx v va w src q : ℕ} {p dst : TrapPtr} {K : Callees}

/-- One call of `vmm_cow_duplicate` for a trapped page of either size. -/
theorem Settled.pass (h : Settled ok D L (n + 21) s) (hK : K.Closed) (hk : KernelEnds s) (hpairs : TrapsPaired s)
    (hpages : CowPages ok L s) (hidx : idx < vmmPgszNum)
    (hhuge : idx = 1 → Settled ok D L (n + 7182) s ∧ CopyTarget (fun g => g ∈ D ∧ g ∉ L) s) (hcow : HasCow s (v * 4096) va) :
    Comp.Wp ((ok ∧ idx = 0) ∧ s.vmmTrapsMutex = false) (cowSearch K (v * 4096) va (vmmPgsz idx)) (fun r t => ∃ i d p u w,
      s.vmmTraps.findIdx? (fun t => t.isCowAt (v * 4096) va) = some i ∧ s.vmmTraps[i]? = some d ∧ d.info = some p ∧
      s.trapAt p = some u ∧ TrapPage ok L s v va ∧ TrapPage ok L s w u.vaddr ∧
      Pass ok D L n s idx v va w u.vaddr p ⟨s.vmmTrapsBase, i⟩ r t) s := by
  refine cowSearch_wp hpairs hpages And.right (fun hno => absurd hcow hno) ?_
  intro i p d u w hfind hentry hinfo hsrc hvmm _ hpage hpage'
  unfold vmmPgszNum at hidx
  obtain rfl | rfl : idx = 0 ∨ idx = 1 := by omega
  · refine (h.resolve hK hk hcow hpage hfind hentry hinfo hsrc hvmm hpage').weaken (fun hin => hin.1.1) fun r t hout => ?_
    refine ⟨i, d, p, u, w, hfind, hentry, hinfo, hsrc, hpage, hpage', ?_⟩
    cases hout with
    | absent hno => exact absurd hcow hno
    | noSpace _ hfull => exact .noSpace hfull
    | noFrame _ hspace hset hin hwindow hno hrest hsecond =>
      exact .noFrame hspace hset hrest (hin.antitone h.tables.sub) ⟨_, hwindow⟩ ⟨_, hsecond⟩ fun _ => hno
    | resolved hspace hfind' hentry' hinfo' hsrc' hvmm' hset hrest hin hwindow hfresh _ _ _ _ _ hroom hsecond =>
      cases hfind.symm.trans hfind'
      cases hentry.symm.trans hentry'
      cases hinfo.symm.trans hinfo'
      cases hsrc.symm.trans hsrc'
      cases Nat.eq_of_mul_eq_mul_right (by decide) (hvmm.symm.trans hvmm')
      exact .resolved hspace ⟨hset.antitone (Set.subset_insert _ D) h.tables.sub, hrest, hin.antitone h.tables.sub, hwindow,
        hsecond, _, hroom, hfresh.1, hfresh.2.2⟩
  · obtain ⟨hset, htarget⟩ := hhuge rfl
    refine (hset.huge hK hk hpage hsrc hvmm hpage' htarget ⟨s.vmmTrapsBase, i⟩).weaken (fun hin => ?_) fun r t hout => ?_
    · cases hin.1.2
    · exact ⟨i, d, p, u, w, hfind, hentry, hinfo, hsrc, hpage, hpage', hout.2⟩

/-- Two more pages behind the kernel are mapped, and nothing else changes there. -/
theorem Within.copySpace_taken {L' : Set ℕ} {C : ℕ → ℕ → Prop} (hin : Within L' L C s t) (hend : t.kernelEnd = s.kernelEnd)
    (hk : KernelEnds s) (hC : ∀ p, userPages ≤ p → p ≠ q → p ≠ q + 1 → ¬ C s.cr3 p)
    (hwindow : ∃ x, accessAt t.mem s.cr3 q = some x) (hsecond : ∃ x, accessAt t.mem s.cr3 (q + 1) = some x) {p : ℕ} :
    CopySpace t p ↔ CopySpace s p ∧ (p + 2 ≤ q ∨ q + 2 ≤ p) := by
  have hk' : KernelEnds t := by
    unfold KernelEnds
    rw [hend]
    exact hk
  have hopen : ∀ y, (∃ x, accessAt t.mem s.cr3 y = some x) → view t.mem s.cr3 y ≠ none := by
    rintro y ⟨x, hx⟩ hno
    rw [accessAt_eq, transAt, hno] at hx
    cases hx
  have hsame (hout : p + 2 ≤ q ∨ q + 2 ≤ p) : CopySpace t p ↔ CopySpace s p :=
    hin.copySpace_iff hend hk fun y huser _ _ => hC y huser (by omega) (by omega)
  constructor
  · intro h
    obtain ⟨-, -, h0, h1⟩ := (SysX.copySpace_iff hk').mp h
    rw [hin.cr3] at h0 h1
    have hne : p ≠ q := fun he => hopen q hwindow (he ▸ h0)
    have hne1 : p ≠ q + 1 := fun he => hopen (q + 1) hsecond (he ▸ h0)
    have hne2 : p + 1 ≠ q := fun he => hopen q hwindow (he ▸ h1)
    have hout : p + 2 ≤ q ∨ q + 2 ≤ p := by omega
    exact ⟨(hsame hout).mp h, hout⟩
  · rintro ⟨h, hout⟩
    exact (hsame hout).mpr h

/-- The window at `q`, the first that fits, is taken. Frames are only allocated. -/
structure WindowTaken (s : Machine) (q : ℕ) (t : Machine) : Prop where
  space : FirstSpace s q
  next : ∀ p, CopySpace t p ↔ CopySpace s p ∧ (p + 2 ≤ q ∨ q + 2 ≤ p)
  used : ∀ f, used s f → used t f
  frames : t.pmmFrames = s.pmmFrames
  base : t.vmmTrapsBase = s.vmmTrapsBase

end Pass

/-- The pages shared with the one at `va` start at a multiple of its size. -/
def PartnersAligned (s : Machine) (vmm va pgsz : ℕ) : Prop :=
  ∀ d ∈ s.vmmTraps, d.isCowAt vmm va = true → ∀ p u, d.info = some p → s.trapAt p = some u → u.vaddr % pgsz = 0

/-- The loop may run. For a 4 MiB page what the copies overwrite is set apart, and a table that is missing is a fault. -/
structure Resolving (ok : Prop) (D L : Set ℕ) (vmm va idx n : ℕ) (s : Machine) : Prop where
  settled : Settled ok D L n s
  ends : KernelEnds s
  unlocked : s.vmmTrapsMutex = false
  paired : TrapsPaired s
  pages : CowPages ok L s
  aligned : PartnersAligned s vmm va (vmmPgsz idx)
  target : idx = 1 → ¬ ok ∧ ∀ q f, CopySpace s q → accessAt s.mem s.cr3 ((q + 1024) % 1048576) = some (f, true) → f ∈ D ∧ f ∉ L

section Loop

variable {ok : Prop} {D L : Set ℕ} {s t : Machine} {n idx vmm v va w src q : ℕ} {p dst : TrapPtr} {d : Trap} {K : Callees}

theorem mem_modify_unused {l : List Trap} {i : ℕ} (hd : d ∈ l.modify i Trap.unused) (hcow : d.type = .cow) : d ∈ l := by
  obtain ⟨j, hj⟩ := List.mem_iff_getElem?.mp hd
  rw [List.getElem?_modify] at hj
  obtain ⟨e, he, heq⟩ := Option.map_eq_some_iff.mp hj
  split_ifs at heq
  · subst heq
    cases hcow
  · subst heq
    exact List.mem_of_getElem? he

theorem getElem?_modify_unused {l : List Trap} {i j : ℕ} (hd : (l.modify i Trap.unused)[j]? = some d) :
    ∃ e, l[j]? = some e ∧ d.vmm = e.vmm ∧ d.vaddr = e.vaddr := by
  rw [List.getElem?_modify] at hd
  obtain ⟨e, he, heq⟩ := Option.map_eq_some_iff.mp hd
  refine ⟨e, he, ?_⟩
  split_ifs at heq
  all_goals
    subst heq
    exact ⟨rfl, rfl⟩

/-- The trap table loses the pair of `dst` and `p`. -/
theorem trapsResolved_eq {i : ℕ} (hp : p.base = s.vmmTrapsBase) : trapsResolved s p ⟨s.vmmTrapsBase, i⟩ =
    { s with vmmTraps := (s.vmmTraps.modify p.idx Trap.unused).modify i Trap.unused, vmmTrapsMutex := false } := by
  unfold trapsResolved Machine.modifyTrap
  rw [if_pos hp]
  simp

/-- What has been changed by a pass: the window is taken, and the loop may go on. -/
theorem Resolving.taken {m va' : ℕ} (h : Resolving ok D L vmm va idx m s) (hspace : FirstSpace s q)
    (hset : Settled ok D L n t) (hpage : TrapPage ok L s v va') (hpage' : TrapPage ok L s w src)
    (hin : Within L L (fun x y => InWindow s q x y ∨ InPage s v (va' / 4096) x y ∨ InPage s w (src / 4096) x y) s t)
    (hwindow : ∃ x, accessAt t.mem s.cr3 q = some x) (hsecond : ∃ x, accessAt t.mem s.cr3 (q + 1) = some x)
    (hrest : SameRest { s with vmmTraps := t.vmmTraps, vmmTrapsMutex := false } t) (hpairs : TrapsPaired t)
    (hsub : ∀ d ∈ t.vmmTraps, d.type = .cow → d ∈ s.vmmTraps)
    (hinfo : ∀ p u, t.trapAt p = some u → ∃ e, s.trapAt p = some e ∧ u.vaddr = e.vaddr) :
    WindowTaken s q t ∧ Resolving ok D L vmm va idx n t := by
  obtain ⟨hqk, hq1⟩ := hspace.1.kernel h.ends
  obtain ⟨hend, hunlocked, hframes, hbase⟩ : t.kernelEnd = s.kernelEnd ∧ t.vmmTrapsMutex = false ∧
      t.pmmFrames = s.pmmFrames ∧ t.vmmTrapsBase = s.vmmTrapsBase := by
    rw [hrest]
    exact ⟨rfl, rfl, rfl, rfl⟩
  have huser : ∀ p, userPages ≤ p → p ≠ q → p ≠ q + 1 →
      ¬ (InWindow s q s.cr3 p ∨ InPage s v (va' / 4096) s.cr3 p ∨ InPage s w (src / 4096) s.cr3 p) := by
    rintro p hp hpq hpq1 (hno | hno | hno)
    · rcases hno.2 with he | he
      · exact hpq he
      · exact hpq1 he
    · exact absurd (hno.user (user_page hpage.user)) (by omega)
    · exact absurd (hno.user (user_page hpage'.user)) (by omega)
  have hnext : ∀ p, CopySpace t p ↔ CopySpace s p ∧ (p + 2 ≤ q ∨ q + 2 ≤ p) :=
    fun p => hin.copySpace_taken hend h.ends huser hwindow hsecond
  refine ⟨⟨hspace, hnext, hin.used, hframes, hbase⟩, hset, ?_, hunlocked, hpairs, ?_, ?_, ?_⟩
  · unfold KernelEnds
    rw [hend]
    exact h.ends
  · intro d hd hcow
    obtain ⟨x, hx, hpagex⟩ := h.pages d (hsub d hd hcow) hcow
    exact ⟨x, hx, hpagex.next hin⟩
  · intro d hd hcow p u hp hu
    obtain ⟨e, he, haddr⟩ := hinfo p u hu
    rw [haddr]
    exact h.aligned d (hsub d hd (Trap.isCowAt_iff.mp hcow).1) hcow p e hp he
  · intro hidx
    obtain ⟨hno, htarget⟩ := h.target hidx
    refine ⟨hno, fun p f hp hf => ?_⟩
    obtain ⟨hps, hout⟩ := (hnext p).mp hp
    obtain ⟨hpk, hp1⟩ := hps.kernel h.ends
    have hpq : q + 2 ≤ p := by
      rcases hout with hlt | hge
      · exact absurd hps (hspace.2 p (by omega))
      · exact hge
    -- the page 4 MiB behind lies behind the window as well, or in the first 4 MiB
    have hfar : ∀ {x a : ℕ}, TrapPage ok L s x a → ¬ InPage s x (a / 4096) s.cr3 ((p + 1024) % 1048576) := by
      intro x a hxa hno'
      have hlow : 4194304 ≤ a := hxa.low hno hno'.1.symm
      have huserp := hno'.user (user_page hxa.user)
      unfold userPages at huserp
      rcases hno'.2 with he | ⟨-, he⟩ <;> omega
    rw [hin.cr3] at hf
    refine htarget p f hps ((hin.access _ h.settled.cur _ ⟨by omega, by omega⟩ (.inl rfl) ?_).symm.trans hf)
    rintro (hwin | hpg | hpg)
    · have := hwin.2
      omega
    · exact hfar hpage hpg
    · exact hfar hpage' hpg

/-- `vmm_unmap_resolve_cow`, with room for `fuel` passes. -/
def resolveFrom (K : Callees) (vmm va pgsz fuel : ℕ) : Kernel Unit := do
  let cow ← vmmIsCow K vmm va true
  unmapResolveLoop K vmm va pgsz fuel cow

theorem vmmIsCow_validated (hlock : s.vmmTrapsMutex = false) : vmmIsCow K vmm va true s =
    some ((s.vmmTraps.findIdx? fun t => t.isCowAt vmm va).map fun i => ⟨s.vmmTrapsBase, i⟩, s) := by
  have hacquire : trapsAcquire s = some ((), { s with vmmTrapsMutex := true }) := by
    unfold trapsAcquire
    rw [Comp.read_bind, hlock]
    rfl
  have hsame : { s with vmmTrapsMutex := false } = s := by
    rw [← hlock]
  unfold vmmIsCow
  simp only [if_true, Comp.pure_bind]
  rw [Comp.bind_of_eq hacquire, Comp.read_bind, Comp.read_bind]
  show some (_, { s with vmmTrapsMutex := false }) = _
  rw [hsame]

theorem HasCow.entry (hcow : HasCow s vmm va) : ∃ i d, s.vmmTraps.findIdx? (fun t => t.isCowAt vmm va) = some i ∧
    s.vmmTraps[i]? = some d ∧ d.isCowAt vmm va = true := by
  obtain ⟨d₀, hd₀, hat₀⟩ := hcow
  cases hfind : s.vmmTraps.findIdx? fun t => t.isCowAt vmm va with
  | none => exact absurd hat₀ (by rw [List.findIdx?_eq_none_iff.mp hfind d₀ hd₀]; exact Bool.false_ne_true)
  | some i =>
    obtain ⟨hi, hat, -⟩ := List.findIdx?_eq_some_iff_getElem.mp hfind
    exact ⟨i, _, rfl, List.getElem?_eq_getElem hi, hat⟩

theorem resolveFrom_done (hno : ¬ HasCow s vmm va) (hlock : s.vmmTrapsMutex = false) (fuel : ℕ) :
    resolveFrom K vmm va idx fuel s = some ((), s) := by
  unfold resolveFrom
  rw [Comp.bind_of_eq (vmmIsCow_none hno hlock), unmapResolveLoop]
  rfl

theorem resolveFrom_zero (hcow : HasCow s vmm va) (hlock : s.vmmTrapsMutex = false) :
    resolveFrom K vmm va idx 0 s = none := by
  obtain ⟨i, d, hfind, -, -⟩ := hcow.entry
  unfold resolveFrom
  rw [Comp.bind_of_eq (vmmIsCow_validated hlock), hfind]
  rfl

theorem resolveFrom_succ {i : ℕ} {u : Trap} (hlock : s.vmmTrapsMutex = false)
    (hfind : s.vmmTraps.findIdx? (fun t => t.isCowAt vmm va) = some i) (hentry : s.vmmTraps[i]? = some d)
    (hinfo : d.info = some p) (hsrc : s.trapAt p = some u) (fuel : ℕ) : resolveFrom K vmm va idx (fuel + 1) s =
      (do
        let _ ← vmmCowDuplicate K u.vmm u.vaddr (some idx)
        resolveFrom K vmm va idx fuel) s := by
  have hderef : trapDeref ⟨s.vmmTrapsBase, i⟩ s = some (d, s) := by
    unfold trapDeref Machine.trapAt
    rw [Comp.readOr_apply, if_pos rfl]
    exact congrArg (Option.map _) hentry
  have hnext : trapInfo d s = some (p, s) := by
    unfold trapInfo
    rw [Comp.readOr_apply, hinfo]
    rfl
  have hpartner : trapDeref p s = some (u, s) := by
    unfold trapDeref
    rw [Comp.readOr_apply, hsrc]
    rfl
  unfold resolveFrom
  rw [Comp.bind_of_eq (vmmIsCow_validated hlock), hfind]
  show unmapResolveLoop K vmm va idx (fuel + 1) (some ⟨s.vmmTrapsBase, i⟩) s = _
  rw [unmapResolveLoop, Comp.bind_of_eq hderef, Comp.bind_of_eq hnext, Comp.bind_of_eq hpartner]

theorem FirstSpace.target {P : ℕ → Prop}
    (h : ∀ q f, CopySpace s q → accessAt s.mem s.cr3 ((q + 1024) % 1048576) = some (f, true) → P f) : CopyTarget P s :=
  fun q f hq => h q f hq.1

/-- One pass: there is no space for a window and nothing changes, or a window is taken, and then a trap is resolved or no
frame is left. -/
theorem Resolving.pass (h : Resolving ok D L vmm va idx (n + 21) s) (hK : K.Closed) (hidx : idx < vmmPgszNum)
    (hcow : HasCow s vmm va) : ∃ c : Kernel Bool,
      (∀ fuel, resolveFrom K vmm va idx (fuel + 1) s = (do let _ ← c; resolveFrom K vmm va idx fuel) s) ∧
      Comp.Wp (ok ∧ idx = 0) c (fun _ t => (t = s ∧ ∀ q, ¬ CopySpace s q) ∨ ∃ q, WindowTaken s q t ∧
        Resolving ok D L vmm va idx n t ∧ (t.vmmTraps = s.vmmTraps ∧ ¬ ok ∨
          passTraps s.vmmTrapsBase vmm va s.vmmTraps = some t.vmmTraps ∧ ∃ f < s.pmmFrames, ¬ used s f ∧ used t f)) s := by
  obtain ⟨i, d, hfind, hentry, hat⟩ := hcow.entry
  obtain ⟨p, u, hinfo, hsrc, hutype, -⟩ := h.paired i d hentry (Trap.isCowAt_iff.mp hat).1
  have hu := trapAt_mem hsrc
  obtain ⟨w, hvmm, -⟩ := h.pages u hu hutype
  have haligned : u.vaddr % vmmPgsz idx = 0 := h.aligned d (List.mem_of_getElem? hentry) hat p u hinfo hsrc
  have hpartner : HasCow s (w * 4096) u.vaddr := ⟨u, hu, Trap.isCowAt_iff.mpr ⟨hutype, hvmm, rfl⟩⟩
  refine ⟨_, fun fuel => resolveFrom_succ h.unlocked hfind hentry hinfo hsrc fuel, ?_⟩
  rw [vmmCowDuplicate_eq, if_neg (Option.some_ne_none idx), Comp.pure_bind, hvmm]
  show Comp.Wp _ (cowSearch K (w * 4096) (u.vaddr - u.vaddr % vmmPgsz idx) (vmmPgsz idx)) _ s
  rw [haligned, Nat.sub_zero]
  refine (h.settled.pass hK h.ends h.paired h.pages hidx (fun hone => ?_) hpartner).weaken (fun hin => ⟨hin, h.unlocked⟩) ?_
  · obtain ⟨hno, htarget⟩ := h.target hone
    exact ⟨h.settled.enough fun hok => absurd hok hno, FirstSpace.target htarget⟩
  rintro r t ⟨j, e, p', u', w', hfind', hentry', hinfo', hsrc', hpage, hpage', hpass⟩
  obtain ⟨hj, hat', -⟩ := List.findIdx?_eq_some_iff_getElem.mp hfind'
  have hecow : e.type = .cow := by
    cases (List.getElem?_eq_getElem hj).symm.trans hentry'
    exact (Trap.isCowAt_iff.mp hat').1
  have hsame : { s with vmmTrapsMutex := false } = s := by
    rw [← h.unlocked]
  cases hpass with
  | noSpace hfull => exact .inl ⟨hsame, hfull⟩
  | @noFrame q t hspace hset hrest hin hwindow hsecond hno =>
    have htraps : t.vmmTraps = s.vmmTraps := by
      rw [hrest]
    have hno : ¬ ok := by
      unfold vmmPgszNum at hidx
      obtain rfl | rfl : idx = 0 ∨ idx = 1 := by omega
      · exact hno rfl
      · exact (h.target rfl).1
    obtain ⟨htaken, hnext⟩ := h.taken hspace hset hpage hpage' (hin.mono fun _ _ => .inl) hwindow hsecond
      (by rw [htraps]; exact hrest) (by rw [hrest]; exact h.paired) (fun d hd _ => htraps ▸ hd)
      fun p u hu => ⟨u, by rw [hrest] at hu; exact hu, rfl⟩
    exact .inr ⟨q, htaken, hnext, .inl ⟨htraps, hno⟩⟩
  | @resolved q t hspace hres =>
    have hbase : p'.base = s.vmmTrapsBase := by
      unfold Machine.trapAt at hsrc'
      split_ifs at hsrc' with hb
      exact hb
    have hrest := hres.rest
    rw [trapsResolved_eq hbase] at hrest
    have htraps : t.vmmTraps = (s.vmmTraps.modify p'.idx Trap.unused).modify j Trap.unused := hrest.vmmTraps_eq
    have htb : t.vmmTrapsBase = s.vmmTrapsBase := by
      rw [hrest]
    have hpairs : TrapsPaired t := by
      rw [trapsPaired_iff, htb, htraps]
      refine (trapsPaired_iff.mp h.paired).delete hentry' hecow ?_
      rw [hinfo', ← hbase]
    have hsub : ∀ d ∈ t.vmmTraps, d.type = .cow → d ∈ s.vmmTraps := by
      intro d hd hcow
      rw [htraps] at hd
      exact mem_modify_unused (mem_modify_unused hd hcow) hcow
    have hsameAddr : ∀ p u, t.trapAt p = some u → ∃ e, s.trapAt p = some e ∧ u.vaddr = e.vaddr := by
      intro p u hu
      unfold Machine.trapAt at hu ⊢
      rw [htb, htraps] at hu
      split_ifs at hu with hb
      rw [if_pos hb]
      obtain ⟨e₁, he₁, -, haddr₁⟩ := getElem?_modify_unused hu
      obtain ⟨e₂, he₂, -, haddr₂⟩ := getElem?_modify_unused he₁
      exact ⟨e₂, he₂, haddr₁.trans haddr₂⟩
    obtain ⟨htaken, hnext⟩ := h.taken hspace hres.settled hpage hpage' hres.within hres.window hres.second
      (by rw [htraps]; exact hrest) hpairs hsub hsameAddr
    refine .inr ⟨q, htaken, hnext, .inr ⟨?_, hres.frame⟩⟩
    rw [← hvmm] at hfind'
    unfold passTraps
    simp only [Option.bind_eq_bind, Option.bind_eq_some_iff]
    exact ⟨i, hfind, d, hentry, p, hinfo, u, hsrc, j, hfind', e, hentry', p', hinfo', u', hsrc', htraps ▸ rfl⟩

/-- The loop of `vmm_unmap_resolve_cow` ends, after however many passes. -/
def ResolveEnds (K : Callees) (vmm va pgsz : ℕ) (s : Machine) : Prop :=
  ∃ fuel t, resolveFrom K vmm va pgsz fuel s = some ((), t)

/-- Windows of two pages behind the kernel, each the first that fits. -/
def CopyWindows (s : Machine) (l : List ℕ) : Prop := FirstFit.Fits (CopySpace s) 2 0 l

/-- The passes until no trap stands for the page. -/
def passesFor (s : Machine) (vmm va : ℕ) : ℕ := cowPasses s.vmmTrapsBase vmm va s.vmmTraps

theorem WindowTaken.windows {l : List ℕ} (h : WindowTaken s q t) : CopyWindows s (q :: l) ↔ CopyWindows t l :=
  FirstFit.fits_cons h.space.1 h.space.2 h.next

theorem WindowTaken.freeFrames {k : ℕ} (h : WindowTaken s q t) (hf : FreeFrames t k) : FreeFrames s k := by
  obtain ⟨fs, hlen, hnd, hfree⟩ := hf
  refine ⟨fs, hlen, hnd, fun f hf => ?_⟩
  obtain ⟨hlt, hno⟩ := hfree f hf
  rw [h.frames] at hlt
  exact ⟨hlt, fun hu => hno (h.used f hu)⟩

theorem WindowTaken.freeFrames_succ {k f : ℕ} (h : WindowTaken s q t) (hlt : f < s.pmmFrames) (hno : ¬ SysX.used s f)
    (hu : SysX.used t f) (hf : FreeFrames t k) : FreeFrames s (k + 1) := by
  obtain ⟨fs, hlen, hnd, hfree⟩ := hf
  refine ⟨f :: fs, by rw [List.length_cons, hlen], List.nodup_cons.mpr ⟨fun hf => (hfree f hf).2 hu, hnd⟩, fun g hg => ?_⟩
  rcases List.mem_cons.mp hg with rfl | hg
  · exact ⟨hlt, hno⟩
  · obtain ⟨hglt, hgno⟩ := hfree g hg
    rw [h.frames] at hglt
    exact ⟨hglt, fun hu => hgno (h.used g hu)⟩

theorem passesFor_pos (hpairs : TrapsPaired s) (hcow : HasCow s vmm va) : 0 < passesFor s vmm va := by
  obtain ⟨i, d, hfind, hentry, hat⟩ := hcow.entry
  obtain ⟨p, u, hinfo, hsrc, htype, -⟩ := hpairs i d hentry (Trap.isCowAt_iff.mp hat).1
  obtain ⟨j, e, hfind', hentry', hat'⟩ := HasCow.entry ⟨u, trapAt_mem hsrc, Trap.isCowAt_iff.mpr ⟨htype, rfl, rfl⟩⟩
  obtain ⟨r, x, hinfo', hsrc', -⟩ := hpairs j e hentry' (Trap.isCowAt_iff.mp hat').1
  have hpass : passTraps s.vmmTrapsBase vmm va s.vmmTraps =
      some ((s.vmmTraps.modify r.idx Trap.unused).modify j Trap.unused) := by
    unfold passTraps
    simp only [Option.bind_eq_bind, Option.bind_eq_some_iff]
    exact ⟨i, hfind, d, hentry, p, hinfo, u, hsrc, j, hfind', e, hentry', r, hinfo', x, hsrc', rfl⟩
  unfold passesFor
  rw [cowPasses_some hpass]
  exact Nat.succ_pos _

theorem passesFor_absent (hno : ¬ HasCow s vmm va) : passesFor s vmm va = 0 := by
  refine cowPasses_none ?_
  have hfind : s.vmmTraps.findIdx? (fun t => t.isCowAt vmm va) = none := by
    rw [List.findIdx?_eq_none_iff]
    intro d hd
    rw [← Bool.not_eq_true]
    exact fun hat => hno ⟨d, hd, hat⟩
  unfold passTraps
  rw [hfind]
  rfl

theorem passesFor_some (htaken : WindowTaken s q t) (h : passTraps s.vmmTrapsBase vmm va s.vmmTraps = some t.vmmTraps) :
    passesFor s vmm va = passesFor t vmm va + 1 := by
  unfold passesFor
  rw [cowPasses_some h, htaken.base]

theorem Resolving.enough {m : ℕ} (h : Resolving ok D L vmm va idx n s) (hf : ok → FreeFrames s m) :
    Resolving ok D L vmm va idx m s :=
  ⟨h.settled.enough hf, h.ends, h.unlocked, h.paired, h.pages, h.aligned, h.target⟩

/-- What is neither a directory nor a page table is set apart. -/
theorem Settled.setApartData (h : Settled ok D L n s) : Settled ok (D ∪ {f | DataFrame L s f}) L n s where
  tables :=
    { h.tables with
      sub := h.tables.sub.trans Set.subset_union_left
      dir := fun f hf => hf.elim (h.tables.dir f) fun hdata => ⟨hdata.used, hdata.lt⟩
      notDir := fun v hv i hi hne htab hmem =>
        hmem.elim (h.tables.notDir v hv i hi hne htab) fun hdata => hdata.notTable v hv i hi hne htab rfl }
  cur := h.cur
  aligned := h.aligned
  guard := h.guard
  spread := ⟨fun k hk => ⟨.inl (h.spread.dir k hk).1, (h.spread.dir k hk).2⟩, h.spread.run⟩
  kernel := h.kernel

/-- A loop that ends has taken a window and a frame for each trap that it resolved. -/
theorem Resolving.windows_of_ends (hK : K.Closed) (hidx : idx < vmmPgszNum) {fuel : ℕ} {u : Machine}
    (h : Resolving ok D L vmm va idx (21 * passesFor s vmm va) s) (hrun : resolveFrom K vmm va idx fuel s = some ((), u)) :
    FreeFrames s (passesFor s vmm va) ∧ ∃ l, l.length = passesFor s vmm va ∧ CopyWindows s l := by
  induction fuel generalizing s with
  | zero =>
    by_cases hcow : HasCow s vmm va
    · rw [resolveFrom_zero hcow h.unlocked] at hrun
      cases hrun
    · rw [passesFor_absent hcow]
      exact ⟨⟨[], rfl, .nil, nofun⟩, [], rfl, .nil 0⟩
  | succ fuel ih =>
    by_cases hcow : HasCow s vmm va
    · have hpos := passesFor_pos h.paired hcow
      obtain ⟨k, hk⟩ : ∃ k, passesFor s vmm va = k + 1 := ⟨_, (Nat.succ_pred_eq_of_pos hpos).symm⟩
      have hs : Resolving ok D L vmm va idx (21 * k + 21) s := by
        rw [hk] at h
        exact h
      obtain ⟨c, hpass, -, hout⟩ := hs.pass hK hidx hcow
      rw [hpass] at hrun
      obtain ⟨r, t, hc, hloop⟩ := Comp.bind_eq_some.mp hrun
      rcases hout r t hc with ⟨rfl, -⟩ | ⟨q, htaken, hnext, ⟨htraps, hno⟩ | ⟨htraps, f, hlt, hfree, hused⟩⟩
      · exact ih h hloop
      · have hsame : passesFor t vmm va = passesFor s vmm va := by
          unfold passesFor
          rw [htraps, htaken.base]
        obtain ⟨hf, l, hlen, hl⟩ := ih (hnext.enough fun hok => absurd hok hno) hloop
        rw [hsame] at hf hlen
        refine ⟨htaken.freeFrames hf, (q :: l).take (passesFor s vmm va), ?_, (htaken.windows.mpr hl).take _⟩
        rw [List.length_take, List.length_cons, hlen]
        exact Nat.min_eq_left (Nat.le_succ _)
      · have hsucc := passesFor_some htaken htraps
        have hkt : passesFor t vmm va = k := by omega
        obtain ⟨hf, l, hlen, hl⟩ := ih (by rw [hkt]; exact hnext) hloop
        rw [hsucc]
        exact ⟨htaken.freeFrames_succ hlt hfree hused hf, q :: l, by rw [List.length_cons, hlen], htaken.windows.mpr hl⟩
    · rw [passesFor_absent hcow]
      exact ⟨⟨[], rfl, .nil, nofun⟩, [], rfl, .nil 0⟩

/-- With frames and windows the loop over the traps of a 4 KiB page ends. -/
theorem Resolving.ends_of_windows (hK : K.Closed) (hok : ok) {k : ℕ} {l : List ℕ} (hk : passesFor s vmm va = k)
    (h : Resolving ok D L vmm va 0 (21 * k) s) (hlen : l.length = k) (hl : CopyWindows s l) :
    ResolveEnds K vmm va 0 s := by
  induction k generalizing s l with
  | zero =>
    have hno : ¬ HasCow s vmm va := fun hcow => by
      have := passesFor_pos h.paired hcow
      omega
    exact ⟨0, s, resolveFrom_done hno h.unlocked 0⟩
  | succ k ih =>
    have hcow : HasCow s vmm va := by
      by_contra hno
      rw [passesFor_absent hno] at hk
      cases hk
    obtain ⟨q', l, rfl⟩ := List.exists_cons_of_length_eq_add_one hlen
    obtain ⟨c, hpass, hwp⟩ := h.pass (n := 21 * k) hK (by decide) hcow
    obtain ⟨r, t, hc, hout⟩ := hwp.total ⟨hok, rfl⟩
    rcases hout with ⟨-, hfull⟩ | ⟨q, htaken, hnext, ⟨-, hno⟩ | ⟨htraps, -⟩⟩
    · exact absurd (hl.free_of_mem q' List.mem_cons_self) (hfull q')
    · exact absurd hok hno
    · have hsucc := passesFor_some htaken htraps
      have hq : q' = q := by
        cases hl with
        | cons _ hq least _ => exact FirstSpace.unique ⟨hq, fun p hp => least p (Nat.zero_le p) hp⟩ htaken.space
      rw [hq] at hl
      obtain ⟨fuel, u, hrun⟩ := ih (by omega) hnext (Nat.succ.inj hlen) (htaken.windows.mp hl)
      refine ⟨fuel + 1, u, ?_⟩
      rw [hpass, Comp.bind_of_eq hc]
      exact hrun

end Loop

theorem cowSample_passes {s : Machine} (htraps : s.vmmTraps = cowSample.vmmTraps) (hbase : s.vmmTrapsBase = 1) :
    passesFor s 0x1000 0x400000 = 1 := by
  have hpass : passTraps 1 0x1000 0x400000 cowSample.vmmTraps =
      some [⟨.none, 0x1000, 0x400000, some ⟨1, 1⟩⟩, ⟨.none, 0x3000, 0x400000, some ⟨1, 0⟩⟩] := by decide
  unfold passesFor
  rw [htraps, hbase, cowPasses_some hpass, cowPasses_none (by decide)]

theorem cowSample_aligned {s : Machine} (htraps : s.vmmTraps = cowSample.vmmTraps) :
    PartnersAligned s 0x1000 0x400000 (vmmPgsz 0) := by
  intro d _ _ p u _ hu
  have hmem := trapAt_mem hu
  rw [htraps] at hmem
  rcases List.mem_pair.mp hmem with rfl | rfl <;> decide

/-- The whole kernel half is mapped. -/
def stuckSample : Machine :=
  { cowSample with mem := fun f i => if f = 1 ∧ 768 ≤ i then 0x83#32 else cowSample.mem f i }

theorem stuckSample_mem {v i : ℕ} (ht : (stuckSample.mem v i).HasTable) : stuckSample.mem v i = cowSample.mem v i := by
  unfold stuckSample at ht ⊢
  dsimp only at ht ⊢
  split_ifs at ht ⊢
  · exact absurd ht.2 (by decide)
  · rfl

theorem stuckSample_tables : Tables {1, 3, 8} {1, 3} stuckSample := by
  have hsame : ∀ {v i : ℕ}, (stuckSample.mem v i).HasTable → (cowSample.mem v i).HasTable := fun ht => by
    rw [← stuckSample_mem ht]
    exact ht
  constructor
  case frames => exact cowSample_tables.frames
  case sub => exact cowSample_tables.sub
  case dir => exact cowSample_tables.dir
  case self =>
    rintro v (rfl | rfl)
    all_goals exact ⟨by decide, by decide, by decide, by decide⟩
  case present =>
    intro v hv i hi hne ht
    rw [stuckSample_mem ht]
    exact cowSample_tables.present v hv i hi hne (hsame ht)
  case rw =>
    intro v hv i hi hne ht
    rw [stuckSample_mem ht]
    exact cowSample_tables.rw v hv i hi hne (hsame ht)
  case used =>
    intro v hv i hi hne ht
    rw [stuckSample_mem ht]
    exact cowSample_tables.used v hv i hi hne (hsame ht)
  case notDir =>
    intro v hv i hi hne ht
    rw [stuckSample_mem ht]
    exact cowSample_tables.notDir v hv i hi hne (hsame ht)
  case sep =>
    intro v hv w hw i hi j hj hne hne' ht ht' heq
    rw [stuckSample_mem ht, stuckSample_mem ht'] at heq
    exact cowSample_tables.sep v hv w hw i hi j hj hne hne' (hsame ht) (hsame ht') heq

theorem stuckSample_settled : Settled True {1, 3, 8} {1, 3} 84 stuckSample where
  tables := stuckSample_tables
  cur := .inl rfl
  aligned := rfl
  guard := ⟨fun _ => cowSample_frames, fun hno => absurd trivial hno⟩
  spread := ⟨fun k hk => (by cases hk), fun _ hno => absurd rfl hno⟩
  kernel k hk := by cases hk

theorem stuckSample_pages : CowPages True {1, 3} stuckSample := by
  intro d hd _
  rcases List.mem_pair.mp hd with rfl | rfl
  · exact ⟨1, rfl, .inl rfl, by decide, fun _ hne => absurd rfl hne, fun hno => absurd trivial hno⟩
  · exact ⟨3, rfl, .inr rfl, by decide, fun _ _ => by decide, fun hno => absurd trivial hno⟩

theorem stuckSample_full (q : ℕ) : ¬ CopySpace stuckSample q := by
  intro hspace
  have hk : KernelEnds stuckSample := ⟨by decide, by decide⟩
  obtain ⟨hq, hq1, hfree, -⟩ := (copySpace_iff hk).mp hspace
  have hlow : 0xC0001000 ≤ q * 4096 := hq
  have hentry : stuckSample.mem 1 (q / 1024) = 0x83#32 := if_pos ⟨rfl, by omega⟩
  have hsize : (stuckSample.mem 1 (q / 1024)).pgsz = false := (view_eq_none.mp hfree).1
  rw [hentry] at hsize
  exact absurd hsize (by decide)

end SysX
