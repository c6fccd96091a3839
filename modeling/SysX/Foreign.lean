import SysX.Opening

/-!
The primitives on a VMM other than the current one. Each opens windows on the directory and on the
page table, works on the frames behind them, and closes them.
-/
namespace SysX

/-- `K` provides the functions of this repository, at some depth of nesting. -/
def Callees.Closed (K : Callees) : Prop :=
  ∃ K', K.vmmAllocMap = SysX.vmmAllocMap K' ∧ K.vmmPgunmap = SysX.vmmPgunmap K'

theorem callees_closed (n : ℕ) : (callees (n + 1)).Closed := ⟨callees n, rfl, rfl⟩

/-- At least `n` pages from `q` on are free for windows. -/
def Room (s : Machine) (W : ℕ → Word) (q n : ℕ) : Prop :=
  ∃ ps : List ℕ, ps.length = n ∧ ps.Pairwise (· < ·) ∧ ∀ p ∈ ps, q ≤ p ∧ FreePage s W p

/-- A window was opened at the first free page from `q` on. -/
structure Opened (D L : Set ℕ) (s : Machine) (W : ℕ → Word) (q p : ℕ) (w : Word) (t : Machine) :
    Prop where
  le : q ≤ p
  free : FreePage s W p
  first : ∀ r, q ≤ r → r < p → ¬ FreePage s W r
  windowed : Windowed D L s t (Function.update W p w)

theorem FreePage.addr_ne_zero {s : Machine} {W : ℕ → Word} {p : ℕ} (h : FreePage s W p) :
    p * 4096 ≠ 0 := Nat.mul_ne_zero (Nat.ne_of_gt h.1) (by decide)

theorem FreePage.update {s : Machine} {W : ℕ → Word} {p r : ℕ} (h : FreePage s W r) (hne : r ≠ p)
    (w : Word) : FreePage s (Function.update W p w) r :=
  ⟨h.1, h.2.1, by rw [Function.update_of_ne hne]; exact h.2.2.1, h.2.2.2⟩

/-- Room above a window that was just opened. -/
theorem Room.after {s : Machine} {W : ℕ → Word} {q n p : ℕ} (h : Room s W q (n + 1))
    (hfirst : ∀ r, q ≤ r → r < p → ¬ FreePage s W r) (w : Word) :
    Room s (Function.update W p w) (p + 1) n := by
  obtain ⟨ps, hlen, hsort, hps⟩ := h
  cases ps with
  | nil => cases hlen
  | cons r ps =>
    rw [List.pairwise_cons] at hsort
    have hr : p ≤ r := by
      by_contra hlt
      exact hfirst r (hps r (by simp)).1 (by omega) (hps r (by simp)).2
    refine ⟨ps, by simpa using hlen, hsort.2, fun r' hr' => ?_⟩
    have hlt := hsort.1 r' hr'
    exact ⟨by omega, (hps r' (by simp [hr'])).2.update (by omega) w⟩

theorem Room.mono {s : Machine} {W : ℕ → Word} {q m n : ℕ} (h : Room s W q n) (hm : m ≤ n) :
    Room s W q m := by
  obtain ⟨ps, hlen, hsort, hps⟩ := h
  exact ⟨ps.take m, by rw [List.length_take]; omega, hsort.sublist (List.take_sublist m ps),
    fun p hp => hps p ((List.take_sublist m ps).mem hp)⟩

/-- Opening and closing a window leaves the windows as they were. -/
theorem update_update_cancel {W : ℕ → Word} {p : ℕ} (h : W p = 0#32) (w : Word) :
    Function.update (Function.update W p w) p 0#32 = W := by
  rw [Function.update_idem, ← h, Function.update_eq_self]

theorem update_cancel_two {W : ℕ → Word} {p r : ℕ} (hp : W p = 0#32) (hr : W r = 0#32)
    (w w' : Word) :
    Function.update (Function.update (Function.update (Function.update W p w) r w') p 0#32) r 0#32 =
      W := by
  funext k
  simp only [Function.update_apply]
  split_ifs with h1 h2
  · rw [h1, hr]
  · rw [h2, hp]
  · rfl

namespace Windowed

variable {D L : Set ℕ} {s s₁ : Machine} {W : ℕ → Word} {flags : Word} {K : Callees} {ok : Prop}

/-- A window onto the frame `g`. -/
theorem pageAt_window (h : Windowed D L s s₁ W) (hfl : WindowFlags flags) {p g : ℕ}
    (hp : W p = windowPte flags (g * 4096)) (hg : g < 1048576) (w : Bool)
    (hw : w = true → flags.getLsbD 1 = true) : PageAt s₁ w (p * 4096) g := by
  have hpt : (W p).pt = g := by
    rw [hp, windowPte_pt]
    omega
  have hpr : (W p).present = true := by
    rw [hp, windowPte_present]
    exact hfl.present
  have := h.pageAt w hpr fun hx => by
    rw [hp, windowPte_rw]
    exact hw hx
  rwa [hpt] at this

theorem open_room (h : Windowed D L s s₁ W) (hfl : WindowFlags flags) (hK : K.Closed)
    {q g m n : ℕ} (hq : q < 1048576) (hg : Guard ok s s₁ (n + 1)) (hroom : Room s W q (m + 1)) :
    Comp.Wp ok (K.vmmAllocMap s.vmmCurrent (g * 4096) 4096 (q * 4096) kernelStart 0 0 false flags)
      (fun a t => ∃ p, a = p * 4096 ∧ Opened D L s W q p (windowPte flags (g * 4096)) t ∧
        Guard ok s t n ∧ Room s (Function.update W p (windowPte flags (g * 4096))) (p + 1) m) s₁ := by
  obtain ⟨K', hK', -⟩ := hK
  rw [hK']
  refine (h.openWindow hfl K' hq (Nat.mul_mod_left g 4096) hg).mono fun a t ht => ?_
  rcases ht with ⟨-, -, hno⟩ | ⟨p, ha, hqp, hf, hmin, hw, hg'⟩
  · obtain ⟨ps, hlen, -, hps⟩ := hroom
    cases ps with
    | nil => cases hlen
    | cons r ps => exact absurd (hps r (by simp)).2 (hno r (hps r (by simp)).1)
  · exact ⟨p, ha, ⟨hqp, hf, hmin, hw⟩, hg', hroom.after hmin _⟩

theorem openPd_foreign (h : Windowed D L s s₁ W) (hfl : WindowFlags flags) (hK : K.Closed)
    {v m n : ℕ} (hv : v * 4096 ≠ s.vmmCurrent) (hg : Guard ok s s₁ (n + 1))
    (hroom : Room s W 0 (m + 1)) :
    Comp.Wp ok (openPd K (v * 4096) flags)
      (fun a t => ∃ p, a = p * 4096 ∧ Opened D L s W 0 p (windowPte flags (v * 4096)) t ∧
        Guard ok s t n ∧ Room s (Function.update W p (windowPte flags (v * 4096))) (p + 1) m) s₁ := by
  refine .read_bind ?_
  rw [h.vmmCurrent_eq, if_pos hv]
  have := h.open_room hfl hK (q := 0) (g := v) (by decide) hg hroom
  rwa [Nat.zero_mul] at this

theorem openPt_foreign (h : Windowed D L s s₁ W) (hfl : WindowFlags flags) (hK : K.Closed)
    {v p i m n : ℕ} (hv : v * 4096 ≠ s.vmmCurrent) (hp : p < userPages)
    (hpd : PageAt s₁ false (p * 4096) v) (hi : i < 1024) (hm : s₁.mem v i = s.mem v i)
    (hg : Guard ok s s₁ (n + 1)) (hroom : Room s W (p + 1) (m + 1)) :
    Comp.Wp ok (openPt K (v * 4096) (p * 4096) i flags)
      (fun a t => ∃ r, a = r * 4096 ∧
        Opened D L s W (p + 1) r (windowPte flags ((s.mem v i).pt * 4096)) t ∧ Guard ok s t n ∧
        Room s (Function.update W r (windowPte flags ((s.mem v i).pt * 4096))) (r + 1) m) s₁ := by
  have hlo : w32 (p * 4096 + 4096) = (p + 1) * 4096 := by
    unfold userPages at hp
    rw [w32_of_lt (by omega)]
    omega
  refine .read_bind ?_
  rw [h.vmmCurrent_eq, if_pos hv]
  refine .step (hpd.load hi) ?_
  rw [hlo, hm]
  exact h.open_room hfl hK (by unfold userPages at hp; omega) hg hroom

theorem close_wp (h : Windowed D L s s₁ W) (hK : K.Closed) {p n : ℕ} (hw : W p ≠ 0#32)
    (hu : (W p).trapped = false) (hg : Guard ok s s₁ n) :
    Comp.Wp ok (K.vmmPgunmap s.vmmCurrent (p * 4096) 0)
      (fun _ t => Windowed D L s t (Function.update W p 0#32) ∧ Guard ok s t n) s₁ := by
  obtain ⟨K', -, hK'⟩ := hK
  obtain ⟨t, hrun, ht, hwin⟩ := h.close K' hw hu
  rw [hK']
  refine .of_eq hrun ⟨hwin, ⟨fun ho => ?_, hg.null⟩⟩
  rw [ht]
  exact hg.frames ho

theorem closeWin_foreign (h : Windowed D L s s₁ W) (hK : K.Closed) {v p n : ℕ}
    (hv : v * 4096 ≠ s.vmmCurrent) (hw : W p ≠ 0#32) (hu : (W p).trapped = false)
    (hg : Guard ok s s₁ n) :
    Comp.Wp ok (closeWin K (v * 4096) (p * 4096))
      (fun _ t => Windowed D L s t (Function.update W p 0#32) ∧ Guard ok s t n) s₁ := by
  refine .read_bind ?_
  rw [h.vmmCurrent_eq, Comp.when_true hv]
  exact h.close_wp hK hw hu hg

end Windowed

/-! The walk every primitive starts with. -/

/-- A window on the directory `v` is open at the page `p`. -/
structure PdOpen (ok : Prop) (D L : Set ℕ) (s : Machine) (W : ℕ → Word) (flags : Word)
    (v n p : ℕ) (t : Machine) : Prop where
  pos : 1 ≤ p
  user : p < userPages
  zero : W p = 0#32
  windowed : Windowed D L s t (Function.update W p (windowPte flags (v * 4096)))
  guard : Guard ok s t n

/-- Windows on the directory `v` and on a page table in the frame `f` are open. -/
structure PtOpen (ok : Prop) (D L : Set ℕ) (s : Machine) (W : ℕ → Word) (flags flags' : Word)
    (v f n p r : ℕ) (t : Machine) : Prop where
  pos : 1 ≤ p
  lt : p < r
  user : r < userPages
  zero : W p = 0#32
  zero' : W r = 0#32
  windowed : Windowed D L s t (Function.update (Function.update W p (windowPte flags (v * 4096))) r
    (windowPte flags' (f * 4096)))
  guard : Guard ok s t n

section Walk

variable {D L : Set ℕ} {s s₁ : Machine} {W : ℕ → Word} {flags flags' : Word} {K : Callees}
  {ok : Prop} {v f n p r i : ℕ} {t : Machine}

theorem PdOpen.pageAt (h : PdOpen ok D L s W flags v n p t) (hfl : WindowFlags flags)
    (hv : v < 1048576) (w : Bool) (hw : w = true → flags.getLsbD 1 = true) :
    PageAt t w (p * 4096) v :=
  h.windowed.pageAt_window hfl (Function.update_self ..) hv w hw

theorem PtOpen.pageAt (h : PtOpen ok D L s W flags flags' v f n p r t) (hfl : WindowFlags flags)
    (hv : v < 1048576) (w : Bool) (hw : w = true → flags.getLsbD 1 = true) :
    PageAt t w (p * 4096) v :=
  h.windowed.pageAt_window hfl
    (by rw [Function.update_of_ne (Nat.ne_of_lt h.lt), Function.update_self]) hv w hw

theorem PtOpen.pageAt' (h : PtOpen ok D L s W flags flags' v f n p r t) (hfl : WindowFlags flags')
    (hf : f < 1048576) (w : Bool) (hw : w = true → flags'.getLsbD 1 = true) :
    PageAt t w (r * 4096) f :=
  h.windowed.pageAt_window hfl (Function.update_self ..) hf w hw

theorem PdOpen.close (h : PdOpen ok D L s W flags v n p t) (hfl : WindowFlags flags)
    (hK : K.Closed) (hv : v * 4096 ≠ s.vmmCurrent) :
    Comp.Wp ok (closeWin K (v * 4096) (p * 4096))
      (fun _ u => Windowed D L s u W ∧ Guard ok s u n) t := by
  refine (h.windowed.closeWin_foreign hK hv (by rw [Function.update_self]; exact hfl.windowPte_ne_zero _)
    (by rw [Function.update_self]; exact (windowPte_trapped _ _).trans hfl.trapped) h.guard).mono fun _ u hu => ?_
  rwa [update_update_cancel h.zero] at hu

/-- The page table's window first. -/
theorem PtOpen.close (h : PtOpen ok D L s W flags flags' v f n p r t) (hfl : WindowFlags flags)
    (hfl' : WindowFlags flags') (hK : K.Closed) (hv : v * 4096 ≠ s.vmmCurrent) :
    Comp.Wp ok (do closeWin K (v * 4096) (r * 4096); closeWin K (v * 4096) (p * 4096))
      (fun _ u => Windowed D L s u W ∧ Guard ok s u n) t := by
  have hr : Function.update W p (windowPte flags (v * 4096)) r = 0#32 := by
    rw [Function.update_of_ne (Nat.ne_of_gt h.lt)]
    exact h.zero'
  refine .bind (h.windowed.closeWin_foreign hK hv
    (by rw [Function.update_self]; exact hfl'.windowPte_ne_zero _)
    (by rw [Function.update_self]; exact (windowPte_trapped _ _).trans hfl'.trapped) h.guard) fun _ u hu => ?_
  rw [update_update_cancel hr] at hu
  exact PdOpen.close ⟨h.pos, h.lt.trans h.user, h.zero, hu.1, hu.2⟩ hfl hK hv

/-- The directory's window first. -/
theorem PtOpen.close' (h : PtOpen ok D L s W flags flags' v f n p r t) (hfl : WindowFlags flags)
    (hfl' : WindowFlags flags') (hK : K.Closed) (hv : v * 4096 ≠ s.vmmCurrent) :
    Comp.Wp ok (do closeWin K (v * 4096) (p * 4096); closeWin K (v * 4096) (r * 4096))
      (fun _ u => Windowed D L s u W ∧ Guard ok s u n) t := by
  have hpr := Nat.ne_of_lt h.lt
  refine .bind (h.windowed.closeWin_foreign hK hv
    (by rw [Function.update_of_ne hpr, Function.update_self]; exact hfl.windowPte_ne_zero _)
    (by rw [Function.update_of_ne hpr, Function.update_self]
        exact (windowPte_trapped _ _).trans hfl.trapped) h.guard) fun _ u hu => ?_
  have hrp := hpr.symm
  refine (hu.1.closeWin_foreign hK hv
    (by rw [Function.update_of_ne hrp, Function.update_self]; exact hfl'.windowPte_ne_zero _)
    (by rw [Function.update_of_ne hrp, Function.update_self]
        exact (windowPte_trapped _ _).trans hfl'.trapped) hu.2).mono fun _ u' hu' => ?_
  rwa [update_cancel_two h.zero h.zero'] at hu'

theorem Windowed.openPt_pdOpen (hd : PdOpen ok D L s W flags v (n + 1) p t)
    (hfl : WindowFlags flags) (hfl' : WindowFlags flags') (hK : K.Closed) (hv : v ∈ L)
    (hcur : v * 4096 ≠ s.vmmCurrent) (hi : i < 1024) (hm : t.mem v i = s.mem v i)
    (hroom : Room s (Function.update W p (windowPte flags (v * 4096))) (p + 1) 1) :
    Comp.Wp ok (openPt K (v * 4096) (p * 4096) i flags') (fun a u => ∃ r, a = r * 4096 ∧
      PtOpen ok D L s W flags flags' v (s.mem v i).pt n p r u) t := by
  have hlt := (hd.windowed.logical.dir v (hd.windowed.logical.sub hv)).2
  have hpd := hd.pageAt hfl hlt false (by simp)
  refine (hd.windowed.openPt_foreign hfl' hK hcur hd.user hpd hi hm hd.guard
    (hroom.mono (Nat.le_refl 1))).mono fun a u ⟨r, ha, ho, hg, _⟩ => ?_
  have hlt := ho.le
  have hrp : r ≠ p := by omega
  refine ⟨r, ha, hd.pos, by omega, ho.free.2.1, hd.zero, ?_, ho.windowed, hg⟩
  have := ho.free.2.2.1
  rwa [Function.update_of_ne hrp] at this

/-- How many windows are open at once on the way to the entry of a page. -/
def walkWindows (e : Word) : ℕ := (if e.HasTable then 1 else 0) + 1

/-- From the window on the directory to what depends on the entry. -/
theorem Windowed.foreign_walk {α : Type} {ok' : Prop} (h : Windowed D L s s₁ W) (hok : ok' → ok)
    (hfl : WindowFlags flags) (hfl' : WindowFlags flags') (hK : K.Closed) (hv : v ∈ L) (hvc : v ≠ s.cr3) (hi : i < 1024)
    (hg : Guard ok s s₁ (n + 2)) (hroom : Room s W 0 (walkWindows (s.mem v i))) {x : α}
    {kz kf : ℕ → Kernel α}
    {kp : ℕ → Word → Kernel α} {kt : ℕ → ℕ → Kernel α} {Q : α → Machine → Prop}
    (hz : s.mem v i = 0#32 → ∀ p t, PdOpen ok D L s W flags v (n + 1) p t →
      Comp.Wp ok' (kz (p * 4096)) Q t)
    (hp : (s.mem v i).pgsz = true → ∀ p t, PdOpen ok D L s W flags v (n + 1) p t →
      Comp.Wp ok' (kp (p * 4096) (s.mem v i)) Q t)
    (ht : (s.mem v i).HasTable → ∀ p r t,
      PtOpen ok D L s W flags flags' v (s.mem v i).pt n p r t →
      Comp.Wp ok' (kt (p * 4096) (r * 4096)) Q t) :
    Comp.Wp ok' (do
      let pd ← openPd K (v * 4096) flags
      if pd = 0 then pure x else do
      let e ← load (pd + 4 * i)
      if e = 0#32 then kz pd
      else if e.pgsz then kp pd e
      else do
        let pt ← openPt K (v * 4096) pd i flags'
        if pt = 0 then kf pd else kt pd pt) Q s₁ := by
  have hlt := (h.logical.dir v (h.logical.sub hv)).2
  have hcur : v * 4096 ≠ s.vmmCurrent := fun e => hvc (by rw [Machine.cr3, ← e]; omega)
  refine .bind ((h.openPd_foreign hfl hK hcur hg hroom).weaken hok fun _ _ => id) ?_
  rintro a t ⟨p, ha, ho, hg', hroom'⟩
  have hd : PdOpen ok D L s W flags v (n + 1) p t :=
    ⟨ho.free.1, ho.free.2.1, ho.free.2.2.1, ho.windowed, hg'⟩
  have hp0 := ho.free.addr_ne_zero
  have hm : t.mem v i = s.mem v i :=
    congrFun (hd.windowed.mem_dir (h.logical.sub hv) hvc) i
  rw [ha, if_neg hp0]
  refine .step ((hd.pageAt hfl hlt false (by simp)).load hi) ?_
  rw [hm]
  by_cases h0 : s.mem v i = 0#32
  · rw [if_pos h0]
    exact hz h0 p t hd
  rw [if_neg h0]
  cases hs : (s.mem v i).pgsz with
  | true =>
    rw [if_pos rfl]
    exact hp hs p t hd
  | false =>
    rw [if_neg Bool.false_ne_true]
    have htab : (s.mem v i).HasTable := ⟨h0, hs⟩
    rw [if_pos htab] at hroom'
    refine .bind ((Windowed.openPt_pdOpen hd hfl hfl' hK hv hcur hi hm hroom').weaken hok fun _ _ => id) ?_
    rintro a' u ⟨r, ha', hpt⟩
    have hr0 : r * 4096 ≠ 0 :=
      Nat.mul_ne_zero (Nat.ne_of_gt (Nat.lt_of_le_of_lt (Nat.zero_le p) hpt.lt)) (by decide)
    rw [ha', if_neg hr0]
    exact ht htab p r u hpt

/-- Without room for the windows, the walk ends before it comes to the entry of the page. -/
theorem Windowed.foreign_walk_blocked {α : Type} (h : Windowed D L s s₁ W) (hfl : WindowFlags flags)
    (hfl' : WindowFlags flags') (hK : K.Closed) (hv : v ∈ L) (hvc : v ≠ s.cr3) (hi : i < 1024)
    (hg : Guard ok s s₁ (n + 2)) (hroom : ¬ Room s W 0 (walkWindows (s.mem v i))) {x : α}
    {kz kf : ℕ → Kernel α} {kp : ℕ → Word → Kernel α} {kt : ℕ → ℕ → Kernel α} {Q : α → Machine → Prop}
    (hx : Q x s₁)
    (hf : ∀ p t, PdOpen ok D L s W flags v (n + 1) p t → Comp.Wp ok (kf (p * 4096)) Q t) :
    Comp.Wp ok (do
      let pd ← openPd K (v * 4096) flags
      if pd = 0 then pure x else do
      let e ← load (pd + 4 * i)
      if e = 0#32 then kz pd
      else if e.pgsz then kp pd e
      else do
        let pt ← openPt K (v * 4096) pd i flags'
        if pt = 0 then kf pd else kt pd pt) Q s₁ := by
  have hlt := (h.logical.dir v (h.logical.sub hv)).2
  have hcur : v * 4096 ≠ s.vmmCurrent := fun e => hvc (by rw [Machine.cr3, ← e]; omega)
  obtain ⟨K', hK', -⟩ := hK
  have hopen := h.openWindow hfl K' (q := 0) (by decide) (Nat.mul_mod_left v 4096) hg
  rw [Nat.zero_mul] at hopen
  have hpd : openPd K (v * 4096) flags s₁ =
      SysX.vmmAllocMap K' s.vmmCurrent (v * 4096) 4096 0 kernelStart 0 0 false flags s₁ := by
    rw [openPd, Comp.read_bind, h.vmmCurrent_eq, if_pos hcur, hK']
  refine .bind (.congr hpd hopen) fun a t ht => ?_
  rcases ht with ⟨ha, rfl, -⟩ | ⟨p, ha, -, hfree, hmin, hw, hg'⟩
  · rw [if_pos ha]
    exact .pure hx
  have hd : PdOpen ok D L s W flags v (n + 1) p t := ⟨hfree.1, hfree.2.1, hfree.2.2.1, hw, hg'⟩
  have hm : t.mem v i = s.mem v i := congrFun (hw.mem_dir (h.logical.sub hv) hvc) i
  rw [ha, if_neg hfree.addr_ne_zero]
  refine .step ((hd.pageAt hfl hlt false (by simp)).load hi) ?_
  have htab : (s.mem v i).HasTable := by
    by_contra hno
    refine hroom ⟨[p], by rw [walkWindows, if_neg hno]; rfl, by simp, fun r hr => ?_⟩
    rw [List.mem_singleton.mp hr]
    exact ⟨Nat.zero_le p, hfree⟩
  have hp := hfree.2.1
  have hlo : w32 (p * 4096 + 4096) = (p + 1) * 4096 := by
    unfold userPages at hp
    rw [w32_of_lt (by omega)]
    omega
  have hopen' := hw.openWindow hfl' K' (q := p + 1)
    (by unfold userPages at hp; omega) (Nat.mul_mod_left (s.mem v i).pt 4096) hg'
  have hpt : openPt K (v * 4096) (p * 4096) i flags' t = SysX.vmmAllocMap K' s.vmmCurrent
      ((s.mem v i).pt * 4096) 4096 ((p + 1) * 4096) kernelStart 0 0 false flags' t := by
    rw [openPt, Comp.read_bind, hw.vmmCurrent_eq, if_pos hcur,
      Comp.bind_of_eq ((hd.pageAt hfl hlt false (by simp)).load hi), hm, hlo, hK']
  rw [hm, if_neg htab.1, if_neg htab.not_pgsz]
  refine .bind (.congr hpt hopen') fun a' u hu => ?_
  rcases hu with ⟨ha', rfl, -⟩ | ⟨r, -, hle, hfree', -⟩
  · rw [if_pos ha']
    exact hf p u hd
  · -- a second free page would have been room enough
    refine absurd ⟨[p, r], by rw [walkWindows, if_pos htab]; rfl, ?_, fun r' hr' => ?_⟩ hroom
    · simp only [List.pairwise_cons, List.mem_singleton, forall_eq]
      exact ⟨by omega, by simp⟩
    · rcases List.mem_pair.mp hr' with rfl | rfl
      · exact ⟨Nat.zero_le _, hfree⟩
      · have hw0 := hfree'.2.2.1
        rw [Function.update_of_ne (by omega)] at hw0
        exact ⟨Nat.zero_le _, hfree'.1, hfree'.2.1, hw0, hfree'.2.2.2⟩

end Walk

/-! The observers and the updates of a mapped page. -/

section Ops

variable {D L : Set ℕ} {s s₁ : Machine} {W : ℕ → Word} {K : Callees} {ok : Prop} {v n va : ℕ}

theorem Windowed.vmmGetPaddr_foreign (h : Windowed D L s s₁ W) (hK : K.Closed) (hv : v ∈ L)
    (hvc : v ≠ s.cr3) (hva : OffSlot va) (hg : Guard ok s s₁ (n + 2))
    (hroom : Room s W 0 (walkWindows (s.mem v (va / 4194304)))) :
    Comp.Wp ok (vmmGetPaddr K (v * 4096) va) (fun r t => r = paddrAt s.mem v va ∧
      Windowed D L s t W ∧ Guard ok s t n) s₁ := by
  have hi := va_slot va
  have hcur : v * 4096 ≠ s.vmmCurrent := fun e => hvc (by rw [Machine.cr3, ← e]; omega)
  unfold vmmGetPaddr
  refine h.foreign_walk id windowFlags_read windowFlags_read hK hv hvc hva.lt hg hroom
    (fun h0 p t hd => ?_) (fun hs p t hd => ?_) fun he p r t hd => ?_
  · refine .bind (hd.close windowFlags_read hK hcur) fun _ u hu =>
      .pure ⟨?_, hu.1, hu.2.mono (Nat.le_succ n)⟩
    rw [paddrAt, view_of_slot_zero (by rw [hi, h0])]
  · refine .bind (hd.close windowFlags_read hK hcur) fun _ u hu =>
      .pure ⟨?_, hu.1, hu.2.mono (Nat.le_succ n)⟩
    rw [paddrAt, view_of_pgsz (by rw [hi, hs]), hi]
    change _ = ((s.mem v (va / 4194304)).psePa * 1024 + va / 4096 % 1024) * 4096 + va % 4096
    omega
  · have hm := hd.windowed.mem_table hv hva.lt hva.2 (.inl hvc) he
    refine .step ((hd.pageAt' windowFlags_read (Word.pt_lt _) false (by simp)).load
      (Nat.mod_lt _ (by decide))) ?_
    rw [hm, ← Comp.bind_assoc]
    refine .bind (hd.close windowFlags_read windowFlags_read hK hcur) fun _ u hu =>
      .pure ⟨?_, hu.1, hu.2⟩
    rw [paddrAt, view_of_not_pgsz (by rw [hi, he.2]), pteAt_of_hasTable (by rw [hi]; exact he), hi,
      viewPte]
    split_ifs <;> rfl

theorem Windowed.vmmGetFlags_foreign (h : Windowed D L s s₁ W) (hK : K.Closed) (hv : v ∈ L)
    (hvc : v ≠ s.cr3) (hva : OffSlot va) (hg : Guard ok s s₁ (n + 2))
    (hroom : Room s W 0 (walkWindows (s.mem v (va / 4194304)))) :
    Comp.Wp ok (vmmGetFlags K (v * 4096) va) (fun r t => r = flagsAt s.mem v (va / 4096) ∧
      Windowed D L s t W ∧ Guard ok s t n) s₁ := by
  have hi := va_slot va
  have hcur : v * 4096 ≠ s.vmmCurrent := fun e => hvc (by rw [Machine.cr3, ← e]; omega)
  unfold vmmGetFlags
  refine h.foreign_walk id windowFlags_read windowFlags_read hK hv hvc hva.lt hg hroom
    (fun h0 p t hd => ?_) (fun hs p t hd => ?_) fun he p r t hd => ?_
  · refine .bind (hd.close windowFlags_read hK hcur) fun _ u hu =>
      .pure ⟨?_, hu.1, hu.2.mono (Nat.le_succ n)⟩
    rw [flagsAt, view_of_slot_zero (by rw [hi, h0])]
  · refine .bind (hd.close windowFlags_read hK hcur) fun _ u hu =>
      .pure ⟨?_, hu.1, hu.2.mono (Nat.le_succ n)⟩
    rw [flagsAt, view_of_pgsz (by rw [hi, hs]), hi]
  · have hm := hd.windowed.mem_table hv hva.lt hva.2 (.inl hvc) he
    refine .step ((hd.pageAt' windowFlags_read (Word.pt_lt _) false (by simp)).load
      (Nat.mod_lt _ (by decide))) ?_
    rw [hm, ← Comp.bind_assoc]
    refine .bind (hd.close windowFlags_read windowFlags_read hK hcur) fun _ u hu =>
      .pure ⟨?_, hu.1, hu.2⟩
    rw [flagsAt, view_of_not_pgsz (by rw [hi, he.2]), pteAt_of_hasTable (by rw [hi]; exact he), hi,
      viewPte]
    split_ifs <;> rfl

/-- `vmm_get_pgsz` leaves the window on the directory open when the entry holds a page table. -/
theorem Windowed.vmmGetPgsz_foreign (h : Windowed D L s s₁ W) (hK : K.Closed) (hv : v ∈ L)
    (hvc : v ≠ s.cr3) (hva : OffSlot va) (hg : Guard ok s s₁ (n + 2))
    (hroom : Room s W 0 (walkWindows (s.mem v (va / 4194304)))) :
    Comp.Wp ok (vmmGetPgsz K (v * 4096) va) (fun r t => r = pgszAt s.mem v (va / 4096) ∧
      (if (s.mem v (va / 4194304)).HasTable then ∃ p, FreePage s W p ∧
        Windowed D L s t (Function.update W p (windowPte flagPresent (v * 4096)))
      else Windowed D L s t W) ∧ Guard ok s t n) s₁ := by
  have hi := va_slot va
  have hcur : v * 4096 ≠ s.vmmCurrent := fun e => hvc (by rw [Machine.cr3, ← e]; omega)
  unfold vmmGetPgsz
  refine h.foreign_walk id windowFlags_read windowFlags_read hK hv hvc hva.lt hg hroom
    (fun h0 p t hd => ?_) (fun hs p t hd => ?_) fun he p r t hd => ?_
  · refine .bind (hd.close windowFlags_read hK hcur) fun _ u hu =>
      .pure ⟨?_, ?_, hu.2.mono (Nat.le_succ n)⟩
    · exact (pgszAt_eq_none.mpr (view_of_slot_zero (by rw [hi, h0]))).symm
    · rw [if_neg (by rw [h0]; exact Word.not_hasTable_zero)]
      exact hu.1
  · refine .bind (hd.close windowFlags_read hK hcur) fun _ u hu =>
      .pure ⟨?_, ?_, hu.2.mono (Nat.le_succ n)⟩
    · rw [pgszAt, if_pos (by rw [hi, hs])]
    · rw [if_neg fun he => he.not_pgsz hs]
      exact hu.1
  · have hm := hd.windowed.mem_table hv hva.lt hva.2 (.inl hvc) he
    have hr : Function.update W p (windowPte flagPresent (v * 4096)) r = 0#32 := by
      rw [Function.update_of_ne (Nat.ne_of_gt hd.lt)]
      exact hd.zero'
    refine .step ((hd.pageAt' windowFlags_read (Word.pt_lt _) false (by simp)).load
      (Nat.mod_lt _ (by decide))) ?_
    rw [hm]
    refine .bind (hd.windowed.closeWin_foreign hK hcur
      (by rw [Function.update_self]; exact windowFlags_read.windowPte_ne_zero _)
      (by rw [Function.update_self]; exact windowPte_trapped _ _)
      hd.guard) fun _ u hu => .pure ⟨?_, ?_, hu.2⟩
    · rw [pgszAt, pteAt_of_hasTable (by rw [hi]; exact he), hi, he.2, if_neg Bool.false_ne_true]
    · rw [if_pos he]
      rw [update_update_cancel hr] at hu
      exact ⟨p, ⟨hd.pos, hd.lt.trans hd.user, hd.zero, (hu.1.clear p (by
        rw [Function.update_self]; exact windowFlags_read.windowPte_ne_zero _)).2.2⟩, hu.1⟩

/-- Page 0 stays guarded when a frame outside changes. -/
theorem Windowed.guard_set (h : Windowed D L s s₁ W) {f : ℕ} (ho : Outside s₁ f)
    (hg : Guard ok s s₁ n) (i : ℕ) (d : Word) : Guard ok (s.set f i d) (s₁.set f i d) n := by
  refine ⟨hg.frames, fun hok => ?_⟩
  have hn := hg.null hok
  have he := h.slot_of_ne_zero hn.table.1
  refine hn.set d (fun e => absurd (e.trans h.cr3_eq.symm) ho.1) fun e => ?_
  have := ho.2 0 (by decide) (by rw [h.cr3_eq, he]; exact hn.table)
  rw [h.cr3_eq, he] at this
  exact this e.symm

theorem Windowed.guard_setFrame (h : Windowed D L s s₁ W) {f : ℕ} (ho : Outside s₁ f)
    (hg : Guard ok s s₁ n) (c : ℕ → Word) : Guard ok (s.setFrame f c) (s₁.setFrame f c) n := by
  refine ⟨hg.frames, fun hok => ?_⟩
  have hn := hg.null hok
  have he := h.slot_of_ne_zero hn.table.1
  have hcf : s.cr3 ≠ f := fun e => ho.1 (e.symm.trans h.cr3_eq.symm)
  have hpf := ho.2 0 (by decide) (by rw [h.cr3_eq, he]; exact hn.table)
  rw [h.cr3_eq, he] at hpf
  have hcr : (s.setFrame f c).cr3 = s.cr3 := rfl
  have hm : (s.setFrame f c).mem s.cr3 = s.mem s.cr3 := s.setFrame_mem_of_ne f hcf
  refine ⟨by rw [hcr, hm]; exact hn.table, ?_⟩
  have hp := hn.pte
  rw [pteAt_of_hasTable hn.table] at hp
  rw [hcr, pteAt_of_hasTable (by rw [hm]; exact hn.table), hm, s.setFrame_mem_of_ne f hpf]
  exact hp

theorem Windowed.vmmSetPaddr_foreign (h : Windowed D L s s₁ W) (hK : K.Closed) (hv : v ∈ L)
    (hvc : v ≠ s.cr3) (hva : OffSlot va) (pa : ℕ) (hg : Guard ok s s₁ (n + 2))
    (hroom : Room s W 0 (walkWindows (s.mem v (va / 4194304)))) :
    Comp.Wp ok (vmmSetPaddr K (v * 4096) va pa) (fun _ t =>
      Windowed D L (setPaddrAt s v va pa) t W ∧ Guard ok (setPaddrAt s v va pa) t n) s₁ := by
  have hi := va_slot va
  have hj : va / 4096 % 1024 < 1024 := Nat.mod_lt _ (by decide)
  have hcur : v * 4096 ≠ s.vmmCurrent := fun e => hvc (by rw [Machine.cr3, ← e]; omega)
  have hD := h.logical.sub hv
  have hlt := (h.logical.dir v hD).2
  unfold vmmSetPaddr setPaddrAt
  dsimp only
  refine h.foreign_walk id windowFlags_write windowFlags_write hK hv hvc hva.lt hg hroom
    (fun h0 p t hd => ?_) (fun hs p t hd => ?_) fun he p r t hd => ?_
  · have hpte : pteAt s.mem v (va / 4096) = 0#32 :=
      pteAt_of_not_hasTable (by rw [hi, h0]; exact Word.not_hasTable_zero)
    rw [h0, hpte, if_neg (by decide), if_pos rfl]
    exact (hd.close windowFlags_write hK hcur).mono fun _ u hu =>
      ⟨hu.1, hu.2.mono (Nat.le_succ n)⟩
  · have hm : t.mem v = s.mem v := hd.windowed.mem_dir hD hvc
    have hps : ((s.mem v (va / 4194304)).setPsePa (pa / 4194304)).pgsz = true := by
      rw [Word.setPsePa_pgsz, hs]
    have hft : ∀ u, Fits D L u v (va / 4194304) ((s.mem v (va / 4194304)).setPsePa (pa / 4194304)) :=
      fun u => .of_not_hasTable fun he => he.not_pgsz hps
    have ho := hd.windowed.outside_dir hD hvc
    have hw := hd.windowed.set ho (hd.windowed.logical.setPde hva.2 (hft _))
      (hd.windowed.actual.setPde hva.2 (hft _))
    have hg' := hd.windowed.guard_set ho hd.guard (va / 4194304)
      ((s.mem v (va / 4194304)).setPsePa (pa / 4194304))
    refine .step ((hd.pageAt windowFlags_write hlt true fun _ => rfl).update hva.lt _) ?_
    rw [hm, hs, if_pos rfl]
    have hd' : PdOpen ok D L (s.set v (va / 4194304)
        ((s.mem v (va / 4194304)).setPsePa (pa / 4194304))) W _ v (n + 1) p _ :=
      ⟨hd.pos, hd.user, hd.zero, hw, hg'⟩
    exact (hd'.close windowFlags_write hK hcur).mono fun _ u hu =>
      ⟨hu.1, hu.2.mono (Nat.le_succ n)⟩
  · have hpte := pteAt_of_hasTable (m := s.mem) (p := va / 4096) (show (s.mem v _).HasTable by rw [hi]; exact he)
    have hm := hd.windowed.mem_table hv hva.lt hva.2 (.inl hvc) he
    have ho := hd.windowed.outside_table hv hva.lt hva.2 (.inl hvc) he
    have hpt := hd.pageAt' windowFlags_write (Word.pt_lt _) true fun _ => rfl
    refine .step (hpt.load hj) ?_
    rw [hi] at hpte
    rw [hm, hpte, if_neg (by rw [he.2]; exact Bool.false_ne_true)]
    by_cases hz : s.mem (s.mem v (va / 4194304)).pt (va / 4096 % 1024) = 0#32
    · rw [if_pos hz, Comp.when_false (not_not.mpr hz)]
      exact hd.close windowFlags_write windowFlags_write hK hcur
    · rw [if_neg hz, Comp.when_true hz]
      refine .step (hpt.update hj _) ?_
      rw [hm]
      have hD' := hd.windowed.logical.notDir v hv _ hva.lt hva.2 he
      have hd' := PtOpen.mk hd.pos hd.lt hd.user hd.zero hd.zero'
        (hd.windowed.setTable ho hD' (va / 4096 % 1024)
          ((s.mem (s.mem v (va / 4194304)).pt (va / 4096 % 1024)).setPt (pa / 4096)))
        (hd.windowed.guard_set ho hd.guard _ _)
      exact hd'.close windowFlags_write windowFlags_write hK hcur

/-- A write through a read-only window faults. -/
theorem Windowed.update_readonly (h : Windowed D L s s₁ W) {p i : ℕ} (hi : i < 1024)
    (hp : (W p).present = true) (hr : (W p).rw = false) (g : Word → Word) :
    update (p * 4096 + 4 * i) g s₁ = none := by
  have hw := Word.ne_zero_of_present hp
  have hu := (h.clear p hw).2.1
  have ht := h.hasTable_window hw
  have hlt := userPages_slot hu
  have h1 : (p * 4096 + 4 * i) / 4194304 = p / 1024 := by omega
  have h2 : (p * 4096 + 4 * i) / 4096 % 1024 = p % 1024 := by omega
  have hpte : s₁.mem (s₁.mem s₁.cr3 (p / 1024)).pt (p % 1024) = W p := by
    have := h.pte p hu
    rwa [if_neg hw, pteAt_of_hasTable ht, ← h.cr3_eq] at this
  have hm : mmu s₁.mem s₁.cr3 true (p * 4096 + 4 * i) = none := by
    unfold mmu
    simp only [h1, h2, h.cr3_eq, ht.2, Bool.false_eq_true, if_false]
    rw [← h.cr3_eq, hpte, hr]
    split_ifs with hx hy
    · rfl
    · rfl
    · exact absurd (.inr ⟨trivial, rfl⟩) hy
  rw [SysX.update, Comp.bind_of_eq ((h.pageAt false hp (by simp)).load hi), SysX.store, Comp.bind_apply,
    frameAt, Comp.readOr_apply, hm]
  rfl

/-- `vmm_set_flags` faults on a 4 MiB page: the directory's window is read-only. -/
theorem Windowed.vmmSetFlags_foreign (h : Windowed D L s s₁ W) (hK : K.Closed) (hv : v ∈ L)
    (hvc : v ≠ s.cr3) (hva : OffSlot va) (flags : Word) {ok' : Prop} (hok : ok' → ok)
    (hps : ok' → (s.mem v (va / 4194304)).pgsz = false) (hg : Guard ok s s₁ (n + 2))
    (hroom : Room s W 0 (walkWindows (s.mem v (va / 4194304)))) :
    Comp.Wp ok' (vmmSetFlags K (v * 4096) va flags) (fun _ t =>
      (s.mem v (va / 4194304)).pgsz = false ∧ Windowed D L (setFlagsAt s v va flags) t W ∧
      Guard ok (setFlagsAt s v va flags) t n) s₁ := by
  have hi := va_slot va
  have hj : va / 4096 % 1024 < 1024 := Nat.mod_lt _ (by decide)
  have hcur : v * 4096 ≠ s.vmmCurrent := fun e => hvc (by rw [Machine.cr3, ← e]; omega)
  have hD := h.logical.sub hv
  have hlt := (h.logical.dir v hD).2
  unfold vmmSetFlags setFlagsAt
  dsimp only
  refine h.foreign_walk hok windowFlags_read windowFlags_write hK hv hvc hva.lt hg hroom
    (fun h0 p t hd => ?_) (fun hs p t hd => ?_) fun he p r t hd => ?_
  · have hpte : pteAt s.mem v (va / 4096) = 0#32 :=
      pteAt_of_not_hasTable (by rw [hi, h0]; exact Word.not_hasTable_zero)
    rw [h0, hpte, if_neg (by decide), if_pos rfl]
    exact (hd.close windowFlags_read hK hcur).weaken hok fun _ u hu =>
      ⟨by decide, hu.1, hu.2.mono (Nat.le_succ n)⟩
  · refine .of_fault ?_ fun ho => by rw [hps ho] at hs; cases hs
    have hw : Function.update W p (windowPte flagPresent (v * 4096)) p =
        windowPte flagPresent (v * 4096) := Function.update_self ..
    rw [Comp.bind_apply, hd.windowed.update_readonly hva.lt (by rw [hw, windowPte_present]; rfl)
      (by rw [hw, windowPte_rw]; rfl)]
    rfl
  · have hpte := pteAt_of_hasTable (m := s.mem) (p := va / 4096) (show (s.mem v _).HasTable by rw [hi]; exact he)
    have hm := hd.windowed.mem_table hv hva.lt hva.2 (.inl hvc) he
    have ho := hd.windowed.outside_table hv hva.lt hva.2 (.inl hvc) he
    have hD' := hd.windowed.logical.notDir v hv _ hva.lt hva.2 he
    have hpt := hd.pageAt' windowFlags_write (Word.pt_lt _) true fun _ => rfl
    refine .step (hpt.load hj) ?_
    rw [hi] at hpte
    rw [hm, hpte, if_neg (by rw [he.2]; exact Bool.false_ne_true)]
    by_cases hz : s.mem (s.mem v (va / 4194304)).pt (va / 4096 % 1024) = 0#32
    · rw [if_pos hz, Comp.when_false (not_not.mpr hz)]
      exact (hd.close windowFlags_read windowFlags_write hK hcur).weaken hok fun _ u hu => ⟨he.2, hu⟩
    · rw [if_neg hz, Comp.when_true hz, Comp.bind_assoc]
      refine .step (hpt.update hj _) ?_
      rw [hm]
      have hd' := PtOpen.mk hd.pos hd.lt hd.user hd.zero hd.zero'
        (hd.windowed.setTable ho hD' (va / 4096 % 1024)
          ((s.mem (s.mem v (va / 4194304)).pt (va / 4096 % 1024)).setFlags flags))
        (hd.windowed.guard_set ho hd.guard _ _)
      have ho' : Outside (t.set (s.mem v (va / 4194304)).pt (va / 4096 % 1024)
          ((s.mem (s.mem v (va / 4194304)).pt (va / 4096 % 1024)).setFlags flags))
          (s.mem v (va / 4194304)).pt := by
        have hcf := ho.1.symm
        refine ⟨ho.1, fun k hk hx => ?_⟩
        rw [Machine.set_cr3, Machine.set_mem_of_ne _ _ _ _ hcf] at hx ⊢
        exact ho.2 k hk hx
      have hm' := hd'.windowed.frame _ ho'
      refine .step ((hd'.pageAt' windowFlags_write (Word.pt_lt _) true fun _ => rfl).update hva.lt _) ?_
      rw [hm']
      have hd'' := PtOpen.mk hd.pos hd.lt hd.user hd.zero hd.zero'
        (hd'.windowed.setTable ho' hD' (va / 4194304)
          (((s.set (s.mem v (va / 4194304)).pt (va / 4096 % 1024)
            ((s.mem (s.mem v (va / 4194304)).pt (va / 4096 % 1024)).setFlags flags)).mem
            (s.mem v (va / 4194304)).pt (va / 4194304)).setAvail flags))
        (hd'.windowed.guard_set ho' hd'.guard _ _)
      exact (hd''.close windowFlags_read windowFlags_write hK hcur).weaken hok fun _ u hu => ⟨he.2, hu⟩

end Ops

end SysX
