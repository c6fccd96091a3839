import SysX.PrivateCopy

/-!
The pages that trap pairs stand for, and what asking for their size and giving write permission to them does to the
others. Each write permission may cost one free page: the traps of a 4 KiB page are noted in another entry of its table.
-/
namespace SysX

/-- A user page of a live VMM, of 4 KiB or 4 MiB, on the frames from `f` on, which copy-on-write has made read-only. -/
structure ProtectedPage (L : Set ℕ) (s : Machine) (w va f : ℕ) : Prop where
  vmm : w ∈ L
  user : va < kernelStart
  aligned : va % 4096 = 0
  huge : (s.mem w (va / 4194304)).pgsz = true → va % 4194304 = 0
  access : accessAt s.mem w (va / 4096) = some (f, false)

/-- `vmm_set_flags` can write to the entry of a page: its window on the directory of another VMM is read-only. -/
def FlagsWritable (s : Machine) (w va : ℕ) : Prop := w = s.cr3 ∨ (s.mem w (va / 4194304)).pgsz = false

section Pages

variable {D L : Set ℕ} {s t : Machine} {v w x va src f p n : ℕ} {r : Bool} {flags : Word} {K : Callees}

/-- Two aligned pages overlap only when they are the same. -/
theorem eq_of_inPage (hva : va % 4096 = 0) (hsrc : src % 4096 = 0)
    (hv : (s.mem v (va / 4194304)).pgsz = true → va % 4194304 = 0)
    (hw : (s.mem w (src / 4194304)).pgsz = true → src % 4194304 = 0) (h : InPage s v (va / 4096) w (src / 4096)) :
    w = v ∧ src = va := by
  obtain ⟨rfl, hp | ⟨hs, hp⟩⟩ := h
  · exact ⟨rfl, by omega⟩
  · have hsame : src / 4194304 = va / 4194304 := by omega
    rw [va_slot] at hs
    have hva' := hv hs
    have hsrc' := hw (by rw [hsame]; exact hs)
    exact ⟨rfl, by omega⟩

theorem Room.closed (h : Room s (fun _ => 0#32) 0 n) (hw : Windowed D L s t fun _ => 0#32) :
    Room t (fun _ => 0#32) 0 n := by
  refine h.congr fun p hp => ?_
  have hrest : SameRest s t := hw.rest
  rw [hrest.cr3_eq]
  exact hw.views_closed hw.cur (Windowed.regular_of_user hp)

/-- All but one of the free pages are still free. -/
theorem Room.without (h : Room s (fun _ => 0#32) 0 (n + 1)) (hc : t.cr3 = s.cr3) (q : ℕ)
    (hv : ∀ p < userPages, p ≠ q → view s.mem s.cr3 p = none → view t.mem s.cr3 p = none) : Room t (fun _ => 0#32) 0 n := by
  obtain ⟨ps, hlen, hsort, hps⟩ := h
  have hroom : Room t (fun _ => 0#32) 0 (ps.erase q).length := by
    refine ⟨ps.erase q, rfl, hsort.sublist List.erase_sublist, fun p hp => ?_⟩
    have hnd : ps.Nodup := hsort.imp Nat.ne_of_lt
    obtain ⟨hpq, hmem⟩ := hnd.mem_erase_iff.mp hp
    obtain ⟨hle, h1, hu, hz, hfree⟩ := hps p hmem
    exact ⟨hle, h1, hu, hz, by rw [hc]; exact hv p hu hpq hfree⟩
  refine hroom.mono ?_
  have : ps.length - 1 ≤ (ps.erase q).length := List.le_length_erase
  omega

/-- Free pages stay free when flags are set, but for the one whose entry gets the trap bits. -/
theorem Tables.free_setFlagsAt (h : Tables D L s) (hv : v ∈ L) (hc : s.cr3 ∈ L) (hva : va < kernelStart)
    (ha : accessAt s.mem v (va / 4096) = some (f, r)) (hp : p < userPages)
    (hpq : p ≠ va / 4194304 * 1024 + va / 4194304) (hfree : view s.mem s.cr3 p = none) :
    view (SysX.setFlagsAt s v va flags).mem s.cr3 p = none := by
  have hslot := va_slot va
  have hi := slot_of_lt hva
  have hoff := offSlot_of_lt hva
  have hreg := Windowed.regular_of_user hp
  have hpi : p / 1024 < 1024 := by have := hreg.1; omega
  cases hs : (s.mem v (va / 4194304)).pgsz with
  | true =>
    have hset : SysX.setFlagsAt s v va flags =
        s.set v (va / 4194304) (((s.mem v (va / 4194304)).setFlags flags).setAvail flags) := by
      unfold SysX.setFlagsAt
      simp only [hs, if_true]
    have hne : ¬ (s.cr3 = v ∧ p / 1024 = va / 4194304) := by
      rintro ⟨hcv, hpv⟩
      have hno := (view_eq_none.mp hfree).1
      rw [hcv, hpv, hs] at hno
      cases hno
    have hdir : (SysX.setFlagsAt s v va flags).mem s.cr3 (p / 1024) = s.mem s.cr3 (p / 1024) := by
      rw [hset, Machine.set_mem, if_neg hne]
    refine (view_congr hdir fun htp => ?_).trans hfree
    rw [hdir] at htp ⊢
    rw [hset, s.set_mem_of_ne _ _ _ (h.pt_ne hc (h.sub hv) hpi hreg.2 htp)]
  | false =>
    obtain ⟨ht, hpres, -, -⟩ := accessAt_table ha (by rw [hslot]; exact hs)
    rw [hslot] at ht
    have hz := Word.ne_zero_of_present hpres
    rw [pteAt_of_hasTable (by rw [hslot]; exact ht), hslot] at hz
    obtain ⟨hmemv, htable, hother⟩ := @Tables.setFlagsAt_small D L s v va flags h hv hoff ht hz
    have hnot := h.notDir v hv _ hoff.lt hoff.2 ht
    have hdir : (SysX.setFlagsAt s v va flags).mem s.cr3 = s.mem s.cr3 := hother _ fun he => hnot (he ▸ h.sub hc)
    refine (view_congr (congrFun hdir _) fun htp => ?_).trans hfree
    rw [hdir] at htp ⊢
    by_cases hpt : (s.mem s.cr3 (p / 1024)).pt = (s.mem v (va / 4194304)).pt
    · obtain ⟨hsame, hor⟩ := h.sep _ hc v hv _ hpi _ hoff.lt hreg.2 hoff.2 htp ht hpt
      obtain rfl : s.cr3 = v := hor.resolve_right (by omega)
      have hpv : p % 1024 ≠ va / 4096 % 1024 := by
        intro hmod
        have hpage : p = va / 4096 := by omega
        rw [hpage] at hfree
        obtain ⟨flags', hview, -⟩ := view_of_access ha
        rw [hview] at hfree
        cases hfree
      have hpd : p % 1024 ≠ va / 4194304 := by omega
      rw [hpt, htable]
      dsimp only
      rw [if_neg hpv, if_neg hpd]
    · rw [hother _ hpt]

/-- `vmm_set_flags`, which faults on a 4 MiB page of another VMM. -/
theorem Settled.grant (h : Settled True D L (n + 2) s) (hK : K.Closed) (hroom : Room s (fun _ => 0#32) 0 (x + 2))
    (hv : v ∈ L) (hva : va < kernelStart) (ha : accessAt s.mem v (va / 4096) = some (f, r)) (flags : Word)
    (hp : flags.getLsbD 0 = true) :
    Comp.Wp (FlagsWritable s v va) (vmmSetFlags K (v * 4096) va flags) (fun _ t => FlagsWritable s v va ∧
      Settled True D L n t ∧ SameRest s t ∧ Within D L (InPage s v (va / 4096)) s t ∧ Room t (fun _ => 0#32) 0 (x + 1) ∧
      accessAt t.mem v (va / 4096) = some (f, flags.getLsbD 1)) s := by
  have hwindows : walkWindows (s.mem v (va / 4194304)) ≤ x + 2 := by
    unfold walkWindows
    split_ifs <;> omega
  have hreach : Reach s v va := .inr (hroom.mono hwindows)
  by_cases hw : FlagsWritable s v va
  · refine ((h.setFlags hK hv hva (fun _ hvc => hw.resolve_left hvc) (fun hno => absurd trivial hno) flags).and
      (h.grantPage hK hv hva (fun _ hvc => hw.resolve_left hvc) (fun hno => absurd trivial hno) flags)).weaken
      (fun _ => trivial) fun _ t => ?_
    rintro ⟨⟨σ, hσ, -, hwin, -⟩, hset, hrest, hin, -, hnew⟩
    rw [hσ hreach] at hwin
    refine ⟨hw, hset, hrest, hin, ?_, hnew hreach hp f r ha⟩
    have hfree : Room (setFlagsAt s v va flags) (fun _ => 0#32) 0 (x + 1) := hroom.without setFlagsAt_rest.cr3_eq _
      fun p hp hpq hfree => h.tables.free_setFlagsAt hv h.cur hva ha hp hpq hfree
    exact hfree.closed hwin
  · have hvc : v ≠ s.cr3 := fun he => hw (.inl he)
    have hnever : Comp.Wp False (vmmSetFlags K (v * 4096) va flags) (fun _ _ => (s.mem v (va / 4194304)).pgsz = false) s :=
      (h.refl.vmmSetFlags_foreign hK hv hvc (offSlot_of_lt hva) flags False.elim False.elim h.guard
        (hroom.mono hwindows)).mono fun _ _ ht => ht.1
    exact hnever.weaken hw fun _ _ hs => absurd (.inr hs) hw

theorem FlagsWritable.iff_within {C : ℕ → ℕ → Prop} (h : Within D L C s t) (hv : v ∈ L) (hva : va < kernelStart) :
    FlagsWritable t v va ↔ FlagsWritable s v va := by
  unfold FlagsWritable
  rw [h.cr3, h.pgsz v hv _ (.inr (slot_of_lt hva))]

/-- A page gets write permission. -/
theorem Settled.grantRw (h : Settled True D L (n + 4) s) (hK : K.Closed) (hroom : Room s (fun _ => 0#32) 0 (x + 2))
    (hv : v ∈ L) (hva : va < kernelStart) (ha : accessAt s.mem v (va / 4096) = some (f, r)) :
    Comp.Wp (FlagsWritable s v va) (do
        let flags ← vmmGetFlags K (v * 4096) va
        vmmSetFlags K (v * 4096) va (flags ||| flagRw)) (fun _ t => FlagsWritable s v va ∧ Settled True D L n t ∧
      SameRest s t ∧ Within D L (InPage s v (va / 4096)) s t ∧ Room t (fun _ => 0#32) 0 (x + 1) ∧
      accessAt t.mem v (va / 4096) = some (f, true)) s := by
  have hwindows : walkWindows (s.mem v (va / 4194304)) ≤ x + 2 := by
    unfold walkWindows
    split_ifs <;> omega
  have hoff := offSlot_of_lt hva
  refine .bind ((h.getFlags hK hv hoff).weaken (fun _ => trivial) fun _ _ => id) fun flags t₁ ⟨hflags, hwin, hset⟩ => ?_
  have hflags := hflags (.inr (hroom.mono hwindows))
  have hin₁ : ∀ C, Within D L C s t₁ := hwin.within_closed
  have hw := FlagsWritable.iff_within (hin₁ fun _ _ => False) hv hva
  have ha₁ : accessAt t₁.mem v (va / 4096) = some (f, r) := (accessAt_congr (hwin.views_closed hv hoff.page)).trans ha
  obtain ⟨fl, hview, hpres, -⟩ := view_of_access ha
  have hbits : flags = fl := by
    rw [hflags, flagsAt, hview]
  refine (hset.grant hK (hroom.closed hwin) hv hva ha₁ (flags ||| flagRw) ?_).weaken hw.mpr ?_
  · rw [hbits, BitVec.getLsbD_or, hpres, Bool.true_or]
  · rintro _ t ⟨hwt, hsett, hrest, hin, hfree, hnew⟩
    have hrest₁ : SameRest s t₁ := hwin.rest
    refine ⟨hw.mp hwt, hsett, hrest₁.trans hrest, (hin₁ _).trans (hin.mono fun w p hp => ?_), hfree, ?_⟩
    · exact hp.next (hin₁ fun _ _ => False) hv (user_page hva)
    · rw [hnew, BitVec.getLsbD_or, show flagRw.getLsbD 1 = true from rfl, Bool.or_true]

/-- `vmm_get_pgsz`, which may leave a window open. -/
theorem Settled.size (h : Settled True D L (n + 2) s) (hK : K.Closed) (hroom : Room s (fun _ => 0#32) 0 (x + 2))
    (hv : v ∈ L) (hva : va < kernelStart) :
    Comp.Wp True (vmmGetPgsz K (v * 4096) va) (fun r t => r = pgszAt s.mem v (va / 4096) ∧ Settled True D L n t ∧
      Room t (fun _ => 0#32) 0 (x + 1) ∧
      ∀ w ∈ L, ∀ p < userPages, ∀ a, accessAt s.mem w p = some a → accessAt t.mem w p = some a) s := by
  have hwindows : walkWindows (s.mem v (va / 4194304)) ≤ x + 2 := by
    unfold walkWindows
    split_ifs <;> omega
  have hoff := offSlot_of_lt hva
  by_cases hvc : v = s.cr3
  · rw [h.own hvc]
    refine .of_eq (vmmGetPgsz_cur h.tables h.cur hoff) ⟨by rw [hvc], h.le (by omega), hroom.mono (by omega), ?_⟩
    exact fun _ _ _ _ _ ha => ha
  · refine (h.refl.vmmGetPgsz_foreign hK hv hvc hoff h.guard (hroom.mono hwindows)).mono ?_
    rintro r t ⟨hr, hw, hg⟩
    obtain ⟨p, W, hW, hw⟩ : ∃ p W, (∀ q, q ≠ p → W q = 0#32) ∧ Windowed D L s t W := by
      split_ifs at hw
      · obtain ⟨p, -, hw⟩ := hw
        exact ⟨p, _, fun q hq => Function.update_of_ne hq _ _, hw⟩
      · exact ⟨0, _, fun _ _ => rfl, hw⟩
    have hrest : SameRest s t := hw.rest
    refine ⟨hr, h.windowed (.refl s) hw hg, ?_, fun w hwL q hq a ha => ?_⟩
    · refine hroom.without hrest.cr3_eq p fun q hq hqp hfree => ?_
      exact (hw.view_cur (Windowed.regular_of_user hq) (hW q hqp)).trans hfree
    · refine (hw.within.access w hwL q (Windowed.regular_of_user hq) (.inr hq) ?_).trans ha
      rintro ⟨rfl, hz⟩
      obtain ⟨flags, hview, -⟩ := view_of_access (f := a.1) (r := a.2) ha
      rw [(hw.clear q hz).2.2] at hview
      cases hview

end Pages

end SysX
