import SysX.ByteStores
import SysX.UserPages
import SysX.Lib.Image

/-!
The image that `elf_load_phdr` builds in a VMM: what has been loaded so far, and what the steps of the loader add to it.
-/
namespace SysX

/-- `v` maps the pages of the image `I` to frames of its own, `F q` behind the page `q`, and these hold its bytes. The rest of
memory is as it was in `s₀`, but for the page at `dst` through which segments are copied; there is none where `dst` is 0. -/
structure Loading (ok : Prop) (D₀ L : Set ℕ) (s₀ : Machine) (v : ℕ) (user : Bool) (D : Set ℕ) (F : ℕ → ℕ) (m dst : ℕ)
    (I : Image UInt8) (t : Machine) : Prop where
  dirs : L ⊆ D₀
  sub : D₀ ⊆ D
  settled : Settled ok D L m t
  reserved : used t 0
  elsewhere : Elsewhere D₀ L (fun w q => w = v ∧ q < userPages ∨ w = s₀.cr3 ∧ q * 4096 = dst ∧ dst ≠ 0) s₀ t
  room : v = t.cr3 ∨ Room t (fun _ => 0#32) 0 2
  copy : dst = 0 ∨ ∃ q f, dst = q * 4096 ∧ CopyPage t q f
  low : ∀ q w, I.perm q = some w → q < userPages
  page : ∀ q w, I.perm q = some w → view t.mem v q = some (F q, segmentFlags user w)
  small : ∀ q w, I.perm q = some w → (t.mem v (q / 1024)).pgsz = false
  frame : ∀ q w, I.perm q = some w → F q ∈ D ∧ F q ∉ D₀ ∧ F q ≠ 0
  inj : ∀ q q' w w', I.perm q = some w → I.perm q' = some w' → F q = F q' → q = q'
  free : ∀ q < userPages, I.perm q = none → view s₀.mem v q = none → view t.mem v q = none
  byte : ∀ a b, I.byte a = some b → (I.perm (a / 4096)).isSome ∧ frameByte (t.mem (F (a / 4096))) (a % 4096) = b

/-! The flags of a loaded page. -/

section Flags

variable (user w : Bool)

theorem segmentFlags_bits : (segmentFlags user w).getLsbD 0 = true ∧ (segmentFlags user w).getLsbD 1 = w ∧
    (segmentFlags user w).getLsbD 2 = user ∧ (segmentFlags user w).getLsbD 6 = false := by
  cases user <;> cases w <;> decide

theorem canonFlags_segmentFlags : (segmentFlags user w).canonFlags = segmentFlags user w := by
  cases user <;> cases w <;> decide

theorem segmentFlags_rw : segmentFlags user w ||| flagRw = segmentFlags user true := by
  cases user <;> cases w <;> decide

theorem plain_segmentFlags (f : ℕ) : Plain (some (f, segmentFlags user w)) := by
  rintro x hx
  obtain rfl : (f, segmentFlags user w) = x := Option.some.inj hx
  exact ⟨(segmentFlags_bits user w).1, (segmentFlags_bits user w).2.2.2⟩

end Flags

namespace Loading

variable {ok : Prop} {D₀ L D : Set ℕ} {s₀ t u : Machine} {v m m' n dst dst' q f pa : ℕ} {F : ℕ → ℕ} {user w : Bool}
  {I : Image UInt8} {K : Callees}

theorem cr3 (h : Loading ok D₀ L s₀ v user D F m dst I t) : t.cr3 = s₀.cr3 := h.elsewhere.cr3

theorem notDir (h : Loading ok D₀ L s₀ v user D F m dst I t) (hw : I.perm q = some w) : F q ∉ L :=
  fun hL => (h.frame q w hw).2.1 (h.dirs hL)

/-- A step that at most touches the copy page. -/
theorem quiet (h : Loading ok D₀ L s₀ v user D F m dst I t) (hv : v ∈ L) (hset : Settled ok D L m' u)
    (hin : Elsewhere D L (fun w q => w = t.cr3 ∧ 786432 ≤ q ∧ q * 4096 = dst') t u)
    (hdst : dst = 0 ∨ dst = dst') (hcopy : dst' = 0 ∨ ∃ q f, dst' = q * 4096 ∧ CopyPage u q f) :
    Loading ok D₀ L s₀ v user D F m' dst' I u := by
  have hview : ∀ q < userPages, view u.mem v q = view t.mem v q := fun q hq =>
    hin.page v hv q (Windowed.regular_of_user hq) (.inr hq) fun hC => absurd hC.2.1 (by unfold userPages at hq; omega)
  refine ⟨h.dirs, h.sub, hset, hin.used 0 h.reserved, ?_, ?_, hcopy, h.low, fun q w hw => ?_,
    fun q w hw => ?_, h.frame, h.inj, fun q hq hno hs => ?_, fun a b hb => ?_⟩
  · refine (h.elsewhere.mono ?_).trans ((hin.antitone h.sub).mono ?_)
    · rintro w q (hw | ⟨hw, hq, hne⟩)
      · exact .inl hw
      · rcases hdst with h0 | h0
        · exact absurd h0 hne
        · exact .inr ⟨hw, hq.trans h0, h0 ▸ hne⟩
    · rintro w q ⟨hw, hlow, hq⟩
      exact .inr ⟨hw.trans h.cr3, hq, by omega⟩
  · rw [hin.cr3]
    exact h.room.imp_right fun hroom => hin.room h.settled.cur (fun p hp hC => absurd hC.2.1 (by unfold userPages at hp; omega)) hroom
  · rw [hview q (h.low q w hw)]
    exact h.page q w hw
  · rw [hin.pgsz v hv _ (.inr (userPages_slot (h.low q w hw)))]
    exact h.small q w hw
  · rw [hview q hq]
    exact h.free q hq hno hs
  · obtain ⟨hsome, hbyte⟩ := h.byte a b hb
    obtain ⟨w, hw⟩ := Option.isSome_iff_exists.mp hsome
    rw [hin.content _ (h.frame _ w hw).1 (h.notDir hw)]
    exact ⟨hsome, hbyte⟩

/-- Windows that are closed again. -/
theorem closed (h : Loading ok D₀ L s₀ v user D F m dst I t) (hv : v ∈ L) (hw : Windowed D L t u fun _ => 0#32)
    (hset : Settled ok D L m' u) : Loading ok D₀ L s₀ v user D F m' dst I u := by
  have hin := hw.elsewhere (fun w q => w = t.cr3 ∧ 786432 ≤ q ∧ q * 4096 = dst)
  refine h.quiet hv hset hin (.inr rfl) ?_
  refine h.copy.imp_right fun ⟨q, f, hq, hpage⟩ => ⟨q, f, hq, ?_⟩
  exact hpage.elsewhere (hw.elsewhere fun _ _ => False) h.settled.cur id

/-- Another page has been mapped, to a frame that was free. -/
theorem mapped (h : Loading ok D₀ L s₀ v user D F m dst I t) (hv : v ∈ L) (hq : q < userPages) (hno : I.perm q = none)
    (hfree : view t.mem v q = none) (hf : ¬ used t f) (hset : Settled ok (insert f D) L m' u)
    (hin : Elsewhere (insert f D) L (fun w p => w = v ∧ p = q) t u)
    (hview : view u.mem v q = some (f, segmentFlags user w)) :
    Loading ok D₀ L s₀ v user (insert f D) (Function.update F q f) m' dst (I.mapPages w q 1) u := by
  have hperm : ∀ p w', (I.mapPages w q 1).perm p = some w' → p = q ∧ w' = w ∨ p ≠ q ∧ I.perm p = some w' := by
    intro p w' hp
    rw [Image.mapPages_one_perm] at hp
    split_ifs at hp with hpq
    · rw [hpq, hno] at hp
      exact .inl ⟨hpq, by simpa using hp.symm⟩
    · exact .inr ⟨hpq, hp⟩
  have hold : ∀ p w', I.perm p = some w' → F p ≠ f := fun p w' hp he =>
    hf (he ▸ (h.settled.tables.dir _ (h.frame p w' hp).1).1)
  have hfD : f ∉ D := fun hD => hf (h.settled.tables.dir f hD).1
  refine ⟨h.dirs, h.sub.trans (Set.subset_insert f D), hset, hin.used 0 h.reserved, ?_, ?_, ?_,
    fun p w' hp => ?_, fun p w' hp => ?_, fun p w' hp => ?_, fun p w' hp => ?_, fun p p' w' w'' hp hp' he => ?_,
    fun p hp hnone hs => ?_, fun a b hb => ?_⟩
  · refine h.elsewhere.trans ((hin.antitone (h.sub.trans (Set.subset_insert f D))).mono ?_)
    rintro w p ⟨hw, hp⟩
    exact .inl ⟨hw, hp ▸ hq⟩
  · rw [hin.cr3]
    by_cases hvc : v = t.cr3
    · exact .inl hvc
    · exact .inr (hin.room h.settled.cur (fun p _ hC => hvc hC.1.symm) (h.room.resolve_left hvc))
  · refine h.copy.imp_right fun ⟨q', f', hq', hpage⟩ => ⟨q', f', hq', hpage.elsewhere hin h.settled.cur fun hC => ?_⟩
    have := hpage.low
    unfold userPages at hq
    omega
  · rcases hperm p w' hp with ⟨rfl, -⟩ | ⟨-, hp'⟩
    · exact hq
    · exact h.low p w' hp'
  · rcases hperm p w' hp with ⟨rfl, rfl⟩ | ⟨hne, hp'⟩
    · rw [Function.update_self]
      exact hview
    · have hlow := h.low p w' hp'
      rw [Function.update_of_ne hne, hin.page v hv p (Windowed.regular_of_user hlow) (.inr hlow) fun hC => hne hC.2]
      exact h.page p w' hp'
  · have hslot : p / 1024 < 767 := by
      rcases hperm p w' hp with ⟨rfl, -⟩ | ⟨-, hp'⟩
      · exact userPages_slot hq
      · exact userPages_slot (h.low p w' hp')
    rw [hin.pgsz v hv _ (.inr hslot)]
    rcases hperm p w' hp with ⟨rfl, -⟩ | ⟨-, hp'⟩
    · exact (view_eq_none.mp hfree).1
    · exact h.small p w' hp'
  · rcases hperm p w' hp with ⟨rfl, -⟩ | ⟨hne, hp'⟩
    · rw [Function.update_self]
      exact ⟨.inl rfl, fun hD => hfD (h.sub hD), fun h0 => hf (h0 ▸ h.reserved)⟩
    · rw [Function.update_of_ne hne]
      obtain ⟨hD, hrest⟩ := h.frame p w' hp'
      exact ⟨.inr hD, hrest⟩
  · rcases hperm p w' hp with ⟨hpq, -⟩ | ⟨hne, hp₁⟩
    · rcases hperm p' w'' hp' with ⟨hpq', -⟩ | ⟨hne', hp₂⟩
      · exact hpq.trans hpq'.symm
      · rw [hpq, Function.update_self, Function.update_of_ne hne'] at he
        exact absurd he.symm (hold p' w'' hp₂)
    · rw [Function.update_of_ne hne] at he
      rcases hperm p' w'' hp' with ⟨hpq', -⟩ | ⟨hne', hp₂⟩
      · rw [hpq', Function.update_self] at he
        exact absurd he (hold p w' hp₁)
      · rw [Function.update_of_ne hne'] at he
        exact h.inj p p' w' w'' hp₁ hp₂ he
  · rw [Image.mapPages_one_perm] at hnone
    split_ifs at hnone with hpq
    rw [hin.page v hv p (Windowed.regular_of_user hp) (.inr hp) fun hC => hpq hC.2]
    exact h.free p hp hnone hs
  · obtain ⟨hsome, hbyte⟩ := h.byte a b hb
    obtain ⟨w', hw'⟩ := Option.isSome_iff_exists.mp hsome
    have hne : a / 4096 ≠ q := by
      intro he
      rw [he, hno] at hw'
      cases hw'
    rw [Function.update_of_ne hne, hin.content _ (.inr (h.frame _ w' hw').1) (h.notDir hw'), Image.mapPages_one_perm, if_neg hne]
    exact ⟨hsome, hbyte⟩

/-- A page of the image has got write permission. -/
theorem granted (h : Loading ok D₀ L s₀ v user D F m dst I t) (hv : v ∈ L) (hq : I.perm q = some false)
    (hset : Settled ok D L m' u) (hin : Elsewhere D L (Regranted t v q) t u)
    (hview : view u.mem v q = some (F q, segmentFlags user true)) :
    Loading ok D₀ L s₀ v user D F m' dst (I.mapPages true q 1) u := by
  have hperm : ∀ p w', (I.mapPages true q 1).perm p = some w' →
      (p = q ∧ w' = true ∧ I.perm p = some false) ∨ p ≠ q ∧ I.perm p = some w' := by
    intro p w' hp
    rw [Image.mapPages_one_perm] at hp
    split_ifs at hp with hpq
    · rw [hpq, hq] at hp
      exact .inl ⟨hpq, by simpa using hp.symm, hpq ▸ hq⟩
    · exact .inr ⟨hpq, hp⟩
  have hsome : ∀ p w', (I.mapPages true q 1).perm p = some w' → ∃ w, I.perm p = some w := by
    intro p w' hp
    rcases hperm p w' hp with ⟨-, -, hp'⟩ | ⟨-, hp'⟩
    · exact ⟨_, hp'⟩
    · exact ⟨_, hp'⟩
  have hlow := h.low q false hq
  have hclear : ∀ p, p ≠ q → (∃ w, I.perm p = some w) → ¬ Regranted t v q v p := by
    rintro p hne ⟨w', hp⟩ ⟨-, hpq | ⟨-, hplain⟩⟩
    · exact hne hpq
    · rw [h.page p w' hp] at hplain
      exact hplain (plain_segmentFlags user w' _)
  refine ⟨h.dirs, h.sub, hset, hin.used 0 h.reserved, ?_, ?_, ?_, fun p w' hp => ?_, fun p w' hp => ?_,
    fun p w' hp => ?_, fun p w' hp => ?_, fun p p' w' w'' hp hp' he => ?_, fun p hp hnone hs => ?_, fun a b hb => ?_⟩
  · refine h.elsewhere.trans ((hin.antitone h.sub).mono fun x p hC => ?_)
    obtain ⟨hx, hslot⟩ := hC.slot
    have := userPages_slot hlow
    refine .inl ⟨hx, ?_⟩
    unfold userPages
    omega
  · rw [hin.cr3]
    by_cases hvc : v = t.cr3
    · exact .inl hvc
    · exact .inr (hin.room h.settled.cur (fun p _ hC => hvc hC.1.symm) (h.room.resolve_left hvc))
  · refine h.copy.imp_right fun ⟨q', f', hq', hpage⟩ => ⟨q', f', hq', hpage.elsewhere hin h.settled.cur fun hC => ?_⟩
    have hslot := hC.slot.2
    have := hpage.low
    have := userPages_slot hlow
    omega
  · obtain ⟨w, hw⟩ := hsome p w' hp
    exact h.low p w hw
  · rcases hperm p w' hp with ⟨rfl, rfl, -⟩ | ⟨hne, hp'⟩
    · exact hview
    · have hlow := h.low p w' hp'
      rw [hin.page v hv p (Windowed.regular_of_user hlow) (.inr hlow) (hclear p hne ⟨w', hp'⟩)]
      exact h.page p w' hp'
  · obtain ⟨w, hw⟩ := hsome p w' hp
    rw [hin.pgsz v hv _ (.inr (userPages_slot (h.low p w hw)))]
    exact h.small p w hw
  · obtain ⟨w, hw⟩ := hsome p w' hp
    exact h.frame p w hw
  · obtain ⟨w, hw⟩ := hsome p w' hp
    obtain ⟨x, hx⟩ := hsome p' w'' hp'
    exact h.inj p p' w x hw hx he
  · rw [Image.mapPages_one_perm] at hnone
    split_ifs at hnone with hpq
    have hold := h.free p hp hnone hs
    rw [hin.page v hv p (Windowed.regular_of_user hp) (.inr hp), hold]
    rintro ⟨-, hpq' | ⟨-, hplain⟩⟩
    · exact hpq hpq'
    · rw [hold] at hplain
      exact hplain fun x hx => absurd hx (Option.not_mem_none x)
  · obtain ⟨hsome, hbyte⟩ := h.byte a b hb
    obtain ⟨w', hw'⟩ := Option.isSome_iff_exists.mp hsome
    rw [hin.content _ (h.frame _ w' hw').1 (h.notDir hw')]
    refine ⟨?_, hbyte⟩
    rw [Image.mapPages_one_perm]
    split_ifs
    · rfl
    · exact hsome

/-- Bytes have been written to a page of the image. -/
theorem filled {lo hi : ℕ} {g : ℕ → UInt8} {c : ℕ → Word} (h : Loading ok D₀ L s₀ v user D F m dst I t) (hv : v ∈ L)
    (hq : I.perm q = some w) (hlo : q * 4096 ≤ lo) (hhi : hi ≤ (q + 1) * 4096)
    (hc : ∀ j < 4096, frameByte c j = if lo ≤ q * 4096 + j ∧ q * 4096 + j < hi then g (q * 4096 + j)
      else frameByte (t.mem (F q)) j) :
    Loading ok D₀ L s₀ v user D F m dst (I.fill lo hi g) (t.setFrame (F q) c) := by
  obtain ⟨hfD, hfD₀, -⟩ := h.frame q w hq
  have hL := h.notDir hq
  have hin := h.settled.elsewhere_setFrame hfD hL c fun _ _ => False
  have hkept : ∀ f, f ≠ F q → (t.setFrame (F q) c).mem f = t.mem f := fun f hf => t.setFrame_mem_of_ne _ hf
  refine ⟨h.dirs, h.sub, h.settled.setFrame hfD hL c, h.reserved, ?_, ?_, ?_, h.low, fun p w' hp => ?_,
    fun p w' hp => ?_, h.frame, h.inj, fun p hp hno hs => ?_, fun a b hb => ?_⟩
  · refine h.elsewhere.trans ((hin.antitone fun f hf => ⟨h.sub hf, ?_⟩).mono fun _ _ => False.elim)
    rintro rfl
    exact hfD₀ hf
  · exact h.room.imp_right fun hroom => hin.room h.settled.cur (fun _ _ => id) hroom
  · exact h.copy.imp_right fun ⟨q', f', hq', hpage⟩ => ⟨q', f', hq', hpage.elsewhere hin h.settled.cur id⟩
  · have hlow := h.low p w' hp
    rw [hin.page v hv p (Windowed.regular_of_user hlow) (.inr hlow) id]
    exact h.page p w' hp
  · rw [hin.pgsz v hv _ (.inr (userPages_slot (h.low p w' hp)))]
    exact h.small p w' hp
  · rw [hin.page v hv p (Windowed.regular_of_user hp) (.inr hp) id]
    exact h.free p hp hno hs
  · have ha : a % 4096 < 4096 := Nat.mod_lt _ (by decide)
    have haq : a / 4096 = q → q * 4096 + a % 4096 = a := fun he => by omega
    by_cases hin' : lo ≤ a ∧ a < hi
    · have hpage : a / 4096 = q := by omega
      have hb' : g a = b := Option.some.inj ((if_pos hin').symm.trans hb)
      refine ⟨?_, ?_⟩
      · show (I.perm (a / 4096)).isSome = true
        rw [hpage, hq]
        rfl
      · rw [hpage, Machine.setFrame_mem_self, hc _ ha, haq hpage, if_pos hin', hb']
    · obtain ⟨hsome, hbyte⟩ := h.byte a b ((if_neg hin').symm.trans hb)
      refine ⟨hsome, ?_⟩
      by_cases hpage : a / 4096 = q
      · rw [hpage] at hbyte
        rw [hpage, Machine.setFrame_mem_self, hc _ ha, haq hpage, if_neg hin', hbyte]
      · obtain ⟨w', hw'⟩ := Option.isSome_iff_exists.mp hsome
        rw [hkept _ fun he => hpage (h.inj _ _ _ _ hw' hq he), hbyte]

end Loading

end SysX
