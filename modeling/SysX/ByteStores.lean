import SysX.Loader
import SysX.CowCopy

/-!
Bytes of physical memory, and what a run of byte writes through a page of the current VMM leaves in the frame behind it.
-/
namespace SysX
open BitField

/-- The byte `k` of a frame with the content `c`. -/
def frameByte (c : ℕ → Word) (k : ℕ) : UInt8 := (c (k / 4)).byte (k % 4)

theorem Word.byte_setByte (w : Word) {j k : ℕ} (hj : j < 4) (hk : k < 4) (b : UInt8) :
    (w.setByte k b).byte j = if j = k then b else w.byte j := by
  unfold Word.byte Word.setByte
  split_ifs with h
  · rw [h, getField_setField_self _ (by omega), Nat.mod_eq_of_lt b.toNat_lt, UInt8.ofNat_toNat]
  · rw [getField_congr fun i hlo hi => ?_]
    rw [getLsbD_setField _ (by omega), if_neg (by omega)]

theorem frameByte_update (c : ℕ → Word) (j k : ℕ) (b : UInt8) :
    frameByte (Function.update c (k / 4) ((c (k / 4)).setByte (k % 4) b)) j = if j = k then b else frameByte c j := by
  unfold frameByte
  by_cases hw : j / 4 = k / 4
  · rw [hw, Function.update_self, Word.byte_setByte _ (Nat.mod_lt _ (by decide)) (Nat.mod_lt _ (by decide))]
    exact if_congr (by omega) rfl rfl
  · rw [Function.update_of_ne hw, if_neg fun h => hw (by rw [h])]

theorem PageAt.storeByte {s : Machine} {a f k : ℕ} (h : PageAt s true a f) (hk : k < 4096) (b : UInt8) :
    storeByte (a + k) b s = some ((), s.set f (k / 4) ((s.mem f (k / 4)).setByte (k % 4) b)) := by
  obtain ⟨ha, hf⟩ := h
  have h1 : (a + k) / 4194304 = a / 4194304 := by omega
  have h2 : (a + k) / 4096 % 1024 = a / 4096 % 1024 := by omega
  have hoff : (a + k) % 4096 / 4 = k / 4 := by omega
  have hbyte : (a + k) % 4 = k % 4 := by omega
  have hmmu : mmu s.mem s.cr3 true (a + k) = some f := by
    rw [← hf]
    unfold mmu
    rw [h1, h2]
  have hread : SysX.frameAt false (a + k) s = some (f, s) := by
    rw [SysX.frameAt, Comp.readOr_apply, mmu_read_of_write hmmu]
    rfl
  have hwrite : SysX.frameAt true (a + k) s = some (f, s) := by
    rw [SysX.frameAt, Comp.readOr_apply, hmmu]
    rfl
  have hload : SysX.load (a + k) s = some (s.mem f (k / 4), s) := by
    rw [SysX.load, Comp.bind_of_eq hread, Comp.read_apply, hoff]
  rw [SysX.storeByte, SysX.update, Comp.bind_of_eq hload, SysX.store, Comp.bind_of_eq hwrite, Comp.modify_apply, hoff, hbyte]

section Stores

variable {ok : Prop} {D L : Set ℕ} {s : Machine} {n q f k len : ℕ}

/-- A run of bytes is written through a page that is mapped to a frame apart from the page tables. -/
theorem Settled.storeBytes (h : Settled ok D L n s) (hf : f ∈ D) (hL : f ∉ L) (hq : Regular q)
    (ha : accessAt s.mem s.cr3 q = some (f, true)) (hk : k + len ≤ 4096) (bytes : ℕ → UInt8) :
    ∃ c, storeBytes (q * 4096 + k) bytes len s = some ((), s.setFrame f c) ∧
      ∀ j, frameByte c j = if k ≤ j ∧ j < k + len then bytes (j - k) else frameByte (s.mem f) j := by
  have hpage : ∀ c, PageAt (s.setFrame f c) true (q * 4096) f := by
    intro c
    have hset := h.setFrame hf hL c
    have hne : s.cr3 ≠ f := fun he => hL (he ▸ h.cur)
    refine hset.tables.pageAt_access h.cur hq ?_ fun _ => rfl
    refine (accessAt_congr (view_setFrame hne.symm c fun ht => ?_)).trans ha
    exact h.tables.pt_ne h.cur hf (by have := hq.1; omega) hq.2 ht
  have hloop : Comp.Wp True (SysX.storeBytes (q * 4096 + k) bytes len) (fun _ t => ∃ c, t = s.setFrame f c ∧
      ∀ j, frameByte c j = if k ≤ j ∧ j < k + (0 + len) then bytes (j - k) else frameByte (s.mem f) j) s :=
    .forRange (J := fun i t => ∃ c, t = s.setFrame f c ∧
      ∀ j, frameByte c j = if k ≤ j ∧ j < k + i then bytes (j - k) else frameByte (s.mem f) j)
    (fun i _ hi t ⟨c, hc, hbytes⟩ => ?_) ⟨s.mem f, Machine.setFrame_eq_self.symm, fun j => (if_neg (by omega)).symm⟩
  · obtain ⟨_, t, hrun, c, rfl, hbytes⟩ := hloop.total trivial
    rw [Nat.zero_add] at hbytes
    exact ⟨c, hrun, hbytes⟩
  · have hlt := hq.1
    rw [w32_of_lt (by omega), Nat.add_assoc, hc]
    refine .of_eq ((hpage c).storeByte (by omega) (bytes i)) ⟨_, s.setFrame_set f _ _ c, fun j => ?_⟩
    rw [Machine.setFrame_mem_self, frameByte_update, hbytes]
    by_cases hj : j = k + i
    · rw [if_pos hj, if_pos (by omega), hj, Nat.add_sub_cancel_left]
    · rw [if_neg hj]
      exact if_congr (by omega) rfl rfl

end Stores

end SysX
