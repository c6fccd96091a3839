import SysX.DirtyBits
import SysX.Framebuffer
import SysX.Lib.Flush
import SysX.Lib.Moves

/-!
The commit of the backbuffer (`fbuf_commit` in `hal/fbuf.c`). The pages under the backbuffer are those of the
page tables, and its bytes are counted from its first one. `kassert` is empty, as it is without `DEBUG`.
-/
namespace SysX

/-- The rest of `fbuf_t` that a commit uses: the address of the backbuffer, and the accelerated flip, which is
`none` for `NULL`. -/
structure CommitFbuf extends Fbuf where
  backbufferPtr : ℕ
  tickFlip : ℕ
  flipAll : Bool
  flip : Option (Fbuf → Fbuf)

/-- The machine, the framebuffer behind `fbuf_impl`, and whether interrupts are enabled. -/
structure CommitState where
  machine : Machine
  impl : CommitFbuf
  intr : Bool

abbrev Commit := Comp CommitState

def vmmCall {α : Type} (c : Kernel α) : Commit α := fun s =>
  (c s.machine).map fun r => (r.1, { s with machine := r.2 })

/-- `memcpy` from the address `src` in the backbuffer to the offset `dst` of the framebuffer. -/
def fbufMemcpy (dst src n : ℕ) : Commit Unit := fun s =>
  (copyFrom (fun a => s.impl.backbuffer.map fun back => back a) dst (src - s.impl.backbufferPtr) n
    s.impl.framebuffer).map fun m => ((), { s with impl.framebuffer := m })

/-- The size of the page at `va`. Where `vmm_get_pgsz` fails, its index of `(size_t)-1` has the size 0. -/
def commitPgsz (K : Callees) (va : ℕ) : Commit ℕ := do
  let vmmKernel ← Comp.read fun s => s.machine.vmmKernel
  let idx ← vmmCall (vmmGetPgsz K vmmKernel va)
  pure (vmmPgsz (idx.getD sizeMax))

/-- The loop after all of the backbuffer was copied. -/
def commitAllLoop (K : Callees) (fbSize : ℕ) : (fuel off backbufPtr : ℕ) → Commit Unit
  | 0, _, _ => Comp.fault
  | fuel + 1, off, backbufPtr =>
    if off < fbSize then do
      let vmmKernel ← Comp.read fun s => s.machine.vmmKernel
      vmmCall (vmmSetDirty K vmmKernel backbufPtr false)
      let pgsz ← commitPgsz K backbufPtr
      commitAllLoop K fbSize fuel (w32 (off + pgsz)) (w32 (backbufPtr + pgsz))
    else pure ()

/-- The loop over the pages that may be dirty. A clean page leaves `pgsz` as it was. -/
def commitDirtyLoop (K : Callees) (fbSize : ℕ) : (fuel off backbufPtr pgsz : ℕ) → Commit Unit
  | 0, _, _, _ => Comp.fault
  | fuel + 1, off, backbufPtr, pgsz =>
    if off < fbSize then do
      let vmmKernel ← Comp.read fun s => s.machine.vmmKernel
      let dirty ← vmmCall (vmmGetDirty K vmmKernel backbufPtr)
      if dirty then do
        fbufMemcpy off backbufPtr (if fbSize - off < pgsz then fbSize - off else pgsz)
        vmmCall (vmmSetDirty K vmmKernel backbufPtr false)
        let pgsz ← commitPgsz K backbufPtr
        commitDirtyLoop K fbSize fuel (w32 (off + pgsz)) (w32 (backbufPtr + pgsz)) pgsz
      else commitDirtyLoop K fbSize fuel (w32 (off + pgsz)) (w32 (backbufPtr + pgsz)) pgsz
    else pure ()

/-- The copy without an accelerated flip. -/
def commitFlip (K : Callees) (fuel : ℕ) : Commit Unit := do
  let impl ← Comp.read CommitState.impl
  let fbSize := w32 (impl.pitch * impl.height)
  if impl.flipAll then do
    fbufMemcpy 0 impl.backbufferPtr fbSize
    commitAllLoop K fbSize fuel 0 impl.backbufferPtr
    Comp.modify fun s => { s with impl.flipAll := false }
  else commitDirtyLoop K fbSize fuel 0 impl.backbufferPtr 0

/-- `fbuf_commit`, with at most `fuel` passes of its loop. -/
def fbufCommit (K : Callees) (fuel : ℕ) : Commit Unit := do
  let impl ← Comp.read CommitState.impl
  if impl.dbufDirectWrite ∨ impl.backbuffer = none then pure ()
  else do
    let intr ← Comp.read CommitState.intr
    Comp.modify fun s => { s with intr := false }
    match impl.flip with
    | some flip => Comp.modify fun s => { s with impl.toFbuf := flip s.impl.toFbuf }
    | none => commitFlip K fuel
    Comp.when intr (Comp.modify fun s => { s with intr := true })
    Comp.modify fun s => { s with impl.tickFlip := s.machine.timerTick }

/-! The steps of the loops. -/

/-- The state with another machine and other contents of the framebuffer. -/
def CommitState.put (s : CommitState) (m : Machine) (front : FbufBytes) : CommitState :=
  { s with machine := m, impl.framebuffer := front }

section Steps

variable {α : Type} {K : Callees} {s : CommitState} {m m' : Machine} {front back : FbufBytes}

theorem vmmKernel_put : (Comp.read fun s => s.machine.vmmKernel : Commit ℕ) (s.put m front) =
    some (m.vmmKernel, s.put m front) := rfl

theorem vmmCall_put {c : Kernel α} {a : α} (h : c m = some (a, m')) :
    vmmCall c (s.put m front) = some (a, s.put m' front) := by
  have hm : c (s.put m front).machine = some (a, m') := h
  rw [vmmCall, hm]
  rfl

theorem fbufMemcpy_put (hback : s.impl.backbuffer = some back) (dst src n : ℕ) :
    fbufMemcpy dst src n (s.put m front) = some ((), s.put m fun a =>
      if dst ≤ a ∧ a < dst + n then back (src - s.impl.backbufferPtr + (a - dst)) else front a) := by
  have hbytes : (fun a => (s.put m front).impl.backbuffer.map fun back => back a) = fun a => some (back a) := by
    funext a
    have hback' : (s.put m front).impl.backbuffer = some back := hback
    rw [hback', Option.map_some]
  rw [fbufMemcpy, hbytes, copyFrom_some]
  rfl

theorem commitPgsz_put {va : ℕ} {idx : Option ℕ} (h : vmmGetPgsz K m.vmmKernel va m = some (idx, m')) :
    commitPgsz K va (s.put m front) = some (vmmPgsz (idx.getD sizeMax), s.put m' front) := by
  rw [commitPgsz, Comp.bind_of_eq vmmKernel_put, Comp.bind_of_eq (vmmCall_put h)]
  rfl

end Steps

/-! The pages under the backbuffer, when the kernel's VMM is the current one. -/

/-- The backbuffer in pages of 4 KiB and 4 MiB. -/
def commitLayout (big : ℕ → Bool) (first size : ℕ) : Flush.Layout where
  cell := 4096
  slot := 1024
  big := big
  first := first
  size := size
  cell_pos := by decide
  slot_gt := by decide

section Tracking

variable {D L : Set ℕ} {K : Callees} {v first size q z fuel : ℕ} {big : ℕ → Bool} {m : Machine} {d : ℕ → Bool}

/-- The backbuffer lies outside the recursive slot. -/
def RegularPages (big : ℕ → Bool) (first size : ℕ) : Prop :=
  ∀ p, first ≤ p → (commitLayout big first size).InRange p → Regular p

/-- The kernel's VMM `v` is the current one. It has the pages of the layout, with the dirty bits `d`. -/
structure Tracks (D L : Set ℕ) (v : ℕ) (big : ℕ → Bool) (first size : ℕ) (m : Machine) (d : ℕ → Bool) :
    Prop where
  tables : Tables D L m
  mem : v ∈ L
  current : m.vmmCurrent = v * 4096
  kernel : m.vmmKernel = v * 4096
  sizes : ∀ i, (m.mem v i).pgsz = big i
  present : ∀ p, first ≤ p → (commitLayout big first size).InRange p → presentAt m.mem v p = true
  dirty : ∀ p, Regular p → dirtyAt m.mem v p = d p

/-- The offsets of the loops do not wrap. -/
theorem RegularPages.no_wrap (h : RegularPages big first size) (hq : first ≤ q)
    (hrange : (commitLayout big first size).InRange q) (hz : z ≤ 1024) :
    (q - first) * 4096 + z * 4096 < 4294967296 := by
  obtain ⟨hlt, hslot⟩ := h q hq hrange
  by_cases hlow : q < 785408
  · omega
  · have hfirst : 785408 < first := by
      by_contra hle
      have hmiddle := (h 785408 (Nat.le_of_not_lt hle) (hrange.mono (Nat.le_of_not_lt hlow))).2
      exact hmiddle (by decide)
    omega

theorem setDirtyAt_rest (s : Machine) (v va : ℕ) (b : Bool) :
    setDirtyAt s v va b = { s with mem := (setDirtyAt s v va b).mem } := by
  unfold setDirtyAt
  dsimp only
  split_ifs <;> rfl

theorem commitLayout_len_le : (commitLayout big first size).len q ≤ 1024 := by
  rcases Flush.Layout.len_cases (L := commitLayout big first size) (q := q) with ⟨-, hlen⟩ | ⟨-, hlen⟩
  · exact Nat.le_of_eq hlen
  · rw [hlen]
    decide

namespace Tracks

theorem cr3 (h : Tracks D L v big first size m d) : m.cr3 = v := by
  rw [Machine.cr3, h.current, Nat.mul_div_cancel v (by decide)]

theorem getDirty (h : Tracks D L v big first size m d) (hq : Regular q) :
    vmmGetDirty K m.vmmKernel (q * 4096) m = some (d q, m) := by
  have hmem := h.mem
  rw [← h.cr3] at hmem
  rw [h.kernel, ← h.current, vmmGetDirty_cur h.tables hmem hq.offSlot, h.cr3, page_div, h.dirty q hq]

theorem setDirty (h : Tracks D L v big first size m d) (hq : Regular q) :
    vmmSetDirty K m.vmmKernel (q * 4096) false m = some ((), setDirtyAt m v (q * 4096) false) := by
  have hmem := h.mem
  rw [← h.cr3] at hmem
  rw [h.kernel, ← h.current, vmmSetDirty_cur h.tables hmem hq.offSlot, h.cr3]

theorem getPgsz (h : Tracks D L v big first size m d) (hregular : RegularPages big first size) (hq : first ≤ q)
    (hrange : (commitLayout big first size).InRange q) :
    vmmGetPgsz K m.vmmKernel (q * 4096) m = some (some (if big (q / 1024) then 1 else 0), m) := by
  have hmem := h.mem
  rw [← h.cr3] at hmem
  rw [h.kernel, ← h.current, vmmGetPgsz_cur h.tables hmem ((hregular q hq hrange).offSlot), h.cr3,
    page_div, pgszAt_of_present (h.present q hq hrange), h.sizes]

/-- A page is cleaned. -/
theorem clean (h : Tracks D L v big first size m d) (hregular : RegularPages big first size)
    (hq : first ≤ q) (hrange : (commitLayout big first size).InRange q) :
    Tracks D L v big first size (setDirtyAt m v (q * 4096) false)
      fun p => if (commitLayout big first size).SamePage q p then false else d p := by
  have hva := (hregular q hq hrange).offSlot
  have hpresent : presentAt m.mem v (q * 4096 / 4096) = true := by
    rw [page_div]
    exact h.present q hq hrange
  have hsame (p : ℕ) : SamePage m.mem v q p ↔ (commitLayout big first size).SamePage q p := by
    unfold SamePage Flush.Layout.SamePage
    rw [h.sizes]
    rfl
  constructor
  case tables => exact h.tables.setDirtyAt h.mem hva hpresent false
  case mem => exact h.mem
  case current =>
    rw [setDirtyAt_rest]
    exact h.current
  case kernel =>
    rw [setDirtyAt_rest]
    exact h.kernel
  case sizes =>
    intro i
    rw [setDirtyAt_pgsz h.tables h.mem hva hpresent]
    exact h.sizes i
  case present =>
    intro p hp hin
    rw [presentAt_setDirtyAt h.tables h.mem hva hpresent false (hregular p hp hin)]
    exact h.present p hp hin
  case dirty =>
    intro p hp
    rw [dirtyAt_setDirtyAt h.tables h.mem hva hpresent false hp, page_div, h.dirty p hp]
    simp only [hsame]

end Tracks

/-- The page after the one at `q` has the size of the page at `q`. -/
theorem commitPgsz_page {s : CommitState} {front : FbufBytes} (h : Tracks D L v big first size m d)
    (hregular : RegularPages big first size) (hq : first ≤ q) (hrange : (commitLayout big first size).InRange q) :
    commitPgsz K (q * 4096) (s.put m front) =
      some ((commitLayout big first size).len q * 4096, s.put m front) := by
  rw [commitPgsz_put (h.getPgsz hregular hq hrange)]
  change some (vmmPgsz (if big (q / 1024) then 1 else 0), _) = some ((if big (q / 1024) then 1024 else 1) * 4096, _)
  cases big (q / 1024) <;> rfl

end Tracking

/-! The loop over the dirty pages is the pass over the pages of the layout. -/

section Loop

variable {D L : Set ℕ} {K : Callees} {v first size q z : ℕ} {big : ℕ → Bool} {m : Machine}
  {s : CommitState} {front back : FbufBytes} {c : Flush.Contents UInt8}

/-- The offset and the address of the next page. -/
theorem next_page (hregular : RegularPages big first size) (hq : first ≤ q)
    (hrange : (commitLayout big first size).InRange q) (hz : z ≤ 1024) :
    w32 ((commitLayout big first size).off q + z * 4096) = (commitLayout big first size).off (q + z) ∧
      w32 (w32 (q * 4096) + z * 4096) = w32 ((q + z) * 4096) := by
  have hwrap := hregular.no_wrap hq hrange hz
  constructor
  · rw [Flush.Layout.off_add (L := commitLayout big first size) hq]
    exact w32_of_lt hwrap
  · unfold w32
    rw [Nat.mod_add_mod, Nat.add_mul]

/-- The copy of a dirty page. -/
theorem fbufMemcpy_write (hback : s.impl.backbuffer = some back) (hptr : s.impl.backbufferPtr = first * 4096) :
    let N := commitLayout big first size
    fbufMemcpy (N.off q) (q * 4096) (if size - N.off q < z * 4096 then size - N.off q else z * 4096)
        (s.put m c.front) = some ((), s.put m (N.write back c q z).front) := by
  intro N
  have hsrc : q * 4096 - s.impl.backbufferPtr = N.off q := by
    rw [hptr, ← Nat.sub_mul]
    rfl
  rw [fbufMemcpy_put hback, hsrc]
  congr 3
  funext a
  change (if _ then _ else _) = if N.off q ≤ a ∧ a < N.off q + z * 4096 ∧ a < size then back a else c.front a
  by_cases hcopied : N.off q ≤ a ∧ a < N.off q + z * 4096 ∧ a < size
  · rw [if_pos hcopied, if_pos (by split_ifs <;> omega)]
    congr 1
    omega
  · rw [if_neg hcopied, if_neg (by split_ifs <;> omega)]

theorem commitDirtyLoop_flush (fuel : ℕ) (hregular : RegularPages big first size) (hback : s.impl.backbuffer = some back)
    (hptr : s.impl.backbufferPtr = first * 4096) (h : Tracks D L v big first size m c.dirty) (hq : first ≤ q)
    (hz : z ≤ 1024) :
    let N := commitLayout big first size
    let run := commitDirtyLoop K size fuel (N.off q) (w32 (q * 4096)) (z * 4096) (s.put m c.front)
    (N.flush back fuel q z c = none → run = none) ∧
      ∀ r, N.flush back fuel q z c = some r →
        ∃ m', run = some ((), s.put m' r.front) ∧ Tracks D L v big first size m' r.dirty := by
  intro N
  induction fuel generalizing q z m c with
  | zero => exact ⟨fun _ => rfl, fun r hr => by cases hr⟩
  | succ fuel ih =>
    dsimp only
    rw [Flush.Layout.flush, commitDirtyLoop]
    by_cases hrange : N.InRange q
    · obtain ⟨hoff, hva⟩ := next_page hregular hq hrange hz
      have hreg := hregular q hq hrange
      have hlt : w32 (q * 4096) = q * 4096 := w32_of_lt hreg.offSlot.1
      have hoff_lt : N.off q < size := hrange
      rw [if_pos hrange, if_pos hoff_lt, Comp.bind_of_eq vmmKernel_put, hlt,
        Comp.bind_of_eq (vmmCall_put (h.getDirty hreg))]
      rw [hlt] at hva
      by_cases hd : c.dirty q = true
      · have hclean := h.clean hregular hq hrange
        obtain ⟨hoff', hva'⟩ := next_page hregular hq hrange (commitLayout_len_le (q := q))
        rw [hlt] at hva'
        rw [if_pos hd, if_pos hd, Comp.bind_of_eq (fbufMemcpy_write hback hptr),
          Comp.bind_of_eq (vmmCall_put (h.setDirty hreg)),
          Comp.bind_of_eq (commitPgsz_page hclean hregular hq hrange), hoff', hva']
        exact ih hclean (by omega) commitLayout_len_le
      · rw [if_neg hd, if_neg hd, hoff, hva]
        exact ih h (by omega) hz
    · have hend : ¬N.off q < size := hrange
      rw [if_neg hrange, if_neg hend]
      refine ⟨by simp, fun r hr => ?_⟩
      obtain rfl := Option.some_inj.mp hr
      exact ⟨m, rfl, h⟩

/-- After everything was copied, the other loop cleans every page. -/
theorem commitAllLoop_clean (hregular : RegularPages big first size) {d : ℕ → Bool}
    (h : Tracks D L v big first size m d) (hq : first ≤ q) (hstarts : (commitLayout big first size).Starts q) :
    let N := commitLayout big first size
    ∃ fuel m' d', commitAllLoop K size fuel (N.off q) (w32 (q * 4096)) (s.put m front) = some ((), s.put m' front) ∧
      Tracks D L v big first size m' d' ∧ (∀ p, q ≤ p → N.InRange p → d' p = false) ∧
        ∀ p, d p = false → d' p = false := by
  intro N
  induction hn : first + size - q using Nat.strongRecOn generalizing q m d with
  | ind n ih =>
    by_cases hrange : N.InRange q
    · have hlt : q < first + size := hrange.lt
      have hlen : 0 < N.len q := Flush.Layout.len_pos
      have hreg := hregular q hq hrange
      have hclean := h.clean hregular hq hrange
      obtain ⟨fuel, m', d', hrun, htracks, hdone, hkept⟩ :=
        ih (first + size - (q + N.len q)) (by omega) hclean (by omega) (Flush.Layout.starts_after hstarts) rfl
      refine ⟨fuel + 1, m', d', ?_, htracks, ?_, ?_⟩
      · have hoff_lt : N.off q < size := hrange
        have hva : w32 (q * 4096) = q * 4096 := w32_of_lt hreg.offSlot.1
        obtain ⟨hoff', hva'⟩ := next_page hregular hq hrange (commitLayout_len_le (q := q))
        rw [hva] at hva'
        rw [commitAllLoop, if_pos hoff_lt, Comp.bind_of_eq vmmKernel_put, hva,
          Comp.bind_of_eq (vmmCall_put (h.setDirty hreg)),
          Comp.bind_of_eq (commitPgsz_page hclean hregular hq hrange), hoff', hva']
        exact hrun
      · intro p hle hin
        by_cases hafter : q + N.len q ≤ p
        · exact hdone p hafter hin
        · apply hkept
          exact if_pos ((Flush.Layout.samePage_iff hstarts).mpr ⟨hle, Nat.lt_of_not_ge hafter⟩)
      · intro p hp
        apply hkept
        rw [hp, ite_self]
    · have hend : ¬N.off q < size := hrange
      refine ⟨1, m, d, by rw [commitAllLoop, if_neg hend]; rfl, h, ?_, fun _ hp => hp⟩
      intro p hle hin
      exact absurd (hin.mono hle) hrange

end Loop

/-! When the kernel's VMM is not the current one, no loop leaves the first page. -/

section Foreign

variable {D L : Set ℕ} {K : Callees} {v va size fuel : ℕ} {s₀ m : Machine} {s : CommitState}
  {front back : FbufBytes}

theorem vmmCall_wp {α : Type} {ok : Prop} {c : Kernel α} {Q : α → Machine → Prop} (h : Comp.Wp ok c Q m) :
    Comp.Wp ok (vmmCall c) (fun a t => ∃ m', t = s.put m' front ∧ Q a m') (s.put m front) := by
  cases hc : c m with
  | none =>
    apply Comp.Wp.of_fault _ (h.1 hc)
    have hm : c (s.put m front).machine = none := hc
    rw [vmmCall, hm]
    rfl
  | some r => exact .of_eq (vmmCall_put hc) ⟨r.2, rfl, h.2 r.1 r.2 hc⟩

/-- The page at `va` is of the kernel's VMM, which is not the current one. -/
structure ForeignPage (D L : Set ℕ) (K : Callees) (v va : ℕ) (s : Machine) : Prop where
  closed : K.Closed
  mem : v ∈ L
  foreign : v ≠ s.cr3
  kernel : s.vmmKernel = v * 4096
  null : NullGuard s
  off : OffSlot va
  present : presentAt s.mem v (va / 4096) = true

namespace ForeignPage

theorem guard (h : ForeignPage D L K v va s₀) (n : ℕ) : Guard False s₀ m n := ⟨False.elim, fun _ => h.null⟩

/-- Neither the dirty bit nor the size of the page is found, and the next pass is for the same page. -/
theorem set_pgsz (h : ForeignPage D L K v va s₀) (hw : Windowed D L s₀ m fun _ => 0#32) {f : ℕ → Commit Unit}
    {Q : Unit → CommitState → Prop}
    (hf : ∀ m', (Windowed D L s₀ m' fun _ => 0#32) → Comp.Wp False (f 0) Q (s.put m' front)) :
    Comp.Wp False (do
      vmmCall (vmmSetDirty K (v * 4096) va false)
      let pgsz ← commitPgsz K va
      f pgsz) Q (s.put m front) := by
  by_cases hroom : Room s₀ (fun _ => 0#32) 0 (walkWindows (s₀.mem v (va / 4194304)))
  · refine .bind (vmmCall_wp (hw.vmmSetDirty_room h.closed h.mem h.foreign h.off (h.guard 2) hroom h.present false))
      fun _ t ht => ?_
    obtain ⟨-, -, hfalse⟩ := ht
    exact hfalse.elim
  · refine .bind (vmmCall_wp (hw.vmmSetDirty_cramped h.closed h.mem h.foreign h.off (h.guard 2) hroom false))
      fun _ t ht => ?_
    obtain ⟨m₁, rfl, hw₁⟩ := ht
    have hkernel : m₁.vmmKernel = v * 4096 := by
      rw [hw₁.rest]
      exact h.kernel
    rw [commitPgsz, Comp.bind_assoc]
    refine .step vmmKernel_put ?_
    rw [hkernel, Comp.bind_assoc]
    refine .bind (vmmCall_wp (hw₁.vmmGetPgsz_cramped h.closed h.mem h.foreign h.off (h.guard 2) hroom))
      fun _ t ht => ?_
    obtain ⟨m₂, rfl, rfl, hw₂⟩ := ht
    exact hf m₂ hw₂

theorem kernel_eq (h : ForeignPage D L K v va s₀) (hw : Windowed D L s₀ m fun _ => 0#32) :
    m.vmmKernel = v * 4096 := by
  rw [hw.rest]
  exact h.kernel

theorem commitAllLoop (h : ForeignPage D L K v va s₀) (hsize : 0 < size)
    (hw : Windowed D L s₀ m fun _ => 0#32) :
    Comp.Wp False (SysX.commitAllLoop K size fuel 0 va) (fun _ _ => False) (s.put m front) := by
  induction fuel generalizing m with
  | zero => exact .of_fault rfl id
  | succ fuel ih =>
    rw [SysX.commitAllLoop, if_pos hsize]
    refine .step vmmKernel_put ?_
    rw [h.kernel_eq hw]
    refine h.set_pgsz hw fun m' hw' => ?_
    have hva : w32 (va + 0) = va := w32_of_lt h.off.1
    rw [hva]
    exact ih hw'

theorem commitDirtyLoop (h : ForeignPage D L K v va s₀) (hsize : 0 < size) (hback : s.impl.backbuffer = some back)
    (hw : Windowed D L s₀ m fun _ => 0#32) :
    Comp.Wp False (SysX.commitDirtyLoop K size fuel 0 va 0) (fun _ _ => False) (s.put m front) := by
  induction fuel generalizing m front with
  | zero => exact .of_fault rfl id
  | succ fuel ih =>
    rw [SysX.commitDirtyLoop, if_pos hsize]
    refine .step vmmKernel_put ?_
    rw [h.kernel_eq hw]
    refine .bind (vmmCall_wp (hw.vmmGetDirty_foreign h.closed h.mem h.foreign h.off (h.guard 2))) fun dirty t ht => ?_
    obtain ⟨m₁, rfl, hw₁⟩ := ht
    have hva : w32 (va + 0) = va := w32_of_lt h.off.1
    refine .ite (fun _ => ?_) fun _ => ?_
    · refine .step (fbufMemcpy_put hback _ _ _) ?_
      refine h.set_pgsz hw₁ fun m' hw' => ?_
      rw [hva]
      exact ih hw'
    · rw [hva]
      exact ih hw₁

end ForeignPage

end Foreign

/-! What a commit is to do, and when it does. -/

/-- A commit of the backbuffer from `s` to `t`: the framebuffer is the backbuffer as far as it is shown, no other
byte of it is written, and the pages of the kernel's VMM `v` under the backbuffer are clean. -/
structure Committed (v : ℕ) (back : FbufBytes) (s t : CommitState) : Prop where
  backbuffer : t.impl.backbuffer = some back
  front : ∀ a, t.impl.framebuffer a =
    if a < s.impl.pitch * s.impl.height then back a else s.impl.framebuffer a
  clean : ∀ a < s.impl.pitch * s.impl.height, dirtyAt t.machine.mem v ((s.impl.backbufferPtr + a) / 4096) = false

/-- `fbuf_commit` returns, and has committed the backbuffer. -/
def CommitCorrect (K : Callees) (v : ℕ) (back : FbufBytes) (s : CommitState) : Prop :=
  ∃ fuel t, fbufCommit K fuel s = some ((), t) ∧ Committed v back s t

/-- A double-buffered framebuffer without an accelerated flip, whose backbuffer lies on present pages of the
kernel's VMM `v`. Every page on which the two buffers differ is dirty. -/
structure CommitReady (D L : Set ℕ) (u v : ℕ) (back : FbufBytes) (s : CommitState) : Prop where
  tables : Tables D L s.machine
  currentMem : u ∈ L
  current : s.machine.vmmCurrent = u * 4096
  kernelMem : v ∈ L
  kernel : s.machine.vmmKernel = v * 4096
  null : u ≠ v → NullGuard s.machine
  doubled : s.impl.backbuffer = some back
  flip : s.impl.flip = none
  off : ∀ a < s.impl.pitch * s.impl.height, OffSlot (s.impl.backbufferPtr + a)
  present : ∀ a < s.impl.pitch * s.impl.height,
    presentAt s.machine.mem v ((s.impl.backbufferPtr + a) / 4096) = true
  aligned : s.impl.backbufferPtr %
    (if (s.machine.mem v (s.impl.backbufferPtr / 4194304)).pgsz then 4194304 else 4096) = 0
  sound : ∀ a < s.impl.pitch * s.impl.height, s.impl.framebuffer a ≠ back a →
    dirtyAt s.machine.mem v ((s.impl.backbufferPtr + a) / 4096) = true

namespace CommitState

def layout (s : CommitState) (v : ℕ) : Flush.Layout :=
  commitLayout (fun i => (s.machine.mem v i).pgsz) (s.impl.backbufferPtr / 4096) (s.impl.pitch * s.impl.height)

def contents (s : CommitState) (v : ℕ) : Flush.Contents UInt8 where
  dirty := dirtyAt s.machine.mem v
  front := s.impl.framebuffer

end CommitState

/-- The first page is dirty although its bytes are equal already, and every dirty page fits the dirty page before it. -/
structure PagesFit (v : ℕ) (back : FbufBytes) (s : CommitState) : Prop where
  dirty : dirtyAt s.machine.mem v (s.impl.backbufferPtr / 4096) = true
  equal : ∀ a < (s.layout v).len (s.impl.backbufferPtr / 4096) * 4096, a < s.impl.pitch * s.impl.height →
    s.impl.framebuffer a = back a
  chain : (s.layout v).Chain back (s.contents v) (s.impl.backbufferPtr / 4096)

/-- Where changes are written to the framebuffer as well, nothing is left to do. Otherwise there is no page at all,
or the kernel's VMM is the current one and either all of the backbuffer is copied at once or its pages fit. -/
def CommitSafe (v : ℕ) (back : FbufBytes) (s : CommitState) : Prop :=
  if s.impl.dbufDirectWrite then
    ∀ a < s.impl.pitch * s.impl.height, s.impl.framebuffer a = back a ∧
      dirtyAt s.machine.mem v ((s.impl.backbufferPtr + a) / 4096) = false
  else
    s.impl.pitch * s.impl.height = 0 ∨
      s.machine.vmmKernel = s.machine.vmmCurrent ∧ (s.impl.flipAll = true ∨ PagesFit v back s)

namespace CommitReady

variable {D L : Set ℕ} {K : Callees} {u v fuel : ℕ} {back : FbufBytes} {s t : CommitState}

theorem no_wrap (h : CommitReady D L u v back s) :
    w32 (s.impl.pitch * s.impl.height) = s.impl.pitch * s.impl.height := by
  by_cases hzero : s.impl.pitch * s.impl.height = 0
  · rw [hzero]
    rfl
  · have hlast := (h.off (s.impl.pitch * s.impl.height - 1) (by omega)).1
    refine w32_of_lt ?_
    by_contra hlarge
    obtain ⟨-, hslot⟩ := h.off 3217031168 (by omega)
    omega

theorem ptr (h : CommitReady D L u v back s) : s.impl.backbufferPtr / 4096 * 4096 = s.impl.backbufferPtr := by
  have haligned := h.aligned
  split_ifs at haligned <;> omega

theorem page (h : CommitReady D L u v back s) (a : ℕ) :
    (s.impl.backbufferPtr + a) / 4096 = s.impl.backbufferPtr / 4096 + a / 4096 := by
  have := h.ptr
  omega

/-- The pages of the layout are those under the bytes that are shown. -/
theorem inRange (h : CommitReady D L u v back s) {p : ℕ} (hp : s.impl.backbufferPtr / 4096 ≤ p)
    (hrange : (s.layout v).InRange p) :
    ∃ a < s.impl.pitch * s.impl.height, s.impl.backbufferPtr + a = p * 4096 ∧ a = (s.layout v).off p := by
  have hptr := h.ptr
  refine ⟨(s.layout v).off p, hrange, ?_, rfl⟩
  change s.impl.backbufferPtr + (p - s.impl.backbufferPtr / 4096) * 4096 = p * 4096
  omega

theorem regular (h : CommitReady D L u v back s) :
    RegularPages (fun i => (s.machine.mem v i).pgsz) (s.impl.backbufferPtr / 4096)
      (s.impl.pitch * s.impl.height) := by
  intro p hp hrange
  obtain ⟨a, ha, hpage, -⟩ := h.inRange (v := v) hp hrange
  obtain ⟨hlt, hslot⟩ := h.off a ha
  rw [hpage] at hlt hslot
  rw [page_slot] at hslot
  exact ⟨by omega, hslot⟩

theorem starts (h : CommitReady D L u v back s) : (s.layout v).Starts (s.impl.backbufferPtr / 4096) := by
  intro hbig
  have haligned := h.aligned
  have hslot : s.impl.backbufferPtr / 4096 / 1024 = s.impl.backbufferPtr / 4194304 := Nat.div_div_eq_div_mul _ _ _
  have hpgsz : (s.machine.mem v (s.impl.backbufferPtr / 4096 / 1024)).pgsz = true := hbig
  rw [hslot] at hpgsz
  rw [if_pos hpgsz] at haligned
  change s.impl.backbufferPtr / 4096 % 1024 = 0
  omega

theorem layout_sound (h : CommitReady D L u v back s) :
    (s.layout v).Sound back (s.contents v) (s.impl.backbufferPtr / 4096) := by
  intro p hp hrange hclean a ha hend hsize
  obtain ⟨b, -, hpage, hoff⟩ := h.inRange (v := v) hp hrange
  have hcell : (s.layout v).cell = 4096 := rfl
  have hap : (s.impl.backbufferPtr + a) / 4096 = p := by omega
  by_contra hne
  have hdirty := h.sound a hsize hne
  rw [hap] at hdirty
  have hclean' : dirtyAt s.machine.mem v p = false := hclean
  rw [hclean'] at hdirty
  cases hdirty

theorem tracks (h : CommitReady D L u v back s) (hcur : s.machine.vmmKernel = s.machine.vmmCurrent) :
    Tracks D L v (fun i => (s.machine.mem v i).pgsz) (s.impl.backbufferPtr / 4096)
      (s.impl.pitch * s.impl.height) s.machine (dirtyAt s.machine.mem v) where
  tables := h.tables
  mem := h.kernelMem
  current := hcur.symm.trans h.kernel
  kernel := h.kernel
  sizes _ := rfl
  present p hp hrange := by
    obtain ⟨a, ha, hpage, -⟩ := h.inRange (v := v) hp hrange
    rw [← page_div p, ← hpage]
    exact h.present a ha
  dirty _ _ := rfl

theorem foreign (h : CommitReady D L u v back s) (hK : K.Closed)
    (hcur : s.machine.vmmKernel ≠ s.machine.vmmCurrent) (hsize : 0 < s.impl.pitch * s.impl.height) :
    ForeignPage D L K v s.impl.backbufferPtr s.machine := by
  have hne : u ≠ v := by
    rintro rfl
    exact hcur (h.kernel.trans h.current.symm)
  constructor
  case closed => exact hK
  case mem => exact h.kernelMem
  case foreign =>
    rw [Machine.cr3, h.current, Nat.mul_div_cancel u (by decide)]
    exact hne.symm
  case kernel => exact h.kernel
  case null => exact h.null hne
  case off => exact h.off 0 hsize
  case present => exact h.present 0 hsize

/-- What comes before and after the copy leaves the buffers and the page tables alone. -/
theorem correct_iff (h : CommitReady D L u v back s) (hdirect : s.impl.dbufDirectWrite = false) :
    CommitCorrect K v back s ↔
      ∃ fuel t, commitFlip K fuel { s with intr := false } = some ((), t) ∧ Committed v back s t := by
  have hguard : ¬(s.impl.dbufDirectWrite = true ∨ s.impl.backbuffer = none) := by
    rw [hdirect, h.doubled]
    simp
  have hrun (fuel : ℕ) : fbufCommit K fuel s = (do
      commitFlip K fuel
      Comp.when s.intr (Comp.modify fun s => { s with intr := true })
      Comp.modify fun s => { s with impl.tickFlip := s.machine.timerTick }) { s with intr := false } := by
    rw [fbufCommit, Comp.read_bind, if_neg hguard, Comp.read_bind, Comp.modify_bind, h.flip]
  have hafter (t : CommitState) : ∃ t', (do
      Comp.when s.intr (Comp.modify fun s => { s with intr := true })
      Comp.modify fun s => { s with impl.tickFlip := s.machine.timerTick } : Commit Unit) t = some ((), t') ∧
        (Committed v back s t' ↔ Committed v back s t) := by
    cases s.intr with
    | true => exact ⟨_, rfl, fun ⟨hb, hf, hc⟩ => ⟨hb, hf, hc⟩, fun ⟨hb, hf, hc⟩ => ⟨hb, hf, hc⟩⟩
    | false => exact ⟨_, rfl, fun ⟨hb, hf, hc⟩ => ⟨hb, hf, hc⟩, fun ⟨hb, hf, hc⟩ => ⟨hb, hf, hc⟩⟩
  constructor
  · rintro ⟨fuel, t', hsome, hcommitted⟩
    rw [hrun] at hsome
    obtain ⟨⟨⟩, t, hflip, hrest⟩ := Comp.bind_eq_some.mp hsome
    obtain ⟨t'', hrest', hiff⟩ := hafter t
    rw [hrest'] at hrest
    cases hrest
    exact ⟨fuel, t, hflip, hiff.mp hcommitted⟩
  · rintro ⟨fuel, t, hflip, hcommitted⟩
    obtain ⟨t', hrest, hiff⟩ := hafter t
    exact ⟨fuel, t', by rw [hrun, Comp.bind_of_eq hflip, hrest], hiff.mpr hcommitted⟩

/-- The copy of all of the backbuffer. -/
theorem memcpy_all (h : CommitReady D L u v back s) :
    ∃ front, fbufMemcpy 0 s.impl.backbufferPtr (s.impl.pitch * s.impl.height) { s with intr := false } =
        some ((), CommitState.put { s with intr := false } s.machine front) ∧
      ∀ a, front a = if a < s.impl.pitch * s.impl.height then back a else s.impl.framebuffer a := by
  refine ⟨_, fbufMemcpy_put (s := { s with intr := false }) h.doubled _ _ _, fun a => ?_⟩
  simp only [Nat.zero_le, true_and, Nat.zero_add, Nat.sub_self, Nat.sub_zero]

/-- No byte is shown. -/
theorem correct_of_empty (h : CommitReady D L u v back s) (hsize : s.impl.pitch * s.impl.height = 0) :
    ∃ fuel t, commitFlip K fuel { s with intr := false } = some ((), t) ∧ Committed v back s t := by
  have hcommitted (t : CommitState) (ht : t.impl.backbuffer = s.impl.backbuffer)
      (hfront : ∀ a, t.impl.framebuffer a = s.impl.framebuffer a) : Committed v back s t := by
    constructor
    case backbuffer => exact ht.trans h.doubled
    case front =>
      intro a
      rw [hsize, if_neg (Nat.not_lt_zero a), hfront]
    case clean =>
      intro a ha
      omega
  refine ⟨1, ?_⟩
  rw [commitFlip, Comp.read_bind]
  dsimp only
  rw [h.no_wrap]
  cases s.impl.flipAll with
  | true =>
    obtain ⟨front, hcopy, hfront⟩ := h.memcpy_all
    rw [hsize] at hcopy hfront ⊢
    rw [if_pos rfl, Comp.bind_of_eq hcopy]
    exact ⟨_, rfl, hcommitted _ rfl fun a => (hfront a).trans (if_neg (Nat.not_lt_zero a))⟩
  | false =>
    rw [hsize]
    exact ⟨_, rfl, hcommitted _ rfl fun _ => rfl⟩

theorem off_first (s : CommitState) (v : ℕ) : (s.layout v).off (s.impl.backbufferPtr / 4096) = 0 := by
  rw [Flush.Layout.off, CommitState.layout, commitLayout, Nat.sub_self, Nat.zero_mul]

theorem first_page (h : CommitReady D L u v back s) (hsize : 0 < s.impl.pitch * s.impl.height) :
    w32 (s.impl.backbufferPtr / 4096 * 4096) = s.impl.backbufferPtr := by
  rw [h.ptr]
  exact w32_of_lt (h.off 0 hsize).1

/-- The page tables that `Tracks` follows are clean under the backbuffer. -/
theorem clean_of_tracks (h : CommitReady D L u v back s) {m : Machine} {d : ℕ → Bool}
    (ht : Tracks D L v (fun i => (s.machine.mem v i).pgsz) (s.impl.backbufferPtr / 4096)
      (s.impl.pitch * s.impl.height) m d) :
    (∀ a < s.impl.pitch * s.impl.height, dirtyAt m.mem v ((s.impl.backbufferPtr + a) / 4096) = false) ↔
      ∀ p, s.impl.backbufferPtr / 4096 ≤ p → (s.layout v).InRange p → d p = false := by
  constructor
  · intro hclean p hp hrange
    obtain ⟨a, ha, hpage, -⟩ := h.inRange (v := v) hp hrange
    have hp' := hclean a ha
    rw [hpage, page_div, ht.dirty p (h.regular p hp hrange)] at hp'
    exact hp'
  · intro hclean a ha
    have hrange : (s.layout v).InRange (s.impl.backbufferPtr / 4096 + a / 4096) := by
      change (s.impl.backbufferPtr / 4096 + a / 4096 - s.impl.backbufferPtr / 4096) * 4096 <
        s.impl.pitch * s.impl.height
      omega
    have hp := Nat.le_add_right (s.impl.backbufferPtr / 4096) (a / 4096)
    rw [h.page, ht.dirty _ (h.regular _ hp hrange)]
    exact hclean _ hp hrange

/-- All of the backbuffer is copied at once. -/
theorem correct_of_flipAll (h : CommitReady D L u v back s) (hsize : 0 < s.impl.pitch * s.impl.height)
    (hcur : s.machine.vmmKernel = s.machine.vmmCurrent) (hall : s.impl.flipAll = true) :
    ∃ fuel t, commitFlip K fuel { s with intr := false } = some ((), t) ∧ Committed v back s t := by
  obtain ⟨front, hcopy, hfront⟩ := h.memcpy_all
  obtain ⟨fuel, m, d, hrun, htracks, hclean, -⟩ := commitAllLoop_clean (K := K) (s := { s with intr := false })
    h.regular (h.tracks hcur) (Nat.le_refl _) h.starts
  have hoff : (commitLayout (fun i => (s.machine.mem v i).pgsz) (s.impl.backbufferPtr / 4096)
      (s.impl.pitch * s.impl.height)).off (s.impl.backbufferPtr / 4096) = 0 := off_first s v
  rw [hoff, h.first_page hsize] at hrun
  refine ⟨fuel, ?_⟩
  rw [commitFlip, Comp.read_bind]
  dsimp only
  rw [h.no_wrap, hall, if_pos rfl, Comp.bind_of_eq hcopy, Comp.bind_of_eq hrun]
  refine ⟨_, rfl, ?_⟩
  constructor
  case backbuffer => exact h.doubled
  case front => exact hfront
  case clean => exact (h.clean_of_tracks htracks).mpr hclean

/-- The pages are copied one by one. -/
theorem flip_flush (h : CommitReady D L u v back s) (hsize : 0 < s.impl.pitch * s.impl.height)
    (hcur : s.machine.vmmKernel = s.machine.vmmCurrent) (hall : s.impl.flipAll = false) (fuel : ℕ) :
    let pass := (s.layout v).flush back fuel (s.impl.backbufferPtr / 4096) 0 (s.contents v)
    let run := commitFlip K fuel { s with intr := false }
    (pass = none → run = none) ∧ ∀ r, pass = some r →
      ∃ m, run = some ((), CommitState.put { s with intr := false } m r.front) ∧
        Tracks D L v (fun i => (s.machine.mem v i).pgsz) (s.impl.backbufferPtr / 4096)
          (s.impl.pitch * s.impl.height) m r.dirty := by
  have hflip : commitFlip K fuel { s with intr := false } =
      commitDirtyLoop K (s.impl.pitch * s.impl.height) fuel 0 s.impl.backbufferPtr 0 { s with intr := false } := by
    rw [commitFlip, Comp.read_bind]
    dsimp only
    rw [h.no_wrap, hall, if_neg Bool.false_ne_true]
  have hsim := commitDirtyLoop_flush (K := K) (c := s.contents v) (z := 0) (s := { s with intr := false }) fuel
    h.regular h.doubled h.ptr.symm (h.tracks hcur) (Nat.le_refl _) (by decide)
  have hoff : (commitLayout (fun i => (s.machine.mem v i).pgsz) (s.impl.backbufferPtr / 4096)
      (s.impl.pitch * s.impl.height)).off (s.impl.backbufferPtr / 4096) = 0 := off_first s v
  dsimp only at hsim ⊢
  rw [hoff, h.first_page hsize] at hsim
  rw [hflip]
  exact hsim

theorem correct_dirty_iff (h : CommitReady D L u v back s) (hsize : 0 < s.impl.pitch * s.impl.height)
    (hcur : s.machine.vmmKernel = s.machine.vmmCurrent) (hall : s.impl.flipAll = false) :
    (∃ fuel t, commitFlip K fuel { s with intr := false } = some ((), t) ∧ Committed v back s t) ↔
      ∃ fuel r, (s.layout v).flush back fuel (s.impl.backbufferPtr / 4096) 0 (s.contents v) = some r ∧
        (s.layout v).Done back (s.impl.backbufferPtr / 4096) r := by
  have hzero := off_first s v
  constructor
  · rintro ⟨fuel, t, hrun, hcommitted⟩
    obtain ⟨hnone, hsome⟩ := h.flip_flush (K := K) hsize hcur hall fuel
    cases hpass : (s.layout v).flush back fuel (s.impl.backbufferPtr / 4096) 0 (s.contents v) with
    | none =>
      rw [hnone hpass] at hrun
      cases hrun
    | some r =>
      obtain ⟨m, hrun', htracks⟩ := hsome r hpass
      rw [hrun'] at hrun
      cases hrun
      refine ⟨fuel, r, hpass, (h.clean_of_tracks htracks).mp hcommitted.clean, fun a _ ha => ?_⟩
      exact (hcommitted.front a).trans (if_pos ha)
  · rintro ⟨fuel, r, hpass, hdone⟩
    obtain ⟨m, hrun, htracks⟩ := (h.flip_flush (K := K) hsize hcur hall fuel).2 r hpass
    refine ⟨fuel, _, hrun, ?_⟩
    constructor
    case backbuffer => exact h.doubled
    case front =>
      intro a
      by_cases ha : a < s.impl.pitch * s.impl.height
      · rw [if_pos ha]
        exact hdone.equal a (by omega) ha
      · rw [if_neg ha]
        exact Flush.Layout.flush_beyond hpass (Nat.le_of_not_lt ha)
    case clean => exact (h.clean_of_tracks htracks).mpr hdone.clean

/-- No page is left behind. -/
theorem flip_foreign (h : CommitReady D L u v back s) (hK : K.Closed)
    (hcur : s.machine.vmmKernel ≠ s.machine.vmmCurrent) (hsize : 0 < s.impl.pitch * s.impl.height) :
    commitFlip K fuel { s with intr := false } ≠ some ((), t) := by
  have hforeign := h.foreign hK hcur hsize
  have hw : Windowed D L s.machine s.machine fun _ => 0#32 := by
    refine .refl h.tables ?_
    rw [Machine.cr3, h.current, Nat.mul_div_cancel u (by decide)]
    exact h.currentMem
  have hwp : Comp.Wp False (commitFlip K fuel) (fun _ _ => False) { s with intr := false } := by
    refine .read_bind ?_
    dsimp only
    rw [h.no_wrap]
    refine .ite (fun _ => ?_) fun _ => ?_
    · obtain ⟨front, hcopy, -⟩ := h.memcpy_all
      refine .step hcopy ?_
      exact .bind (hforeign.commitAllLoop hsize hw) fun _ _ hfalse => hfalse.elim
    · exact hforeign.commitDirtyLoop (s := { s with intr := false }) hsize h.doubled hw
  exact fun hrun => hwp.2 () t hrun

theorem pagesFit_iff (h : CommitReady D L u v back s) (hsize : 0 < s.impl.pitch * s.impl.height) :
    (∃ fuel r, (s.layout v).flush back fuel (s.impl.backbufferPtr / 4096) 0 (s.contents v) = some r ∧
      (s.layout v).Done back (s.impl.backbufferPtr / 4096) r) ↔ PagesFit v back s := by
  have hrange : (s.layout v).InRange (s.layout v).first := by
    change (s.impl.backbufferPtr / 4096 - s.impl.backbufferPtr / 4096) * 4096 < s.impl.pitch * s.impl.height
    omega
  have hwhole : ∀ p p', (s.layout v).big (p / (s.layout v).slot) = true →
      p / (s.layout v).slot = p' / (s.layout v).slot → (s.contents v).dirty p = (s.contents v).dirty p' := by
    intro p p' hbig heq
    have hbig' : (s.machine.mem v (p / 1024)).pgsz = true := hbig
    have heq' : p / 1024 = p' / 1024 := heq
    change dirtyAt s.machine.mem v p = dirtyAt s.machine.mem v p'
    rw [dirtyAt, dirtyAt, ← heq', if_pos hbig', if_pos hbig']
  refine (Flush.Layout.flush_first_iff hrange h.starts hwhole h.layout_sound).trans ?_
  constructor
  · rintro ⟨hd, he, hc⟩
    exact ⟨hd, he, hc⟩
  · rintro ⟨hd, he, hc⟩
    exact ⟨hd, he, hc⟩

end CommitReady

/-- `fbuf_commit` commits the backbuffer exactly where its pages may be copied one by one or are copied at once. -/
theorem fbuf_commit_iff {D L : Set ℕ} {u v : ℕ} {back : FbufBytes} {s : CommitState} (n : ℕ)
    (h : CommitReady D L u v back s) : CommitCorrect (callees (n + 1)) v back s ↔ CommitSafe v back s := by
  unfold CommitSafe
  cases hdirect : s.impl.dbufDirectWrite with
  | true =>
    have hrun (fuel : ℕ) : fbufCommit (callees (n + 1)) fuel s = some ((), s) := by
      rw [fbufCommit, Comp.read_bind, if_pos (.inl hdirect)]
      rfl
    rw [if_pos rfl]
    constructor
    · rintro ⟨fuel, t, ht, hcommitted⟩ a ha
      rw [hrun] at ht
      cases ht
      exact ⟨(hcommitted.front a).trans (if_pos ha), hcommitted.clean a ha⟩
    · intro hdone
      refine ⟨0, s, hrun 0, h.doubled, fun a => ?_, fun a ha => (hdone a ha).2⟩
      split_ifs with ha
      · exact (hdone a ha).1
      · rfl
  | false =>
    rw [if_neg Bool.false_ne_true, h.correct_iff hdirect]
    by_cases hsize : s.impl.pitch * s.impl.height = 0
    · exact iff_of_true (h.correct_of_empty hsize) (.inl hsize)
    have hpos : 0 < s.impl.pitch * s.impl.height := Nat.pos_of_ne_zero hsize
    by_cases hcur : s.machine.vmmKernel = s.machine.vmmCurrent
    · cases hall : s.impl.flipAll with
      | true => exact iff_of_true (h.correct_of_flipAll hpos hcur hall) (.inr ⟨hcur, .inl rfl⟩)
      | false =>
        rw [h.correct_dirty_iff hpos hcur hall, h.pagesFit_iff hpos]
        simp [hsize, hcur]
    · -- a kernel VMM that is not the current one
      refine iff_of_false ?_ fun hsafe => hsafe.elim hsize fun hsafe => hcur hsafe.1
      rintro ⟨fuel, t, hrun, -⟩
      exact h.flip_foreign (callees_closed n) hcur hpos hrun

/-- One pixel, whose backbuffer lies on a dirty page of 4 MiB. -/
def commitSample (flipAll : Bool) : CommitState where
  machine := { (default : Machine) with
    mem := fun f i => match f, i with
      | 1, 1 => 0x4000E3#32
      | 1, 767 => 0x1003#32
      | _, _ => 0#32
    pmmBitmap := fun _ => 2#32
    pmmFrames := 32
    vmmCurrent := 0x1000
    vmmKernel := 0x1000 }
  impl := {
    width := 1
    height := 1
    type := .fbuf32BppRgb888
    pitch := 4
    framebuffer := fun _ => 0
    backbuffer := some fun _ => 255
    dbufDirectWrite := false
    backbufferPtr := 0x400000
    tickFlip := 0
    flipAll := flipAll
    flip := none }
  intr := true

theorem commitSample_slot {b : Bool} {i : ℕ} (hi : i ≠ 767) : ¬((commitSample b).machine.mem 1 i).HasTable := by
  intro htable
  have hcases : (commitSample b).machine.mem 1 i = 0x4000E3#32 ∨ (commitSample b).machine.mem 1 i = 0#32 := by
    simp only [commitSample]
    split <;> simp_all
  rcases hcases with h | h
  · rw [h] at htable
    exact absurd htable.not_pgsz (by decide)
  · rw [h] at htable
    exact Word.not_hasTable_zero htable

theorem commitSample_tables (b : Bool) : Tables {1} {1} (commitSample b).machine := by
  constructor
  case frames =>
    change 32 ≤ 1048576
    decide
  case sub => exact subset_rfl
  case dir =>
    rintro v rfl
    exact ⟨by decide +revert, by decide⟩
  case self =>
    rintro v rfl
    exact ⟨by decide +revert, by decide +revert, by decide +revert, by decide +revert⟩
  case present =>
    rintro v rfl i _ hi htable
    exact absurd htable (commitSample_slot hi)
  case rw =>
    rintro v rfl i _ hi htable
    exact absurd htable (commitSample_slot hi)
  case used =>
    rintro v rfl i _ hi htable
    exact absurd htable (commitSample_slot hi)
  case notDir =>
    rintro v rfl i _ hi htable
    exact absurd htable (commitSample_slot hi)
  case sep =>
    rintro v rfl w rfl i _ j _ hi _ htable
    exact absurd htable (commitSample_slot hi)

theorem commitSample_page (b : Bool) : presentAt (commitSample b).machine.mem 1 1024 = true ∧
    dirtyAt (commitSample b).machine.mem 1 1024 = true := by
  decide +revert

theorem commitSample_ready (b : Bool) : CommitReady {1} {1} 1 1 (fun _ => 255) (commitSample b) where
  tables := commitSample_tables b
  currentMem := rfl
  current := rfl
  kernelMem := rfl
  kernel := rfl
  null h := absurd rfl h
  doubled := rfl
  flip := rfl
  off a ha := by
    change a < 4 at ha
    change 0x400000 + a < 4294967296 ∧ (0x400000 + a) / 4194304 ≠ 767
    omega
  present a ha := by
    change a < 4 at ha
    have hpage : (0x400000 + a) / 4096 = 1024 := by omega
    change presentAt (commitSample b).machine.mem 1 ((0x400000 + a) / 4096) = true
    rw [hpage]
    exact (commitSample_page b).1
  aligned := by decide +revert
  sound a ha _ := by
    change a < 4 at ha
    have hpage : (0x400000 + a) / 4096 = 1024 := by omega
    change dirtyAt (commitSample b).machine.mem 1 ((0x400000 + a) / 4096) = true
    rw [hpage]
    exact (commitSample_page b).2

/-- With `flip_all` the pixel is shown. -/
theorem fbuf_commit_sample : CommitCorrect (callees 1) 1 (fun _ => 255) (commitSample true) :=
  (fbuf_commit_iff 0 (commitSample_ready true)).mpr (.inr ⟨rfl, .inl rfl⟩)

/-- Without it no byte of the first page is copied. -/
theorem fbuf_commit_skips_first : ¬∀ (D L : Set ℕ) (u v n : ℕ) (back : FbufBytes) (s : CommitState),
    CommitReady D L u v back s → CommitCorrect (callees (n + 1)) v back s := by
  intro h
  have hready := commitSample_ready false
  have hcorrect := h _ _ _ _ 0 _ _ hready
  rw [hready.correct_iff rfl, hready.correct_dirty_iff (by decide) rfl rfl, hready.pagesFit_iff (by decide)] at hcorrect
  have hbyte : (0 : UInt8) = 255 := hcorrect.equal 0 (by decide) (by decide)
  exact absurd hbyte (by decide)

end SysX
