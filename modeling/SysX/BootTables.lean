import SysX.PageRefinement
import SysX.MemoryMap

/-!
The page tables that the bootstrap code, `arch/x86/boot.asm`, builds, and what the memory managers find when it is done.
-/
namespace SysX

/-- Physical addresses of the linker script: `PD(vmm_default_pd)`, `PHYS(__text_start)` and `PHYS(__rodata_end)`. -/
structure BootLayout where
  defaultPd : ℕ
  textStart : ℕ
  rodataEnd : ℕ
deriving DecidableEq, Repr

/-- Accesses without paging. -/
def Machine.phys (s : Machine) (a : ℕ) : Word := s.mem (a / 4096) (a % 4096 / 4)

def Machine.setPhys (s : Machine) (a : ℕ) (d : Word) : Machine := s.set (a / 4096) (a % 4096 / 4) d

/-- The bootstrap code between two pages. All memory from EDI on is free. -/
structure Bootstrap where
  machine : Machine
  edi : ℕ

namespace Bootstrap

/-- The entry for the page at `esi`. -/
def pte (l : BootLayout) (esi : ℕ) : Word :=
  let eax := BitVec.ofNat 32 esi ||| 0x101#32
  if esi < l.textStart ∨ l.rodataEnd < esi then eax ||| 2#32 else eax

/-- One pass of `.map`. A new page table goes into the identity map and into the higher half. -/
def mapPage (l : BootLayout) (esi : ℕ) (b : Bootstrap) : Bootstrap :=
  let ebp := w32 (l.defaultPd + esi / 4194304 * 4)
  let eax := b.machine.phys ebp &&& 0xFFFFF000#32
  let off := esi / 4096 * 4 % 4096
  if eax ≠ 0#32 then { b with machine := b.machine.setPhys (w32 (eax.toNat + off)) (pte l esi) }
  else
    let e := BitVec.ofNat 32 (b.edi ||| 3)
    let s := (b.machine.setPhys ebp e).setPhys (w32 (ebp + 768 * 4)) e
    ⟨(s.setFrame (b.edi / 4096) fun _ => 0#32).setPhys (w32 (b.edi + off)) (pte l esi), w32 (b.edi + 4096)⟩

/-- The pages from `esi` up to `stop`, but one at least. -/
def mapLoop (l : BootLayout) (stop : ℕ) : (fuel esi : ℕ) → Bootstrap → Option Bootstrap
  | 0, _, _ => none
  | fuel + 1, esi, b =>
    let b := mapPage l esi b
    let esi := w32 (esi + 0x1000)
    if esi < stop then mapLoop l stop fuel esi b else some b

/-- `_vmm` up to where paging is enabled. -/
def vmm (l : BootLayout) (b : Bootstrap) : Option Bootstrap :=
  let edi := if b.edi % 4096 = 0 then b.edi else w32 (b.edi / 4096 * 4096 + 0x1000)
  let s := b.machine.setFrame (l.defaultPd / 4096) fun _ => 0#32
  let s := s.setPhys (w32 (pdPte * 4 + l.defaultPd)) (BitVec.ofNat 32 (l.defaultPd ||| 3))
  (mapLoop l edi 1048576 0x100000 ⟨s, edi⟩).map fun b =>
    { b with machine := { b.machine with vmmCurrent := l.defaultPd } }

/-- `_hstart`, as far as it is about memory: the end of the kernel is noted, and the identity map is wiped. -/
def hstart (l : BootLayout) (edi : ℕ) : Kernel Unit := do
  Comp.modify fun s => { s with kernelEnd := w32 (edi + 0xC0000000) }
  Comp.forRange (fun i => store (w32 (l.defaultPd + 0xC0000000) + 4 * i) 0#32) pdPte 0
  Comp.modify fun s => { s with vmmCurrent := l.defaultPd, vmmKernel := l.defaultPd }

end Bootstrap

/-- From `_vmm` on, with the end of the kernel image in EDI. -/
def bootstrap (l : BootLayout) (edi : ℕ) : Kernel Unit := fun s =>
  (Bootstrap.vmm l ⟨s, edi⟩).bind fun b => Bootstrap.hstart l b.edi b.machine

/-- The memory managers are started: `vmm_init` does nothing, and `pmm_init` reads what the boot loader has left in `mem`. -/
def startMemory (l : BootLayout) (edi : ℕ) (mbInfo : Option MultibootInfo) (mem : ℕ → UInt8) : Kernel Unit := do
  bootstrap l edi
  let kernelEnd ← Comp.read (·.kernelEnd)
  pmmInit ⟨mbInfo, mem, 0x100000, kernelEnd⟩

namespace Bootstrap

/-! Words of memory. -/

section Words

variable {s : Machine} {f i esi : ℕ} {l : BootLayout}

theorem phys_frame (hi : i < 1024) : s.phys (f * 4096 + i * 4) = s.mem f i := by
  rw [Machine.phys, show (f * 4096 + i * 4) / 4096 = f by omega, show (f * 4096 + i * 4) % 4096 / 4 = i by omega]

theorem setPhys_frame (hi : i < 1024) (d : Word) : s.setPhys (f * 4096 + i * 4) d = s.set f i d := by
  rw [Machine.setPhys, show (f * 4096 + i * 4) / 4096 = f by omega, show (f * 4096 + i * 4) % 4096 / 4 = i by omega]

theorem getLsbD_frame (f i : ℕ) : (BitVec.ofNat 32 (f * 4096)).getLsbD i =
    (decide (i < 32) && (decide (12 ≤ i) && f.testBit (i - 12))) := by
  rw [BitVec.getLsbD_ofNat, show 4096 = 2 ^ 12 from rfl, Nat.testBit_mul_two_pow]

/-- The frame of a page table, without the flags. -/
theorem tableEntry_and (f : ℕ) : Word.tableEntry f &&& 0xFFFFF000#32 = BitVec.ofNat 32 (f * 4096) := by
  have hmask : ∀ i < 32, (0xFFFFF000#32 : Word).getLsbD i = decide (12 ≤ i) := by decide
  refine BitVec.eq_of_getLsbD_eq fun i hi => ?_
  rw [BitVec.getLsbD_and, Word.getLsbD_tableEntry, getLsbD_frame, hmask i hi]
  have hlow : ¬ (12 ≤ i ∧ i < 2) := by omega
  by_cases h12 : 12 ≤ i
  · simp [h12, show ¬ i < 2 by omega]
  · simp [h12]

theorem getLsbD_pte (f i : ℕ) : (pte l (f * 4096)).getLsbD i = (decide (i < 32) && (decide (12 ≤ i) && f.testBit (i - 12)) ||
    (decide (i = 0) || decide (i = 8)) || decide (i = 1) && decide (f * 4096 < l.textStart ∨ l.rodataEnd < f * 4096)) := by
  have h101 : (0x101#32 : Word).getLsbD i = (decide (i = 0) || decide (i = 8)) := by
    have hbits : ∀ i < 32, (0x101#32 : Word).getLsbD i = (decide (i = 0) || decide (i = 8)) := by decide
    by_cases hi : i < 32
    · exact hbits i hi
    · rw [BitVec.getLsbD_of_ge _ _ (by omega), decide_eq_false (by omega), decide_eq_false (by omega)]
      rfl
  have h2 : (2#32 : Word).getLsbD i = decide (i = 1) := by
    have hbits : ∀ i < 32, (2#32 : Word).getLsbD i = decide (i = 1) := by decide
    by_cases hi : i < 32
    · exact hbits i hi
    · rw [BitVec.getLsbD_of_ge _ _ (by omega), decide_eq_false (by omega)]
  unfold pte
  split_ifs with h
  · rw [BitVec.getLsbD_or, BitVec.getLsbD_or, getLsbD_frame, h101, h2, decide_eq_true h, Bool.and_true]
  · rw [BitVec.getLsbD_or, getLsbD_frame, h101, decide_eq_false h, Bool.and_false, Bool.or_false]

/-- The page at `esi` is outside of the text and of the constants, where a page that begins at their very end counts as theirs. -/
def Writable (l : BootLayout) (esi : ℕ) : Prop := esi < l.textStart ∨ l.rodataEnd < esi

instance (l : BootLayout) (esi : ℕ) : Decidable (Writable l esi) := inferInstanceAs (Decidable (_ ∨ _))

/-- The flags of a page of the kernel. -/
def flags (l : BootLayout) (f : ℕ) : Word := Word.packFlags true (decide (Writable l (f * 4096))) false true true false false

@[simp] theorem pte_present : (pte l (f * 4096)).present = true := by
  rw [Word.present, getLsbD_pte]
  rfl

@[simp] theorem pte_rw : (pte l (f * 4096)).rw = decide (Writable l (f * 4096)) := by
  rw [Word.rw, getLsbD_pte]
  rfl

@[simp] theorem pte_trapped : (pte l (f * 4096)).trapped = false := by
  rw [Word.trapped_eq, getLsbD_pte]
  rfl

theorem getFlags_pte : (pte l (f * 4096)).getFlags = flags l f := by
  have huser : (pte l (f * 4096)).user = false := by
    rw [Word.user, getLsbD_pte]
    rfl
  have hglobal : (pte l (f * 4096)).global = true := by
    rw [Word.global, getLsbD_pte]
    rfl
  have hncache : (pte l (f * 4096)).ncache = false := by
    rw [Word.ncache, getLsbD_pte]
    rfl
  have hwthru : (pte l (f * 4096)).wthru = false := by
    rw [Word.wthru, getLsbD_pte]
    rfl
  rw [Word.getFlags, pte_present, pte_rw, huser, hglobal, hncache, hwthru, pte_trapped]
  rfl

theorem pte_pt (hf : f < 1048576) : (pte l (f * 4096)).pt = f := by
  apply Nat.eq_of_testBit_eq
  intro j
  rw [Word.pt, BitField.testBit_getField, getLsbD_pte]
  by_cases hj : j < 20
  · rw [Nat.add_sub_cancel_left, decide_eq_true hj, decide_eq_true (show 12 + j < 32 by omega),
      decide_eq_true (Nat.le_add_right 12 j), decide_eq_false (show ¬ 12 + j = 0 by omega),
      decide_eq_false (show ¬ 12 + j = 8 by omega), decide_eq_false (show ¬ 12 + j = 1 by omega)]
    simp
  · have hlt : f < 2 ^ j :=
      Nat.lt_of_lt_of_le hf (Nat.pow_le_pow_right Nat.two_pos (Nat.le_of_not_lt hj))
    rw [Nat.testBit_lt_two_pow hlt, decide_eq_false hj, Bool.false_and]

theorem viewPte_pte (hf : f < 1048576) : viewPte (pte l (f * 4096)) = some (f, flags l f) := by
  rw [viewPte, if_neg (Word.ne_zero_of_present pte_present), pte_pt hf, getFlags_pte]

end Words

/-! The pages below the end of the kernel, one after the other. -/

/-- The directory lies in the image, behind the constants, and the image in the lowest GiB. -/
structure ImageFits (l : BootLayout) (edi : ℕ) : Prop where
  aligned : l.defaultPd % 4096 = 0
  behind : l.rodataEnd < l.defaultPd
  low : 0x100000 ≤ l.defaultPd
  inside : l.defaultPd + 4096 ≤ edi
  high : edi ≤ 0x3FE00000

/-- The first frame behind the image. -/
def firstFrame (edi : ℕ) : ℕ := (edi + 4095) / 4096

/-- The page tables that the pages from 256 up to `p` need. -/
def tableCount (p : ℕ) : ℕ := if p = 256 then 0 else (p + 1023) / 1024

/-- The pages from 256 up to `p` are mapped, with `c` page tables from the frame `n` on. `s` is the machine before. -/
structure Built (l : BootLayout) (pd n c p : ℕ) (s t : Machine) : Prop where
  self : t.mem pd 767 = Word.tableEntry pd
  low : ∀ i < 767, t.mem pd i = if i < c then Word.tableEntry (n + i) else 0#32
  high : ∀ i < 256, t.mem pd (768 + i) = if i < c then Word.tableEntry (n + i) else 0#32
  entry : ∀ j < c, ∀ k < 1024, t.mem (n + j) k =
    if 256 ≤ j * 1024 + k ∧ j * 1024 + k < p then pte l ((j * 1024 + k) * 4096) else 0#32
  rest : ∃ m, t = { s with mem := m }
  others : ∀ f, f ≠ pd → (f < n ∨ n + c ≤ f) → t.mem f = s.mem f

section Pages

variable {l : BootLayout} {pd n c p : ℕ} {s t : Machine} {b : Bootstrap}

theorem tableCount_succ (hp : 256 ≤ p) : tableCount (p + 1) = p / 1024 + 1 := by
  rw [tableCount, if_neg (by omega)]
  omega

/-- A page comes into the last table, or into a new one behind it. -/
theorem tableCount_cases (hp : 256 ≤ p) : p / 1024 < tableCount p ∧ tableCount (p + 1) = tableCount p ∨
    p / 1024 = tableCount p ∧ tableCount (p + 1) = tableCount p + 1 ∧ (p = 256 ∨ p = tableCount p * 1024) := by
  rw [tableCount_succ hp, tableCount]
  split_ifs <;> omega

/-- What a pass finds in the directory. -/
theorem phys_directory (hl : l.defaultPd = pd * 4096) (hpd : pd < 262144) (hlt : p < 262144) :
    w32 (l.defaultPd + p * 4096 / 4194304 * 4) = pd * 4096 + p / 1024 * 4 := by
  rw [hl, w32_of_lt (by omega)]
  omega

/-- An entry is set in a page table that is there. -/
theorem Built.setEntry (h : Built l pd n c p s t) (hpd : pd < n) (hc : p / 1024 < c) (hp : 256 ≤ p) :
    Built l pd n c (p + 1) s (t.set (n + p / 1024) (p % 1024) (pte l (p * 4096))) := by
  have hdir : (t.set (n + p / 1024) (p % 1024) (pte l (p * 4096))).mem pd = t.mem pd :=
    Machine.set_mem_of_ne _ _ _ _ (by omega)
  refine ⟨by rw [hdir]; exact h.self, fun i hi => by rw [hdir]; exact h.low i hi, fun i hi => by rw [hdir]; exact h.high i hi,
    fun j hj k hk => ?_, ?_, fun f hf hout => ?_⟩
  · rw [Machine.set_mem]
    by_cases hhere : n + j = n + p / 1024 ∧ k = p % 1024
    · have hpage : j * 1024 + k = p := by omega
      rw [if_pos hhere, hpage, if_pos (by omega)]
    · have hpage : j * 1024 + k ≠ p := by omega
      rw [if_neg hhere, h.entry j hj k hk]
      exact if_congr (by omega) rfl rfl
  · obtain ⟨m, rfl⟩ := h.rest
    exact ⟨_, rfl⟩
  · rw [Machine.set_mem_of_ne _ _ _ _ (by omega)]
    exact h.others f hf hout

/-- A page table is made, entered twice in the directory, and wiped. -/
theorem Built.newTable (h : Built l pd n c p s t) (hpd : pd < n) (hc : c < 256) (hp : p = 256 ∨ p = c * 1024) :
    Built l pd n (c + 1) p s (((t.set pd c (Word.tableEntry (n + c))).set pd (768 + c) (Word.tableEntry (n + c))).setFrame (n + c)
      fun _ => 0#32) := by
  have hdir : ∀ i, (((t.set pd c (Word.tableEntry (n + c))).set pd (768 + c) (Word.tableEntry (n + c))).setFrame (n + c)
      fun _ => 0#32).mem pd i = if i = 768 + c ∨ i = c then Word.tableEntry (n + c) else t.mem pd i := by
    intro i
    rw [Machine.setFrame_mem_of_ne _ _ (by omega), Machine.set_mem, Machine.set_mem]
    by_cases hi : i = 768 + c
    · rw [if_pos ⟨rfl, hi⟩, if_pos (.inl hi)]
    · rw [if_neg fun h => hi h.2]
      exact if_congr (by simp [hi]) rfl rfl
  have hother : ∀ f, f ≠ pd → f ≠ n + c → (((t.set pd c (Word.tableEntry (n + c))).set pd (768 + c)
      (Word.tableEntry (n + c))).setFrame (n + c) fun _ => 0#32).mem f = t.mem f := by
    intro f hf hfc
    rw [Machine.setFrame_mem_of_ne _ _ hfc, Machine.set_mem_of_ne _ _ _ _ hf, Machine.set_mem_of_ne _ _ _ _ hf]
  refine ⟨?_, fun i hi => ?_, fun i hi => ?_, fun j hj k hk => ?_, ?_, fun f hf hout => ?_⟩
  · rw [hdir, if_neg (by omega)]
    exact h.self
  · rw [hdir, h.low i hi]
    by_cases hic : i = c
    · rw [if_pos (.inr hic), if_pos (by omega), hic]
    · rw [if_neg (by omega)]
      exact if_congr (by omega) rfl rfl
  · rw [hdir, h.high i hi]
    by_cases hic : i = c
    · rw [if_pos (.inl (by omega)), if_pos (by omega), hic]
    · rw [if_neg (by omega)]
      exact if_congr (by omega) rfl rfl
  · by_cases hjc : j = c
    · rw [hjc, Machine.setFrame_mem_self, if_neg (by omega)]
    · rw [hother _ (by omega) (by omega), h.entry j (by omega) k hk]
  · obtain ⟨m, rfl⟩ := h.rest
    exact ⟨_, rfl⟩
  · rw [hother f hf (by omega)]
    exact h.others f hf (by omega)

/-- One pass of the loop. -/
theorem Built.mapPage (h : Built l pd n (tableCount p) p s b.machine) (hedi : b.edi = (n + tableCount p) * 4096)
    (hl : l.defaultPd = pd * 4096) (hpd : pd < n) (hp : 256 ≤ p) (hn : p < n) (hfit : n ≤ 261888) :
    Built l pd n (tableCount (p + 1)) (p + 1) s (mapPage l (p * 4096) b).machine ∧
      (mapPage l (p * 4096) b).edi = (n + tableCount (p + 1)) * 4096 := by
  have hdir := phys_directory hl (by omega : pd < 262144) (by omega : p < 262144)
  have hoff : p * 4096 / 4096 * 4 % 4096 = p % 1024 * 4 := by omega
  have hslot : p / 1024 < 256 := by omega
  have hentry := h.low (p / 1024) (by omega)
  unfold Bootstrap.mapPage
  dsimp only
  rw [hdir, phys_frame (by omega), hoff, hentry]
  rcases tableCount_cases hp with ⟨hold, hsame⟩ | ⟨hnew, hnext, hstart⟩
  · have hand : (Word.tableEntry (n + p / 1024) &&& 0xFFFFF000#32).toNat = (n + p / 1024) * 4096 := by
      rw [tableEntry_and, BitVec.toNat_ofNat]
      omega
    have hne : Word.tableEntry (n + p / 1024) &&& 0xFFFFF000#32 ≠ 0#32 := by
      intro hzero
      rw [hzero] at hand
      change 0 = _ at hand
      omega
    rw [if_pos hold, if_pos hne, hand, w32_of_lt (by omega), setPhys_frame (Nat.mod_lt _ (by decide)), hsame]
    exact ⟨h.setEntry hpd hold hp, hedi⟩
  · have hzero : (0#32 : Word) &&& 0xFFFFF000#32 = 0#32 := by decide
    have hhigh : w32 (pd * 4096 + p / 1024 * 4 + 768 * 4) = pd * 4096 + (768 + tableCount p) * 4 := by
      rw [w32_of_lt (by omega)]
      omega
    rw [if_neg (Nat.not_lt_of_le hnew.ge), hzero, if_neg (not_not.mpr rfl), hhigh, hnew, setPhys_frame (by omega),
      setPhys_frame (by omega), hedi, Nat.mul_div_cancel _ (by decide), w32_of_lt (by omega), w32_of_lt (by omega),
      setPhys_frame (Nat.mod_lt _ (by decide)), hnext]
    refine ⟨?_, show (n + tableCount p) * 4096 + 4096 = _ by omega⟩
    have hmade := (h.newTable hpd (by omega) hstart).setEntry hpd (by omega) hp
    rw [hnew] at hmade
    exact hmade

/-- The loop ends where the image does. -/
theorem Built.mapLoop (h : Built l pd n (tableCount p) p s b.machine) (hedi : b.edi = (n + tableCount p) * 4096)
    (hl : l.defaultPd = pd * 4096) (hpd : pd < n) (hp : 256 ≤ p) (hn : p < n) (hfit : n ≤ 261888) {fuel : ℕ}
    (hfuel : n ≤ fuel + p) : ∃ b', mapLoop l (n * 4096) fuel (p * 4096) b = some b' ∧
      Built l pd n (tableCount n) n s b'.machine ∧ b'.edi = (n + tableCount n) * 4096 := by
  induction fuel generalizing p b with
  | zero => omega
  | succ fuel ih =>
    obtain ⟨hnext, hedi'⟩ := h.mapPage hedi hl hpd hp hn hfit
    have hesi : w32 (p * 4096 + 0x1000) = (p + 1) * 4096 := by
      rw [w32_of_lt (by omega)]
      omega
    rw [Bootstrap.mapLoop, hesi]
    by_cases hmore : p + 1 < n
    · rw [if_pos (by omega)]
      exact ih hnext hedi' (by omega) hmore (by omega)
    · obtain rfl : p + 1 = n := by omega
      rw [if_neg (Nat.lt_irrefl _)]
      exact ⟨_, rfl, hnext, hedi'⟩

/-- Before the first page. -/
theorem built_start (hpd : l.defaultPd = pd * 4096) (hlt : pd < 262144) : Built l pd n (tableCount 256) 256 s
    ((s.setFrame (l.defaultPd / 4096) fun _ => 0#32).setPhys (w32 (pdPte * 4 + l.defaultPd))
      (BitVec.ofNat 32 (l.defaultPd ||| 3))) := by
  have hself : w32 (pdPte * 4 + l.defaultPd) = pd * 4096 + 767 * 4 := by
    rw [hpd, w32_of_lt (by unfold pdPte rmapStart; omega)]
    unfold pdPte rmapStart
    omega
  have hnone : tableCount 256 = 0 := rfl
  rw [hself, setPhys_frame (by decide), hpd, Nat.mul_div_cancel _ (by decide), hnone]
  refine ⟨?_, fun i hi => ?_, fun i hi => ?_, fun j hj => absurd hj (Nat.not_lt_zero j), ⟨_, rfl⟩, fun f hf _ => ?_⟩
  · exact Machine.set_mem_self _ _ _ _
  · rw [Machine.set_mem_of_ne_index _ _ _ _ _ (by omega), Machine.setFrame_mem_self, if_neg (Nat.not_lt_zero i)]
  · rw [Machine.set_mem_of_ne_index _ _ _ _ _ (by omega), Machine.setFrame_mem_self, if_neg (Nat.not_lt_zero i)]
  · rw [Machine.set_mem_of_ne _ _ _ _ hf, Machine.setFrame_mem_of_ne _ _ hf]

theorem vmm_run {edi : ℕ} (h : ImageFits l edi) (s : Machine) : ∃ b, vmm l ⟨s, edi⟩ = some b ∧
    Built l (l.defaultPd / 4096) (firstFrame edi) (tableCount (firstFrame edi)) (firstFrame edi)
      { s with vmmCurrent := l.defaultPd } b.machine ∧
    b.edi = (firstFrame edi + tableCount (firstFrame edi)) * 4096 := by
  obtain ⟨haligned, -, hlow, hinside, hhigh⟩ := h
  have hpd : l.defaultPd = l.defaultPd / 4096 * 4096 := by omega
  have hedi : (if edi % 4096 = 0 then edi else w32 (edi / 4096 * 4096 + 0x1000)) = firstFrame edi * 4096 := by
    rw [w32_of_lt (by omega), firstFrame]
    split_ifs <;> omega
  have hfirst : l.defaultPd / 4096 < firstFrame edi ∧ 256 < firstFrame edi ∧ firstFrame edi ≤ 261888 := by
    unfold firstFrame
    omega
  obtain ⟨hlt, hstart, hfit⟩ := hfirst
  obtain ⟨s₀, hs₀⟩ : ∃ s₀, (s.setFrame (l.defaultPd / 4096) fun _ => 0#32).setPhys (w32 (pdPte * 4 + l.defaultPd))
      (BitVec.ofNat 32 (l.defaultPd ||| 3)) = s₀ := ⟨_, rfl⟩
  have hbuilt₀ : Built l (l.defaultPd / 4096) (firstFrame edi) (tableCount 256) 256 s s₀ :=
    hs₀ ▸ built_start hpd (by omega)
  obtain ⟨b, hb, hbuilt, hend⟩ : ∃ b,
      mapLoop l (firstFrame edi * 4096) 1048576 (256 * 4096) ⟨s₀, firstFrame edi * 4096⟩ = some b ∧
      Built l (l.defaultPd / 4096) (firstFrame edi) (tableCount (firstFrame edi)) (firstFrame edi) s b.machine ∧
      b.edi = (firstFrame edi + tableCount (firstFrame edi)) * 4096 :=
    Built.mapLoop hbuilt₀ rfl hpd hlt (Nat.le_refl 256) hstart hfit (by omega)
  have hrun : vmm l ⟨s, edi⟩ = some { b with machine := { b.machine with vmmCurrent := l.defaultPd } } := by
    unfold vmm
    dsimp only
    rw [hedi, hs₀, show 0x100000 = 256 * 4096 from rfl, hb, Option.map_some]
  refine ⟨_, hrun, ?_, hend⟩
  obtain ⟨m, hm⟩ := hbuilt.rest
  exact ⟨hbuilt.self, hbuilt.low, hbuilt.high, hbuilt.entry, ⟨m, by rw [hm]⟩, hbuilt.others⟩

end Pages

/-! The higher half. -/

/-- `kernel_end` -/
def kernelEnd (edi : ℕ) : ℕ := (firstFrame edi + tableCount (firstFrame edi)) * 4096 + 0xC0000000

/-- The image in the higher half, with its page tables behind it, and nothing else. -/
structure Booted (l : BootLayout) (edi : ℕ) (t : Machine) : Prop where
  current : t.vmmCurrent = l.defaultPd
  kernelEnd : t.kernelEnd = kernelEnd edi
  self : t.mem (l.defaultPd / 4096) 767 = Word.tableEntry (l.defaultPd / 4096)
  low : ∀ i < 767, t.mem (l.defaultPd / 4096) i = 0#32
  high : ∀ i < 256, t.mem (l.defaultPd / 4096) (768 + i) =
    if i < tableCount (firstFrame edi) then Word.tableEntry (firstFrame edi + i) else 0#32
  entry : ∀ j < tableCount (firstFrame edi), ∀ k < 1024, t.mem (firstFrame edi + j) k =
    if 256 ≤ j * 1024 + k ∧ j * 1024 + k < firstFrame edi then pte l ((j * 1024 + k) * 4096) else 0#32

section Higher

variable {l : BootLayout} {edi p : ℕ} {s t : Machine}

theorem ImageFits.first (h : ImageFits l edi) : 256 ≤ l.defaultPd / 4096 ∧ l.defaultPd / 4096 < firstFrame edi ∧
    firstFrame edi ≤ 261632 ∧ tableCount (firstFrame edi) ≤ 256 := by
  obtain ⟨-, -, hlow, hinside, hhigh⟩ := h
  have hn : firstFrame edi ≤ 261632 := by
    unfold firstFrame
    omega
  refine ⟨by omega, by unfold firstFrame; omega, hn, ?_⟩
  unfold tableCount
  split_ifs <;> omega

/-- The directory can be written where the kernel finds it in the higher half. -/
theorem pageAt_defaultPd (h : ImageFits l edi) (hcur : t.vmmCurrent = l.defaultPd)
    (hhigh : ∀ i < 256, t.mem (l.defaultPd / 4096) (768 + i) =
      if i < tableCount (firstFrame edi) then Word.tableEntry (firstFrame edi + i) else 0#32)
    (hentry : ∀ j < tableCount (firstFrame edi), ∀ k < 1024, t.mem (firstFrame edi + j) k =
      if 256 ≤ j * 1024 + k ∧ j * 1024 + k < firstFrame edi then pte l ((j * 1024 + k) * 4096) else 0#32) :
    PageAt t true (w32 (l.defaultPd + 0xC0000000)) (l.defaultPd / 4096) := by
  obtain ⟨hfirst, hlt, hn, -⟩ := h.first
  have haligned := h.aligned
  obtain ⟨pd, hpd⟩ : ∃ pd, l.defaultPd / 4096 = pd := ⟨_, rfl⟩
  have hva : w32 (l.defaultPd + 0xC0000000) = (786432 + pd) * 4096 := by
    rw [w32_of_lt (by omega)]
    omega
  have hslot : pd / 1024 < tableCount (firstFrame edi) := by
    unfold tableCount
    split_ifs <;> omega
  have hpde := hhigh (pd / 1024) (by omega)
  rw [if_pos hslot] at hpde
  have hpte := hentry (pd / 1024) hslot (pd % 1024) (Nat.mod_lt _ (by decide))
  have hpage : pd / 1024 * 1024 + pd % 1024 = pd := by omega
  rw [hpage, if_pos (by omega)] at hpte
  have hcr3 : t.cr3 = pd := by rw [Machine.cr3, hcur, hpd]
  have hwrite : Writable l (pd * 4096) := .inr (by have := h.behind; omega)
  rw [hpd] at hpde ⊢
  rw [hva]
  refine ⟨Nat.mul_mod_left _ _, ?_⟩
  have h1 : (786432 + pd) * 4096 / 4194304 = 768 + pd / 1024 := by omega
  have h2 : (786432 + pd) * 4096 / 4096 % 1024 = pd % 1024 := by omega
  unfold mmu
  dsimp only
  rw [hcr3, h1, h2, hpde, Word.tableEntry_present, Word.tableEntry_rw, Word.tableEntry_pgsz,
    Word.tableEntry_pt (by omega), hpte, pte_present, pte_rw, pte_pt (by omega), decide_eq_true hwrite]
  rfl

/-- The entries of the directory below `i` are wiped. -/
def wipeDirectory (l : BootLayout) (i : ℕ) (t : Machine) : Machine :=
  { t with mem := fun f j => if f = l.defaultPd / 4096 ∧ j < i then 0#32 else t.mem f j }

theorem wipeDirectory_mem (t : Machine) {i j : ℕ} (hj : i ≤ j) (f : ℕ) : (wipeDirectory l i t).mem f j = t.mem f j :=
  if_neg (by omega)

theorem wipeDirectory_other (t : Machine) {i f : ℕ} (hf : f ≠ l.defaultPd / 4096) :
    (wipeDirectory l i t).mem f = t.mem f := funext fun _ => if_neg fun h => hf h.1

theorem set_wipeDirectory (t : Machine) (i : ℕ) :
    (wipeDirectory l i t).set (l.defaultPd / 4096) i 0#32 = wipeDirectory l (i + 1) t := by
  have hmem : ((wipeDirectory l i t).set (l.defaultPd / 4096) i 0#32).mem = (wipeDirectory l (i + 1) t).mem := by
    funext f j
    rw [Machine.set_mem]
    show (if f = l.defaultPd / 4096 ∧ j = i then 0#32 else if f = l.defaultPd / 4096 ∧ j < i then 0#32 else t.mem f j) =
      if f = l.defaultPd / 4096 ∧ j < i + 1 then 0#32 else t.mem f j
    by_cases hf : f = l.defaultPd / 4096
    · simp only [hf, true_and]
      split_ifs <;> first | rfl | omega
    · simp only [hf, false_and, if_false]
  exact congrArg (fun m => { t with mem := m }) hmem

/-- The loop that wipes the identity map goes through the higher half, which it leaves alone. -/
theorem wipe_run (h : ImageFits l edi) (hcur : t.vmmCurrent = l.defaultPd)
    (hhigh : ∀ i < 256, t.mem (l.defaultPd / 4096) (768 + i) =
      if i < tableCount (firstFrame edi) then Word.tableEntry (firstFrame edi + i) else 0#32)
    (hentry : ∀ j < tableCount (firstFrame edi), ∀ k < 1024, t.mem (firstFrame edi + j) k =
      if 256 ≤ j * 1024 + k ∧ j * 1024 + k < firstFrame edi then pte l ((j * 1024 + k) * 4096) else 0#32) :
    Comp.forRange (fun i => store (w32 (l.defaultPd + 0xC0000000) + 4 * i) 0#32) pdPte 0 t =
      some ((), wipeDirectory l 767 t) := by
  obtain ⟨-, hlt, -, -⟩ := h.first
  have hloop := @Comp.forRange_total Machine (fun i u => u = wipeDirectory l i t)
    (fun i => store (w32 (l.defaultPd + 0xC0000000) + 4 * i) 0#32) 767 0 ?_ t ?_
  · obtain ⟨u, hu, rfl⟩ := hloop
    exact hu
  · rintro i - hi u rfl
    have hpage : PageAt (wipeDirectory l i t) true (w32 (l.defaultPd + 0xC0000000)) (l.defaultPd / 4096) := by
      refine pageAt_defaultPd h hcur (fun k hk => ?_) fun j hj k hk => ?_
      · rw [wipeDirectory_mem _ (by omega)]
        exact hhigh k hk
      · rw [wipeDirectory_other _ (by omega)]
        exact hentry j hj k hk
    exact ⟨_, hpage.store (by omega) _, set_wipeDirectory t i⟩
  · have hmem : t.mem = (wipeDirectory l 0 t).mem := by
      funext f j
      exact (if_neg fun hno => absurd hno.2 (Nat.not_lt_zero j)).symm
    exact congrArg (fun m => { t with mem := m }) hmem

/-- The bootstrap code runs to its end. -/
theorem bootstrap_run (h : ImageFits l edi) (s : Machine) : ∃ t, bootstrap l edi s = some ((), t) ∧ Booted l edi t ∧
    t.pmmFrames = s.pmmFrames ∧ t.taskRing = s.taskRing := by
  obtain ⟨b, hb, hbuilt, hedi⟩ := vmm_run h s
  obtain ⟨-, hlt, hn, htables⟩ := h.first
  obtain ⟨m, hm⟩ := hbuilt.rest
  obtain ⟨t, ht⟩ : ∃ t, ({ b.machine with kernelEnd := w32 (b.edi + 0xC0000000) } : Machine) = t := ⟨_, rfl⟩
  have hmem : t.mem = b.machine.mem := by rw [← ht]
  have hcur : t.vmmCurrent = l.defaultPd := by rw [← ht, hm]
  have hwipe := wipe_run h hcur (fun i hi => by rw [hmem]; exact hbuilt.high i hi)
    fun j hj k hk => by rw [hmem]; exact hbuilt.entry j hj k hk
  have hrun : hstart l b.edi b.machine = some ((),
      { wipeDirectory l 767 t with vmmCurrent := l.defaultPd, vmmKernel := l.defaultPd }) := by
    unfold hstart
    rw [Comp.bind_of_eq (Comp.modify_apply _ _), ht, Comp.bind_of_eq hwipe, Comp.modify_apply]
  refine ⟨_, by rw [bootstrap, hb, Option.bind_some, hrun],
    ⟨rfl, ?_, ?_, fun i hi => ?_, fun i hi => ?_, fun j hj k hk => ?_⟩, ?_, ?_⟩
  · show t.kernelEnd = _
    rw [← ht, hedi, Bootstrap.kernelEnd]
    exact w32_of_lt (by omega)
  · show (wipeDirectory l 767 t).mem _ 767 = _
    rw [wipeDirectory_mem _ (Nat.le_refl _), hmem]
    exact hbuilt.self
  · exact if_pos ⟨rfl, hi⟩
  · show (wipeDirectory l 767 t).mem _ (768 + i) = _
    rw [wipeDirectory_mem _ (by omega), hmem]
    exact hbuilt.high i hi
  · show (wipeDirectory l 767 t).mem _ k = _
    rw [wipeDirectory_other _ (by omega), hmem]
    exact hbuilt.entry j hj k hk
  · show t.pmmFrames = _
    rw [← ht, hm]
  · show t.taskRing = _
    rw [← ht, hm]

/-- What a page outside of the recursive slot is mapped to. -/
def kernelPage (l : BootLayout) (edi p : ℕ) : Option (ℕ × Word) :=
  if 786688 ≤ p ∧ p < 786432 + firstFrame edi then some (p - 786432, flags l (p - 786432)) else none

/-- The entries that point to a page table. -/
theorem Booted.hasTable (h : Booted l edi t) {i : ℕ} (hi : i < 1024) (hne : i ≠ 767)
    (ht : (t.mem (l.defaultPd / 4096) i).HasTable) : ∃ k < tableCount (firstFrame edi), k < 256 ∧ i = 768 + k ∧
      t.mem (l.defaultPd / 4096) i = Word.tableEntry (firstFrame edi + k) := by
  by_cases hlow : i < 767
  · rw [h.low i hlow] at ht
    exact absurd ht Word.not_hasTable_zero
  · have hentry := h.high (i - 768) (by omega)
    have hi' : 768 + (i - 768) = i := by omega
    rw [hi'] at hentry
    by_cases hk : i - 768 < tableCount (firstFrame edi)
    · rw [if_pos hk] at hentry
      exact ⟨i - 768, hk, by omega, hi'.symm, hentry⟩
    · rw [if_neg hk] at hentry
      rw [hentry] at ht
      exact absurd ht Word.not_hasTable_zero

theorem Booted.not_pgsz (h : Booted l edi t) {i : ℕ} (hi : i < 1024) : (t.mem (l.defaultPd / 4096) i).pgsz = false := by
  by_cases hself : i = 767
  · rw [hself, h.self]
    exact Word.tableEntry_pgsz _
  by_cases hlow : i < 767
  · rw [h.low i hlow]
    rfl
  · have hentry := h.high (i - 768) (by omega)
    have hi' : 768 + (i - 768) = i := by omega
    rw [hi'] at hentry
    rw [hentry]
    split_ifs
    · exact Word.tableEntry_pgsz _
    · rfl

theorem tableEntry_hasTable (f : ℕ) : (Word.tableEntry f).HasTable :=
  .of_present (Word.tableEntry_present f) (Word.tableEntry_pgsz f)

theorem Booted.view_eq (h : Booted l edi t) (hfits : ImageFits l edi) (hp : Regular p) :
    view t.mem (l.defaultPd / 4096) p = kernelPage l edi p := by
  obtain ⟨-, -, hn, -⟩ := hfits.first
  obtain ⟨hlt, hne⟩ := hp
  rw [view_of_not_pgsz (h.not_pgsz (by omega)), kernelPage]
  by_cases ht : (t.mem (l.defaultPd / 4096) (p / 1024)).HasTable
  · obtain ⟨k, hk, hk256, hi, hentry⟩ := h.hasTable (by omega) hne ht
    rw [pteAt_of_hasTable ht, hentry, Word.tableEntry_pt (by omega), h.entry k hk _ (Nat.mod_lt _ (by decide))]
    have hpage : k * 1024 + p % 1024 = p - 786432 := by omega
    rw [hpage]
    by_cases hin : 256 ≤ p - 786432 ∧ p - 786432 < firstFrame edi
    · rw [if_pos hin, if_pos (by omega)]
      exact viewPte_pte (by omega)
    · rw [if_neg hin, if_neg (by omega)]
      rfl
  · rw [pteAt_of_not_hasTable ht, if_neg]
    · rfl
    · -- a page of the image has a page table
      rintro ⟨hge, hin⟩
      have hslot : (p - 786432) / 1024 < tableCount (firstFrame edi) := by
        unfold tableCount
        split_ifs <;> omega
      have hentry := h.high ((p - 786432) / 1024) (by omega)
      have hi : 768 + (p - 786432) / 1024 = p / 1024 := by omega
      rw [if_pos hslot, hi] at hentry
      rw [hentry] at ht
      exact ht (tableEntry_hasTable _)

/-- The tables are well formed where the frames from the first MiB up to the end of the kernel are marked. -/
theorem Booted.tables (h : Booted l edi t) (hfits : ImageFits l edi) (hframes : t.pmmFrames ≤ 1048576)
    (hused : ∀ f, 256 ≤ f → f < firstFrame edi + tableCount (firstFrame edi) → used t f) :
    Tables {l.defaultPd / 4096} {l.defaultPd / 4096} t := by
  obtain ⟨hfirst, hlt, hn, htables⟩ := hfits.first
  refine ⟨hframes, subset_rfl, ?_, ?_, ?_, ?_, ?_, ?_, ?_⟩
  · rintro v rfl
    exact ⟨hused _ hfirst (by omega), by omega⟩
  · rintro v rfl
    refine ⟨?_, ?_, ?_, ?_⟩ <;> rw [h.self]
    · exact Word.tableEntry_present _
    · exact Word.tableEntry_rw _
    · exact Word.tableEntry_pgsz _
    · exact Word.tableEntry_pt (by omega)
  · rintro v rfl i hi hne ht
    obtain ⟨k, -, -, -, hentry⟩ := h.hasTable hi hne ht
    rw [hentry]
    exact Word.tableEntry_present _
  · rintro v rfl i hi hne ht
    obtain ⟨k, -, -, -, hentry⟩ := h.hasTable hi hne ht
    rw [hentry]
    exact Word.tableEntry_rw _
  · rintro v rfl i hi hne ht
    obtain ⟨k, hk, -, -, hentry⟩ := h.hasTable hi hne ht
    rw [hentry, Word.tableEntry_pt (by omega)]
    exact hused _ (by omega) (by omega)
  · rintro v rfl i hi hne ht hdir
    obtain ⟨k, hk, -, -, hentry⟩ := h.hasTable hi hne ht
    rw [hentry, Word.tableEntry_pt (by omega)] at hdir
    have heq : firstFrame edi + k = l.defaultPd / 4096 := hdir
    omega
  · rintro v rfl w rfl i hi j hj hne hne' ht ht' heq
    obtain ⟨k, hk, -, hki, hentry⟩ := h.hasTable hi hne ht
    obtain ⟨k', hk', -, hkj, hentry'⟩ := h.hasTable hj hne' ht'
    rw [hentry, hentry', Word.tableEntry_pt (by omega), Word.tableEntry_pt (by omega)] at heq
    exact ⟨by omega, .inl rfl⟩

theorem Booted.cr3_eq (h : Booted l edi t) : t.cr3 = l.defaultPd / 4096 := congrArg (· / 4096) h.current

/-- The first VMM of the kernel, before there are tasks. -/
theorem Booted.own (h : Booted l edi t) (hfits : ImageFits l edi) (hframes : t.pmmFrames ≤ 1048576) (hring : t.taskRing = [])
    (hused : ∀ f, 256 ≤ f → f < firstFrame edi + tableCount (firstFrame edi) → used t f) :
    OwnVmm {t.cr3} t ∧ PsePresent t ∧ NoTrapped t := by
  have haligned := hfits.aligned
  have hnone : kernelVmm t = none := by
    unfold kernelVmm
    rw [hring]
    rfl
  refine ⟨⟨?_, ?_, fun k hk => ?_, fun _ hnil => absurd hring hnil⟩, fun i hi _ hsz => ?_, fun p hp x hx => ?_⟩
  · rw [h.cr3_eq]
    exact h.tables hfits hframes hused
  · rw [h.cr3_eq, h.current]
    omega
  · rw [hnone] at hk
    cases hk
  · rw [h.cr3_eq, h.not_pgsz hi] at hsz
    cases hsz
  · rw [h.cr3_eq, h.view_eq hfits hp, kernelPage] at hx
    split_ifs at hx
    · obtain rfl : _ = x := Option.some.inj hx
      show (flags l _).getLsbD 6 = false
      rw [flags, Word.getLsbD_packFlags]
      rfl
    · cases hx

/-- An access to the image in the higher half. -/
theorem Booted.mmu_eq (h : Booted l edi t) (hfits : ImageFits l edi) {a : ℕ} (ha : 0x100000 ≤ a) (hlt : a < edi) (w : Bool) :
    mmu t.mem t.cr3 w (0xC0000000 + a) =
      if w = true ∧ ¬ Writable l (a / 4096 * 4096) then none else some (a / 4096) := by
  obtain ⟨-, -, hn, -⟩ := hfits.first
  have hpage : a / 4096 < firstFrame edi := by
    unfold firstFrame
    omega
  have hslot : a / 4096 / 1024 < tableCount (firstFrame edi) := by
    unfold tableCount
    split_ifs <;> omega
  have hpde := h.high (a / 4096 / 1024) (by omega)
  rw [if_pos hslot] at hpde
  have hpte := h.entry _ hslot (a / 4096 % 1024) (Nat.mod_lt _ (by decide))
  have hjoin : a / 4096 / 1024 * 1024 + a / 4096 % 1024 = a / 4096 := by omega
  rw [hjoin, if_pos (by omega)] at hpte
  have h1 : (0xC0000000 + a) / 4194304 = 768 + a / 4096 / 1024 := by omega
  have h2 : (0xC0000000 + a) / 4096 % 1024 = a / 4096 % 1024 := by omega
  unfold mmu
  dsimp only
  rw [h.cr3_eq, h1, h2, hpde, Word.tableEntry_present, Word.tableEntry_rw, Word.tableEntry_pgsz,
    Word.tableEntry_pt (by omega), hpte, pte_present, pte_rw, pte_pt (by omega)]
  simp

/-- The text and the constants are protected. The data, which begin with the page behind the constants, can be written unless the
constants end with a page. -/
theorem data_writable_iff (h : ImageFits l edi) (htext : 0x100000 ≤ l.textStart) (hrodata : l.textStart ≤ l.rodataEnd)
    (s : Machine) : ∃ t, bootstrap l edi s = some ((), t) ∧
      (∀ a, (l.textStart + 4095) / 4096 * 4096 ≤ a → a < l.rodataEnd →
        mmu t.mem t.cr3 false (0xC0000000 + a) = some (a / 4096) ∧ mmu t.mem t.cr3 true (0xC0000000 + a) = none) ∧
      ((∀ a, (l.rodataEnd + 4095) / 4096 * 4096 ≤ a → a < edi →
          mmu t.mem t.cr3 true (0xC0000000 + a) = some (a / 4096)) ↔ l.rodataEnd % 4096 ≠ 0) := by
  obtain ⟨t, ht, hbooted, -, -⟩ := bootstrap_run h s
  obtain ⟨-, hbehind, -, hinside, -⟩ := id h
  refine ⟨t, ht, fun a hlow hhigh => ?_, fun hall hdiv => ?_, fun hdiv a hlow hlt => ?_⟩
  · have hprotected : ¬ Writable l (a / 4096 * 4096) := by
      rintro (hno | hno) <;> omega
    rw [hbooted.mmu_eq h (by omega) (by omega), hbooted.mmu_eq h (by omega) (by omega),
      if_neg (fun hw => Bool.false_ne_true hw.1), if_pos ⟨rfl, hprotected⟩]
    exact ⟨rfl, rfl⟩
  · -- the first page of the data counts as one of the constants
    have hprotected : ¬ Writable l (l.rodataEnd / 4096 * 4096) := by
      rintro (hno | hno) <;> omega
    have hfirst := hall l.rodataEnd (by omega) (by omega)
    rw [hbooted.mmu_eq h (by omega) (by omega), if_pos ⟨rfl, hprotected⟩] at hfirst
    cases hfirst
  · rw [hbooted.mmu_eq h (by omega) hlt, if_neg]
    rintro ⟨-, hno⟩
    exact hno (.inr (by omega))

end Higher

end Bootstrap

/-! The frames. -/

section Frames

variable {u s t : Machine} {b : Boot} {l : BootLayout} {edi : ℕ}

theorem keeps_setBitmap (frame : ℕ) (c : Bool) (h : ∃ bm, s = { u with pmmBitmap := bm }) :
    ∃ bm, s.setBitmap frame c = { u with pmmBitmap := bm } := by
  obtain ⟨bm, rfl⟩ := h
  exact ⟨_, rfl⟩

theorem keeps_pmmAlloc (frame : ℕ) : Comp.Keeps (fun s => ∃ bm, s = { u with pmmBitmap := bm }) (pmmAlloc frame) :=
  .bind (.read _ _) fun _ => .ite (fun _ => .pure _ _) fun _ =>
    .bind (.modify fun _ h => keeps_setBitmap frame true h) fun _ => .pure _ _

theorem keeps_pmmFree (frame : ℕ) : Comp.Keeps (fun s => ∃ bm, s = { u with pmmBitmap := bm }) (pmmFree frame) :=
  .modify fun _ h => keeps_setBitmap frame false h

theorem keeps_pmmInitEntry (entry : MmapEntry) :
    Comp.Keeps (fun s => ∃ bm, s = { u with pmmBitmap := bm }) (pmmInitEntry b entry) :=
  .when fun _ => .forRange (fun i => .when fun _ => keeps_pmmFree i) _ _

theorem keeps_pmmInitScan (fuel : ℕ) : ∀ entry,
    Comp.Keeps (fun s => ∃ bm, s = { u with pmmBitmap := bm }) (pmmInitScan b fuel entry) := by
  induction fuel with
  | zero => exact fun _ => .fault _
  | succ fuel ih => exact fun _ => .ite (fun _ => .pure _ _) fun _ => .bind (keeps_pmmInitEntry _) fun _ => ih _

/-- Nothing but the bitmap changes. -/
theorem keeps_pmmInit : Comp.Keeps (fun s => ∃ bm, s = { u with pmmBitmap := bm }) (pmmInit b) := by
  unfold pmmInit
  cases b.mbInfo with
  | none => exact .fault _
  | some info =>
    exact .bind (.when fun _ => keeps_pmmInitScan _ _) fun _ =>
      .forRange (fun i => .bind (keeps_pmmAlloc i) fun _ => .pure _ _) _ _

/-- `pmm_init` marks the frames of the image and of its page tables, whatever the boot loader says about them. -/
theorem pmmInit_used {info : MultibootInfo} {entries : List MmapEntry} (hmap : IsMemoryMap b info entries) (hne : entries ≠ [])
    (hstart : b.preStart = 0x100000) (s : Machine) : ∃ t bm, pmmInit b s = some ((), t) ∧ t = { s with pmmBitmap := bm } ∧
      ∀ f, 256 ≤ f → f < b.imageEnd / 4096 → used t f := by
  have hflag : info.flags.testBit 6 = true := by
    by_contra hf
    exact hne (hmap.none (by simpa using hf))
  obtain ⟨hpos, hrange⟩ := hmap.range hflag
  obtain ⟨reads, hreads, -⟩ := reads_of_mapAt hmap.mbInfo hrange hpos hne (hmap.entries hflag)
  obtain ⟨t, ht, hbits⟩ := pmmInit_run hmap.mbInfo (fun _ => by omega) (fun _ => hreads)
    (fun hf => by rw [hflag] at hf; cases hf) s
  obtain ⟨bm, hbm⟩ := keeps_pmmInit s () t ⟨s.pmmBitmap, rfl⟩ ht
  refine ⟨t, bm, ht, hbm, fun f hlow hf => ?_⟩
  by_contra hfree
  have hbit : pmmBit t.pmmBitmap f = false := by simpa [used] using hfree
  exact ((hbits f).mp hbit).1 ⟨by rw [hstart]; exact hlow, hf⟩

open Bootstrap

/-- The kernel starts with well-formed tables of its own, from which the calls on pages can go on, and which map the image with its
modules at 3 GiB and nothing else. -/
theorem boot_pages {info : MultibootInfo} {entries : List MmapEntry} {mem : ℕ → UInt8} (n : ℕ) (h : ImageFits l edi)
    (hring : s.taskRing = []) (hframes : s.pmmFrames ≤ 1048576)
    (hmap : IsMemoryMap ⟨some info, mem, 0x100000, kernelEnd edi⟩ info entries) (hne : entries ≠ []) :
    ∃ t, startMemory l edi (some info) mem s = some ((), t) ∧
      PageRun (callees (n + 1)) {t.cr3} PageCall.Plain t (view t.mem t.cr3) ∧
      ∀ p ∈ regular, view t.mem t.cr3 p = kernelPage l edi p := by
  obtain ⟨u, hu, hbooted, hsame, hempty⟩ := bootstrap_run h s
  obtain ⟨t, bm, ht, hbm, hused⟩ := pmmInit_used hmap hne rfl u
  have hend : Boot.imageEnd ⟨some info, mem, 0x100000, kernelEnd edi⟩ / 4096 = firstFrame edi + tableCount (firstFrame edi) := by
    obtain ⟨-, -, hn, htables⟩ := h.first
    show w32 (kernelEnd edi + (4294967296 - 0xC0000000)) / 4096 = _
    unfold kernelEnd w32
    omega
  rw [hend] at hused
  have hbooted' : Booted l edi t := by
    rw [hbm]
    exact ⟨hbooted.current, hbooted.kernelEnd, hbooted.self, hbooted.low, hbooted.high, hbooted.entry⟩
  have hframes' : t.pmmFrames ≤ 1048576 := by
    rw [hbm]
    exact hsame.trans_le hframes
  have hring' : t.taskRing = [] := by
    rw [hbm]
    exact hempty.trans hring
  obtain ⟨hown, huge, hplain⟩ := hbooted'.own h hframes' hring' hused
  refine ⟨t, ?_, .start hown huge hplain, fun p hp => ?_⟩
  · rw [startMemory, Comp.bind_of_eq hu, Comp.read_bind, hbooted.kernelEnd]
    exact ht
  · rw [hbooted'.cr3_eq]
    exact hbooted'.view_eq h hp

end Frames

/-- A kernel of a bit more than half a MiB. -/
def sampleLayout : BootLayout := ⟨0x180000, 0x101000, 0x140800⟩

theorem sampleLayout_fits : Bootstrap.ImageFits sampleLayout 0x190010 :=
  ⟨by decide, by decide, by decide, by decide, by decide⟩

theorem data_writable_sample : ∃ t, bootstrap sampleLayout 0x190010 allUsed = some ((), t) ∧
    (∀ a, 0x101000 ≤ a → a < 0x140800 → mmu t.mem t.cr3 false (0xC0000000 + a) = some (a / 4096) ∧
      mmu t.mem t.cr3 true (0xC0000000 + a) = none) ∧
    ((∀ a, 0x141000 ≤ a → a < 0x190010 → mmu t.mem t.cr3 true (0xC0000000 + a) = some (a / 4096)) ↔ 0x140800 % 4096 ≠ 0) :=
  Bootstrap.data_writable_iff sampleLayout_fits (by decide) (by decide) allUsed

theorem boot_pages_sample : ∃ t,
    startMemory sampleLayout 0x190010 (some ⟨64, 24, 64⟩) (sampleMap 0x200000).mem allUsed = some ((), t) ∧
    PageRun (callees 1) {t.cr3} PageCall.Plain t (view t.mem t.cr3) ∧
    ∀ p ∈ regular, view t.mem t.cr3 p = Bootstrap.kernelPage sampleLayout 0x190010 p :=
  boot_pages 0 sampleLayout_fits rfl (by decide)
    ⟨rfl, sampleMap_isMemoryMap_low.none, sampleMap_isMemoryMap_low.range, sampleMap_isMemoryMap_low.entries⟩
    (List.cons_ne_nil _ _)

end SysX
