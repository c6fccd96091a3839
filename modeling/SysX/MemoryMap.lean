import SysX.Pmm
import SysX.Lib.Bytes
import SysX.Lib.Walk

/-!
What `pmm_init` makes of the memory map of the boot loader. A frame is freed when it begins at or below the end
of an entry, so that the first frame of an entry need not lie in it, and an entry that goes beyond the low
4 GiB is passed over as a whole.
-/
namespace SysX

/-- `struct multiboot_mmap_entry` -/
structure MmapEntry where
  size : ℕ
  addrL : ℕ
  addrH : ℕ
  lenL : ℕ
  lenH : ℕ
  type : ℕ
deriving DecidableEq, Repr

structure MultibootInfo where
  flags : ℕ
  mmapLength : ℕ
  mmapAddr : ℕ
deriving DecidableEq, Repr

/-- What the kernel starts with: `mb_info`, the memory that it reads, `&__pre_start` and `kernel_end`. -/
structure Boot where
  mbInfo : Option MultibootInfo
  mem : ℕ → UInt8
  preStart : ℕ
  kernelEnd : ℕ

def memoryAvailable : ℕ := 1

def dwordAt (mem : ℕ → UInt8) (a : ℕ) : ℕ := readLe mem (fun i => w32 (a + i)) 4

def mmapEntryAt (mem : ℕ → UInt8) (a : ℕ) : MmapEntry where
  size := dwordAt mem a
  addrL := dwordAt mem (a + 4)
  addrH := dwordAt mem (a + 8)
  lenL := dwordAt mem (a + 12)
  lenH := dwordAt mem (a + 16)
  type := dwordAt mem (a + 20)

/-- The next entry, or 0 for `NULL`. -/
def mbTraverseMmap (b : Boot) (prev : ℕ) : ℕ :=
  match b.mbInfo with
  | none => 0
  | some info =>
    if prev = 0 then info.mmapAddr
    else
      let ret := w32 (prev + (mmapEntryAt b.mem prev).size + 4)
      if w32 (info.mmapAddr + info.mmapLength) ≤ ret then 0 else ret

/-- The frames that are freed for one entry. -/
def pmmInitEntry (b : Boot) (entry : MmapEntry) : Kernel Unit :=
  Comp.when (entry.addrH = 0 ∧ entry.lenH = 0 ∧ entry.type = memoryAvailable) do
    let frameLo := entry.addrL / 4096
    let frameHi := w32 (entry.addrL + entry.lenL) / 4096
    Comp.forRange (fun i => Comp.when (b.preStart / 4096 ≤ i) (pmmFree i)) (frameHi - frameLo) frameLo

/-- More than `2 ^ 32` entries would repeat an address, so a scan that uses up the fuel never ends. -/
def pmmInitScan (b : Boot) : (fuel entry : ℕ) → Kernel Unit
  | 0, _ => Comp.fault
  | fuel + 1, entry =>
    if entry = 0 then pure ()
    else do
      pmmInitEntry b (mmapEntryAt b.mem entry)
      pmmInitScan b fuel (mbTraverseMmap b entry)

/-- `kernel_end - 0xC0000000` -/
def Boot.imageEnd (b : Boot) : ℕ := w32 (b.kernelEnd + (4294967296 - 0xC0000000))

def pmmInit (b : Boot) : Kernel Unit :=
  match b.mbInfo with
  | none => Comp.fault
  | some info => do
    Comp.when (info.flags.testBit 6) (pmmInitScan b loopFuel (mbTraverseMmap b 0))
    let lo := b.preStart / 4096
    Comp.forRange (fun frame => do let _ ← pmmAlloc frame; pure ()) (b.imageEnd / 4096 - lo) lo

/-! The memory map as data. -/

/-- The entries lie one after the other from `a` to `stop`. -/
def MapAt (mem : ℕ → UInt8) (stop : ℕ) : ℕ → List MmapEntry → Prop
  | a, [] => a = stop
  | a, e :: es => mmapEntryAt mem a = e ∧ 20 ≤ e.size ∧ MapAt mem stop (a + e.size + 4) es

/-- The boot loader hands over this memory map; without bit 6 of the flags there is none. -/
structure IsMemoryMap (b : Boot) (info : MultibootInfo) (entries : List MmapEntry) : Prop where
  mbInfo : b.mbInfo = some info
  none : info.flags.testBit 6 = false → entries = []
  range : info.flags.testBit 6 = true →
    0 < info.mmapAddr ∧ info.mmapAddr + info.mmapLength < 4294967296
  entries : info.flags.testBit 6 = true →
    MapAt b.mem (info.mmapAddr + info.mmapLength) info.mmapAddr entries

namespace MmapEntry

def base (e : MmapEntry) : ℕ := e.addrH * 4294967296 + e.addrL

def len (e : MmapEntry) : ℕ := e.lenH * 4294967296 + e.lenL

def Available (e : MmapEntry) : Prop := e.type = memoryAvailable

/-- All bytes of the frame lie in the entry. -/
def Contains (e : MmapEntry) (f : ℕ) : Prop :=
  e.base ≤ f * 4096 ∧ (f + 1) * 4096 ≤ e.base + e.len

/-- An entry of available memory that ends below 4 GiB. -/
def Low (e : MmapEntry) : Prop :=
  e.Available ∧ e.addrH = 0 ∧ e.lenH = 0 ∧ e.addrL + e.lenL < 4294967296

/-- The entry has bytes at or before the start of the frame, or in it, and goes up to its end at least. -/
def EndsBehind (e : MmapEntry) (f : ℕ) : Prop :=
  e.addrL / 4096 ≤ f ∧ (f + 1) * 4096 ≤ e.addrL + e.lenL

/-- The scan frees the frame for this entry. -/
def Marks (e : MmapEntry) (f : ℕ) : Prop :=
  (e.addrH = 0 ∧ e.lenH = 0 ∧ e.type = memoryAvailable) ∧
    e.addrL / 4096 ≤ f ∧ f < w32 (e.addrL + e.lenL) / 4096

end MmapEntry

/-- Some byte of the frame belongs to `[__pre_start, kernel_end - 0xC0000000)`. -/
def Boot.InImage (b : Boot) (f : ℕ) : Prop :=
  ∃ a, f * 4096 ≤ a ∧ a < (f + 1) * 4096 ∧ b.preStart ≤ a ∧ a < b.imageEnd

/-- A frame that may be free at all. -/
def Boot.Usable (b : Boot) (f : ℕ) : Prop := b.preStart / 4096 ≤ f ∧ ¬ b.InImage f

/-- The addresses of the entries that a scan from `a` on reads. -/
abbrev Boot.Reads (b : Boot) : ℕ → List ℕ → Prop := Walk (· = 0) fun a => some (mbTraverseMmap b a)

/-! The scan, entry by entry. -/

theorem dwordAt_lt (mem : ℕ → UInt8) (a : ℕ) : dwordAt mem a < 4294967296 :=
  readLe_lt mem (fun i => w32 (a + i)) 4

theorem pmmFreeRange_run (s : Machine) (pre n lo : ℕ) :
    ∃ t, Comp.forRange (fun i => Comp.when (pre ≤ i) (pmmFree i)) n lo s = some ((), t) ∧
      ∀ f, pmmBit t.pmmBitmap f = false ↔
        (pre ≤ f ∧ lo ≤ f ∧ f < lo + n) ∨ pmmBit s.pmmBitmap f = false := by
  have hloop := @Comp.forRange_total Machine
    (fun i t => ∀ f, pmmBit t.pmmBitmap f = false ↔
      (pre ≤ f ∧ lo ≤ f ∧ f < i) ∨ pmmBit s.pmmBitmap f = false)
    (fun i => Comp.when (pre ≤ i) (pmmFree i)) n lo ?_ s fun f => by
      constructor
      · exact .inr
      · rintro (h | h)
        · omega
        · exact h
  · exact hloop
  · intro i hlo hi t ht
    by_cases hpre : pre ≤ i
    · refine ⟨t.setBitmap i false, by rw [Comp.when_true hpre]; rfl, fun f => ?_⟩
      rw [pmmBit_setBitmap]
      by_cases hf : f = i
      · simp [hf, hpre, hlo]
      · rw [if_neg hf, ht]
        constructor <;> rintro (h | h)
        · exact .inl (by omega)
        · exact .inr h
        · exact .inl (by omega)
        · exact .inr h
    · refine ⟨t, by rw [Comp.when_false hpre]; rfl, fun f => ?_⟩
      rw [ht]
      constructor <;> rintro (h | h)
      · exact .inl (by omega)
      · exact .inr h
      · exact .inl (by omega)
      · exact .inr h

/-- One entry clears the bits of the frames that it marks, from `__pre_start` on. -/
theorem pmmInitEntry_run (b : Boot) (e : MmapEntry) (s : Machine) :
    ∃ t, pmmInitEntry b e s = some ((), t) ∧ ∀ f, pmmBit t.pmmBitmap f = false ↔
      (b.preStart / 4096 ≤ f ∧ e.Marks f) ∨ pmmBit s.pmmBitmap f = false := by
  by_cases hc : e.addrH = 0 ∧ e.lenH = 0 ∧ e.type = memoryAvailable
  · have hrun := pmmFreeRange_run s (b.preStart / 4096)
      (w32 (e.addrL + e.lenL) / 4096 - e.addrL / 4096) (e.addrL / 4096)
    obtain ⟨t, ht, hbits⟩ := hrun
    refine ⟨t, by rw [pmmInitEntry, Comp.when_true hc]; exact ht, fun f => ?_⟩
    rw [hbits, MmapEntry.Marks, and_iff_right hc]
    refine or_congr_left ⟨?_, ?_⟩ <;> rintro ⟨h1, h2, h3⟩ <;> exact ⟨h1, h2, by omega⟩
  · refine ⟨s, by rw [pmmInitEntry, Comp.when_false hc]; rfl, fun f => ?_⟩
    have hm : ¬ e.Marks f := fun h => hc h.1
    simp [hm]

/-- The scan ends when the entries do, and clears the bits that one of them marks. -/
theorem pmmInitScan_run (b : Boot) {a : ℕ} {l : List ℕ} (h : b.Reads a l) :
    ∀ (fuel : ℕ) (s : Machine), l.length < fuel →
      ∃ t, pmmInitScan b fuel a s = some ((), t) ∧ ∀ f, pmmBit t.pmmBitmap f = false ↔
        (b.preStart / 4096 ≤ f ∧ ∃ x ∈ l, (mmapEntryAt b.mem x).Marks f) ∨
          pmmBit s.pmmBitmap f = false := by
  induction h with
  | @done a hstop =>
    intro fuel s hfuel
    obtain ⟨n, rfl⟩ := Nat.exists_eq_succ_of_ne_zero (Nat.ne_of_gt hfuel)
    exact ⟨s, by rw [pmmInitScan, if_pos hstop]; rfl, fun f => by simp⟩
  | @step a c l hgo hnext hrest ih =>
    intro fuel s hfuel
    rw [List.length_cons] at hfuel
    obtain ⟨n, rfl⟩ := Nat.exists_eq_succ_of_ne_zero (n := fuel) (by omega)
    obtain ⟨u, hu, hubits⟩ := pmmInitEntry_run b (mmapEntryAt b.mem a) s
    obtain ⟨t, ht, hbits⟩ := ih n u (by omega)
    refine ⟨t, ?_, fun f => ?_⟩
    · cases hnext
      rw [pmmInitScan, if_neg hgo, Comp.bind_of_eq hu]
      exact ht
    · rw [hbits, hubits]
      simp only [List.mem_cons, exists_eq_or_imp]
      rw [or_left_comm, and_or_left, or_assoc]

/-- A scan that ends has read the entries of a walk. -/
theorem reads_of_pmmInitScan (b : Boot) {fuel a : ℕ} {s t : Machine}
    (h : pmmInitScan b fuel a s = some ((), t)) : ∃ l, b.Reads a l := by
  induction fuel generalizing a s with
  | zero => cases h
  | succ n ih =>
    rw [pmmInitScan] at h
    by_cases ha : a = 0
    · exact ⟨[], .done ha⟩
    · rw [if_neg ha] at h
      obtain ⟨_, u, _, hu⟩ := Comp.bind_eq_some.mp h
      obtain ⟨l, hl⟩ := ih hu
      exact ⟨a :: l, .step ha rfl hl⟩

theorem mbTraverseMmap_lt (b : Boot) {info : MultibootInfo} (hi : b.mbInfo = some info)
    (ha : info.mmapAddr < 4294967296) (prev : ℕ) : mbTraverseMmap b prev < 4294967296 := by
  simp only [mbTraverseMmap, hi]
  split_ifs
  · exact ha
  · exact Nat.two_pow_pos 32
  · exact Nat.mod_lt _ (Nat.two_pow_pos 32)

/-- The fuel is enough for every scan that ends, since no address comes twice. -/
theorem Boot.Reads.length_lt {b : Boot} {info : MultibootInfo} (hi : b.mbInfo = some info)
    (ha : info.mmapAddr < 4294967296) {l : List ℕ} (h : b.Reads info.mmapAddr l) :
    l.length < loopFuel := by
  have hmem := h.forall_mem (P := (· < 4294967296)) ha fun x y hxy _ => by
    cases hxy
    exact mbTraverseMmap_lt b hi ha x
  have hnodup : (0 :: l).Nodup := List.nodup_cons.mpr ⟨fun h0 => (hmem 0 h0).2 rfl, h.nodup⟩
  have hlen := length_le_of_mod (k := 1) (n := 4294967296) (r := 0) hnodup fun x hx => by
    rcases List.mem_cons.mp hx with rfl | hx
    · simp
    · have := (hmem x hx).1
      omega
  unfold loopFuel
  rw [List.length_cons] at hlen
  omega

/-- Marking the frames of the kernel image sets exactly their bits. -/
theorem pmmAllocFrames_run (s : Machine) (n lo : ℕ) :
    ∃ t, Comp.forRange (fun frame => do let _ ← pmmAlloc frame; pure ()) n lo s = some ((), t) ∧
      ∀ f, pmmBit t.pmmBitmap f = false ↔ ¬ (lo ≤ f ∧ f < lo + n) ∧ pmmBit s.pmmBitmap f = false := by
  have hloop := @Comp.forRange_total Machine
    (fun i t => ∀ f, pmmBit t.pmmBitmap f = false ↔
      ¬ (lo ≤ f ∧ f < i) ∧ pmmBit s.pmmBitmap f = false)
    (fun frame => do let _ ← pmmAlloc frame; pure ()) n lo ?_ s fun f => by
      rw [and_iff_right (by omega)]
  · exact hloop
  · intro i hlo hi t ht
    obtain ⟨r, u, hu, -, hbits⟩ := pmmAlloc_run t i
    refine ⟨u, by rw [Comp.bind_of_eq hu]; rfl, fun f => ?_⟩
    rw [hbits]
    simp only [Bool.or_eq_false_iff, decide_eq_false_iff_not, ht]
    constructor
    · rintro ⟨hne, hout, hs⟩
      exact ⟨by omega, hs⟩
    · rintro ⟨hout, hs⟩
      exact ⟨by omega, by omega, hs⟩

/-- The entries that a scan reads are those of the map, where the map is not empty. -/
theorem reads_of_mapAt {b : Boot} {info : MultibootInfo} (hi : b.mbInfo = some info)
    (hr : info.mmapAddr + info.mmapLength < 4294967296) {entries : List MmapEntry} {a : ℕ} (ha : 0 < a)
    (hne : entries ≠ []) (h : MapAt b.mem (info.mmapAddr + info.mmapLength) a entries) :
    ∃ l, b.Reads a l ∧ l.map (mmapEntryAt b.mem) = entries := by
  induction entries generalizing a with
  | nil => exact absurd rfl hne
  | cons e es ih =>
    obtain ⟨he, hsize, hrest⟩ := h
    have hbelow : ∀ (es : List MmapEntry) (a : ℕ),
        MapAt b.mem (info.mmapAddr + info.mmapLength) a es → a ≤ info.mmapAddr + info.mmapLength := by
      intro es
      induction es with
      | nil => exact fun a h => Nat.le_of_eq h
      | cons e es ih => exact fun a h => by have := ih _ h.2.2; omega
    have hle := hbelow es _ hrest
    have hnext : mbTraverseMmap b a =
        if info.mmapAddr + info.mmapLength ≤ a + e.size + 4 then 0 else a + e.size + 4 := by
      simp only [mbTraverseMmap, hi, he]
      rw [if_neg (Nat.ne_of_gt ha), w32_of_lt hr, w32_of_lt (by omega)]
    cases es with
    | nil =>
      have hstop : a + e.size + 4 = info.mmapAddr + info.mmapLength := hrest
      refine ⟨[a], .step (Nat.ne_of_gt ha) rfl (.done ?_), by rw [List.map_singleton, he]⟩
      rw [hnext, if_pos (Nat.le_of_eq hstop.symm)]
    | cons e' es =>
      obtain ⟨l, hl, hmap⟩ := ih (a := a + e.size + 4) (by omega) (List.cons_ne_nil _ _) hrest
      have hlt := hbelow es _ hrest.2.2
      refine ⟨a :: l, .step (Nat.ne_of_gt ha) rfl ?_, by rw [List.map_cons, hmap, he]⟩
      rw [hnext, if_neg (by have := hrest.2.1; omega)]
      exact hl

/-- The bitmap after a scan that reads the entries at `l`. -/
theorem pmmInit_run {b : Boot} {info : MultibootInfo} (hi : b.mbInfo = some info) {l : List ℕ}
    (ha : info.flags.testBit 6 = true → info.mmapAddr < 4294967296)
    (hl : info.flags.testBit 6 = true → b.Reads info.mmapAddr l)
    (hnone : info.flags.testBit 6 = false → l = []) (s : Machine) :
    ∃ t, pmmInit b s = some ((), t) ∧ ∀ f, pmmBit t.pmmBitmap f = false ↔
      ¬ (b.preStart / 4096 ≤ f ∧ f < b.imageEnd / 4096) ∧
        ((b.preStart / 4096 ≤ f ∧ ∃ x ∈ l, (mmapEntryAt b.mem x).Marks f) ∨
          pmmBit s.pmmBitmap f = false) := by
  have hscan : ∃ u, Comp.when (info.flags.testBit 6) (pmmInitScan b loopFuel (mbTraverseMmap b 0)) s =
        some ((), u) ∧ ∀ f, pmmBit u.pmmBitmap f = false ↔
      (b.preStart / 4096 ≤ f ∧ ∃ x ∈ l, (mmapEntryAt b.mem x).Marks f) ∨
        pmmBit s.pmmBitmap f = false := by
    by_cases hf : info.flags.testBit 6 = true
    · have hstart : mbTraverseMmap b 0 = info.mmapAddr := by simp [mbTraverseMmap, hi]
      rw [Comp.when_true hf, hstart]
      exact pmmInitScan_run b (hl hf) loopFuel s (Boot.Reads.length_lt hi (ha hf) (hl hf))
    · rw [Comp.when_false hf, hnone (by simpa using hf)]
      exact ⟨s, rfl, by simp⟩
  obtain ⟨u, hu, hubits⟩ := hscan
  obtain ⟨t, ht, hbits⟩ := pmmAllocFrames_run u (b.imageEnd / 4096 - b.preStart / 4096) (b.preStart / 4096)
  refine ⟨t, ?_, fun f => ?_⟩
  · simp only [pmmInit, hi]
    rw [Comp.bind_of_eq hu, ht]
  · rw [hbits, hubits]
    refine and_congr_left' (not_congr ?_)
    omega

/-! Which frames an entry marks. -/

theorem MmapEntry.marks_iff {e : MmapEntry} (ha : e.addrL < 4294967296) (hl : e.lenL < 4294967296)
    (f : ℕ) : e.Marks f ↔ e.Low ∧ e.EndsBehind f := by
  unfold Marks Low EndsBehind Available w32
  constructor
  · rintro ⟨⟨hh, hlen, htype⟩, hlo, hhi⟩
    have hsum : e.addrL + e.lenL < 4294967296 := by omega
    rw [Nat.mod_eq_of_lt hsum] at hhi
    exact ⟨⟨htype, hh, hlen, hsum⟩, hlo, by omega⟩
  · rintro ⟨⟨htype, hh, hlen, hsum⟩, hlo, hhi⟩
    rw [Nat.mod_eq_of_lt hsum]
    exact ⟨⟨hh, hlen, htype⟩, hlo, by omega⟩

/-- A low entry contains the frames that it marks, but for the one in which it starts. -/
theorem MmapEntry.Low.contains_iff {e : MmapEntry} (h : e.Low) (f : ℕ) :
    e.Contains f ↔ e.EndsBehind f ∧ e.addrL ≤ f * 4096 := by
  obtain ⟨-, hh, hlen, -⟩ := h
  unfold Contains EndsBehind base len
  rw [hh, hlen]
  omega

theorem Boot.usable_iff (b : Boot) (f : ℕ) :
    b.Usable f ↔ b.preStart / 4096 ≤ f ∧ (b.imageEnd ≤ b.preStart ∨ b.imageEnd ≤ f * 4096) := by
  unfold Usable InImage
  refine and_congr_right fun hpre => ⟨fun h => ?_, ?_⟩
  · by_contra hne
    exact h ⟨max b.preStart (f * 4096), by omega, by omega, by omega, by omega⟩
  · rintro h ⟨a, h1, h2, h3, h4⟩
    omega

/-! The condition. -/

/-- What the map must be for the scan to free the right frames. -/
structure ScanFits (b : Boot) (info : MultibootInfo) (entries : List MmapEntry) : Prop where
  /-- A frame in the middle of which a low entry starts lies in an available entry, or is not usable. -/
  start : ∀ e ∈ entries, e.Low → e.addrL % 4096 ≠ 0 → e.EndsBehind (e.addrL / 4096) →
    b.Usable (e.addrL / 4096) → ∃ e' ∈ entries, e'.Available ∧ e'.Contains (e.addrL / 4096)
  /-- A low entry goes over each usable frame of an entry that reaches beyond 4 GiB. -/
  high : ∀ e ∈ entries, e.Available → ¬ e.Low → ∀ f < 1048576, e.Contains f → b.Usable f →
    ∃ e' ∈ entries, e'.Low ∧ e'.EndsBehind f
  /-- No low entry goes over the frame in the middle of which the kernel image ends. -/
  tail : b.imageEnd % 4096 ≠ 0 → b.preStart < b.imageEnd →
    ∀ e ∈ entries, e.Low → ¬ e.EndsBehind (b.imageEnd / 4096)
  /-- For an empty map the entry at its address is read all the same. -/
  empty : entries = [] → info.flags.testBit 6 = true → ∃ l, b.Reads info.mmapAddr l ∧
    ∀ x ∈ l, ∀ f, (mmapEntryAt b.mem x).Marks f → b.preStart / 4096 ≤ f → f < b.imageEnd / 4096

/-- After `pmm_init` the frames below 4 GiB that are free are the usable ones of a single available entry. -/
def FreesAvailable (b : Boot) (entries : List MmapEntry) (s : Machine) : Prop :=
  ∃ t, pmmInit b s = some ((), t) ∧ ∀ f < 1048576, pmmBit t.pmmBitmap f = false ↔
    (∃ e ∈ entries, e.Available ∧ e.Contains f) ∧ b.Usable f

section Init

variable {b : Boot} {info : MultibootInfo} {entries : List MmapEntry} {s : Machine}

/-- The scan of a map that is not empty, in terms of its entries. -/
theorem pmmInit_entries (h : IsMemoryMap b info entries) (hne : entries ≠ [])
    (hs : ∀ f < 1048576, pmmBit s.pmmBitmap f = true) :
    ∃ t, pmmInit b s = some ((), t) ∧ ∀ f < 1048576, pmmBit t.pmmBitmap f = false ↔
      (b.preStart / 4096 ≤ f ∧ b.imageEnd / 4096 ≤ f) ∧ ∃ e ∈ entries, e.Low ∧ e.EndsBehind f := by
  have hflag : info.flags.testBit 6 = true := by
    by_contra hf
    exact hne (h.none (by simpa using hf))
  obtain ⟨hpos, hrange⟩ := h.range hflag
  obtain ⟨l, hl, rfl⟩ := reads_of_mapAt h.mbInfo hrange hpos hne (h.entries hflag)
  obtain ⟨t, ht, hbits⟩ := pmmInit_run h.mbInfo (fun _ => by omega) (fun _ => hl)
    (fun hf => by rw [hflag] at hf; cases hf) s
  refine ⟨t, ht, fun f hf => ?_⟩
  rw [hbits, hs f hf]
  have hmarks : (∃ x ∈ l, (mmapEntryAt b.mem x).Marks f) ↔
      ∃ e ∈ l.map (mmapEntryAt b.mem), e.Low ∧ e.EndsBehind f := by
    simp only [List.mem_map, exists_exists_and_eq_and]
    refine exists_congr fun x => and_congr_right fun _ => ?_
    exact MmapEntry.marks_iff (dwordAt_lt b.mem _) (dwordAt_lt b.mem _) f
  rw [hmarks]
  simp only [Bool.true_eq_false, or_false]
  constructor
  · rintro ⟨hout, hpre, hm⟩
    exact ⟨⟨hpre, by omega⟩, hm⟩
  · rintro ⟨⟨hpre, hout⟩, hm⟩
    exact ⟨by omega, hpre, hm⟩

theorem freesAvailable_iff_of_ne (h : IsMemoryMap b info entries) (hne : entries ≠ [])
    (hs : ∀ f < 1048576, pmmBit s.pmmBitmap f = true) :
    FreesAvailable b entries s ↔ ScanFits b info entries := by
  obtain ⟨t, ht, hbits⟩ := pmmInit_entries h hne hs
  have himage : b.imageEnd < 4294967296 := Nat.mod_lt _ (Nat.two_pow_pos 32)
  constructor
  · rintro ⟨t', ht', hright⟩
    rw [ht] at ht'
    cases ht'
    refine ⟨?_, ?_, ?_, fun h0 => absurd h0 hne⟩
    · intro e he hlow hodd hends huse
      have hsum := hlow.2.2.2
      have hlt : e.addrL / 4096 < 1048576 := by omega
      have hpre := (b.usable_iff _).mp huse
      exact ((hright _ hlt).mp ((hbits _ hlt).mpr ⟨⟨hpre.1, by omega⟩, e, he, hlow, hends⟩)).1
    · intro e he hav hlow f hf hcon huse
      exact ((hbits f hf).mp ((hright f hf).mpr ⟨⟨e, he, hav, hcon⟩, huse⟩)).2
    · intro hodd hlt e he hlow hends
      have hf : b.imageEnd / 4096 < 1048576 := by omega
      have hfree := (hbits _ hf).mpr ⟨⟨by omega, Nat.le_refl _⟩, e, he, hlow, hends⟩
      have huse := (b.usable_iff _).mp ((hright _ hf).mp hfree).2
      omega
  · intro hfit
    refine ⟨t, ht, fun f hf => (hbits f hf).trans ⟨?_, ?_⟩⟩
    · rintro ⟨⟨hpre, hend⟩, e, he, hlow, hends⟩
      have huse : b.Usable f := by
        rw [b.usable_iff]
        refine ⟨hpre, ?_⟩
        by_contra hne
        have hfe : f = b.imageEnd / 4096 := by omega
        exact hfit.tail (by omega) (by omega) e he hlow (hfe ▸ hends)
      refine ⟨?_, huse⟩
      by_cases hstart : e.addrL ≤ f * 4096
      · exact ⟨e, he, hlow.1, (hlow.contains_iff f).mpr ⟨hends, hstart⟩⟩
      · have hfe : e.addrL / 4096 = f := by have := hends.1; omega
        have hst := hfit.start e he hlow (by omega)
        rw [hfe] at hst
        exact hst hends huse
    · rintro ⟨⟨e, he, hav, hcon⟩, huse⟩
      have hpre := (b.usable_iff f).mp huse
      refine ⟨⟨hpre.1, by omega⟩, ?_⟩
      by_cases hlow : e.Low
      · exact ⟨e, he, hlow, ((hlow.contains_iff f).mp hcon).1⟩
      · exact hfit.high e he hav hlow f hf hcon huse

theorem MmapEntry.Marks.lt {e : MmapEntry} {f : ℕ} (h : e.Marks f) : f < 1048576 := by
  have hsum : w32 (e.addrL + e.lenL) < 4294967296 := Nat.mod_lt _ (Nat.two_pow_pos 32)
  have := h.2.2
  omega

theorem reads_of_pmmInit (hi : b.mbInfo = some info) (hflag : info.flags.testBit 6 = true) {t : Machine}
    (h : pmmInit b s = some ((), t)) : ∃ l, b.Reads info.mmapAddr l := by
  simp only [pmmInit, hi] at h
  obtain ⟨_, u, hu, -⟩ := Comp.bind_eq_some.mp h
  have hstart : mbTraverseMmap b 0 = info.mmapAddr := by simp [mbTraverseMmap, hi]
  rw [Comp.when_true hflag, hstart] at hu
  exact reads_of_pmmInitScan b hu

/-- With an empty map no frame is free, unless what is read in place of an entry marks it. -/
theorem freesAvailable_nil_iff (h : IsMemoryMap b info [])
    (hs : ∀ f < 1048576, pmmBit s.pmmBitmap f = true) :
    FreesAvailable b [] s ↔ ScanFits b info [] := by
  constructor
  · rintro ⟨t, ht, hright⟩
    refine ⟨by simp, by simp, by simp, fun _ hflag => ?_⟩
    obtain ⟨l, hl⟩ := reads_of_pmmInit h.mbInfo hflag ht
    refine ⟨l, hl, fun x hx f hm hpre => ?_⟩
    obtain ⟨t', ht', hbits⟩ := pmmInit_run h.mbInfo (fun hf => by have := h.range hf; omega) (fun _ => hl)
      (fun hf => by rw [hflag] at hf; cases hf) s
    rw [ht] at ht'
    cases ht'
    by_contra hend
    have hfree := (hbits f).mpr ⟨fun hk => hend hk.2, .inl ⟨hpre, x, hx, hm⟩⟩
    obtain ⟨⟨e, he, -⟩, -⟩ := (hright f hm.lt).mp hfree
    cases he
  · intro hfit
    have hread : ∃ l, (info.flags.testBit 6 = true → b.Reads info.mmapAddr l) ∧
        (info.flags.testBit 6 = false → l = []) ∧ ∀ x ∈ l, ∀ f, (mmapEntryAt b.mem x).Marks f →
          b.preStart / 4096 ≤ f → f < b.imageEnd / 4096 := by
      by_cases hflag : info.flags.testBit 6 = true
      · obtain ⟨l, hl, hm⟩ := hfit.empty rfl hflag
        exact ⟨l, fun _ => hl, fun hf => absurd (hflag.symm.trans hf) (by decide), hm⟩
      · exact ⟨[], fun hf => absurd hf hflag, fun _ => rfl, by simp⟩
    obtain ⟨l, hl, hnone, hm⟩ := hread
    obtain ⟨t, ht, hbits⟩ := pmmInit_run h.mbInfo (fun hf => by have := h.range hf; omega) hl hnone s
    refine ⟨t, ht, fun f hf => ?_⟩
    rw [hbits, hs f hf]
    constructor
    · rintro ⟨hk, ⟨hpre, x, hx, hmark⟩ | hused⟩
      · exact absurd ⟨hpre, hm x hx f hmark hpre⟩ hk
      · cases hused
    · rintro ⟨⟨e, he, -⟩, -⟩
      cases he

/-- The frames that `pmm_init` frees are the right ones exactly when the map fits its scan. -/
theorem pmm_init_iff (h : IsMemoryMap b info entries)
    (hs : ∀ f < 1048576, pmmBit s.pmmBitmap f = true) :
    FreesAvailable b entries s ↔ ScanFits b info entries := by
  by_cases hne : entries = []
  · subst hne
    exact freesAvailable_nil_iff h hs
  · exact freesAvailable_iff_of_ne h hne hs

end Init

/-- One available entry of six KiB that starts in the middle of frame `0x200`, at the address 64. -/
def sampleMap (addr : ℕ) : Boot where
  mbInfo := some ⟨64, 24, 64⟩
  mem := writeLe (writeLe (writeLe (writeLe (fun _ => 0) (fun i => 64 + i) 4 20)
    (fun i => 68 + i) 4 addr) (fun i => 76 + i) 4 0x1800) (fun i => 84 + i) 4 1
  preStart := 0x100000
  kernelEnd := 0xC0180000

def sampleEntry (addr : ℕ) : MmapEntry := ⟨20, addr, 0, 0x1800, 0, 1⟩

def allUsed : Machine := { (default : Machine) with pmmBitmap := fun _ => BitVec.allOnes 32 }

theorem pmmBit_allUsed (f : ℕ) : pmmBit allUsed.pmmBitmap f = true := pmmBit_of_full rfl

theorem sampleMap_isMemoryMap_low : IsMemoryMap (sampleMap 0x200000) ⟨64, 24, 64⟩ [sampleEntry 0x200000] :=
  ⟨rfl, by decide, by decide, fun _ => ⟨by decide, by decide, rfl⟩⟩

theorem sampleMap_isMemoryMap_odd : IsMemoryMap (sampleMap 0x200800) ⟨64, 24, 64⟩ [sampleEntry 0x200800] :=
  ⟨rfl, by decide, by decide, fun _ => ⟨by decide, by decide, rfl⟩⟩

/-- The entry that starts on a frame boundary is marked free as it should be. -/
theorem pmm_init_iff_sample :
    (FreesAvailable (sampleMap 0x200000) [sampleEntry 0x200000] allUsed ↔
      ScanFits (sampleMap 0x200000) ⟨64, 24, 64⟩ [sampleEntry 0x200000]) ∧
    ScanFits (sampleMap 0x200000) ⟨64, 24, 64⟩ [sampleEntry 0x200000] := by
  refine ⟨pmm_init_iff sampleMap_isMemoryMap_low fun f _ => pmmBit_allUsed f, ?_, ?_, ?_, by simp⟩
  · intro e he _ hodd
    cases List.mem_singleton.mp he
    exact absurd rfl hodd
  · intro e he hav hlow
    cases List.mem_singleton.mp he
    exact absurd ⟨rfl, rfl, rfl, by decide⟩ hlow
  · intro hodd
    exact absurd rfl hodd

/-- The frame in the middle of which the entry starts is freed although half of it is not available. -/
theorem pmm_init_frees_half_frame :
    IsMemoryMap (sampleMap 0x200800) ⟨64, 24, 64⟩ [sampleEntry 0x200800] ∧
    (∀ f < 1048576, pmmBit allUsed.pmmBitmap f = true) ∧
    ¬ FreesAvailable (sampleMap 0x200800) [sampleEntry 0x200800] allUsed := by
  refine ⟨sampleMap_isMemoryMap_odd, fun f _ => pmmBit_allUsed f, fun hfree => ?_⟩
  have hfit := (freesAvailable_iff_of_ne sampleMap_isMemoryMap_odd (List.cons_ne_nil _ _)
    fun f _ => pmmBit_allUsed f).mp hfree
  have huse : (sampleMap 0x200800).Usable 0x200 :=
    ((sampleMap 0x200800).usable_iff 0x200).mpr ⟨by decide, .inr (by decide)⟩
  obtain ⟨e, he, -, hcon⟩ := hfit.start (sampleEntry 0x200800) (by simp)
    ⟨rfl, rfl, rfl, by decide⟩ (by decide) ⟨by decide, by decide⟩ huse
  cases List.mem_singleton.mp he
  exact absurd hcon.1 (by decide)

end SysX
