import SysX.Kmod
import SysX.Relocated

/-! Which kernel modules `elf_load_kmod` reads within bounds. -/
namespace SysX

/-- What the block of allocation number `n` holds after a part of the file was read into it. -/
def ElfHost.block (s : ElfHost) (n offset size : ℕ) : ℕ → UInt8 := fun k => (s.file offset size).getD k (s.junk n k)

/-- What is read does not depend on the block that it is read into. -/
def ElfHost.Steady (s : ElfHost) : Prop :=
  ∀ n offset size k, k < size → s.block n offset size k = s.block 0 offset size k

/-- A module: the machine that its header names, its section headers, and its parts as they are read. -/
structure KmodFile where
  machine : ℕ
  sh : ElfShTable
  read : ℕ → ℕ → ℕ → UInt8

namespace KmodFile

variable (F : KmodFile)

/-- The content of a section. -/
def bytes (i : ℕ) : ℕ → UInt8 := F.read (F.sh.header i).offset (F.sh.header i).size

/-- A relocation section for a section that is loaded. -/
def Relocates (i : ℕ) : Prop :=
  ((F.sh.header i).type = shtRel ∨ (F.sh.header i).type = shtRela) ∧ (F.sh.header i).info < F.sh.num ∧
    F.sh.Alloc (F.sh.header i).info

/-- The symbol table of a relocation section. -/
def symtab (i : ℕ) : ℕ := (F.sh.header i).link

/-- The string table of a relocation section. -/
def strtab (i : ℕ) : ℕ := (F.sh.header (F.symtab i)).link

/-- No relocation section up to section `i` has a string table, by its number 0. -/
def NoStrings (i : ℕ) : Prop := F.strtab i = 0 ∧ ∀ k < i, F.Relocates k → F.strtab k = 0

/-- The relocation section names something else for its symbol table or its string table. -/
def Rejected (i : ℕ) : Prop :=
  F.Relocates i ∧ ((F.sh.header (F.symtab i)).type ≠ shtSymtab ∨
    ¬ F.NoStrings i ∧ (F.sh.header (F.strtab i)).type ≠ shtStrtab)

/-- The headers that a relocation section leads to can be read. A first relocation section with the symbol table 0 is taken to
have its symbol table already. -/
structure LinksFit (i : ℕ) : Prop where
  first : F.symtab i = 0 → ∃ k < i, F.Relocates k
  symtab : F.sh.Opens (F.symtab i) shtSymtab 40
  strtab : (F.sh.header (F.symtab i)).type = shtSymtab → ¬ F.NoStrings i → F.sh.Opens (F.strtab i) shtStrtab 24

/-- The symbol of an entry of relocation section `i`. -/
def relSym (i : ℕ) (r : ElfRel) : ElfSym := elfSym (F.bytes (F.symtab i)) (F.sh.header (F.symtab i)).entsize r.sym

/-- An entry of relocation section `i` has its symbol, the name of the symbol, and the field it changes. -/
structure EntryFits (i : ℕ) (r : ElfRel) : Prop where
  sym : w32 ((F.sh.header (F.symtab i)).entsize * r.sym) + 16 ≤ (F.sh.header (F.symtab i)).size
  name : (F.relSym i r).shndx = shnUndef → ¬ F.NoStrings i ∧
    StringFits (F.bytes (F.strtab i)) (some (F.sh.header (F.strtab i)).size) (F.relSym i r).name
  write : relocWidth F.machine r.type ≠ 0 →
    r.offset + relocWidth F.machine r.type ≤ (F.sh.header (F.sh.header i).info).size

/-- Entry `j` of relocation section `i`. -/
def rel (i j : ℕ) : ElfRel :=
  elfRel (F.bytes i) ((F.sh.header i).type = shtRela) (w32 ((F.sh.header i).entsize * j))

/-- Entry `j` of relocation section `i` and what it leads to can be read. -/
def RelFits (i j : ℕ) : Prop :=
  w32 ((F.sh.header i).entsize * j) + relSize (F.sh.header i).type ≤ (F.sh.header i).size ∧ F.EntryFits i (F.rel i j)

/-- The entries of a relocation section can be read. -/
structure RelocFits (i : ℕ) : Prop where
  entsize : (F.sh.header i).entsize ≠ 0
  entries : ∀ j < (F.sh.header i).size / (F.sh.header i).entsize, F.RelFits i j

/-! Symbol tables. -/

/-- The sections before section `n` that are loaded, to the addresses `addr`. -/
def loadedBefore (addr : ℕ → ℕ) (n : ℕ) : List ElfPrgload :=
  (List.range n).filterMap fun i => if F.sh.Alloc i then some ⟨i, addr i, (F.sh.header i).size⟩ else none

def loaded (addr : ℕ → ℕ) : List ElfPrgload := F.loadedBefore addr F.sh.num

/-- The string table of a symbol table. -/
def names (i : ℕ) : ℕ := (F.sh.header i).link

/-- The symbol table names something else for its string table. -/
def NamesRejected (i : ℕ) : Prop :=
  (F.sh.header i).type = shtSymtab ∧ (F.sh.header (F.names i)).type ≠ shtStrtab

/-- Symbol `j` of symbol table `i`. -/
def sym (i j : ℕ) : KmodSym := kmodSym (F.bytes i) (w32 (j * (F.sh.header i).entsize))

/-- The comparison of its name with that of the entry point. -/
def initCmp (i j : ℕ) : ℕ × Bool := strcmpEnd (F.bytes (F.names i)) (F.sym i j).name elfKmodInitFunc

/-- It is the entry point. -/
def IsInit (addr : ℕ → ℕ) (i j : ℕ) : Prop :=
  (F.sym i j).Defined ∧ (F.initCmp i j).2 = true ∧ (F.sym i j).address (F.loaded addr) ≠ 0

/-- The entry point is before symbol `j` of symbol table `i`. -/
def InitBefore (addr : ℕ → ℕ) (i j : ℕ) : Prop :=
  ∃ k l, (F.sh.header k).type = shtSymtab ∧ l < (F.sh.header k).size / (F.sh.header k).entsize ∧
    (k < i ∨ k = i ∧ l < j) ∧ F.IsInit addr k l

/-- A symbol can be read, and its name as far as it is. -/
structure SymFits (addr : ℕ → ℕ) (wanted : Bool) (i j : ℕ) : Prop where
  fits : w32 (j * (F.sh.header i).entsize) + 16 ≤ (F.sh.header i).size
  exported : (F.sym i j).Defined → (F.sym i j).Exported →
    StringFits (F.bytes (F.names i)) (some (F.sh.header (F.names i)).size) (F.sym i j).name
  compared : (F.sym i j).Defined → wanted = true → ¬ F.InitBefore addr i j →
    (F.initCmp i j).1 < (F.sh.header (F.names i)).size

/-- The symbols of a symbol table can be read. -/
structure SymsFit (addr : ℕ → ℕ) (wanted : Bool) (i : ℕ) : Prop where
  entsize : (F.sh.header i).entsize ≠ 0
  symbols : ∀ j < (F.sh.header i).size / (F.sh.header i).entsize, F.SymFits addr wanted i j

/-- Everything that is read up to a section that is rejected is there. -/
structure InRange (addr : ℕ → ℕ) (wanted : Bool) : Prop where
  sections : ∀ i < F.sh.num, F.sh.Fits i 24
  relocs : ∀ i < F.sh.num, (∀ k < i, ¬ F.Rejected k) → F.sh.Fits i 40 ∧
    (F.Relocates i → F.LinksFit i ∧ (¬ F.Rejected i → F.RelocFits i))
  syms : (∀ i < F.sh.num, ¬ F.Rejected i) → ∀ i < F.sh.num, (∀ k < i, ¬ F.NamesRejected k) →
    (F.sh.header i).type = shtSymtab → F.sh.Fits (F.names i) 24 ∧ (¬ F.NamesRejected i → F.SymsFit addr wanted i)

end KmodFile

/-- The header of the file that a host reads. -/
def ElfHost.kmodHeader (s : ElfHost) : ℕ → UInt8 := s.block s.heapCalls 0 64

/-- The module that a host reads. -/
def ElfHost.kmodFile (s : ElfHost) : KmodFile :=
  let info := elfShInfo s.kmodHeader
  { machine := (elfEhdr s.kmodHeader).machine
    sh := ⟨s.block (s.heapCalls + 1) info.shoff (info.shentsize * info.shnum), info.shentsize, info.shnum⟩
    read := s.block 0 }

/-- The header of the section names is there, and where it is one for strings, what the rest of the file leads to. -/
structure KmodInRange (s : ElfHost) (addr : ℕ → ℕ) (wanted : Bool) : Prop where
  names : s.kmodFile.sh.Opens (elfShInfo s.kmodHeader).shstrndx shtStrtab 24
  file : (s.kmodFile.sh.header (elfShInfo s.kmodHeader).shstrndx).type = shtStrtab → s.kmodFile.InRange addr wanted

/-! Reading in bounds. -/

section Blocks

variable {r r' : ℕ → UInt8} {k n size : ℕ} {str : List UInt8}

theorem cstring_isSome : (cstring r n k).isSome = true ↔ ∃ i < n, r (k + i) = 0 := by
  induction n generalizing k with
  | zero => simp [cstring]
  | succ n ih =>
    rw [cstring]
    by_cases h0 : r k = 0
    · simp only [if_pos h0, Option.isSome_some, true_iff]
      exact ⟨0, Nat.succ_pos n, h0⟩
    · rw [if_neg h0, Option.isSome_map, ih]
      constructor
      · rintro ⟨i, hi, hr⟩
        refine ⟨i + 1, Nat.succ_lt_succ hi, ?_⟩
        rw [← hr, Nat.add_right_comm, Nat.add_assoc]
      · rintro ⟨i, hi, hr⟩
        cases i with
        | zero => exact absurd hr h0
        | succ i =>
          refine ⟨i, Nat.lt_of_succ_lt_succ hi, ?_⟩
          rw [← hr, Nat.add_right_comm, Nat.add_assoc]

theorem stringFits_iff : StringFits r (some size) k ↔ ∃ p, k ≤ p ∧ p < size ∧ r p = 0 := by
  simp only [StringFits, Option.some.injEq, exists_eq_left', cstring_isSome]
  constructor
  · rintro ⟨i, hi, hr⟩
    exact ⟨k + i, Nat.le_add_right k i, by omega, hr⟩
  · rintro ⟨p, hk, hp, hr⟩
    refine ⟨p - k, by omega, ?_⟩
    rwa [Nat.add_sub_cancel' hk]

theorem stringFits_congr (h : ∀ p < size, r' p = r p) : StringFits r' (some size) k ↔ StringFits r (some size) k := by
  simp only [stringFits_iff]
  constructor
  · rintro ⟨p, hk, hp, hr⟩
    exact ⟨p, hk, hp, by rw [← h p hp, hr]⟩
  · rintro ⟨p, hk, hp, hr⟩
    exact ⟨p, hk, hp, by rw [h p hp, hr]⟩

theorem le_strcmpEnd : k ≤ (strcmpEnd r k str).1 := by
  induction str generalizing k with
  | nil => exact Nat.le_refl k
  | cons c str ih =>
    rw [strcmpEnd]
    split_ifs
    · exact (Nat.le_succ k).trans ih
    · exact Nat.le_refl k

/-- A string that is equal ends where the comparison does. -/
theorem strcmpEnd_equal (h : (strcmpEnd r k str).2 = true) : r (strcmpEnd r k str).1 = 0 := by
  induction str generalizing k with
  | nil => simpa [strcmpEnd] using h
  | cons c str ih =>
    rw [strcmpEnd] at h ⊢
    split_ifs at h ⊢
    exact ih h

theorem strcmpEnd_congr (h : ∀ p < size, r' p = r p) (hend : (strcmpEnd r k str).1 < size) :
    strcmpEnd r' k str = strcmpEnd r k str := by
  induction str generalizing k with
  | nil =>
    rw [strcmpEnd, strcmpEnd, h k hend]
  | cons c str ih =>
    have hk : k < size := le_strcmpEnd.trans_lt hend
    rw [strcmpEnd] at hend
    rw [strcmpEnd, strcmpEnd, h k hk]
    split_ifs at hend ⊢
    · exact ih hend
    · rfl

theorem kmodSym_congr (hk : k + 16 ≤ size) (h : ∀ p < size, r' p = r p) : kmodSym r' k = kmodSym r k := by
  have hfield : ∀ off n, off + n ≤ 16 → field r' (k + off) n = field r (k + off) n := fun off n hoff =>
    field_congr fun p _ hlt => h p (by omega)
  simp only [kmodSym]
  rw [show field r' k 4 = field r k 4 from hfield 0 4 (by decide), hfield 4 4 (by decide), hfield 12 1 (by decide),
    hfield 13 1 (by decide), hfield 14 2 (by decide)]

theorem elfSym_agree {entsize i : ℕ} (hi : w32 (entsize * i) + 16 ≤ size) (h : ∀ p < size, r' p = r p) :
    elfSym r' entsize i = elfSym r entsize i := by
  have hfield : ∀ off n, off + n ≤ 16 →
      field r' (w32 (entsize * i) + off) n = field r (w32 (entsize * i) + off) n := fun off n hoff =>
    field_congr fun p _ hlt => h p (by omega)
  simp only [elfSym]
  rw [show field r' (w32 (entsize * i)) 4 = field r (w32 (entsize * i)) 4 from hfield 0 4 (by decide),
    hfield 4 4 (by decide), hfield 14 2 (by decide)]

theorem elfRel_agree {type : ℕ} (hk : k + relSize type ≤ size) (h : ∀ p < size, r' p = r p) :
    elfRel r' (type = shtRela) k = elfRel r (type = shtRela) k := by
  have hfield : ∀ off n, off + n ≤ relSize type → field r' (k + off) n = field r (k + off) n := fun off n hoff =>
    field_congr fun p _ hlt => h p (by omega)
  unfold relSize at hfield
  by_cases ht : type = shtRela
  · simp only [if_pos ht] at hfield
    simp only [elfRel, ht, decide_true, if_true]
    rw [show field r' k 4 = field r k 4 from hfield 0 4 (by decide), hfield 4 4 (by decide), hfield 8 4 (by decide)]
  · simp only [if_neg ht] at hfield
    simp only [elfRel, ht, decide_false, Bool.false_eq_true, if_false]
    rw [show field r' k 4 = field r k 4 from hfield 0 4 (by decide), hfield 4 4 (by decide)]

end Blocks

/-! One step at a time. -/

/-- Nothing but memory, the symbols of the kernel and the number of allocations has changed. -/
structure ElfHost.Alike (s t : ElfHost) : Prop where
  file : t.file = s.file
  junk : t.junk = s.junk
  heapOk : t.heapOk = s.heapOk

theorem ElfHost.Alike.refl (s : ElfHost) : s.Alike s := ⟨rfl, rfl, rfl⟩

theorem ElfHost.Alike.trans {s t u : ElfHost} (h : s.Alike t) (h' : t.Alike u) : s.Alike u :=
  ⟨h'.file.trans h.file, h'.junk.trans h.junk, h'.heapOk.trans h.heapOk⟩

/-- A host reads the parts of the module. -/
def KmodFile.Reads (F : KmodFile) (s : ElfHost) : Prop :=
  ∀ n offset size k, k < size → s.block n offset size k = F.read offset size k

/-- The heap never runs out. -/
def ElfHost.Ample (s : ElfHost) : Prop := ∀ n, s.heapOk n = true

theorem ElfHost.Alike.block {s t : ElfHost} (h : s.Alike t) (n offset size : ℕ) :
    t.block n offset size = s.block n offset size := by
  unfold ElfHost.block
  rw [h.file, h.junk]

theorem KmodFile.Reads.alike {F : KmodFile} {s t : ElfHost} (h : F.Reads s) (ha : s.Alike t) : F.Reads t := by
  intro n offset size k hk
  rw [ha.block]
  exact h n offset size k hk

theorem ElfHost.Ample.alike {s t : ElfHost} (h : s.Ample) (ha : s.Alike t) : t.Ample := by
  intro n
  rw [ha.heapOk]
  exact h n

/-- One more allocation. -/
def ElfHost.next (s : ElfHost) : ElfHost := { s with heapCalls := s.heapCalls + 1 }

theorem ElfHost.alike_next (s : ElfHost) : s.Alike s.next := ⟨rfl, rfl, rfl⟩

section Steps

variable {α : Type} {ok p : Prop} [Decidable p] {Q : α → ElfHost → Prop} {s : ElfHost}

theorem elfGuard_wp {f : Unit → ElfOp α} (hp : ok → p) (hf : p → Comp.Wp ok (f ()) Q s) :
    Comp.Wp ok (elfGuard p >>= f) Q s := by
  unfold elfGuard
  split_ifs with h
  · exact .step rfl (hf h)
  · exact .of_fault rfl fun ho => h (hp ho)

/-- A part of the file is in the next block, or the heap has run out. -/
theorem elfLoad_next_wp {f : Option (ℕ → UInt8) → ElfOp α} {offset size : ℕ}
    (hnone : ¬ s.Ample → Comp.Wp ok (f none) Q s.next)
    (hsome : Comp.Wp ok (f (some (s.block s.heapCalls offset size))) Q s.next) :
    Comp.Wp ok (elfLoad offset size >>= f) Q s := by
  by_cases hok : s.heapOk s.heapCalls = true
  · refine .step ?_ hsome
    simp only [elfLoad, Comp.read_bind, Comp.modify_bind, hok, if_true]
    rfl
  · refine .step ?_ (hnone fun ha => hok (ha _))
    simp only [elfLoad, Comp.read_bind, Comp.modify_bind, hok]
    rfl

theorem elfLoad_wp {f : Option (ℕ → UInt8) → ElfOp α} {offset size : ℕ}
    (hnone : ∀ t, s.Alike t → ¬ s.Ample → Comp.Wp ok (f none) Q t)
    (hsome : ∀ t n, s.Alike t → Comp.Wp ok (f (some (s.block n offset size))) Q t) :
    Comp.Wp ok (elfLoad offset size >>= f) Q s :=
  elfLoad_next_wp (hnone s.next s.alike_next) (hsome s.next s.heapCalls s.alike_next)

theorem elfHeap_wp {f : Bool → ElfOp α}
    (hf : ∀ b t, s.Alike t → (b = false → ¬ s.Ample) → Comp.Wp ok (f b) Q t) : Comp.Wp ok (elfHeap >>= f) Q s := by
  refine Comp.Wp.step rfl (hf (s.heapOk s.heapCalls) s.next s.alike_next fun hb ha => ?_)
  rw [ha] at hb
  cases hb

end Steps

/-! Relocation. -/

namespace KmodFile

variable {F : KmodFile} {s : ElfHost} {t : KmodTables} {i : ℕ} {addr : ℕ → ℕ}

/-- The tables at hand are those of relocation section `i`. -/
structure TablesOf (F : KmodFile) (i : ℕ) (t : KmodTables) : Prop where
  symtabShdr : t.tables.symtabShdr = some (F.symtab i)
  symtabIdx : t.tables.symtabIdx = F.symtab i
  symtabType : (F.sh.header (F.symtab i)).type = shtSymtab
  opens : F.sh.Opens (F.symtab i) shtSymtab 40
  symtab : ∀ p < (F.sh.header (F.symtab i)).size, t.tables.symtab p = F.bytes (F.symtab i) p
  strtabIdx : t.tables.strtabIdx = F.strtab i
  noStrings : F.NoStrings i → t.strtabSize = none
  strings : ¬ F.NoStrings i → F.sh.Opens (F.strtab i) shtStrtab 24 ∧ (F.sh.header (F.strtab i)).type = shtStrtab ∧
    t.strtabSize = some (F.sh.header (F.strtab i)).size ∧
    ∀ p < (F.sh.header (F.strtab i)).size, t.tables.strtab p = F.bytes (F.strtab i) p

/-- The string that a symbol names is looked up within its table. -/
theorem symResolve_of_fits {strtab : ℕ → UInt8} {size name : ℕ} (hsize : size < 4294967296)
    (h : StringFits strtab (some size) name) (table : List SymEntry) :
    ∃ r, symResolve table (fun i => strtab (w32 (name + i))) = some r := by
  obtain ⟨p, hk, hp, hr⟩ := stringFits_iff.mp h
  have hsome : (cstring (fun i => strtab (w32 (name + i))) 4294967296 0).isSome = true := by
    rw [cstring_isSome]
    refine ⟨p - name, by omega, ?_⟩
    rw [Nat.zero_add, Nat.add_sub_cancel' hk, w32_of_lt (by omega)]
    exact hr
  unfold symResolve
  obtain ⟨str, hstr⟩ := Option.isSome_iff_exists.mp hsome
  rw [hstr]
  exact ⟨_, rfl⟩

theorem elfSymValue_wp {prgload : List ElfPrgload} {strtab : ℕ → UInt8} {size : ℕ} {sym : ElfSym}
    (hname : sym.shndx = shnUndef → size < 4294967296 ∧ StringFits strtab (some size) sym.name) :
    Comp.Wp True (elfSymValue prgload strtab sym) (fun _ t => t = s) s := by
  unfold elfSymValue
  refine .ite (fun _ => .pure rfl) fun _ => .ite (fun hu => ?_) fun _ => .pure rfl
  obtain ⟨hsize, hfits⟩ := hname hu
  obtain ⟨r, hr⟩ := symResolve_of_fits hsize hfits s.kernelSyms
  refine .step (a := r) (t := s) ?_ ?_
  · rw [Comp.readOr_apply, hr]
    rfl
  · cases r with
    | none => exact .pure rfl
    | some ent => exact .pure rfl

/-- One entry with the tables of its section at hand. -/
theorem kmodRelocEntry_wp (ht : F.TablesOf i t) {target : ElfPrgload}
    (htarget : target.size = (F.sh.header (F.sh.header i).info).size) (prgload : List ElfPrgload) (r : ElfRel) :
    Comp.Wp (F.EntryFits i r) (kmodRelocEntry F.machine prgload target t (F.sh.header (F.symtab i)) r)
      (fun _ u => F.EntryFits i r ∧ s.Alike u) s := by
  unfold kmodRelocEntry
  refine elfGuard_wp (fun h => h.sym) fun hsym => ?_
  have heq : elfSym t.tables.symtab (F.sh.header (F.symtab i)).entsize r.sym = F.relSym i r :=
    elfSym_agree hsym ht.symtab
  rw [heq]
  have hiff : StringFits t.tables.strtab t.strtabSize (F.relSym i r).name ↔ ¬ F.NoStrings i ∧
      StringFits (F.bytes (F.strtab i)) (some (F.sh.header (F.strtab i)).size) (F.relSym i r).name := by
    by_cases hno : F.NoStrings i
    · rw [ht.noStrings hno]
      simp [StringFits, hno]
    · obtain ⟨-, -, hsize, hstr⟩ := ht.strings hno
      rw [hsize, stringFits_congr hstr]
      simp [hno]
  refine elfGuard_wp (fun h hu => hiff.mpr (h.name hu)) fun hname => ?_
  refine elfGuard_wp (fun h hw => htarget ▸ h.write hw) fun hwrite => ?_
  have hfits : F.EntryFits i r := ⟨hsym, fun hu => hiff.mp (hname hu), fun hw => htarget ▸ hwrite hw⟩
  have hvalue : Comp.Wp True (elfSymValue prgload t.tables.strtab (F.relSym i r)) (fun _ u => u = s) s := by
    apply elfSymValue_wp
    intro hu
    refine ⟨show (F.sh.header (F.strtab i)).size < 4294967296 from elfShdr_size_lt _, ?_⟩
    obtain ⟨hno, -⟩ := hiff.mp (hname hu)
    rw [← (ht.strings hno).2.2.1]
    exact hname hu
  unfold elfRelocEntry
  rw [heq]
  refine .bind (hvalue.weaken (fun _ => trivial) fun _ _ => id) fun value u hu => .modify ⟨hfits, ?_⟩
  rw [hu]
  exact ⟨rfl, rfl, rfl⟩

/-- The tables at hand are those of the last relocation section before section `i`. -/
def Before (F : KmodFile) (i : ℕ) (t : KmodTables) : Prop :=
  (∀ k < i, ¬ F.Relocates k) ∧ t = kmodNoTables ∨
    ∃ k < i, F.Relocates k ∧ (∀ l, k < l → l < i → ¬ F.Relocates l) ∧ F.TablesOf k t

theorem NoStrings.of_later {k : ℕ} (h : F.NoStrings i) (hk : k < i) (hr : F.Relocates k) : F.NoStrings k :=
  ⟨h.2 k hk hr, fun l hl => h.2 l (hl.trans hk)⟩

theorem NoStrings.later {k : ℕ} (h : F.NoStrings k) (hk : ∀ l, k < l → l < i → ¬ F.Relocates l)
    (hi : F.strtab i = 0) : F.NoStrings i := by
  refine ⟨hi, fun l hl hr => ?_⟩
  obtain hlt | rfl | hgt := Nat.lt_trichotomy l k
  · exact h.2 l hlt hr
  · exact h.1
  · exact absurd hr (hk l hgt hl)

/-- The string table at hand serves a section that names it. -/
theorem Before.strings (hb : F.Before i t) (heq : F.strtab i = t.tables.strtabIdx) :
    (F.NoStrings i → t.strtabSize = none) ∧ (¬ F.NoStrings i → F.sh.Opens (F.strtab i) shtStrtab 24 ∧
      (F.sh.header (F.strtab i)).type = shtStrtab ∧ t.strtabSize = some (F.sh.header (F.strtab i)).size ∧
      ∀ p < (F.sh.header (F.strtab i)).size, t.tables.strtab p = F.bytes (F.strtab i) p) := by
  obtain ⟨hnone, rfl⟩ | ⟨k, hk, hr, hlast, ht⟩ := hb
  · exact ⟨fun _ => rfl, fun h => absurd ⟨heq, fun k hk hr => absurd hr (hnone k hk)⟩ h⟩
  · rw [ht.strtabIdx] at heq
    refine ⟨fun h => ht.noStrings (h.of_later hk hr), fun h => ?_⟩
    rw [heq]
    apply ht.strings
    intro hno
    exact h (hno.later hlast (heq.trans hno.1))

theorem Before.new_strings (hb : F.Before i t) (hne : F.strtab i ≠ t.tables.strtabIdx) : ¬ F.NoStrings i := by
  rintro ⟨h0, hall⟩
  obtain ⟨-, rfl⟩ | ⟨k, hk, hr, -, ht⟩ := hb
  · exact hne h0
  · exact hne (h0.trans ((hall k hk hr).symm.trans ht.strtabIdx.symm))

/-- The symbol table of section `i` is at hand. -/
structure SymtabOf (F : KmodFile) (i : ℕ) (t : RelocTables) : Prop where
  first : F.symtab i = 0 → ∃ k < i, F.Relocates k
  shdr : t.symtabShdr = some (F.symtab i)
  idx : t.symtabIdx = F.symtab i
  type : (F.sh.header (F.symtab i)).type = shtSymtab
  opens : F.sh.Opens (F.symtab i) shtSymtab 40
  content : ∀ p < (F.sh.header (F.symtab i)).size, t.symtab p = F.bytes (F.symtab i) p

/-- What comes of the symbol table of section `i`. -/
def SymtabEnd (F : KmodFile) (i : ℕ) (t : KmodTables) (s : ElfHost) : Except ElfLoadResult RelocTables → Prop
  | .error e => e ≠ .loadOk ∧ (s.Ample → (F.symtab i = 0 → ∃ k < i, F.Relocates k) ∧
      F.sh.Opens (F.symtab i) shtSymtab 40 ∧ (F.sh.header (F.symtab i)).type ≠ shtSymtab)
  | .ok t' => t'.strtab = t.tables.strtab ∧ t'.strtabIdx = t.tables.strtabIdx ∧
      (F.SymtabOf i t' ∨ t'.symtabShdr = none ∧ ¬ (F.symtab i = 0 → ∃ k < i, F.Relocates k))

theorem elfSymtab_wp (hF : F.Reads s) (hb : F.Before i t)
    (hopens : F.symtab i ≠ t.tables.symtabIdx → F.sh.Opens (F.symtab i) shtSymtab 40) :
    Comp.Wp True (elfSymtab F.sh.bytes F.sh.entsize (F.symtab i) t.tables)
      (fun r u => s.Alike u ∧ F.SymtabEnd i t s r) s := by
  have hfirst : F.symtab i ≠ t.tables.symtabIdx → F.symtab i = 0 → ∃ k < i, F.Relocates k := by
    intro hne h0
    obtain ⟨-, rfl⟩ | ⟨k, hk, hr, -⟩ := hb
    · exact absurd h0 hne
    · exact ⟨k, hk, hr⟩
  unfold elfSymtab
  refine .ite (fun heq => ?_) fun hne => .ite (fun htype => ?_) fun htype => ?_
  · refine .pure ⟨.refl s, rfl, rfl, ?_⟩
    obtain ⟨hnone, rfl⟩ | ⟨k, hk, hr, -, ht⟩ := hb
    · refine Or.inr ⟨rfl, fun h => ?_⟩
      obtain ⟨k, hk, hr⟩ := h heq
      exact hnone k hk hr
    · have hki : F.symtab i = F.symtab k := heq.trans ht.symtabIdx
      refine Or.inl ⟨fun _ => ⟨k, hk, hr⟩, ?_, ?_, ?_, ?_, ?_⟩
      · rw [hki]
        exact ht.symtabShdr
      · rw [hki]
        exact ht.symtabIdx
      · rw [hki]
        exact ht.symtabType
      · rw [hki]
        exact ht.opens
      · rw [hki]
        exact ht.symtab
  · refine elfLoad_wp (fun u hu hample => .pure ⟨hu, by decide, fun ha => absurd ha hample⟩) fun u n hu => ?_
    refine .pure ⟨hu, rfl, rfl, Or.inl ⟨hfirst hne, rfl, rfl, htype, hopens hne, fun p hp => ?_⟩⟩
    exact hF _ _ _ _ hp
  · exact .pure ⟨.refl s, by decide, fun _ => ⟨hfirst hne, hopens hne, htype⟩⟩

/-- What comes of the string table of section `i`, with the size that is kept for it. -/
def StrtabEnd (F : KmodFile) (i : ℕ) (t : KmodTables) (tables : RelocTables) (s : ElfHost) :
    Except ElfLoadResult RelocTables → Prop
  | .error e => e ≠ .loadOk ∧ (s.Ample → ¬ F.NoStrings i ∧ (F.sh.header (F.strtab i)).type ≠ shtStrtab)
  | .ok t' => (F.SymtabOf i tables → F.TablesOf i
      ⟨t', if F.strtab i = tables.strtabIdx then t.strtabSize else some (F.sh.header (F.strtab i)).size⟩)

theorem elfStrtab_wp (hF : F.Reads s) (hb : F.Before i t) {tables : RelocTables}
    (hstr : tables.strtab = t.tables.strtab) (hidx : tables.strtabIdx = t.tables.strtabIdx)
    (hopens : F.strtab i ≠ tables.strtabIdx → F.sh.Opens (F.strtab i) shtStrtab 24) :
    Comp.Wp True (elfStrtab F.sh.bytes F.sh.entsize (F.strtab i) tables)
      (fun r u => s.Alike u ∧ F.StrtabEnd i t tables s r) s := by
  unfold elfStrtab
  refine .ite (fun heq => ?_) fun hne => .ite (fun htype => ?_) fun htype => ?_
  · obtain ⟨hno, hsome⟩ := hb.strings (heq.trans hidx)
    refine .pure ⟨.refl s, fun h => ⟨h.shdr, h.idx, h.type, h.opens, h.content, heq.symm, ?_, ?_⟩⟩
    · rw [if_pos heq]
      exact hno
    · rw [if_pos heq, hstr]
      exact hsome
  · have hnew : ¬ F.NoStrings i := hb.new_strings fun h => hne (h.trans hidx.symm)
    refine elfLoad_wp (fun u hu hample => .pure ⟨hu, by decide, fun ha => absurd ha hample⟩) fun u n hu => ?_
    refine .pure ⟨hu, fun h => ⟨h.shdr, h.idx, h.type, h.opens, h.content, rfl, fun hno => absurd hno hnew, ?_⟩⟩
    intro _
    rw [if_neg hne]
    exact ⟨hopens hne, htype, rfl, fun p hp => hF _ _ _ _ hp⟩
  · exact .pure ⟨.refl s, by decide, fun _ => ⟨hb.new_strings fun h => hne (h.trans hidx.symm), htype⟩⟩

/-- What comes of relocation section `i`. -/
def RelocEnd (F : KmodFile) (i : ℕ) (s : ElfHost) : Except ElfLoadResult KmodTables → Prop
  | .error e => e ≠ .loadOk ∧ (s.Ample → F.LinksFit i ∧ F.Rejected i)
  | .ok t => F.LinksFit i ∧ ¬ F.Rejected i ∧ F.RelocFits i ∧ F.TablesOf i t

/-- One relocation section. -/
theorem kmodRelocSection_wp (hF : F.Reads s) (hb : F.Before i t) (hi : F.Relocates i) {target : ElfPrgload}
    (htarget : target.size = (F.sh.header (F.sh.header i).info).size) (prgload : List ElfPrgload) :
    Comp.Wp (F.LinksFit i ∧ (¬ F.Rejected i → F.RelocFits i))
      (kmodRelocSection F.machine F.sh prgload (F.sh.header i) target t)
      (fun r u => s.Alike u ∧ F.RelocEnd i s r) s := by
  unfold kmodRelocSection
  refine elfGuard_wp (fun h _ => h.1.symtab) fun hopens => ?_
  refine .bind ((elfSymtab_wp hF hb hopens).weaken (fun _ => trivial) fun _ _ => id) fun r u hr => ?_
  obtain ⟨hu, hend⟩ := hr
  cases r with
  | error e =>
    refine .pure ⟨hu, hend.1, fun ha => ?_⟩
    obtain ⟨hfirst, hop, htype⟩ := hend.2 ha
    exact ⟨⟨hfirst, hop, fun h => absurd h htype⟩, hi, Or.inl htype⟩
  | ok tables =>
    obtain ⟨hstr, hidx, hsym | ⟨hnull, hfirst⟩⟩ := hend
    rotate_left
    · refine Comp.Wp.bind (R := fun _ _ => False) (.of_fault ?_ fun h => hfirst h.1.first) fun _ _ h => h.elim
      rw [Comp.readOr_apply, hnull]
      rfl
    refine .step (a := F.symtab i) (t := u) (by rw [Comp.readOr_apply, hsym.shdr]; rfl) ?_
    have hlinks : (F.strtab i ≠ tables.strtabIdx → F.sh.Opens (F.strtab i) shtStrtab 24) → F.LinksFit i := by
      intro hop
      refine ⟨hsym.first, hsym.opens, fun _ hno => ?_⟩
      by_cases heq : F.strtab i = tables.strtabIdx
      · exact ((hb.strings (heq.trans hidx)).2 hno).1
      · exact hop heq
    refine elfGuard_wp (fun h hne => ?_) fun hstrOpens => ?_
    · exact h.1.strtab hsym.type (hb.new_strings fun h => hne (h.trans hidx.symm))
    refine .bind ((elfStrtab_wp (hF.alike hu) hb hstr hidx hstrOpens).weaken (fun _ => trivial) fun _ _ => id)
      fun r v hr => ?_
    obtain ⟨hv, hend⟩ := hr
    cases r with
    | error e =>
      refine .pure ⟨hu.trans hv, hend.1, fun ha => ?_⟩
      obtain ⟨hno, htype⟩ := hend.2 (ha.alike hu)
      exact ⟨hlinks hstrOpens, hi, Or.inr ⟨hno, htype⟩⟩
    | ok tables' =>
      have ht := hend hsym
      have hnot : ¬ F.Rejected i := by
        rintro ⟨-, htype | ⟨hno, htype⟩⟩
        · exact htype hsym.type
        · exact htype (ht.strings hno).2.1
      have huv := hu.trans hv
      refine elfLoad_wp (fun w hw hample => ?_) fun w n hw => ?_
      · exact .pure ⟨huv.trans hw, by decide, fun ha => absurd (ha.alike huv) hample⟩
      refine elfGuard_wp (fun h => (h.2 hnot).entsize) fun hentsize => ?_
      have hrel : ∀ p < (F.sh.header i).size,
          v.block n (F.sh.header i).offset (F.sh.header i).size p = F.bytes i p := fun p hp =>
        hF.alike huv _ _ _ _ hp
      refine .bind (Comp.Wp.forRange (J := fun m x => (∀ j < m, F.RelFits i j) ∧ s.Alike x) (fun j _ hj x hx => ?_)
        ⟨fun j hj => absurd hj (Nat.not_lt_zero j), huv.trans hw⟩) fun _ x hx => ?_
      · obtain ⟨hbefore, hsx⟩ := hx
        rw [Nat.zero_add] at hj
        refine elfGuard_wp (fun h => ((h.2 hnot).entries j hj).1) fun hfits => ?_
        rw [elfRel_agree hfits hrel]
        refine (kmodRelocEntry_wp ht htarget prgload (F.rel i j)).weaken (fun h => ((h.2 hnot).entries j hj).2)
          fun _ y hy => ⟨fun l hl => ?_, hsx.trans hy.2⟩
        obtain hlt | rfl := Nat.lt_succ_iff_lt_or_eq.mp hl
        · exact hbefore l hlt
        · exact ⟨hfits, hy.1⟩
      · obtain ⟨hall, hsx⟩ := hx
        rw [Nat.zero_add] at hall
        exact .pure ⟨hsx, hlinks hstrOpens, hnot, ⟨hentsize, hall⟩, ht⟩

/-! The loops over the sections. -/

theorem mem_loaded {p : ElfPrgload} :
    p ∈ F.loaded addr ↔ ∃ k < F.sh.num, F.sh.Alloc k ∧ p = ⟨k, addr k, (F.sh.header k).size⟩ := by
  simp only [loaded, loadedBefore, List.mem_filterMap, List.mem_range]
  constructor
  · rintro ⟨k, hk, h⟩
    split_ifs at h with ha
    exact ⟨k, hk, ha, (Option.some.inj h).symm⟩
  · rintro ⟨k, hk, ha, rfl⟩
    exact ⟨k, hk, if_pos ha⟩

theorem loadedBefore_succ_of_alloc (h : F.sh.Alloc i) :
    F.loadedBefore addr (i + 1) = F.loadedBefore addr i ++ [⟨i, addr i, (F.sh.header i).size⟩] := by
  unfold loadedBefore
  rw [List.range_succ, List.filterMap_append]
  simp [h]

theorem loadedBefore_succ_of_not_alloc (h : ¬ F.sh.Alloc i) : F.loadedBefore addr (i + 1) = F.loadedBefore addr i := by
  unfold loadedBefore
  rw [List.range_succ, List.filterMap_append]
  simp [h]

/-- Section `k` is found among those that are loaded. -/
theorem loaded_find {k : ℕ} {p : ElfPrgload} (h : (F.loaded addr).find? (fun p => p.idx = k) = some p) :
    k < F.sh.num ∧ F.sh.Alloc k ∧ p.size = (F.sh.header k).size := by
  obtain ⟨l, hl, ha, rfl⟩ := mem_loaded.mp (List.mem_of_find?_eq_some h)
  obtain rfl : l = k := by simpa using List.find?_some h
  exact ⟨hl, ha, rfl⟩

theorem loaded_find_none {k : ℕ} (h : (F.loaded addr).find? (fun p => p.idx = k) = none) :
    ¬ (k < F.sh.num ∧ F.sh.Alloc k) := by
  rintro ⟨hk, ha⟩
  have := List.find?_eq_none.mp h _ (mem_loaded.mpr ⟨k, hk, ha, rfl⟩)
  simp at this

/-- The loop of `elf_do_reloc` reads section `i` in bounds. -/
def RelocStep (F : KmodFile) (i : ℕ) : Prop :=
  F.sh.Fits i 40 ∧ (F.Relocates i → F.LinksFit i ∧ (¬ F.Rejected i → F.RelocFits i))

/-- What comes of `elf_do_reloc` from section `i` on: it returns `LOAD_OK` only where no section is rejected. -/
structure RelocsEnd (F : KmodFile) (i : ℕ) (s : ElfHost) (r : ElfLoadResult) : Prop where
  passed : r = .loadOk → ∀ k < F.sh.num, ¬ F.Rejected k
  rejected : r ≠ .loadOk → s.Ample → ∃ k < F.sh.num, F.Rejected k
  steps : r = .loadOk ∨ s.Ample → ∀ k, i ≤ k → k < F.sh.num → (∀ l < k, ¬ F.Rejected l) → F.RelocStep k

theorem kmodRelocSections_wp {n : ℕ} (hF : F.Reads s) (hb : F.Before i t) (hn : i + n = F.sh.num)
    (hdone : ∀ k < i, ¬ F.Rejected k) :
    Comp.Wp (∀ k, i ≤ k → k < F.sh.num → (∀ l < k, ¬ F.Rejected l) → F.RelocStep k)
      (kmodRelocSections F.machine F.sh (F.loaded addr) n i t)
      (fun r u => s.Alike u ∧ F.RelocsEnd i s r) s := by
  induction n generalizing i t s with
  | zero =>
    refine .pure ⟨.refl s, fun _ k hk => hdone k (by omega), fun h => absurd rfl h, fun _ k hk hlt => ?_⟩
    exact absurd hlt (by omega)
  | succ n ih =>
    have hlt : i < F.sh.num := by omega
    -- What is left once section `i` is done.
    have hrest : ∀ {t' : KmodTables} {u : ElfHost}, s.Alike u → F.Before (i + 1) t' → F.RelocStep i → ¬ F.Rejected i →
        Comp.Wp (∀ k, i ≤ k → k < F.sh.num → (∀ l < k, ¬ F.Rejected l) → F.RelocStep k)
          (kmodRelocSections F.machine F.sh (F.loaded addr) n (i + 1) t')
          (fun r u => s.Alike u ∧ F.RelocsEnd i s r) u := by
      intro t' u hu hb' hstep hnot
      refine (ih (hF.alike hu) hb' (by omega) fun k hk => ?_).weaken (fun h k hik => h k (by omega))
        fun r v hv => ⟨hu.trans hv.1, hv.2.passed, fun hr ha => hv.2.rejected hr (ha.alike hu), fun hr k hik hk hl => ?_⟩
      · obtain hlt | rfl := Nat.lt_succ_iff_lt_or_eq.mp hk
        · exact hdone k hlt
        · exact hnot
      · obtain rfl | hgt := Nat.eq_or_lt_of_le hik
        · exact hstep
        · exact hv.2.steps (hr.imp_right fun ha => ha.alike hu) k hgt hk hl
    unfold kmodRelocSections
    refine elfGuard_wp (fun h => (h i (Nat.le_refl i) hlt hdone).1) fun hfits => ?_
    -- A section that relocates nothing is passed over with the tables as they are.
    have hskip : ¬ F.Relocates i → F.Before (i + 1) t := by
      intro hno
      obtain ⟨hnone, heq⟩ | ⟨k, hk, hr, hlast, ht⟩ := hb
      · refine Or.inl ⟨fun k hk => ?_, heq⟩
        obtain hlt | rfl := Nat.lt_succ_iff_lt_or_eq.mp hk
        · exact hnone k hlt
        · exact hno
      · refine Or.inr ⟨k, Nat.lt_succ_of_lt hk, hr, fun l hkl hl => ?_, ht⟩
        obtain hlt | rfl := Nat.lt_succ_iff_lt_or_eq.mp hl
        · exact hlast l hkl hlt
        · exact hno
    have hpass := fun hno : ¬ F.Relocates i =>
      hrest (.refl s) (hskip hno) ⟨hfits, fun hr => absurd hr hno⟩ fun h => hno h.1
    refine .ite (fun htype => ?_) fun htype => hpass fun hr => htype hr.1
    cases hfind : (F.loaded addr).find? fun p => p.idx = (F.sh.header i).info with
    | none => exact hpass fun hr => loaded_find_none hfind hr.2
    | some target =>
      obtain ⟨hinfo, halloc, hsize⟩ := loaded_find hfind
      have hi : F.Relocates i := ⟨htype, hinfo, halloc⟩
      refine .bind ((kmodRelocSection_wp hF hb hi hsize (F.loaded addr)).weaken
        (fun h => (h i (Nat.le_refl i) hlt hdone).2 hi) fun _ _ => id) fun r u hr => ?_
      obtain ⟨hu, hend⟩ := hr
      cases r with
      | error e =>
        refine .pure ⟨hu, fun he => absurd he hend.1, fun _ ha => ⟨i, hlt, (hend.2 ha).2⟩, fun he k hik hk hl => ?_⟩
        obtain ⟨hlinks, hrej⟩ := hend.2 (he.resolve_left hend.1)
        obtain rfl | hgt := Nat.eq_or_lt_of_le hik
        · exact ⟨hfits, fun _ => ⟨hlinks, fun hnot => absurd hrej hnot⟩⟩
        · exact absurd hrej (hl i hgt)
      | ok t' =>
        obtain ⟨hlinks, hnot, hreloc, ht'⟩ := hend
        refine hrest hu (Or.inr ⟨i, Nat.lt_succ_self i, hi, fun l hil hl => ?_, ht'⟩)
          ⟨hfits, fun _ => ⟨hlinks, fun _ => hreloc⟩⟩ hnot
        exact absurd hl (by omega)

/-- What comes of `elf_load_rel` from section `i` on, where there is room for the sections that `room` names. -/
def LoadEnd (F : KmodFile) (addr : ℕ → ℕ) (room : ℕ → Bool) (i : ℕ) (s : ElfHost) :
    Except ElfLoadResult (List ElfPrgload) → Prop
  | .error _ => ¬ (s.Ample ∧ ∀ k, room k = true)
  | .ok l => l = F.loaded addr ∧ ∀ k, i ≤ k → k < F.sh.num → F.sh.Fits k 24

theorem LoadEnd.step {room : ℕ → Bool} {u : ElfHost} {r : Except ElfLoadResult (List ElfPrgload)}
    (h : F.LoadEnd addr room (i + 1) u r) (hu : s.Alike u) (hfits : F.sh.Fits i 24) : F.LoadEnd addr room i s r := by
  have hall : (∀ k, i + 1 ≤ k → k < F.sh.num → F.sh.Fits k 24) → ∀ k, i ≤ k → k < F.sh.num → F.sh.Fits k 24 := by
    intro h k hik hk
    obtain rfl | hgt := Nat.eq_or_lt_of_le hik
    · exact hfits
    · exact h k hgt hk
  cases r with
  | error e => exact fun ha => h ⟨ha.1.alike hu, ha.2⟩
  | ok l => exact ⟨h.1, hall h.2⟩

theorem kmodLoadRel_wp {n : ℕ} {room : ℕ → Bool} (hn : i + n = F.sh.num) :
    Comp.Wp (∀ k, i ≤ k → k < F.sh.num → F.sh.Fits k 24)
      (kmodLoadRel (fun k => if room k then some (addr k) else none) F.sh n i (F.loadedBefore addr i))
      (fun r u => s.Alike u ∧ F.LoadEnd addr room i s r) s := by
  induction n generalizing i s with
  | zero =>
    obtain rfl : i = F.sh.num := hn
    exact .pure ⟨.refl s, rfl, fun k hik hk => absurd hk (by omega)⟩
  | succ n ih =>
    unfold kmodLoadRel
    refine elfGuard_wp (fun h => h i (Nat.le_refl i) (by omega)) fun hfits => ?_
    have hrest : ∀ {u : ElfHost}, s.Alike u → Comp.Wp (∀ k, i ≤ k → k < F.sh.num → F.sh.Fits k 24)
        (kmodLoadRel (fun k => if room k then some (addr k) else none) F.sh n (i + 1) (F.loadedBefore addr (i + 1)))
        (fun r v => s.Alike v ∧ F.LoadEnd addr room i s r) u := fun hu =>
      (ih (by omega)).weaken (fun h k hik => h k (by omega)) fun r v hv => ⟨hu.trans hv.1, hv.2.step hu hfits⟩
    refine .ite (fun ha => ?_) fun ha => ?_
    · rw [loadedBefore_succ_of_alloc ha] at hrest
      cases hroom : room i with
      | false =>
        refine .pure ⟨.refl s, fun h => ?_⟩
        rw [h.2 i] at hroom
        cases hroom
      | true =>
        simp only [if_true]
        refine .step rfl (elfHeap_wp fun b u hu hb => ?_)
        have hsu : s.Alike u := ⟨hu.file, hu.junk, hu.heapOk⟩
        cases b with
        | false => exact .pure ⟨hsu, fun h => absurd h.1 (hb rfl)⟩
        | true => exact hrest hsu
    · rw [loadedBefore_succ_of_not_alloc ha] at hrest
      exact hrest (.refl s)

/-! Symbols. -/

theorem symAddEntry_wp (full : ℕ → Bool) (name : List UInt8) (a : ℕ) :
    Comp.Wp True (symAddEntry full name a) (fun _ u => s.Alike u) s := by
  unfold symAddEntry
  refine .read_bind ?_
  cases s.kernelSyms.findIdx? fun e => e.hasName name with
  | some i => exact .modify ⟨rfl, rfl, rfl⟩
  | none =>
    have hok : Comp.Wp True (if full s.kernelSyms.length then elfHeap else pure true) (fun _ u => s.Alike u) s :=
      .ite (fun _ => .of_eq rfl s.alike_next) fun _ => .pure (.refl s)
    refine .bind hok fun b u hu => .when (fun _ => ?_) fun _ => hu
    exact .modify ⟨hu.file, hu.junk, hu.heapOk⟩

/-- A symbol is exported under a name that is terminated in its table. -/
theorem kmodExport_wp {ok : Prop} {strtab : ℕ → UInt8} {size : ℕ} {sym : KmodSym} (full : ℕ → Bool) (a : ℕ)
    (hok : ok → sym.Exported → StringFits strtab (some size) sym.name) :
    Comp.Wp ok (kmodExport full strtab size sym a)
      (fun _ u => (sym.Exported → StringFits strtab (some size) sym.name) ∧ s.Alike u) s := by
  unfold kmodExport
  refine .when (fun he => ?_) fun he => ⟨fun h => absurd h he, .refl s⟩
  cases hname : cstring strtab (size - sym.name) sym.name with
  | none =>
    have hnot : ¬ StringFits strtab (some size) sym.name := by
      rintro ⟨sz, hsz, hsome⟩
      obtain rfl := Option.some.inj hsz
      rw [hname] at hsome
      cases hsome
    refine Comp.Wp.bind (R := fun _ _ => False) (.of_fault ?_ fun h => hnot (hok h he)) fun _ _ h => h.elim
    rfl
  | some name =>
    refine .step (a := name) (t := s) rfl ?_
    refine (symAddEntry_wp full name a).weaken (fun _ => trivial) fun _ u hu => ⟨fun _ => ⟨size, rfl, ?_⟩, hu⟩
    rw [hname]
    rfl

theorem InitBefore.succ {j : ℕ} (hi : (F.sh.header i).type = shtSymtab)
    (hj : j < (F.sh.header i).size / (F.sh.header i).entsize) :
    F.InitBefore addr i (j + 1) ↔ F.InitBefore addr i j ∨ F.IsInit addr i j := by
  constructor
  · rintro ⟨k, l, hk, hl, hlt, hinit⟩
    obtain hlt | ⟨rfl, hlt⟩ := hlt
    · exact Or.inl ⟨k, l, hk, hl, Or.inl hlt, hinit⟩
    · obtain hlt | rfl := Nat.lt_succ_iff_lt_or_eq.mp hlt
      · exact Or.inl ⟨k, l, hk, hl, Or.inr ⟨rfl, hlt⟩, hinit⟩
      · exact Or.inr hinit
  · rintro (⟨k, l, hk, hl, hlt, hinit⟩ | hinit)
    · exact ⟨k, l, hk, hl, hlt.imp_right fun h => ⟨h.1, Nat.lt_succ_of_lt h.2⟩, hinit⟩
    · exact ⟨i, j, hi, hj, Or.inr ⟨rfl, Nat.lt_succ_self j⟩, hinit⟩

theorem InitBefore.of_start {j : ℕ} (h : F.InitBefore addr i 0) : F.InitBefore addr i j := by
  obtain ⟨k, l, hk, hl, hlt, hinit⟩ := h
  exact ⟨k, l, hk, hl, hlt.imp_right fun h => absurd h.2 (Nat.not_lt_zero l), hinit⟩

theorem InitBefore.next_table :
    F.InitBefore addr (i + 1) 0 ↔ F.InitBefore addr i 0 ∨ (F.sh.header i).type = shtSymtab ∧
      F.InitBefore addr i ((F.sh.header i).size / (F.sh.header i).entsize) := by
  constructor
  · rintro ⟨k, l, hk, hl, hlt, hinit⟩
    obtain hlt | ⟨-, hlt⟩ := hlt
    · obtain hlt | rfl := Nat.lt_succ_iff_lt_or_eq.mp hlt
      · exact Or.inl ⟨k, l, hk, hl, Or.inl hlt, hinit⟩
      · exact Or.inr ⟨hk, k, l, hk, hl, Or.inr ⟨rfl, hl⟩, hinit⟩
    · cases hlt
  · rintro (⟨k, l, hk, hl, hlt, hinit⟩ | ⟨-, k, l, hk, hl, hlt, hinit⟩)
    · obtain hlt | ⟨-, hlt⟩ := hlt
      · exact ⟨k, l, hk, hl, Or.inl (Nat.lt_succ_of_lt hlt), hinit⟩
      · cases hlt
    · exact ⟨k, l, hk, hl, Or.inl (by omega), hinit⟩

/-- One symbol, where the entry point is known once it has been passed. -/
theorem kmodSymbol_wp {strtab : ℕ → UInt8} {wanted : Bool} {entry j : ℕ} (full : ℕ → Bool)
    (hstr : ∀ p < (F.sh.header (F.names i)).size, strtab p = F.bytes (F.names i) p)
    (hi : (F.sh.header i).type = shtSymtab) (hj : j < (F.sh.header i).size / (F.sh.header i).entsize)
    (hfits : w32 (j * (F.sh.header i).entsize) + 16 ≤ (F.sh.header i).size)
    (hentry : wanted = true → (entry ≠ 0 ↔ F.InitBefore addr i j)) :
    Comp.Wp (F.SymFits addr wanted i j)
      (kmodSymbol full wanted (F.loaded addr) strtab (F.sh.header (F.names i)).size (F.sym i j) entry)
      (fun r u => s.Alike u ∧ F.SymFits addr wanted i j ∧
        (wanted = true → (r ≠ 0 ↔ F.InitBefore addr i (j + 1)))) s := by
  have hfitsIff : StringFits strtab (some (F.sh.header (F.names i)).size) (F.sym i j).name ↔
      StringFits (F.bytes (F.names i)) (some (F.sh.header (F.names i)).size) (F.sym i j).name := stringFits_congr hstr
  unfold kmodSymbol
  refine .ite (fun hd => ?_) fun hd => ?_
  rotate_left
  · refine .pure ⟨.refl s, ⟨hfits, fun h => absurd h hd, fun h => absurd h hd⟩, fun hw => ?_⟩
    rw [InitBefore.succ hi hj, hentry hw]
    exact ⟨Or.inl, fun h => h.resolve_right fun h => hd h.1⟩
  refine .ite (fun hcmp => ?_) fun hcmp => ?_
  · obtain ⟨hw, hzero⟩ := hcmp
    have hnot : ¬ F.InitBefore addr i j := fun h => (hentry hw).mpr h hzero
    have hok : F.SymFits addr wanted i j → strcmpEnd strtab (F.sym i j).name elfKmodInitFunc = F.initCmp i j := fun h =>
      strcmpEnd_congr hstr (h.compared hd hw hnot)
    refine elfGuard_wp (fun h => ?_) fun hlt => ?_
    · rw [hok h]
      exact h.compared hd hw hnot
    have heq : F.initCmp i j = strcmpEnd strtab (F.sym i j).name elfKmodInitFunc :=
      strcmpEnd_congr (fun p hp => (hstr p hp).symm) hlt
    rw [← heq] at hlt ⊢
    refine .ite (fun hequal => ?_) fun hdiff => ?_
    · refine .pure ⟨.refl s, ⟨hfits, fun _ _ => ?_, fun _ _ _ => hlt⟩, fun _ => ?_⟩
      · exact stringFits_iff.mpr ⟨(F.initCmp i j).1, le_strcmpEnd, hlt, strcmpEnd_equal hequal⟩
      · rw [InitBefore.succ hi hj]
        exact ⟨fun h => Or.inr ⟨hd, hequal, h⟩, fun h => (h.resolve_left hnot).2.2⟩
    · refine .bind (kmodExport_wp full _ fun h he => hfitsIff.mpr (h.exported hd he)) fun _ u hu => ?_
      refine .pure ⟨hu.2, ⟨hfits, fun _ he => hfitsIff.mp (hu.1 he), fun _ _ _ => hlt⟩, fun _ => ?_⟩
      rw [InitBefore.succ hi hj, hentry hw]
      exact ⟨Or.inl, fun h => h.resolve_right fun h => hdiff h.2.1⟩
  · refine .bind (kmodExport_wp full _ fun h he => hfitsIff.mpr (h.exported hd he)) fun _ u hu => ?_
    have hne : wanted = true → F.InitBefore addr i j := fun hw => (hentry hw).mp fun h => hcmp ⟨hw, h⟩
    refine .pure ⟨hu.2, ⟨hfits, fun _ he => hfitsIff.mp (hu.1 he), fun _ hw hno => absurd (hne hw) hno⟩, fun hw => ?_⟩
    rw [InitBefore.succ hi hj, hentry hw]
    exact ⟨Or.inl, fun _ => hne hw⟩

/-- The symbols of a table from symbol `j` on. -/
theorem kmodSymbols_wp {symtab strtab : ℕ → UInt8} {wanted : Bool} {n entry j : ℕ} (full : ℕ → Bool)
    (hsym : ∀ p < (F.sh.header i).size, symtab p = F.bytes i p)
    (hstr : ∀ p < (F.sh.header (F.names i)).size, strtab p = F.bytes (F.names i) p)
    (hi : (F.sh.header i).type = shtSymtab) (hn : j + n = (F.sh.header i).size / (F.sh.header i).entsize)
    (hentry : wanted = true → (entry ≠ 0 ↔ F.InitBefore addr i j)) :
    Comp.Wp (∀ l, j ≤ l → l < (F.sh.header i).size / (F.sh.header i).entsize → F.SymFits addr wanted i l)
      (kmodSymbols full wanted (F.loaded addr) symtab strtab (F.sh.header i).size (F.sh.header i).entsize
        (F.sh.header (F.names i)).size n j entry)
      (fun r u => s.Alike u ∧
        (∀ l, j ≤ l → l < (F.sh.header i).size / (F.sh.header i).entsize → F.SymFits addr wanted i l) ∧
        (wanted = true → (r ≠ 0 ↔ F.InitBefore addr i ((F.sh.header i).size / (F.sh.header i).entsize)))) s := by
  induction n generalizing j entry s with
  | zero =>
    obtain rfl : j = (F.sh.header i).size / (F.sh.header i).entsize := hn
    exact .pure ⟨.refl s, fun l hj hl => absurd hl (by omega), hentry⟩
  | succ n ih =>
    have hlt : j < (F.sh.header i).size / (F.sh.header i).entsize := by omega
    unfold kmodSymbols
    refine elfGuard_wp (fun h => (h j (Nat.le_refl j) hlt).fits) fun hfits => ?_
    have hread : kmodSym symtab (w32 (j * (F.sh.header i).entsize)) = F.sym i j := kmodSym_congr hfits hsym
    rw [hread]
    refine .bind ((kmodSymbol_wp full hstr hi hlt hfits hentry).weaken (fun h => h j (Nat.le_refl j) hlt)
      fun _ _ => id) fun r u hu => ?_
    refine (ih (by omega) hu.2.2).weaken (fun h l hjl => h l (by omega)) fun r' v hv =>
      ⟨hu.1.trans hv.1, fun l hjl hl => ?_, hv.2.2⟩
    obtain rfl | hgt := Nat.eq_or_lt_of_le hjl
    · exact hu.2.1
    · exact hv.2.1 l hgt hl

/-- `elf_load_syms` reads section `i` in bounds. -/
def SymsStep (F : KmodFile) (addr : ℕ → ℕ) (wanted : Bool) (i : ℕ) : Prop :=
  (F.sh.header i).type = shtSymtab → F.sh.Fits (F.names i) 24 ∧ (¬ F.NamesRejected i → F.SymsFit addr wanted i)

/-- `elf_load_syms` from section `i` on. -/
theorem kmodLoadSyms_wp {n entry : ℕ} {wanted : Bool} (full : ℕ → Bool) (hF : F.Reads s)
    (hheaders : ∀ k < F.sh.num, F.sh.Fits k 40) (hn : i + n = F.sh.num)
    (hdone : ∀ k < i, ¬ F.NamesRejected k) (hentry : wanted = true → (entry ≠ 0 ↔ F.InitBefore addr i 0)) :
    Comp.Wp (∀ k, i ≤ k → k < F.sh.num → (∀ l < k, ¬ F.NamesRejected l) → F.SymsStep addr wanted k)
      (kmodLoadSyms full wanted F.sh (F.loaded addr) n i entry)
      (fun r _ => (∃ e, r = .ok e) ∨ s.Ample →
        ∀ k, i ≤ k → k < F.sh.num → (∀ l < k, ¬ F.NamesRejected l) → F.SymsStep addr wanted k) s := by
  induction n generalizing i entry s with
  | zero =>
    refine .pure fun _ k hik hk => ?_
    exact absurd hk (by omega)
  | succ n ih =>
    have hlt : i < F.sh.num := by omega
    have hmono : ∀ m, m ≤ 40 → F.sh.Fits i m := fun m hm =>
      ⟨hlt, (Nat.add_le_add_left hm _).trans (hheaders i hlt).2⟩
    have hrest : ∀ {u : ElfHost} {e : ℕ}, s.Alike u → F.SymsStep addr wanted i → ¬ F.NamesRejected i →
        (wanted = true → (e ≠ 0 ↔ F.InitBefore addr (i + 1) 0)) →
        Comp.Wp (∀ k, i ≤ k → k < F.sh.num → (∀ l < k, ¬ F.NamesRejected l) → F.SymsStep addr wanted k)
          (kmodLoadSyms full wanted F.sh (F.loaded addr) n (i + 1) e)
          (fun r _ => (∃ e, r = .ok e) ∨ s.Ample →
            ∀ k, i ≤ k → k < F.sh.num → (∀ l < k, ¬ F.NamesRejected l) → F.SymsStep addr wanted k) u := by
      intro u e hu hstep hnot he
      refine (ih (hF.alike hu) (by omega) (fun k hk => ?_) he).weaken (fun h k hik => h k (by omega))
        fun r v hv hr k hik hk hl => ?_
      · obtain hlt | rfl := Nat.lt_succ_iff_lt_or_eq.mp hk
        · exact hdone k hlt
        · exact hnot
      · obtain rfl | hgt := Nat.eq_or_lt_of_le hik
        · exact hstep
        · exact hv (hr.imp_right fun ha => ha.alike hu) k hgt hk hl
    unfold kmodLoadSyms
    refine elfGuard_wp (fun _ => hmono 28 (by decide)) fun _ => .ite (fun htype => ?_) fun htype => ?_
    rotate_left
    · refine hrest (.refl s) (fun h => absurd h htype) (fun h => htype h.1) fun hw => ?_
      rw [hentry hw, InitBefore.next_table]
      exact ⟨Or.inl, fun h => h.resolve_right fun h => htype h.1⟩
    refine elfGuard_wp (fun h => (h i (Nat.le_refl i) hlt hdone htype).1) fun hlink => .ite (fun hbad => ?_) fun hgood => ?_
    · refine .pure fun _ k hik hk hl => ?_
      have hrej : F.NamesRejected i := ⟨htype, hbad⟩
      obtain rfl | hgt := Nat.eq_or_lt_of_le hik
      · exact fun _ => ⟨hlink, fun hnot => absurd hrej hnot⟩
      · exact absurd hrej (hl i hgt)
    have hnot : ¬ F.NamesRejected i := fun h => hgood h.2
    refine elfLoad_wp (fun u hu hample => .pure fun h => ?_) fun u m hu => ?_
    · obtain ⟨e, he⟩ | ha := h
      · cases he
      · exact absurd ha hample
    refine elfGuard_wp (fun _ => hmono 40 (by decide)) fun _ => ?_
    refine elfLoad_wp (fun v hv hample => .pure fun h => ?_) fun v m' hv => ?_
    · obtain ⟨e, he⟩ | ha := h
      · cases he
      · exact absurd (ha.alike hu) hample
    refine elfGuard_wp (fun h => ((h i (Nat.le_refl i) hlt hdone htype).2 hnot).entsize) fun hentsize => ?_
    have hstart : wanted = true → (entry ≠ 0 ↔ F.InitBefore addr i 0) := hentry
    refine .bind ((kmodSymbols_wp full (hF.alike hu _ _ _) (hF _ _ _) htype (Nat.zero_add _) hstart).weaken
      (fun h l _ hl => ((h i (Nat.le_refl i) hlt hdone htype).2 hnot).symbols l hl) fun _ _ => id) fun e w hw => ?_
    obtain ⟨hvw, hall, he⟩ := hw
    refine hrest (hu.trans (hv.trans hvw)) (fun _ => ⟨hlink, fun _ => ⟨hentsize, fun l hl => hall l (Nat.zero_le l) hl⟩⟩)
      hnot fun hw => ?_
    rw [he hw, InitBefore.next_table]
    exact ⟨fun h => Or.inr ⟨htype, h⟩, fun h => h.elim InitBefore.of_start And.right⟩

/-- What is read behind the section headers. -/
theorem inRange_iff {wanted : Bool} : F.InRange addr wanted ↔ (∀ k < F.sh.num, F.sh.Fits k 24) ∧
    (∀ k < F.sh.num, (∀ l < k, ¬ F.Rejected l) → F.RelocStep k) ∧ ((∀ k < F.sh.num, ¬ F.Rejected k) →
      ∀ k < F.sh.num, (∀ l < k, ¬ F.NamesRejected l) → F.SymsStep addr wanted k) :=
  ⟨fun h => ⟨h.sections, h.relocs, h.syms⟩, fun h => ⟨h.1, h.2.1, h.2.2⟩⟩

end KmodFile

/-! The whole module. -/

section Whole

variable {s : ElfHost} {addr : ℕ → ℕ} {wanted : Bool}

theorem ElfHost.Steady.reads (h : s.Steady) : s.kmodFile.Reads s := h

theorem kmodReadHeader_wp (hcheck : elfCheckHeader (elfEhdr s.kmodHeader) = true) :
    Comp.Wp True kmodReadHeader (fun r u => (∃ e, r = .error e ∧ ¬ s.Ample) ∨ r = .ok s.kmodHeader ∧ u = s.next) s := by
  refine elfLoad_next_wp (fun ha => .pure (Or.inl ⟨_, rfl, ha⟩)) ?_
  exact .ite (fun _ => .pure (Or.inr ⟨rfl, rfl⟩)) fun h => absurd hcheck h

/-- What comes of `elf_read_shdr`. -/
def ShdrEnd (s : ElfHost) : Except ElfLoadResult ElfShTable → Prop
  | .error _ => s.Ample → s.kmodFile.sh.Opens (elfShInfo s.kmodHeader).shstrndx shtStrtab 24 ∧
      (s.kmodFile.sh.header (elfShInfo s.kmodHeader).shstrndx).type ≠ shtStrtab
  | .ok t => t = s.kmodFile.sh ∧ s.kmodFile.sh.Opens (elfShInfo s.kmodHeader).shstrndx shtStrtab 24 ∧
      (s.kmodFile.sh.header (elfShInfo s.kmodHeader).shstrndx).type = shtStrtab

theorem kmodReadShdr_wp :
    Comp.Wp (s.kmodFile.sh.Opens (elfShInfo s.kmodHeader).shstrndx shtStrtab 24)
      (kmodReadShdr (elfShInfo s.kmodHeader)) (fun r u => s.Alike u ∧ ShdrEnd s r) s.next := by
  have hnext := s.alike_next.trans s.next.alike_next
  refine elfLoad_next_wp (fun ha => ?_) ?_
  · exact .pure ⟨hnext, fun h => absurd (h.alike s.alike_next) ha⟩
  refine elfGuard_wp (fun h => h.1) fun h8 => .ite (fun hno => ?_) fun hyes => ?_
  · exact .pure ⟨hnext, fun _ => ⟨⟨h8, fun h => absurd h hno⟩, hno⟩⟩
  have hstr := not_not.mp hyes
  refine elfGuard_wp (fun h => h.2 hstr) fun h24 => ?_
  refine elfLoad_wp (fun v hv ha => ?_) fun v n hv => ?_
  · exact .pure ⟨hnext.trans hv, fun h => absurd (h.alike hnext) ha⟩
  · exact .pure ⟨hnext.trans hv, rfl, ⟨h8, fun _ => h24⟩, hstr⟩

/-- `elf_load_kmod` reads nothing out of bounds where the module is in range, and it gets through only then. -/
theorem elfLoadKmod_wp {full : ℕ → Bool} {room : ℕ → Bool} (hread : s.Steady)
    (hcheck : elfCheckHeader (elfEhdr s.kmodHeader) = true) (htype : (elfEhdr s.kmodHeader).type = etRel) :
    Comp.Wp (KmodInRange s addr wanted)
      (elfLoadKmod (fun i => if room i then some (addr i) else none) full wanted)
      (fun r _ => (∃ v, r = .ok v) ∨ s.Ample ∧ (∀ i, room i = true) → KmodInRange s addr wanted) s := by
  -- An error is an answer where something was wanting or where the module is in range.
  have herror : ∀ {ok : Prop} {e : ElfLoadResult} {u : ElfHost},
      (s.Ample ∧ (∀ i, room i = true) → KmodInRange s addr wanted) →
      Comp.Wp ok (pure (.error e) : ElfOp (Except ElfLoadResult (List ElfPrgload × ℕ)))
        (fun r _ => (∃ v, r = .ok v) ∨ s.Ample ∧ (∀ i, room i = true) → KmodInRange s addr wanted) u := by
    intro ok e u himp
    refine .pure fun h => ?_
    obtain ⟨v, hv⟩ | h := h
    · cases hv
    · exact himp h
  unfold elfLoadKmod
  refine .bind ((kmodReadHeader_wp hcheck).weaken (fun _ => trivial) fun _ _ => id) fun r u hr => ?_
  obtain ⟨e, rfl, ha⟩ | ⟨rfl, rfl⟩ := hr
  · exact herror fun h => absurd h.1 ha
  refine .ite (fun h => absurd htype h) fun _ => ?_
  refine .bind (kmodReadShdr_wp.weaken (fun h => h.names) fun _ _ => id) fun r u hr => ?_
  obtain ⟨hu, hend⟩ := hr
  cases r with
  | error e => exact herror fun h => ⟨(hend h.1).1, fun hstr => absurd hstr (hend h.1).2⟩
  | ok sh =>
    obtain ⟨rfl, hop, hstr⟩ := hend
    set F := s.kmodFile with hFdef
    have hF : F.Reads s := hread.reads
    have hrange : KmodInRange s addr wanted ↔ F.InRange addr wanted :=
      ⟨fun h => h.file hstr, fun h => ⟨hop, fun _ => h⟩⟩
    rw [hrange, KmodFile.inRange_iff] at herror ⊢
    refine .bind ((KmodFile.kmodLoadRel_wp (Nat.zero_add F.sh.num)).weaken (fun h k _ hk => h.1 k hk) fun _ _ => id)
      fun r v hr => ?_
    obtain ⟨hv, hload⟩ := hr
    have hsv := hu.trans hv
    cases r with
    | error e => exact herror fun h => absurd ⟨h.1.alike hu, h.2⟩ hload
    | ok prgload =>
      obtain ⟨rfl, hsections⟩ := hload
      have hsec : ∀ k < F.sh.num, F.sh.Fits k 24 := fun k hk => hsections k (Nat.zero_le k) hk
      have hbefore : F.Before 0 kmodNoTables := Or.inl ⟨fun k hk => absurd hk (Nat.not_lt_zero k), rfl⟩
      refine .bind ((KmodFile.kmodRelocSections_wp (hF.alike hsv) hbefore (Nat.zero_add F.sh.num)
        fun k hk => absurd hk (Nat.not_lt_zero k)).weaken (fun h k _ hk => h.2.1 k hk) fun _ _ => id) fun r w hr => ?_
      obtain ⟨hw, hrelocs⟩ := hr
      have hsw := hsv.trans hw
      have hrel : r = .loadOk ∨ s.Ample → ∀ k < F.sh.num, (∀ l < k, ¬ F.Rejected l) → F.RelocStep k := fun h k hk =>
        hrelocs.steps (h.imp_right fun ha => ha.alike hsv) k (Nat.zero_le k) hk
      refine .ite (fun hne => herror fun h => ⟨hsec, hrel (Or.inr h.1), fun hnone => ?_⟩) fun heq => ?_
      · obtain ⟨k, hk, hrej⟩ := hrelocs.rejected hne (h.1.alike hsv)
        exact absurd hrej (hnone k hk)
      have hnone := hrelocs.passed (not_not.mp heq)
      have hsteps := hrel (Or.inl (not_not.mp heq))
      have hstart : wanted = true → ((0 : ℕ) ≠ 0 ↔ F.InitBefore addr 0 0) := by
        intro _
        refine ⟨fun h => absurd rfl h, fun ⟨k, l, _, _, hlt, _⟩ => ?_⟩
        exact absurd hlt (by omega)
      refine .bind ((KmodFile.kmodLoadSyms_wp full (hF.alike hsw)
        (fun k hk => (hsteps k hk fun l hl => hnone l (hl.trans hk)).1) (Nat.zero_add F.sh.num)
        (fun k hk => absurd hk (Nat.not_lt_zero k)) hstart).weaken (fun h k _ hk => h.2.2 hnone k hk) fun _ _ => id)
        fun r x hr => ?_
      cases r with
      | error e =>
        exact herror fun h => ⟨hsec, hsteps, fun _ k hk => hr (Or.inr (h.1.alike hsw)) k (Nat.zero_le k) hk⟩
      | ok entry =>
        exact .pure fun _ => ⟨hsec, hsteps, fun _ k hk => hr (Or.inl ⟨entry, rfl⟩) k (Nat.zero_le k) hk⟩

theorem kmodInRange_heap {ok : ℕ → Bool} : KmodInRange { s with heapOk := ok } addr wanted ↔ KmodInRange s addr wanted :=
  ⟨fun h => ⟨h.names, h.file⟩, fun h => ⟨h.names, h.file⟩⟩

/-- A module with one section header, for strings, that names section `shstrndx` for its section names. -/
def kmodSampleFile (shstrndx : UInt8) : List UInt8 :=
  [0x7F, 0x45, 0x4C, 0x46, 1, 1, 1, 0, 0, 0, 0, 0, 0, 0, 0, 0, 1, 0, 3, 0, 1, 0, 0, 0, 0, 0, 0, 0, 0, 0, 0, 0,
    52, 0, 0, 0, 0, 0, 0, 0, 52, 0, 0, 0, 0, 0, 40, 0, 1, 0, shstrndx, 0] ++
  [0, 0, 0, 0, 3, 0, 0, 0] ++ List.replicate 32 0

def kmodSample (shstrndx : UInt8) : ElfHost where
  mem _ := 0
  file offset size := ((kmodSampleFile shstrndx).drop offset).take size
  kernelSyms := []
  heapOk _ := true
  junk _ _ := 0
  heapCalls := 0

end Whole

end SysX
