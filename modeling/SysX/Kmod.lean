import SysX.Loader
import SysX.Symbols

/-!
`elf_load_kmod` of `exec/elf.c`, run with every access checked: it faults where a header, an entry or a string is read outside
of the buffer that was loaded for it, where a relocation is written outside of its section, and where a size is divided by 0.
-/
namespace SysX

/-- Go on where `p` holds. -/
def elfGuard (p : Prop) [Decidable p] : ElfOp Unit := if p then pure () else Comp.fault

def etRel : ℕ := 1
def shtProgbits : ℕ := 1
def shtNobits : ℕ := 8
def sttSection : ℕ := 3
def sttFile : ℕ := 4
def stbGlobal : ℕ := 1
def stbWeak : ℕ := 2
def stvHidden : ℕ := 2

/-- `ELF_KMOD_INIT_FUNC`, "kmod_init" -/
def elfKmodInitFunc : List UInt8 := [0x6B, 0x6D, 0x6F, 0x64, 0x5F, 0x69, 0x6E, 0x69, 0x74]

/-! Section headers. -/

/-- The fields of an `Elf32_Ehdr` that locate the section headers. -/
structure ElfShInfo where
  shoff : ℕ
  shentsize : ℕ
  shnum : ℕ
  shstrndx : ℕ

def elfShInfo (hdr : ℕ → UInt8) : ElfShInfo := ⟨field hdr 32 4, field hdr 46 2, field hdr 48 2, field hdr 50 2⟩

/-- The section header table as it was loaded, `num` entries of `entsize` bytes. -/
structure ElfShTable where
  bytes : ℕ → UInt8
  entsize : ℕ
  num : ℕ

namespace ElfShTable

def header (t : ElfShTable) (i : ℕ) : ElfShdr := elfShdr t.bytes t.entsize i

def flags (t : ElfShTable) (i : ℕ) : ℕ := field t.bytes (w32 (t.entsize * i) + 8) 4

/-- There is a header number `i`, and its first `n` bytes are within the table. -/
def Fits (t : ElfShTable) (i n : ℕ) : Prop := i < t.num ∧ w32 (t.entsize * i) + n ≤ t.entsize * t.num

instance (t : ElfShTable) (i n : ℕ) : Decidable (t.Fits i n) := inferInstanceAs (Decidable (_ ∧ _))

/-- The type of header `i` can be read, and its first `n` bytes where it is `type`. -/
def Opens (t : ElfShTable) (i type n : ℕ) : Prop := t.Fits i 8 ∧ ((t.header i).type = type → t.Fits i n)

instance (t : ElfShTable) (i type n : ℕ) : Decidable (t.Opens i type n) := inferInstanceAs (Decidable (_ ∧ _))

/-- Memory is allocated for the section. `SHF_ALLOC` is bit 1. -/
def Alloc (t : ElfShTable) (i : ℕ) : Prop :=
  (t.flags i).testBit 1 = true ∧ (t.header i).size ≠ 0 ∧
    ((t.header i).type = shtProgbits ∨ (t.header i).type = shtNobits)

instance (t : ElfShTable) (i : ℕ) : Decidable (t.Alloc i) := inferInstanceAs (Decidable (_ ∧ _ ∧ _))

end ElfShTable

/-- `elf_read_header` -/
def kmodReadHeader : ElfOp (Except ElfLoadResult (ℕ → UInt8)) := do
  let block ← elfLoad 0 64
  match block with
  | none => pure (.error .errAlloc)
  | some hdr => if elfCheckHeader (elfEhdr hdr) then pure (.ok hdr) else pure (.error .errCheck)

/-- `elf_read_shdr` -/
def kmodReadShdr (info : ElfShInfo) : ElfOp (Except ElfLoadResult ElfShTable) := do
  let block ← elfLoad info.shoff (info.shentsize * info.shnum)
  match block with
  | none => pure (.error .errAlloc)
  | some bytes => do
    let t : ElfShTable := ⟨bytes, info.shentsize, info.shnum⟩
    elfGuard (t.Fits info.shstrndx 8)
    let h := t.header info.shstrndx
    if h.type ≠ shtStrtab then pure (.error .errInvalidData)
    else do
      elfGuard (t.Fits info.shstrndx 24)
      let names ← elfLoad h.offset h.size
      match names with
      | none => pure (.error .errAlloc)
      | some _ => pure (.ok t)

/-! Sections. -/

/-- The memory of a section with the given content. -/
def sectionMem (m : ℕ → UInt8) (vaddr size : ℕ) (content : ℕ → UInt8) : ℕ → UInt8 :=
  fun a => if vaddr ≤ a ∧ a < vaddr + size then content (a - vaddr) else m a

/-- What the heap answers. -/
def elfHeap : ElfOp Bool := do
  let n ← Comp.read fun s => s.heapCalls
  Comp.modify fun s => { s with heapCalls := s.heapCalls + 1 }
  Comp.read fun s => s.heapOk n

/-- `elf_load_rel`, over `n` sections from section `i` on. `place i` is where memory for section `i` is found, if there are
addresses and frames for it. -/
def kmodLoadRel (place : ℕ → Option ℕ) (t : ElfShTable) :
    (n i : ℕ) → List ElfPrgload → ElfOp (Except ElfLoadResult (List ElfPrgload))
  | 0, _, prgload => pure (.ok prgload)
  | n + 1, i, prgload => do
    elfGuard (t.Fits i 24)
    if t.Alloc i then
      match place i with
      | none => pure (.error .errAlloc)
      | some vaddr => do
        let h := t.header i
        Comp.modify fun s => { s with
          mem := sectionMem s.mem vaddr h.size fun k =>
            if h.type = shtNobits then 0 else (s.file h.offset h.size).getD k (s.mem (vaddr + k)) }
        let ok ← elfHeap
        if ok then kmodLoadRel place t n (i + 1) (prgload ++ [⟨i, vaddr, h.size⟩])
        else pure (.error .errAlloc)
    else kmodLoadRel place t n (i + 1) prgload

/-! Relocation. -/

/-- The tables at hand, with the size of the string table once one has been loaded. -/
structure KmodTables where
  tables : RelocTables
  strtabSize : Option ℕ

/-- A string of the table, up to its terminator, starts at `k`. -/
def StringFits (strtab : ℕ → UInt8) (size : Option ℕ) (k : ℕ) : Prop :=
  ∃ sz, size = some sz ∧ (cstring strtab (sz - k) k).isSome = true

instance (strtab : ℕ → UInt8) (size : Option ℕ) (k : ℕ) : Decidable (StringFits strtab size k) :=
  match size with
  | none => isFalse fun ⟨_, h, _⟩ => nomatch h
  | some sz => decidable_of_iff ((cstring strtab (sz - k) k).isSome = true)
      ⟨fun h => ⟨sz, rfl, h⟩, fun ⟨_, h, h'⟩ => by cases h; exact h'⟩

/-- The size of an `Elf32_Rel` or an `Elf32_Rela`. -/
def relSize (type : ℕ) : ℕ := if type = shtRela then 12 else 8

/-- The number of bytes that a relocation writes. -/
def relocWidth (machine type : ℕ) : ℕ :=
  if machine = emI386 then
    if type = r386W32 ∨ type = r386Pc32 ∨ type = r386Copy ∨ type = r386JmpSlot then 4
    else if type = r386W16 ∨ type = r386Pc16 then 2
    else if type = r386W8 ∨ type = r386Pc8 then 1
    else 0
  else 0

/-- One entry of a relocation section. -/
def kmodRelocEntry (machine : ℕ) (prgload : List ElfPrgload) (target : ElfPrgload) (t : KmodTables) (symHdr : ElfShdr)
    (r : ElfRel) : ElfOp Unit := do
  elfGuard (w32 (symHdr.entsize * r.sym) + 16 ≤ symHdr.size)
  let sym := elfSym t.tables.symtab symHdr.entsize r.sym
  elfGuard (sym.shndx = shnUndef → StringFits t.tables.strtab t.strtabSize sym.name)
  elfGuard (relocWidth machine r.type ≠ 0 → r.offset + relocWidth machine r.type ≤ target.size)
  elfRelocEntry machine prgload target t.tables symHdr.entsize r

/-- One relocation section, with the tables it leaves. -/
def kmodRelocSection (machine : ℕ) (sh : ElfShTable) (prgload : List ElfPrgload) (h : ElfShdr) (target : ElfPrgload)
    (t : KmodTables) : ElfOp (Except ElfLoadResult KmodTables) := do
  elfGuard (h.link ≠ t.tables.symtabIdx → sh.Opens h.link shtSymtab 40)
  let symtab ← elfSymtab sh.bytes sh.entsize h.link t.tables
  match symtab with
  | .error e => pure (.error e)
  | .ok tables => do
    let symIdx ← Comp.readOr fun _ => tables.symtabShdr
    let symHdr := sh.header symIdx
    elfGuard (symHdr.link ≠ tables.strtabIdx → sh.Opens symHdr.link shtStrtab 24)
    let strtab ← elfStrtab sh.bytes sh.entsize symHdr.link tables
    match strtab with
    | .error e => pure (.error e)
    | .ok tables' => do
      let t : KmodTables :=
        ⟨tables', if symHdr.link = tables.strtabIdx then t.strtabSize else some (sh.header symHdr.link).size⟩
      let block ← elfLoad h.offset h.size
      match block with
      | none => pure (.error .errAlloc)
      | some rel => do
        elfGuard (h.entsize ≠ 0)
        Comp.forRange (fun j => do
          elfGuard (w32 (h.entsize * j) + relSize h.type ≤ h.size)
          kmodRelocEntry machine prgload target t symHdr (elfRel rel (h.type = shtRela) (w32 (h.entsize * j))))
          (h.size / h.entsize) 0
        pure (.ok t)

/-- The loop of `elf_do_reloc` over `n` sections from section `i` on. -/
def kmodRelocSections (machine : ℕ) (sh : ElfShTable) (prgload : List ElfPrgload) :
    (n i : ℕ) → KmodTables → ElfOp ElfLoadResult
  | 0, _, _ => pure .loadOk
  | n + 1, i, t => do
    elfGuard (sh.Fits i 40)
    let h := sh.header i
    if h.type = shtRel ∨ h.type = shtRela then
      match prgload.find? fun p => p.idx = h.info with
      | none => kmodRelocSections machine sh prgload n (i + 1) t
      | some target => do
        let result ← kmodRelocSection machine sh prgload h target t
        match result with
        | .error e => pure e
        | .ok t => kmodRelocSections machine sh prgload n (i + 1) t
    else kmodRelocSections machine sh prgload n (i + 1) t

/-- No table has been loaded. -/
def kmodNoTables : KmodTables := ⟨⟨none, fun _ => 0, 0, fun _ => 0, 0⟩, none⟩

/-- `elf_do_reloc` -/
def kmodDoReloc (machine : ℕ) (sh : ElfShTable) (prgload : List ElfPrgload) : ElfOp ElfLoadResult :=
  kmodRelocSections machine sh prgload sh.num 0 kmodNoTables

/-! Symbols. -/

/-- The last position that `strcmp` reads of the string at `k`, and whether the strings are equal. -/
def strcmpEnd (r : ℕ → UInt8) : (k : ℕ) → List UInt8 → ℕ × Bool
  | k, [] => (k, r k = 0)
  | k, c :: str => if r k = c then strcmpEnd r (k + 1) str else (k, false)

/-- `sym_add_entry` to the symbols of the kernel. `full n` tells whether a table with `n` entries has to grow. -/
def symAddEntry (full : ℕ → Bool) (name : List UInt8) (addr : ℕ) : ElfOp Unit := do
  let syms ← Comp.read fun s => s.kernelSyms
  let entry : SymEntry := ⟨name.take symNameMaxlen, addr⟩
  match syms.findIdx? fun e => e.hasName name with
  | some i => Comp.modify fun s => { s with kernelSyms := s.kernelSyms.set i entry }
  | none => do
    let ok ← (if full syms.length then elfHeap else pure true)
    Comp.when (ok = true) (Comp.modify fun s => { s with kernelSyms := s.kernelSyms ++ [entry] })

/-- The fields of an `Elf32_Sym` that `elf_load_syms` reads. -/
structure KmodSym where
  name : ℕ
  value : ℕ
  info : ℕ
  other : ℕ
  shndx : ℕ

def kmodSym (symtab : ℕ → UInt8) (k : ℕ) : KmodSym :=
  ⟨field symtab k 4, field symtab (k + 4) 4, field symtab (k + 12) 1, field symtab (k + 13) 1, field symtab (k + 14) 2⟩

/-- The symbol stands for a place of the module. -/
def KmodSym.Defined (s : KmodSym) : Prop :=
  s.other ≠ stvHidden ∧ s.shndx ≠ shnUndef ∧ s.shndx ≠ shnAbs ∧ s.info % 16 ≠ sttFile ∧ s.info % 16 ≠ sttSection

instance (s : KmodSym) : Decidable s.Defined := inferInstanceAs (Decidable (_ ∧ _ ∧ _ ∧ _ ∧ _))

def KmodSym.Exported (s : KmodSym) : Prop := s.info / 16 = stbGlobal ∨ s.info / 16 = stbWeak

instance (s : KmodSym) : Decidable s.Exported := inferInstanceAs (Decidable (_ ∨ _))

def KmodSym.address (s : KmodSym) (prgload : List ElfPrgload) : ℕ :=
  match prgload.find? fun p => p.idx = s.shndx with
  | none => s.value
  | some p => w32 (s.value + p.vaddr)

/-- A symbol that is exported to the kernel. -/
def kmodExport (full : ℕ → Bool) (strtab : ℕ → UInt8) (size : ℕ) (s : KmodSym) (addr : ℕ) : ElfOp Unit :=
  Comp.when s.Exported do
    let name ← Comp.readOr fun _ => cstring strtab (size - s.name) s.name
    symAddEntry full name addr

/-- One symbol, with the entry point that is known behind it. `wanted` tells whether the caller asks for it. -/
def kmodSymbol (full : ℕ → Bool) (wanted : Bool) (prgload : List ElfPrgload) (strtab : ℕ → UInt8) (size : ℕ) (s : KmodSym)
    (entry : ℕ) : ElfOp ℕ :=
  if s.Defined then do
    let addr := s.address prgload
    if wanted = true ∧ entry = 0 then do
      let cmp := strcmpEnd strtab s.name elfKmodInitFunc
      elfGuard (cmp.1 < size)
      if cmp.2 then pure addr
      else do
        kmodExport full strtab size s addr
        pure entry
    else do
      kmodExport full strtab size s addr
      pure entry
  else pure entry

/-- The loop over `n` symbols of a table from symbol `j` on. -/
def kmodSymbols (full : ℕ → Bool) (wanted : Bool) (prgload : List ElfPrgload) (symtab strtab : ℕ → UInt8)
    (size entsize strSize : ℕ) : (n j entry : ℕ) → ElfOp ℕ
  | 0, _, entry => pure entry
  | n + 1, j, entry => do
    elfGuard (w32 (j * entsize) + 16 ≤ size)
    let entry ← kmodSymbol full wanted prgload strtab strSize (kmodSym symtab (w32 (j * entsize))) entry
    kmodSymbols full wanted prgload symtab strtab size entsize strSize n (j + 1) entry

/-- `elf_load_syms`, over `n` sections from section `i` on. -/
def kmodLoadSyms (full : ℕ → Bool) (wanted : Bool) (sh : ElfShTable) (prgload : List ElfPrgload) :
    (n i entry : ℕ) → ElfOp (Except ElfLoadResult ℕ)
  | 0, _, entry => pure (.ok entry)
  | n + 1, i, entry => do
    elfGuard (sh.Fits i 28)
    let h := sh.header i
    if h.type = shtSymtab then do
      elfGuard (sh.Fits h.link 24)
      let s := sh.header h.link
      if s.type ≠ shtStrtab then pure (.error .errInvalidData)
      else do
        let names ← elfLoad s.offset s.size
        match names with
        | none => pure (.error .errAlloc)
        | some strtab => do
          elfGuard (sh.Fits i 40)
          let block ← elfLoad h.offset h.size
          match block with
          | none => pure (.error .errAlloc)
          | some symtab => do
            elfGuard (h.entsize ≠ 0)
            let entry ← kmodSymbols full wanted prgload symtab strtab h.size h.entsize s.size (h.size / h.entsize) 0 entry
            kmodLoadSyms full wanted sh prgload n (i + 1) entry
    else kmodLoadSyms full wanted sh prgload n (i + 1) entry

/-- `elf_load_kmod`, with what it gives the caller. -/
def elfLoadKmod (place : ℕ → Option ℕ) (full : ℕ → Bool) (wanted : Bool) :
    ElfOp (Except ElfLoadResult (List ElfPrgload × ℕ)) := do
  let header ← kmodReadHeader
  match header with
  | .error e => pure (.error e)
  | .ok hdr =>
    if (elfEhdr hdr).type ≠ etRel then pure (.error .errUnsupportedType)
    else do
      let table ← kmodReadShdr (elfShInfo hdr)
      match table with
      | .error e => pure (.error e)
      | .ok sh => do
        let loaded ← kmodLoadRel place sh sh.num 0 []
        match loaded with
        | .error e => pure (.error e)
        | .ok prgload => do
          let result ← kmodDoReloc (elfEhdr hdr).machine sh prgload
          if result ≠ .loadOk then pure (.error result)
          else do
            let syms ← kmodLoadSyms full wanted sh prgload sh.num 0 0
            match syms with
            | .error e => pure (.error e)
            | .ok entry => pure (.ok (prgload, entry))

end SysX
