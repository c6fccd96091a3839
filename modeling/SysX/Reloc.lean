import SysX.Files
import SysX.Lib.Text
import SysX.Lib.Bytes

/-! The relocation of kernel modules (`elf_do_reloc` of `exec/elf.c`) and `sym_resolve` (`exec/syms.c`). -/
namespace SysX

/-- `enum elf_load_result` -/
inductive ElfLoadResult where
  | loadOk
  | errCheck
  | errAlloc
  | errUnsupportedType
  | errInvalidData
  | errEntry
  deriving DecidableEq, Repr

/-- `elf_prgload_t` -/
structure ElfPrgload where
  idx : ℕ
  vaddr : ℕ
  size : ℕ
  deriving DecidableEq, Repr

/-- `sym_entry_t` -/
structure SymEntry where
  name : List UInt8
  addr : ℕ

/-- Memory apart from the heap, the contents of the file as `vfs_read` gives them for an offset and a
size, and the symbols of the kernel. `heapOk n` tells whether the `n`-th allocation succeeds, `junk n`
is what it finds in its block. -/
structure ElfHost where
  mem : ℕ → UInt8
  file : ℕ → ℕ → List UInt8
  kernelSyms : List SymEntry
  heapOk : ℕ → Bool
  junk : ℕ → ℕ → UInt8
  heapCalls : ℕ

abbrev ElfOp := Comp ElfHost

/-- `SYM_NAME_MAXLEN` -/
def symNameMaxlen : ℕ := 47
def emI386 : ℕ := 3
def shtSymtab : ℕ := 2
def shtStrtab : ℕ := 3
def shtRela : ℕ := 4
def shtRel : ℕ := 9
def shnUndef : ℕ := 0
def shnAbs : ℕ := 65521
def r386None : ℕ := 0
def r386W32 : ℕ := 1
def r386Pc32 : ℕ := 2
def r386Copy : ℕ := 5
def r386JmpSlot : ℕ := 7
def r386W16 : ℕ := 20
def r386Pc16 : ℕ := 21
def r386W8 : ℕ := 22
def r386Pc8 : ℕ := 23

/-- The number in `n` bytes of a block. -/
def field (r : ℕ → UInt8) (k n : ℕ) : ℕ := readLe r (fun i => k + i) n

/-- The `n` bytes of memory from an address on. -/
def readMem (m : ℕ → UInt8) (a n : ℕ) : ℕ := readLe m (fun i => w32 (a + i)) n

def writeMem (m : ℕ → UInt8) (a n v : ℕ) : ℕ → UInt8 := writeLe m (fun i => w32 (a + i)) n v

/-- The fields of an `Elf32_Shdr` that are read. -/
structure ElfShdr where
  type : ℕ
  offset : ℕ
  size : ℕ
  link : ℕ
  info : ℕ
  entsize : ℕ
  deriving DecidableEq

/-- The section header number `i` of a table with entries of `shentsize` bytes. -/
def elfShdr (shdr : ℕ → UInt8) (shentsize i : ℕ) : ElfShdr :=
  let k := w32 (shentsize * i)
  ⟨field shdr (k + 4) 4, field shdr (k + 16) 4, field shdr (k + 20) 4, field shdr (k + 24) 4,
    field shdr (k + 28) 4, field shdr (k + 36) 4⟩

/-- The fields of an `Elf32_Sym` that are read. -/
structure ElfSym where
  name : ℕ
  value : ℕ
  shndx : ℕ
  deriving DecidableEq

def elfSym (symtab : ℕ → UInt8) (entsize i : ℕ) : ElfSym :=
  let k := w32 (entsize * i)
  ⟨field symtab k 4, field symtab (k + 4) 4, field symtab (k + 14) 2⟩

/-- An `Elf32_Rel` or `Elf32_Rela`, with the addend 0 in the first. -/
structure ElfRel where
  offset : ℕ
  sym : ℕ
  type : ℕ
  addend : ℕ
  deriving DecidableEq

def elfRel (rel : ℕ → UInt8) (rela : Bool) (k : ℕ) : ElfRel :=
  let info := field rel (k + 4) 4
  ⟨field rel k 4, info / 256, info % 256, if rela then field rel (k + 8) 4 else 0⟩

/-! `exec/syms.c` -/

/-- The entry that `sym_resolve` finds, where the name is a string. -/
def symResolve (table : List SymEntry) (name : ℕ → UInt8) : Option (Option SymEntry) :=
  (cstring name 4294967296 0).map fun str =>
    let nameLen := if symNameMaxlen < str.length then symNameMaxlen else str.length
    table.find? fun entry => (List.range (nameLen + 1)).all fun i => entry.name.getD i 0 = name i

/-! `exec/elf.c` -/

/-- `kmalloc` of a block and `vfs_read` of a part of the file into it. -/
def elfLoad (offset size : ℕ) : ElfOp (Option (ℕ → UInt8)) := do
  let n ← Comp.read fun s => s.heapCalls
  Comp.modify fun s => { s with heapCalls := s.heapCalls + 1 }
  let ok ← Comp.read fun s => s.heapOk n
  if ok then do
    let block ← Comp.read fun s => fun k => (s.file offset size).getD k (s.junk n k)
    pure (some block)
  else pure none

/-- The tables that are kept from one relocation section to the next. -/
structure RelocTables where
  symtabShdr : Option ℕ
  symtab : ℕ → UInt8
  symtabIdx : ℕ
  strtab : ℕ → UInt8
  strtabIdx : ℕ

/-- Load the symbol table of section `link` if it is not the one at hand. -/
def elfSymtab (shdr : ℕ → UInt8) (shentsize link : ℕ) (t : RelocTables) :
    ElfOp (Except ElfLoadResult RelocTables) :=
  if link = t.symtabIdx then pure (.ok t)
  else
    let h := elfShdr shdr shentsize link
    if h.type = shtSymtab then do
      let block ← elfLoad h.offset h.size
      match block with
      | none => pure (.error .errAlloc)
      | some symtab => pure (.ok { t with symtabShdr := some link, symtab, symtabIdx := link })
    else pure (.error .errInvalidData)

def elfStrtab (shdr : ℕ → UInt8) (shentsize link : ℕ) (t : RelocTables) :
    ElfOp (Except ElfLoadResult RelocTables) :=
  if link = t.strtabIdx then pure (.ok t)
  else
    let h := elfShdr shdr shentsize link
    if h.type = shtStrtab then do
      let block ← elfLoad h.offset h.size
      match block with
      | none => pure (.error .errInvalidData)
      | some strtab => pure (.ok { t with strtab, strtabIdx := link })
    else pure (.error .errInvalidData)

/-- The value of a symbol as far as it can be resolved. -/
def elfSymValue (prgload : List ElfPrgload) (strtab : ℕ → UInt8) (sym : ElfSym) : ElfOp ℕ :=
  if sym.shndx = shnAbs then pure sym.value
  else if sym.shndx = shnUndef then do
    let ent ← Comp.readOr fun s => symResolve s.kernelSyms fun i => strtab (w32 (sym.name + i))
    match ent with
    | none => pure sym.value
    | some ent => pure ent.addr
  else
    pure (prgload.foldl (fun value p => if p.idx = sym.shndx then w32 (value + p.vaddr) else value)
      sym.value)

/-- The write of a relocation to the field at `ref`. -/
def elfApply (machine type value addend ref : ℕ) (m : ℕ → UInt8) : ℕ → UInt8 :=
  if machine = emI386 then
    if type = r386None then m
    else if type = r386W32 then writeMem m ref 4 (w32 (value + readMem m ref 4 + addend))
    else if type = r386Pc32 then
      writeMem m ref 4 (w32 (sub32 (value + readMem m ref 4) ref + addend))
    else if type = r386Copy ∨ type = r386JmpSlot then writeMem m ref 4 (w32 (value + addend))
    else if type = r386W16 then writeMem m ref 2 (w32 (value + readMem m ref 2 + addend))
    else if type = r386Pc16 then
      writeMem m ref 2 (w32 (sub32 (value + readMem m ref 2) ref + addend))
    else if type = r386W8 then writeMem m ref 1 (w32 (value + readMem m ref 1 + addend))
    else if type = r386Pc8 then
      writeMem m ref 1 (w32 (sub32 (value + readMem m ref 1) ref + addend))
    else m
  else m

/-- One entry of a relocation section with the given target. -/
def elfRelocEntry (machine : ℕ) (prgload : List ElfPrgload) (target : ElfPrgload) (t : RelocTables)
    (symEntsize : ℕ) (r : ElfRel) : ElfOp Unit := do
  let value ← elfSymValue prgload t.strtab (elfSym t.symtab symEntsize r.sym)
  Comp.modify fun s => { s with
    mem := elfApply machine r.type value r.addend (w32 (target.vaddr + r.offset)) s.mem }

/-- One relocation section, with the tables it leaves. -/
def elfRelocSection (machine : ℕ) (shdr : ℕ → UInt8) (shentsize : ℕ) (prgload : List ElfPrgload)
    (h : ElfShdr) (target : ElfPrgload) (t : RelocTables) :
    ElfOp (Except ElfLoadResult RelocTables) := do
  let symtab ← elfSymtab shdr shentsize h.link t
  match symtab with
  | .error e => pure (.error e)
  | .ok t => do
    let symIdx ← Comp.readOr fun _ => t.symtabShdr
    let symHdr := elfShdr shdr shentsize symIdx
    let strtab ← elfStrtab shdr shentsize symHdr.link t
    match strtab with
    | .error e => pure (.error e)
    | .ok t => do
      let block ← elfLoad h.offset h.size
      match block with
      | none => pure (.error .errAlloc)
      | some rel => do
        -- A division by `sh_entsize` faults where it is zero.
        if h.entsize = 0 then Comp.fault
        else do
          Comp.forRange (fun j => elfRelocEntry machine prgload target t symHdr.entsize
            (elfRel rel (h.type = shtRela) (w32 (h.entsize * j)))) (h.size / h.entsize) 0
          pure (.ok t)

/-- The loop of `elf_do_reloc` over `n` sections from section `i` on. -/
def elfRelocSections (machine : ℕ) (shdr : ℕ → UInt8) (shentsize : ℕ) (prgload : List ElfPrgload) :
    (n i : ℕ) → RelocTables → ElfOp ElfLoadResult
  | 0, _, _ => pure .loadOk
  | n + 1, i, t =>
    let h := elfShdr shdr shentsize i
    if h.type = shtRel ∨ h.type = shtRela then
      match prgload.find? fun p => p.idx = h.info with
      | none => elfRelocSections machine shdr shentsize prgload n (i + 1) t
      | some target => do
        let result ← elfRelocSection machine shdr shentsize prgload h target t
        match result with
        | .error e => pure e
        | .ok t => elfRelocSections machine shdr shentsize prgload n (i + 1) t
    else elfRelocSections machine shdr shentsize prgload n (i + 1) t

/-- `elf_do_reloc` for a file whose header names `machine`. -/
def elfDoReloc (machine : ℕ) (shdr : ℕ → UInt8) (shentsize shnum : ℕ) (prgload : List ElfPrgload) :
    ElfOp ElfLoadResult :=
  elfRelocSections machine shdr shentsize prgload shnum 0 ⟨none, fun _ => 0, 0, fun _ => 0, 0⟩

end SysX
