import SysX.Cow
import SysX.Reloc

/-!
The executable loader of `exec/elf.c`: `elf_load_phdr`, `elf_load_exec` and `elf_unload_prg`, over the
page tables of `SysX.Paging`. The copies of a segment go through a page of the current VMM.
-/
namespace SysX
open BitField

/-! Bytes of memory. -/

namespace Word

/-- The byte `k` of a word. -/
def byte (w : Word) (k : ℕ) : UInt8 := UInt8.ofNat (getField w (8 * k) 8)

def setByte (w : Word) (k : ℕ) (b : UInt8) : Word := setField w (8 * k) 8 b.toNat

end Word

/-- Write the byte at a virtual address. -/
def storeByte (va : ℕ) (b : UInt8) : Kernel Unit := update va fun w => w.setByte (va % 4) b

/-- Write the first `n` of the bytes `bytes` from a virtual address on. -/
def storeBytes (va : ℕ) (bytes : ℕ → UInt8) (n : ℕ) : Kernel Unit :=
  Comp.forRange (fun i => storeByte (w32 (va + i)) (bytes i)) n 0

/-! Files. `file offset size` are the bytes that `vfs_read` gives, and `junk n` is what the `n`-th
heap allocation finds in its block. -/

def elfRead (file : ℕ → ℕ → List UInt8) (offset size va : ℕ) : Kernel Unit :=
  let bytes := (file offset size).take size
  storeBytes va (fun i => bytes.getD i 0) bytes.length

/-- `kmalloc` of a block and `vfs_read` of a part of the file into it. -/
def loadBlock (file : ℕ → ℕ → List UInt8) (junk : ℕ → ℕ → UInt8) (offset size : ℕ) :
    Kernel (Option (ℕ → UInt8)) := do
  let n ← Comp.read (·.heapCalls)
  let p ← krealloc
  pure (p.map fun _ k => ((file offset size).take size).getD k (junk n k))

/-! Headers. -/

def ptLoad : ℕ := 1
def etExec : ℕ := 2
/-- The bit `PF_W` of `p_flags`. -/
def pfW : ℕ := 1

/-- The fields of an `Elf32_Ehdr` that are read. -/
structure ElfEhdr where
  ident : ℕ → UInt8
  type : ℕ
  machine : ℕ
  version : ℕ
  entry : ℕ
  phoff : ℕ
  phentsize : ℕ
  phnum : ℕ

def elfEhdr (hdr : ℕ → UInt8) : ElfEhdr :=
  ⟨hdr, field hdr 16 2, field hdr 18 2, field hdr 20 4, field hdr 24 4, field hdr 28 4,
    field hdr 42 2, field hdr 44 2⟩

/-- The fields of an `Elf32_Phdr` that are read. -/
structure ElfPhdr where
  type : ℕ
  offset : ℕ
  vaddr : ℕ
  filesz : ℕ
  memsz : ℕ
  flags : ℕ
  deriving DecidableEq, Repr

/-- The program header number `i` of a table with entries of `phentsize` bytes. -/
def elfPhdr (phdr : ℕ → UInt8) (phentsize i : ℕ) : ElfPhdr :=
  let k := w32 (phentsize * i)
  ⟨field phdr k 4, field phdr (k + 4) 4, field phdr (k + 8) 4, field phdr (k + 16) 4,
    field phdr (k + 20) 4, field phdr (k + 24) 4⟩

/-- `elf_check_header` where only 32-bit files for the i386 are supported. The check of `e_type`
refuses 64-bit files only. -/
def elfCheckHeader (h : ElfEhdr) : Bool :=
  h.ident 0 = 0x7F ∧ h.ident 1 = 0x45 ∧ h.ident 2 = 0x4C ∧ h.ident 3 = 0x46 ∧ h.ident 4 = 1 ∧
    h.ident 5 = 1 ∧ h.ident 6 = 1 ∧ h.version = 1 ∧ (h.machine = 0 ∨ h.machine = emI386)

/-- The size of the header that is read, an `Elf64_Ehdr`. -/
def elfReadHeader (file : ℕ → ℕ → List UInt8) (junk : ℕ → ℕ → UInt8) :
    Kernel (Except ElfLoadResult ElfEhdr) := do
  let block ← loadBlock file junk 0 64
  match block with
  | none => pure (.error .errAlloc)
  | some hdr =>
    if elfCheckHeader (elfEhdr hdr) then pure (.ok (elfEhdr hdr)) else pure (.error .errCheck)

/-! Unloading. -/

/-- The loop over one segment. Where the page at `vaddr` is not mapped, `vmm_pgsz` gives 0 for it and
the loop never advances. -/
def elfUnloadPages (K : Callees) (vmm size : ℕ) : (fuel off vaddr : ℕ) → Kernel Unit
  | 0, _, _ => Comp.fault
  | fuel + 1, off, vaddr =>
    if off < size then do
      let paddr ← vmmGetPaddr K vmm vaddr
      let pgszIdx ← vmmGetPgsz K vmm vaddr
      match pgszIdx with
      | none => Comp.fault
      | some idx => do
        let pgsz := vmmPgsz idx
        vmmPgunmap K vmm vaddr idx
        Comp.when (paddr ≠ 0)
          (Comp.forRange (fun j => pmmFree (w32 (paddr / 4096 + j))) (pgsz / 4096) 0)
        elfUnloadPages K vmm size fuel (w32 (off + pgsz)) (w32 (vaddr + pgsz))
    else pure ()

def elfUnloadPrg (K : Callees) (vmm : ℕ) (result : List ElfPrgload) : Kernel Unit :=
  Comp.forList (fun r => elfUnloadPages K vmm r.size loopFuel 0 r.vaddr) result

/-! Loading. -/

/-- The flags of a page that is mapped for a segment. -/
def segmentFlags (user : Bool) (w : Bool) : Word :=
  flagPresent ||| (if user then flagUser else 0#32) ||| flagCache ||| (if w then flagRw else 0#32)

/-- `p_flags & PF_W` -/
def ElfPhdr.writable (p : ElfPhdr) : Bool := p.flags.testBit pfW

/-- The number of pages that are allocated for a segment. -/
def ElfPhdr.pages (p : ElfPhdr) : ℕ := w32 (p.memsz + p.vaddr % 4096 + 4095) / 4096

/-- "allocate memory for the segment": `n` pages from the page number `j` on. The result is false when
no frame is left. -/
def elfMapPages (K : Callees) (vmm : ℕ) (user : Bool) (p : ElfPhdr) : (n j : ℕ) → Kernel Bool
  | 0, _ => pure true
  | n + 1, j => do
    let vaddr := w32 (p.vaddr - p.vaddr % 4096 + j * 4096)
    let pa ← vmmGetPaddr K vmm vaddr
    if pa = 0 then do
      let frame ← pmmAllocFree 1
      match frame with
      | none => pure false
      | some frame => do
        vmmPgmap K vmm (w32 (frame * 4096)) vaddr 0 (segmentFlags user p.writable)
        elfMapPages K vmm user p n (j + 1)
    else do
      Comp.when p.writable do
        let flags ← vmmGetFlags K vmm vaddr
        Comp.when (flags.getLsbD 1 = false) (vmmSetFlags K vmm vaddr (flags ||| flagRw))
      elfMapPages K vmm user p n (j + 1)

/-- One page of "copy data to the segment": `sz` bytes from `offset` on, to the page at `dst`. -/
def elfCopyPage (file : ℕ → ℕ → List UInt8) (p : ElfPhdr) (offset sz dst : ℕ) : Kernel Unit := do
  let szRead := if p.filesz ≤ offset then 0
    else if w32 (offset + sz) ≤ p.filesz then sz else p.filesz - offset
  let szSet := sz - szRead
  Comp.when (szRead ≠ 0) (elfRead file (w32 (p.offset + offset)) szRead dst)
  Comp.when (szSet ≠ 0) (storeBytes (w32 (dst + szRead)) (fun _ => 0) szSet)

/-- The loop over a segment. More than `2 ^ 32` passes would repeat a value of `offset`. The result is
the list of the frames that are written, which the code does not keep. -/
def elfCopyPages (K : Callees) (vmm copyDst : ℕ) (file : ℕ → ℕ → List UInt8) (p : ElfPhdr) :
    (fuel offset : ℕ) → Kernel (List ℕ)
  | 0, _ => Comp.fault
  | fuel + 1, offset =>
    if offset < p.memsz then do
      let paddr ← vmmGetPaddr K vmm (w32 (p.vaddr + offset))
      let cur ← Comp.read (·.vmmCurrent)
      vmmSetPaddr K cur copyDst paddr
      let sz := 4096 - paddr % 4096
      let sz := if p.memsz < w32 (offset + sz) then p.memsz - offset else sz
      elfCopyPage file p offset sz (w32 (copyDst + paddr % 4096))
      let written ← elfCopyPages K vmm copyDst file p fuel (w32 (offset + sz))
      pure (paddr / 4096 :: written)
    else pure []

/-- What `elf_load_phdr` returns: the list for the caller, and the frames that were written. -/
structure ElfLoaded where
  prgload : List ElfPrgload
  written : List ℕ

/-- "find a place in our address space to map segments to for copying" -/
def elfCopyDst (K : Callees) (copyDst : ℕ) : Kernel ℕ :=
  if copyDst ≠ 0 then pure copyDst
  else do
    let cur ← Comp.read (·.vmmCurrent)
    let kernelEnd ← Comp.read (·.kernelEnd)
    vmmAllocMap K cur 0 4096 kernelEnd uintptrMax 0 0 false (flagPresent ||| flagRw)

/-- The loop of `elf_load_phdr` over `n` headers from header `i` on, with the address of the copy page
and what has been loaded. -/
def elfLoadSegments (K : Callees) (vmm : ℕ) (user : Bool) (file : ℕ → ℕ → List UInt8)
    (phdr : ℕ → UInt8) (phentsize : ℕ) :
    (n i copyDst : ℕ) → ElfLoaded → Kernel (Except ElfLoadResult ElfLoaded)
  | 0, _, copyDst, l => do
    let cur ← Comp.read (·.vmmCurrent)
    Comp.when (copyDst ≠ 0) (vmmPgunmap K cur copyDst 0)
    pure (.ok l)
  | n + 1, i, copyDst, l =>
    let p := elfPhdr phdr phentsize i
    if p.type = ptLoad then do
      let dst ← elfCopyDst K copyDst
      if dst = 0 then do
        elfUnloadPrg K vmm l.prgload
        pure (.error .errAlloc)
      else do
        let ok ← elfMapPages K vmm user p p.pages 0
        if ok = false then do
          elfUnloadPrg K vmm l.prgload
          pure (.error .errAlloc)
        else do
          let written ← elfCopyPages K vmm dst file p loopFuel 0
          let block ← krealloc
          match block with
          | none => do
            elfUnloadPrg K vmm l.prgload
            pure (.error .errAlloc)
          | some _ =>
            elfLoadSegments K vmm user file phdr phentsize n (i + 1) dst
              ⟨l.prgload ++ [⟨i, p.vaddr, p.memsz⟩], l.written ++ written⟩
    else elfLoadSegments K vmm user file phdr phentsize n (i + 1) copyDst l

/-- `elf_load_phdr` for a file with the given header. -/
def elfLoadPhdr (K : Callees) (file : ℕ → ℕ → List UInt8) (junk : ℕ → ℕ → UInt8) (hdr : ElfEhdr)
    (vmm : ℕ) (user : Bool) : Kernel (Except ElfLoadResult ElfLoaded) := do
  let block ← loadBlock file junk hdr.phoff (w32 (hdr.phentsize * hdr.phnum))
  match block with
  | none => pure (.error .errAlloc)
  | some phdr => elfLoadSegments K vmm user file phdr hdr.phentsize hdr.phnum 0 0 ⟨[], []⟩

/-- `elf_load_exec`, with the entry point. -/
def elfLoadExec (K : Callees) (file : ℕ → ℕ → List UInt8) (junk : ℕ → ℕ → UInt8) (user : Bool)
    (vmm : ℕ) : Kernel (Except ElfLoadResult (ElfLoaded × ℕ)) := do
  let hdr ← elfReadHeader file junk
  match hdr with
  | .error e => pure (.error e)
  | .ok hdr =>
    if hdr.type ≠ etExec then pure (.error .errUnsupportedType)
    else do
      let loaded ← elfLoadPhdr K file junk hdr vmm user
      match loaded with
      | .error e => pure (.error e)
      | .ok l => pure (.ok (l, hdr.entry))

end SysX
