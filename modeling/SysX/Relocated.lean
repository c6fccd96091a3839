import SysX.Reloc

/-! What `elf_do_reloc` leaves in memory. -/
namespace SysX

/-- What an entry asks for: its type, its place and the value of its symbol. -/
structure Relocation where
  type : ℕ
  place : ℕ
  symbol : ℕ
  deriving DecidableEq

/-- The field is written. -/
def Relocation.write (r : Relocation) (m : ℕ → UInt8) : ℕ → UInt8 :=
  if r.type = r386W32 then writeMem m r.place 4 (w32 (r.symbol + readMem m r.place 4))
  else if r.type = r386Pc32 then writeMem m r.place 4 (sub32 (r.symbol + readMem m r.place 4) r.place)
  else m

def relocate (rs : List Relocation) (m : ℕ → UInt8) : ℕ → UInt8 := rs.foldl (fun m r => r.write m) m

/-! What the file asks for, with no table kept from one section to the next. -/

section Module

variable (content shdr : ℕ → UInt8) (shentsize shnum : ℕ) (prgload : List ElfPrgload)
  (syms : List SymEntry)

/-- The bytes of the file from an offset on. -/
def fileFrom (k : ℕ) : ℕ → UInt8 := fun i => content (k + i)

def symHdr (h : ElfShdr) : ElfShdr := elfShdr shdr shentsize h.link

def strHdr (h : ElfShdr) : ElfShdr := elfShdr shdr shentsize (symHdr shdr shentsize h).link

def fileRel (h : ElfShdr) (j : ℕ) : ElfRel := elfRel (fileFrom content h.offset) false (h.entsize * j)

def fileSym (h : ElfShdr) (r : ElfRel) : ElfSym :=
  elfSym (fileFrom content (symHdr shdr shentsize h).offset) (symHdr shdr shentsize h).entsize r.sym

/-- The value of a symbol, where it is absolute, loaded or found among the symbols of the kernel. -/
def symbolValue (h : ElfShdr) (sym : ElfSym) : Option ℕ :=
  if sym.shndx = shnAbs then some sym.value
  else if sym.shndx = shnUndef then
    (symResolve syms (fileFrom content ((strHdr shdr shentsize h).offset + sym.name))).join.map
      SymEntry.addr
  else (prgload.find? fun p => p.idx = sym.shndx).map fun p => w32 (sym.value + p.vaddr)

def fileRelocation (h : ElfShdr) (target : ElfPrgload) (j : ℕ) : Relocation :=
  let r := fileRel content h j
  ⟨r.type, w32 (target.vaddr + r.offset),
    (symbolValue content shdr shentsize prgload syms h (fileSym content shdr shentsize h r)).getD 0⟩

def sectionRelocations (h : ElfShdr) (target : ElfPrgload) : List Relocation :=
  (List.range (h.size / h.entsize)).map (fileRelocation content shdr shentsize prgload syms h target)

def relocationsAt (i : ℕ) : List Relocation :=
  let h := elfShdr shdr shentsize i
  if h.type = shtRel then
    match prgload.find? fun p => p.idx = h.info with
    | none => []
    | some target => sectionRelocations content shdr shentsize prgload syms h target
  else []

def relocations : List Relocation :=
  (List.range shnum).flatMap (relocationsAt content shdr shentsize prgload syms)

/-- An entry of a relocation section. -/
structure EntryWellFormed (h : ElfShdr) (target : ElfPrgload) (r : ElfRel) : Prop where
  type : r.type = r386None ∨ r.type = r386W32 ∨ r.type = r386Pc32
  sym : (symHdr shdr shentsize h).entsize * r.sym + 16 ≤ (symHdr shdr shentsize h).size
  name : (fileSym content shdr shentsize h r).shndx ≠ shnAbs → ∃ str,
    Spells (fileFrom content ((strHdr shdr shentsize h).offset +
      (fileSym content shdr shentsize h r).name)) 0 str ∧
    (fileSym content shdr shentsize h r).name + str.length < (strHdr shdr shentsize h).size
  value : r.type ≠ r386None → ∃ v, symbolValue content shdr shentsize prgload syms h
    (fileSym content shdr shentsize h r) = some v
  field : r.type ≠ r386None → r.offset + 4 ≤ target.size ∧ target.vaddr + target.size ≤ 4294967296

/-- A relocation section with a loaded target. -/
structure SectionWellFormed (h : ElfShdr) (target : ElfPrgload) : Prop where
  entsize : 8 ≤ h.entsize
  link : h.link ≠ 0 ∧ h.link < shnum ∧ (symHdr shdr shentsize h).type = shtSymtab
  strLink : (symHdr shdr shentsize h).link ≠ 0 ∧ (symHdr shdr shentsize h).link < shnum ∧
    (strHdr shdr shentsize h).type = shtStrtab
  entry : ∀ j < h.size / h.entsize,
    EntryWellFormed content shdr shentsize prgload syms h target (fileRel content h j)

/-- A module whose fields are apart from each other. -/
structure RelocWellFormed : Prop where
  idx : (prgload.map ElfPrgload.idx).Nodup
  noRela : ∀ i < shnum, (elfShdr shdr shentsize i).type ≠ shtRela
  sections : ∀ i < shnum, (elfShdr shdr shentsize i).type = shtRel → ∀ target,
    (prgload.find? fun p => p.idx = (elfShdr shdr shentsize i).info) = some target →
    SectionWellFormed content shdr shentsize shnum prgload syms (elfShdr shdr shentsize i) target
  apart : (relocations content shdr shentsize shnum prgload syms).Pairwise fun r r' =>
    r.type ≠ r386None → r'.type ≠ r386None → r.place + 4 ≤ r'.place ∨ r'.place + 4 ≤ r.place

end Module

/-! Fields that are apart from each other. -/

section Fields

variable {m : ℕ → UInt8} {rs : List Relocation} {r : Relocation} {a v : ℕ}

theorem cell_eq {p i : ℕ} (hp : p + 4 ≤ 4294967296) (hi : i < 4) : w32 (p + i) = p + i :=
  w32_of_lt (by omega)

theorem readMem_writeMem (hp : a + 4 ≤ 4294967296) : readMem (writeMem m a 4 v) a 4 = v % 4294967296 := by
  apply readLe_writeLe
  intro i hi j hj h
  rw [cell_eq hp hi, cell_eq hp hj] at h
  omega

theorem writeMem_of_apart {b : ℕ} (hp : a + 4 ≤ 4294967296) (hb : ¬ (a ≤ b ∧ b < a + 4)) :
    writeMem m a 4 v b = m b := by
  apply writeLe_of_ne
  intro i hi
  rw [cell_eq hp hi]
  omega

theorem Relocation.write_of_apart (hp : r.type ≠ r386None → r.place + 4 ≤ 4294967296)
    (ha : r.type ≠ r386None → ¬ (r.place ≤ a ∧ a < r.place + 4)) : r.write m a = m a := by
  unfold Relocation.write
  split_ifs with h1 h2
  · have hne : r.type ≠ r386None := by rw [h1]; decide
    exact writeMem_of_apart (hp hne) (ha hne)
  · have hne : r.type ≠ r386None := by rw [h2]; decide
    exact writeMem_of_apart (hp hne) (ha hne)
  · rfl

/-- What is in no field is left alone. -/
theorem relocate_of_apart (hp : ∀ r ∈ rs, r.type ≠ r386None → r.place + 4 ≤ 4294967296)
    (ha : ∀ r ∈ rs, r.type ≠ r386None → ¬ (r.place ≤ a ∧ a < r.place + 4)) :
    relocate rs m a = m a := by
  induction rs generalizing m with
  | nil => rfl
  | cons r rs ih =>
    have hrest := @ih (r.write m) (fun r' hr' => hp r' (by simp [hr'])) fun r' hr' => ha r' (by simp [hr'])
    exact hrest.trans (r.write_of_apart (hp r (by simp)) (ha r (by simp)))

theorem readMem_congr {m' : ℕ → UInt8} (hp : a + 4 ≤ 4294967296)
    (h : ∀ b, a ≤ b → b < a + 4 → m' b = m b) : readMem m' a 4 = readMem m a 4 := by
  apply readLe_congr
  intro i hi
  rw [cell_eq hp hi]
  exact h _ (by omega) (by omega)

/-- What a field holds in the end, in terms of what it held before. -/
def Relocation.Done (r : Relocation) (m m' : ℕ → UInt8) : Prop :=
  (r.type = r386W32 → readMem m' r.place 4 = (r.symbol + readMem m r.place 4) % 4294967296) ∧
  (r.type = r386Pc32 → (readMem m' r.place 4 : ℤ) =
    ((r.symbol : ℤ) + readMem m r.place 4 - r.place) % 4294967296)

theorem Relocation.write_done (hp : r.type ≠ r386None → r.place + 4 ≤ 4294967296) :
    r.Done m (r.write m) := by
  constructor
  · intro h
    have hne : r.type ≠ r386None := by rw [h]; decide
    rw [Relocation.write, if_pos h, readMem_writeMem (hp hne), w32, Nat.mod_mod]
  · intro h
    have hne : r.type ≠ r386None := by rw [h]; decide
    have hw : r.type ≠ r386W32 := by rw [h]; decide
    rw [Relocation.write, if_neg hw, if_pos h, readMem_writeMem (hp hne), sub32, w32]
    have := hp hne
    omega

/-- Every field holds what its entry asks for. -/
theorem relocate_done (hp : ∀ r ∈ rs, r.type ≠ r386None → r.place + 4 ≤ 4294967296)
    (hapart : rs.Pairwise fun r r' => r.type ≠ r386None → r'.type ≠ r386None →
      r.place + 4 ≤ r'.place ∨ r'.place + 4 ≤ r.place) :
    ∀ r ∈ rs, r.Done m (relocate rs m) := by
  induction rs generalizing m with
  | nil => simp
  | cons r rs ih =>
    obtain ⟨hhead, htail⟩ := List.pairwise_cons.mp hapart
    have hprest : ∀ r' ∈ rs, r'.type ≠ r386None → r'.place + 4 ≤ 4294967296 := fun r' hr' =>
      hp r' (by simp [hr'])
    have hrun : relocate (r :: rs) m = relocate rs (r.write m) := rfl
    intro r' hr'
    rw [hrun]
    obtain rfl | hr' := List.mem_cons.mp hr'
    · -- The other fields are apart from the first one.
      have hkeep : r'.type ≠ r386None →
          readMem (relocate rs (r'.write m)) r'.place 4 = readMem (r'.write m) r'.place 4 := by
        intro hne
        apply readMem_congr (hp r' (by simp) hne)
        intro b hlo hhi
        apply relocate_of_apart hprest
        intro r hr hne'
        have := hhead r hr hne hne'
        omega
      obtain ⟨h1, h2⟩ := r'.write_done (m := m) (hp r' (by simp))
      constructor
      · intro h
        rw [hkeep (by rw [h]; decide)]
        exact h1 h
      · intro h
        rw [hkeep (by rw [h]; decide)]
        exact h2 h
    · have hkeep : r'.type ≠ r386None → readMem (r.write m) r'.place 4 = readMem m r'.place 4 := by
        intro hne'
        apply readMem_congr (hprest r' hr' hne')
        intro b hlo hhi
        apply r.write_of_apart (hp r (by simp))
        intro hne
        have := hhead r' hr' hne hne'
        omega
      obtain ⟨h1, h2⟩ := @ih (r.write m) hprest htail r' hr'
      constructor
      · intro h
        rw [h1 h, hkeep (by rw [h]; decide)]
      · intro h
        rw [h2 h, hkeep (by rw [h]; decide)]

end Fields
/-! How the code gets there. -/

section Run

variable {content shdr : ℕ → UInt8} {shentsize shnum : ℕ} {prgload : List ElfPrgload}
  {syms : List SymEntry} {s : ElfHost} {h : ElfShdr} {target : ElfPrgload} {r : ElfRel}
  {t : RelocTables}

/-- The heap does not run out, and the file is read in full. -/
structure ElfHost.Serves (s : ElfHost) (content : ℕ → UInt8) (syms : List SymEntry) : Prop where
  heap : ∀ n, s.heapOk n = true
  file : ∀ offset size, s.file offset size = (List.range size).map fun k => content (offset + k)
  kernelSyms : s.kernelSyms = syms

theorem elfLoad_run (hs : s.Serves content syms) (offset size : ℕ) :
    ∃ block calls, elfLoad offset size s = some (some block, { s with heapCalls := calls }) ∧
      ∀ k < size, block k = content (offset + k) := by
  refine ⟨fun k => (s.file offset size).getD k (s.junk s.heapCalls k), s.heapCalls + 1, ?_,
    fun k hk => ?_⟩
  · simp only [elfLoad, Comp.read_bind, Comp.modify_bind, hs.heap, if_true]
    rfl
  · simp only [hs.file]
    rw [List.getD_eq_getElem?_getD, List.getElem?_map, List.getElem?_range hk]
    rfl

/-- The tables at hand are those of the sections they are said to be of. -/
structure RelocTables.Fresh (t : RelocTables) (content shdr : ℕ → UInt8) (shentsize : ℕ) : Prop where
  symtab : t.symtabIdx ≠ 0 → t.symtabShdr = some t.symtabIdx ∧
    ∀ k < (elfShdr shdr shentsize t.symtabIdx).size,
      t.symtab k = content ((elfShdr shdr shentsize t.symtabIdx).offset + k)
  strtab : t.strtabIdx ≠ 0 → ∀ k < (elfShdr shdr shentsize t.strtabIdx).size,
    t.strtab k = content ((elfShdr shdr shentsize t.strtabIdx).offset + k)

theorem elfSymtab_run (hs : s.Serves content syms) (ht : t.Fresh content shdr shentsize) {link : ℕ}
    (htype : (elfShdr shdr shentsize link).type = shtSymtab) :
    ∃ t' calls, elfSymtab shdr shentsize link t s = some (.ok t', { s with heapCalls := calls }) ∧
      t'.Fresh content shdr shentsize ∧ t'.symtabIdx = link := by
  by_cases hidx : link = t.symtabIdx
  · refine ⟨t, s.heapCalls, ?_, ht, hidx.symm⟩
    rw [elfSymtab, if_pos hidx]
    rfl
  · obtain ⟨block, calls, hload, hblock⟩ := elfLoad_run hs (elfShdr shdr shentsize link).offset
      (elfShdr shdr shentsize link).size
    refine ⟨{ t with symtabShdr := some link, symtab := block, symtabIdx := link }, calls, ?_,
      ⟨fun _ => ⟨rfl, hblock⟩, ht.strtab⟩, rfl⟩
    simp only [elfSymtab, if_neg hidx, if_pos htype]
    rw [Comp.bind_of_eq hload]
    rfl

theorem elfStrtab_run (hs : s.Serves content syms) (ht : t.Fresh content shdr shentsize) {link : ℕ}
    (htype : (elfShdr shdr shentsize link).type = shtStrtab) :
    ∃ t' calls, elfStrtab shdr shentsize link t s = some (.ok t', { s with heapCalls := calls }) ∧
      t'.Fresh content shdr shentsize ∧ t'.strtabIdx = link ∧ t'.symtabIdx = t.symtabIdx := by
  by_cases hidx : link = t.strtabIdx
  · refine ⟨t, s.heapCalls, ?_, ht, hidx.symm, rfl⟩
    rw [elfStrtab, if_pos hidx]
    rfl
  · obtain ⟨block, calls, hload, hblock⟩ := elfLoad_run hs (elfShdr shdr shentsize link).offset
      (elfShdr shdr shentsize link).size
    refine ⟨{ t with strtab := block, strtabIdx := link }, calls, ?_,
      ⟨ht.symtab, fun _ => hblock⟩, rfl, rfl⟩
    simp only [elfStrtab, if_neg hidx, if_pos htype]
    rw [Comp.bind_of_eq hload]
    rfl

/-! Reading the tables. -/

theorem field_congr {m m' : ℕ → UInt8} {k n : ℕ} (h : ∀ i, k ≤ i → i < k + n → m' i = m i) :
    field m' k n = field m k n :=
  readLe_congr fun i hi => h (k + i) (Nat.le_add_right k i) (by omega)

theorem field_lt (m : ℕ → UInt8) (k : ℕ) : field m k 4 < 4294967296 := readLe_lt m _ 4

theorem elfShdr_size_lt (i : ℕ) : (elfShdr shdr shentsize i).size < 4294967296 := field_lt _ _

theorem elfSym_congr {m m' : ℕ → UInt8} {entsize i size : ℕ} (hsize : size < 4294967296)
    (hi : entsize * i + 16 ≤ size) (h : ∀ k < size, m' k = m k) :
    elfSym m' entsize i = elfSym m entsize i := by
  have hk : w32 (entsize * i) = entsize * i := w32_of_lt (by omega)
  have hfield : ∀ off n, off + n ≤ 16 →
      field m' (entsize * i + off) n = field m (entsize * i + off) n := fun off n hoff =>
    field_congr fun k _ hlt => h k (by omega)
  simp only [elfSym, hk]
  rw [hfield 4 4 (by decide), hfield 14 2 (by decide)]
  have := hfield 0 4 (by decide)
  rw [Nat.add_zero] at this
  rw [this]

theorem elfRel_congr {m m' : ℕ → UInt8} {k : ℕ} (h : ∀ i, k ≤ i → i < k + 8 → m' i = m i) :
    elfRel m' false k = elfRel m false k := by
  have h0 : field m' k 4 = field m k 4 := field_congr fun i hlo hhi => h i hlo (by omega)
  have h4 : field m' (k + 4) 4 = field m (k + 4) 4 :=
    field_congr fun i hlo hhi => h i (by omega) (by omega)
  simp only [elfRel, h0, h4, Bool.false_eq_true, if_false]

/-- A name that is spelled the same is resolved the same. -/
theorem symResolve_congr {table : List SymEntry} {name name' : ℕ → UInt8} {str : List UInt8}
    (hn : Spells name 0 str) (hn' : Spells name' 0 str) (hlen : str.length < 4294967296) :
    symResolve table name' = symResolve table name ∧ (symResolve table name).isSome := by
  have heq : ∀ i ≤ str.length, name' i = name i := by
    intro i hi
    have h1 := hn.get hi
    have h2 := hn'.get hi
    rw [Nat.zero_add] at h1 h2
    rw [h1, h2]
  unfold symResolve
  rw [hn.cstring hlen, hn'.cstring hlen]
  refine ⟨?_, rfl⟩
  simp only [Option.map_some, Option.some.injEq]
  congr 1
  funext entry
  rw [Bool.eq_iff_iff, List.all_eq_true, List.all_eq_true]
  refine forall₂_congr fun i hi => ?_
  have hle : i ≤ str.length := by
    have := List.mem_range.mp hi
    split_ifs at this <;> omega
  rw [heq i hle]

/-- The load address of a section is added once. -/
theorem foldl_prgload {shndx value : ℕ} (hnodup : (prgload.map ElfPrgload.idx).Nodup) :
    prgload.foldl (fun value p => if p.idx = shndx then w32 (value + p.vaddr) else value) value =
      ((prgload.find? fun p => p.idx = shndx).map fun p => w32 (value + p.vaddr)).getD value := by
  induction prgload generalizing value with
  | nil => rfl
  | cons p ps ih =>
    obtain ⟨hp, hps⟩ := List.nodup_cons.mp hnodup
    rw [List.foldl_cons, ih hps]
    by_cases hidx : p.idx = shndx
    · have hnone : (ps.find? fun q => q.idx = shndx) = none := by
        rw [List.find?_eq_none]
        intro q hq heq
        apply hp
        rw [hidx, ← of_decide_eq_true heq]
        exact List.mem_map_of_mem hq
      simp [hidx, hnone]
    · simp [hidx]

/-- The symbol of an entry gets the value that the file and the kernel give it. -/
theorem elfSymValue_run (hs : s.Serves content syms) (hidx : (prgload.map ElfPrgload.idx).Nodup)
    (he : EntryWellFormed content shdr shentsize prgload syms h target r)
    (hstr : ∀ k < (strHdr shdr shentsize h).size,
      t.strtab k = content ((strHdr shdr shentsize h).offset + k)) :
    ∃ value, elfSymValue prgload t.strtab (fileSym content shdr shentsize h r) s = some (value, s) ∧
      ∀ v, symbolValue content shdr shentsize prgload syms h (fileSym content shdr shentsize h r) =
        some v → value = v := by
  have hname := he.name
  revert hname
  generalize fileSym content shdr shentsize h r = sym
  intro hname
  unfold elfSymValue symbolValue
  by_cases habs : sym.shndx = shnAbs
  · rw [if_pos habs, if_pos habs]
    exact ⟨_, rfl, fun v hv => Option.some.inj hv⟩
  · rw [if_neg habs, if_neg habs]
    by_cases hundef : sym.shndx = shnUndef
    · rw [if_pos hundef, if_pos hundef]
      obtain ⟨str, hspell, hfit⟩ := hname habs
      have hsize : (strHdr shdr shentsize h).size < 4294967296 := elfShdr_size_lt _
      -- The name in the table at hand is the one in the file.
      have hspell' : Spells (fun i => t.strtab (w32 (sym.name + i))) 0 str := by
        apply hspell.congr
        intro i _ hi
        have hw : w32 (sym.name + i) = sym.name + i := w32_of_lt (by omega)
        rw [hw, hstr _ (by omega), fileFrom, Nat.add_assoc]
      obtain ⟨hsame, hsome⟩ := @symResolve_congr syms _ _ _ hspell hspell' (by omega)
      obtain ⟨ent, hent⟩ := Option.isSome_iff_exists.mp hsome
      have hread : Comp.readOr (fun s : ElfHost => symResolve s.kernelSyms
          fun i => t.strtab (w32 (sym.name + i))) s = some (ent, s) := by
        rw [Comp.readOr_apply, hs.kernelSyms, hsame, hent]
        rfl
      rw [Comp.bind_of_eq hread, hent]
      cases ent with
      | none => exact ⟨_, rfl, fun v hv => by cases hv⟩
      | some ent => exact ⟨_, rfl, fun v hv => Option.some.inj hv⟩
    · rw [if_neg hundef, if_neg hundef]
      refine ⟨_, rfl, fun v hv => ?_⟩
      rw [foldl_prgload hidx, hv]
      rfl

theorem elfApply_eq {type value v ref : ℕ} (m : ℕ → UInt8)
    (htype : type = r386None ∨ type = r386W32 ∨ type = r386Pc32)
    (hv : type ≠ r386None → value = v) :
    elfApply emI386 type value 0 ref m = Relocation.write ⟨type, ref, v⟩ m := by
  unfold elfApply Relocation.write
  rw [if_pos rfl]
  obtain rfl | rfl | rfl := htype
  · rfl
  · rw [hv (by decide)]
    rfl
  · have h0 : ¬ r386Pc32 = r386None := by decide
    have h1 : ¬ r386Pc32 = r386W32 := by decide
    have hw : ∀ x, w32 (sub32 x ref + 0) = sub32 x ref := fun x => Nat.mod_mod _ _
    simp only [h0, h1, if_false, if_true, hv h0, hw]

/-- One entry writes its field. -/
theorem elfRelocEntry_run (hs : s.Serves content syms) (hidx : (prgload.map ElfPrgload.idx).Nodup)
    {j : ℕ} (he : EntryWellFormed content shdr shentsize prgload syms h target (fileRel content h j))
    (hsym : ∀ k < (symHdr shdr shentsize h).size,
      t.symtab k = content ((symHdr shdr shentsize h).offset + k))
    (hstr : ∀ k < (strHdr shdr shentsize h).size,
      t.strtab k = content ((strHdr shdr shentsize h).offset + k)) :
    elfRelocEntry emI386 prgload target t (symHdr shdr shentsize h).entsize (fileRel content h j) s =
      some ((), { s with
        mem := (fileRelocation content shdr shentsize prgload syms h target j).write s.mem }) := by
  have hsymEq : elfSym t.symtab (symHdr shdr shentsize h).entsize (fileRel content h j).sym =
      fileSym content shdr shentsize h (fileRel content h j) :=
    elfSym_congr (elfShdr_size_lt _) he.sym hsym
  obtain ⟨value, hvalue, hv⟩ := elfSymValue_run hs hidx he hstr
  have hwrite : elfApply emI386 (fileRel content h j).type value 0
      (w32 (target.vaddr + (fileRel content h j).offset)) s.mem =
      (fileRelocation content shdr shentsize prgload syms h target j).write s.mem := by
    apply elfApply_eq _ he.type
    intro hne
    obtain ⟨v, hsome⟩ := he.value hne
    rw [hsome]
    exact hv v hsome
  rw [elfRelocEntry, hsymEq, Comp.bind_of_eq hvalue, ← hwrite]
  rfl

theorem ElfHost.Serves.of_eq {u : ElfHost} (hs : s.Serves content syms) (hok : u.heapOk = s.heapOk)
    (hfile : u.file = s.file) (hsyms : u.kernelSyms = s.kernelSyms) : u.Serves content syms := by
  constructor
  · rw [hok]
    exact hs.heap
  · rw [hfile]
    exact hs.file
  · rw [hsyms]
    exact hs.kernelSyms

theorem relocate_append (rs rs' : List Relocation) (m : ℕ → UInt8) :
    relocate (rs ++ rs') m = relocate rs' (relocate rs m) := List.foldl_append

/-- The loop over the entries of a section. -/
theorem elfRelocEntries_run {f : ℕ → ElfOp Unit} {g : ℕ → Relocation} (n lo : ℕ)
    (hs : s.Serves content syms)
    (hf : ∀ j, lo ≤ j → j < lo + n → ∀ u : ElfHost, u.Serves content syms →
      f j u = some ((), { u with mem := (g j).write u.mem })) :
    Comp.forRange f n lo s =
      some ((), { s with mem := relocate ((List.range' lo n).map g) s.mem }) := by
  induction n generalizing s lo with
  | zero => rfl
  | succ n ih =>
    rw [Comp.forRange_succ, Comp.bind_of_eq (hf lo (Nat.le_refl lo) (by omega) s hs)]
    exact @ih { s with mem := (g lo).write s.mem } (lo + 1) (hs.of_eq rfl rfl rfl)
      fun j hlo hhi => hf j (by omega) (by omega)

/-- A section with a loaded target writes the fields of its entries. -/
theorem elfRelocSection_run (hs : s.Serves content syms) (ht : t.Fresh content shdr shentsize)
    (hidx : (prgload.map ElfPrgload.idx).Nodup) (hrel : h.type = shtRel) (hsize : h.size < 4294967296)
    (hw : SectionWellFormed content shdr shentsize shnum prgload syms h target) :
    ∃ t' calls, elfRelocSection emI386 shdr shentsize prgload h target t s = some (.ok t', { s with
        mem := relocate (sectionRelocations content shdr shentsize prgload syms h target) s.mem
        heapCalls := calls }) ∧ t'.Fresh content shdr shentsize := by
  obtain ⟨t₁, calls₁, h₁, ht₁, hidx₁⟩ := elfSymtab_run hs ht hw.link.2.2
  have hs₁ : ({ s with heapCalls := calls₁ } : ElfHost).Serves content syms := hs.of_eq rfl rfl rfl
  obtain ⟨t₂, calls₂, h₂, ht₂, hstrIdx, hidx₂⟩ := elfStrtab_run hs₁ ht₁ hw.strLink.2.2
  have hs₂ : ({ s with heapCalls := calls₂ } : ElfHost).Serves content syms := hs.of_eq rfl rfl rfl
  obtain ⟨rel, calls₃, h₃, hblock⟩ := elfLoad_run hs₂ h.offset h.size
  have hs₃ : ({ s with heapCalls := calls₃ } : ElfHost).Serves content syms := hs.of_eq rfl rfl rfl
  have hlink : t₂.symtabIdx = h.link := hidx₂.trans hidx₁
  have hlinked : t₁.symtabShdr = some h.link := by
    have := (ht₁.symtab (by rw [hidx₁]; exact hw.link.1)).1
    rwa [hidx₁] at this
  have hsym : ∀ k < (symHdr shdr shentsize h).size,
      t₂.symtab k = content ((symHdr shdr shentsize h).offset + k) := by
    have := (ht₂.symtab (by rw [hlink]; exact hw.link.1)).2
    rwa [hlink] at this
  have hstr : ∀ k < (strHdr shdr shentsize h).size,
      t₂.strtab k = content ((strHdr shdr shentsize h).offset + k) := by
    have := ht₂.strtab (by rw [hstrIdx]; exact hw.strLink.1)
    rwa [hstrIdx] at this
  have hentries := @elfRelocEntries_run content syms _
    (fun j => elfRelocEntry emI386 prgload target t₂ (symHdr shdr shentsize h).entsize
      (elfRel rel (h.type = shtRela) (w32 (h.entsize * j))))
    (fileRelocation content shdr shentsize prgload syms h target) (h.size / h.entsize) 0 hs₃ (by
      intro j _ hj u hu
      rw [Nat.zero_add] at hj
      -- The entry is inside the section.
      have hfit : h.entsize * j + 8 ≤ h.size := by
        have h1 : h.entsize * (j + 1) ≤ h.size :=
          (Nat.mul_le_mul_left _ hj).trans (Nat.mul_div_le _ _)
        have h2 := hw.entsize
        rw [Nat.mul_add_one] at h1
        omega
      have hrela : decide (h.type = shtRela) = false := by
        rw [hrel]
        rfl
      have hread : elfRel rel (h.type = shtRela) (w32 (h.entsize * j)) = fileRel content h j := by
        rw [hrela, w32_of_lt (by omega)]
        exact elfRel_congr fun i _ hi => hblock i (by omega)
      rw [hread]
      exact elfRelocEntry_run hu hidx (hw.entry j hj) hsym hstr)
  have hne : h.entsize ≠ 0 := by
    have := hw.entsize
    omega
  have hshdr : Comp.readOr (fun _ : ElfHost => t₁.symtabShdr) { s with heapCalls := calls₁ } =
      some (h.link, { s with heapCalls := calls₁ }) := by
    rw [Comp.readOr_apply, hlinked]
    rfl
  refine ⟨t₂, calls₃, ?_, ht₂⟩
  rw [elfRelocSection, Comp.bind_of_eq h₁]
  dsimp only
  have hhdr : elfShdr shdr shentsize h.link = symHdr shdr shentsize h := rfl
  rw [Comp.bind_of_eq hshdr, hhdr, Comp.bind_of_eq h₂]
  dsimp only
  rw [Comp.bind_of_eq h₃]
  dsimp only
  rw [if_neg hne, Comp.bind_of_eq hentries, ← List.range_eq_range']
  rfl

/-- The loop over the sections. -/
theorem elfRelocSections_run (hw : RelocWellFormed content shdr shentsize shnum prgload syms)
    {n i : ℕ} (hs : s.Serves content syms) (ht : t.Fresh content shdr shentsize) (hn : i + n = shnum) :
    ∃ calls, elfRelocSections emI386 shdr shentsize prgload n i t s = some (.loadOk, { s with
      mem := relocate ((List.range' i n).flatMap
        (relocationsAt content shdr shentsize prgload syms)) s.mem
      heapCalls := calls }) := by
  induction n generalizing s t i with
  | zero => exact ⟨s.heapCalls, rfl⟩
  | succ n ih =>
    have hi : i < shnum := by omega
    rw [List.range'_succ, List.flatMap_cons, relocate_append]
    have hskip : relocationsAt content shdr shentsize prgload syms i = [] →
        ∃ calls, elfRelocSections emI386 shdr shentsize prgload n (i + 1) t s = some (.loadOk, { s with
          mem := relocate ((List.range' (i + 1) n).flatMap
            (relocationsAt content shdr shentsize prgload syms))
            (relocate (relocationsAt content shdr shentsize prgload syms i) s.mem)
          heapCalls := calls }) := by
      intro hnil
      rw [hnil]
      exact ih hs ht (by omega)
    unfold elfRelocSections
    by_cases hrel : (elfShdr shdr shentsize i).type = shtRel
    · simp only [hrel, true_or, if_true]
      cases hfind : prgload.find? fun p => p.idx = (elfShdr shdr shentsize i).info with
      | none =>
        apply hskip
        simp only [relocationsAt, hrel, if_true, hfind]
      | some target =>
        have hat : relocationsAt content shdr shentsize prgload syms i =
            sectionRelocations content shdr shentsize prgload syms (elfShdr shdr shentsize i) target := by
          simp only [relocationsAt, hrel, if_true, hfind]
        obtain ⟨t', calls, hrun, ht'⟩ := elfRelocSection_run hs ht hw.idx hrel (elfShdr_size_lt i)
          (hw.sections i hi hrel target hfind)
        obtain ⟨calls', hrest⟩ := @ih { s with
            mem := relocate (sectionRelocations content shdr shentsize prgload syms
              (elfShdr shdr shentsize i) target) s.mem
            heapCalls := calls } t' (i + 1) (hs.of_eq rfl rfl rfl) ht' (by omega)
        refine ⟨calls', ?_⟩
        rw [hat]
        dsimp only
        rw [Comp.bind_of_eq hrun]
        exact hrest
    · have hrela := hw.noRela i hi
      simp only [hrel, hrela, or_self, if_false]
      apply hskip
      simp only [relocationsAt, hrel, if_false]

end Run
section Correct

variable {content shdr : ℕ → UInt8} {shentsize shnum : ℕ} {prgload : List ElfPrgload}
  {syms : List SymEntry} {s : ElfHost}

/-- A field that is written is inside the address space. -/
theorem RelocWellFormed.place_le (hw : RelocWellFormed content shdr shentsize shnum prgload syms) :
    ∀ r ∈ relocations content shdr shentsize shnum prgload syms,
      r.type ≠ r386None → r.place + 4 ≤ 4294967296 := by
  intro r hr hne
  obtain ⟨i, hi, hr⟩ := List.mem_flatMap.mp hr
  have hi : i < shnum := List.mem_range.mp hi
  by_cases hrel : (elfShdr shdr shentsize i).type = shtRel
  · cases hfind : prgload.find? fun p => p.idx = (elfShdr shdr shentsize i).info with
    | none =>
      simp only [relocationsAt, hrel, if_true, hfind] at hr
      cases hr
    | some target =>
      simp only [relocationsAt, hrel, if_true, hfind] at hr
      obtain ⟨j, hj, rfl⟩ := List.mem_map.mp hr
      have hentry := (hw.sections i hi hrel target hfind).entry j (List.mem_range.mp hj)
      obtain ⟨h1, h2⟩ := hentry.field hne
      have hplace : w32 (target.vaddr + (fileRel content (elfShdr shdr shentsize i) j).offset) =
          target.vaddr + (fileRel content (elfShdr shdr shentsize i) j).offset :=
        w32_of_lt (by omega)
      change w32 _ + 4 ≤ _
      rw [hplace]
      omega
  · simp only [relocationsAt, hrel, if_false] at hr
    cases hr

/-- `elf_do_reloc` leaves `S + A` and `S + A - P` in the fields, and everything else as it was. What it
writes is given by the file alone, with both tables read anew for each section. -/
theorem elf_do_reloc_correct (hw : RelocWellFormed content shdr shentsize shnum prgload syms)
    (hs : s.Serves content syms) :
    ∃ t, elfDoReloc emI386 shdr shentsize shnum prgload s = some (.loadOk, t) ∧
      (∀ r ∈ relocations content shdr shentsize shnum prgload syms, r.Done s.mem t.mem) ∧
      (∀ a, (∀ r ∈ relocations content shdr shentsize shnum prgload syms, r.type ≠ r386None →
        ¬ (r.place ≤ a ∧ a < r.place + 4)) → t.mem a = s.mem a) ∧
      t.mem = relocate (relocations content shdr shentsize shnum prgload syms) s.mem := by
  have hfresh : RelocTables.Fresh ⟨none, fun _ => 0, 0, fun _ => 0, 0⟩ content shdr shentsize :=
    ⟨fun h => (h rfl).elim, fun h => (h rfl).elim⟩
  obtain ⟨calls, hrun⟩ := elfRelocSections_run hw hs hfresh (Nat.zero_add shnum)
  rw [← List.range_eq_range'] at hrun
  exact ⟨_, hrun, relocate_done hw.place_le hw.apart, fun a ha => relocate_of_apart hw.place_le ha, rfl⟩

end Correct

/-! A module with one relocation. -/

def leWord (n : ℕ) : List UInt8 := [.ofNat n, .ofNat (n / 256), .ofNat (n / 65536), .ofNat (n / 16777216)]

def shdrSample : ℕ → UInt8 := fun k => ((List.map (fun (h : List ℕ) => h.flatMap leWord)
  [[0, 0, 0, 0, 0, 0, 0, 0, 0, 0], [0, 1, 2, 0, 0, 8, 0, 0, 0, 0], [0, 2, 0, 0, 0, 16, 3, 0, 0, 16],
    [0, 3, 0, 0, 16, 4, 0, 0, 0, 0], [0, 9, 0, 0, 20, 8, 2, 1, 0, 8]]).flatten).getD k 0

/-- An absolute symbol with the value 5, an empty name, and an `R_386_PC32` entry at offset 4. -/
def contentSample : ℕ → UInt8 := fun k =>
  ([0, 5, 0, 65521 * 65536, 0, 4, 2].flatMap leWord).getD k 0

def hostSample : ElfHost where
  mem _ := 1
  file offset size := (List.range size).map fun k => contentSample (offset + k)
  kernelSyms := []
  heapOk _ := true
  junk _ _ := 0
  heapCalls := 0

theorem relocSample_wellFormed :
    RelocWellFormed contentSample shdrSample 40 5 [⟨1, 4096, 8⟩] [] := by
  have hrel : elfShdr shdrSample 40 4 = ⟨9, 20, 8, 2, 1, 8⟩ := by decide +kernel
  have hsym : symHdr shdrSample 40 (elfShdr shdrSample 40 4) = ⟨2, 0, 16, 3, 0, 16⟩ := by
    decide +kernel
  have hstr : strHdr shdrSample 40 (elfShdr shdrSample 40 4) = ⟨3, 16, 4, 0, 0, 0⟩ := by
    decide +kernel
  have hentry : fileRel contentSample (elfShdr shdrSample 40 4) 0 = ⟨4, 0, 2, 0⟩ := by decide +kernel
  have hval : fileSym contentSample shdrSample 40 (elfShdr shdrSample 40 4) ⟨4, 0, 2, 0⟩ =
      ⟨0, 5, 65521⟩ := by decide +kernel
  constructor
  · decide
  · decide +kernel
  · intro i hi htype target hfind
    have hall : ∀ i < 5, (elfShdr shdrSample 40 i).type = shtRel → i = 4 := by decide +kernel
    obtain rfl := hall i hi htype
    rw [hrel] at hfind
    obtain rfl : (⟨1, 4096, 8⟩ : ElfPrgload) = target := Option.some.inj hfind
    refine ⟨by rw [hrel], ?_, ?_, ?_⟩
    · rw [hsym, hrel]
      decide
    · rw [hstr, hsym]
      decide
    · intro j hj
      have hcount : (elfShdr shdrSample 40 4).size / (elfShdr shdrSample 40 4).entsize = 1 := by
        rw [hrel]
        decide
      obtain rfl : j = 0 := by omega
      rw [hentry]
      refine ⟨.inr (.inr rfl), ?_, ?_, ?_, fun _ => by decide⟩
      · rw [hsym]
        decide
      · rw [hval]
        intro hne
        exact (hne rfl).elim
      · rw [hval]
        exact fun _ => ⟨5, rfl⟩
  · have hone : (relocations contentSample shdrSample 40 5 [⟨1, 4096, 8⟩] []).length = 1 := by
      decide +kernel
    obtain ⟨r, hr⟩ := List.length_eq_one_iff.mp hone
    rw [hr]
    exact List.pairwise_singleton _ _

theorem elf_do_reloc_correct_sample :
    ∃ t, elfDoReloc emI386 shdrSample 40 5 [⟨1, 4096, 8⟩] hostSample = some (.loadOk, t) ∧
      t.mem = relocate [⟨2, 4100, 5⟩] hostSample.mem := by
  have hall : relocations contentSample shdrSample 40 5 [⟨1, 4096, 8⟩] [] = [⟨2, 4100, 5⟩] := by
    decide +kernel
  obtain ⟨t, hrun, -, -, hmem⟩ := elf_do_reloc_correct relocSample_wellFormed
    (⟨fun _ => rfl, fun _ _ => rfl, rfl⟩ : hostSample.Serves contentSample [])
  rw [hall] at hmem
  exact ⟨t, hrun, hmem⟩

end SysX
