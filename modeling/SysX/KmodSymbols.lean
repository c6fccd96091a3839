import SysX.KmodSafety

/-! What `elf_load_kmod` publishes among the symbols of the kernel. -/
namespace SysX

/-- An addition to the symbols of the kernel, under its whole name. -/
structure KmodPub where
  sym : KmodSym
  name : List UInt8
  addr : ℕ

/-- The table after an addition, for which there may have been no memory. -/
def SymAdds (syms : List SymEntry) (name : List UInt8) (addr : ℕ) (syms' : List SymEntry) : Prop :=
  match syms.findIdx? fun e => e.hasName name with
  | some i => syms' = syms.set i (SymTable.entry name addr)
  | none => syms' = syms ++ [SymTable.entry name addr] ∨ syms' = syms

/-- The table after additions, one after the other. -/
inductive SymRun : List SymEntry → List KmodPub → List SymEntry → Prop
  | nil (syms : List SymEntry) : SymRun syms [] syms
  | cons {syms syms' syms'' : List SymEntry} {p : KmodPub} {pubs : List KmodPub} (h : SymAdds syms p.name p.addr syms')
      (hrest : SymRun syms' pubs syms'') : SymRun syms (p :: pubs) syms''

theorem SymRun.append {syms syms' syms'' : List SymEntry} {pubs pubs' : List KmodPub} (h : SymRun syms pubs syms')
    (h' : SymRun syms' pubs' syms'') : SymRun syms (pubs ++ pubs') syms'' := by
  induction h with
  | nil => exact h'
  | cons hadd _ ih => exact .cons hadd (ih h')

namespace KmodFile

variable (F : KmodFile) (addr : ℕ → ℕ) (wanted : Bool)

/-- Symbol `j` of symbol table `i` is exported to the kernel. The entry point that the caller asks for is not. -/
def Publishes (i j : ℕ) : Prop :=
  (F.sym i j).Defined ∧ (F.sym i j).Exported ∧
    ¬ (wanted = true ∧ ¬ F.InitBefore addr i j ∧ (F.initCmp i j).2 = true)

/-- The name of a symbol. -/
def symName (i j : ℕ) : List UInt8 :=
  (cstring (F.bytes (F.names i)) ((F.sh.header (F.names i)).size - (F.sym i j).name) (F.sym i j).name).getD []

open Classical in
/-- What is added for symbol `j` of symbol table `i`. -/
noncomputable def pubsAt (i j : ℕ) : List KmodPub :=
  if F.Publishes addr wanted i j then [⟨F.sym i j, F.symName i j, (F.sym i j).address (F.loaded addr)⟩] else []

/-- What is added for section `i`. -/
noncomputable def pubsOf (i : ℕ) : List KmodPub :=
  if (F.sh.header i).type = shtSymtab then
    (List.range' 0 ((F.sh.header i).size / (F.sh.header i).entsize)).flatMap (F.pubsAt addr wanted i)
  else []

/-- What is added for a module, in the order of the sections and of their symbols. -/
noncomputable def published : List KmodPub := (List.range' 0 F.sh.num).flatMap (F.pubsOf addr wanted)

end KmodFile

theorem symAddEntry_adds (full : ℕ → Bool) (name : List UInt8) (a : ℕ) (s : ElfHost) :
    Comp.Wp True (symAddEntry full name a) (fun _ u => SymAdds s.kernelSyms name a u.kernelSyms) s := by
  unfold symAddEntry SymAdds
  refine .read_bind ?_
  cases s.kernelSyms.findIdx? fun e => e.hasName name with
  | some i => exact .modify rfl
  | none =>
    have hok : Comp.Wp True (if full s.kernelSyms.length then elfHeap else pure true)
        (fun _ u => u.kernelSyms = s.kernelSyms) s := .ite (fun _ => .of_eq rfl rfl) fun _ => .pure rfl
    refine .bind hok fun b u hu => .when (fun _ => .modify ?_) fun _ => Or.inr hu
    exact Or.inl (by rw [hu]; rfl)

theorem cstring_agree {r r' : ℕ → UInt8} {size n k : ℕ} (h : ∀ p < size, r' p = r p) (hn : k + n ≤ size ∨ n = 0) :
    cstring r' n k = cstring r n k := by
  induction n generalizing k with
  | zero => rfl
  | succ n ih =>
    rw [cstring, cstring, h k (by omega), ih (by omega)]

namespace KmodFile

variable {F : KmodFile} {s : ElfHost} {i : ℕ} {addr : ℕ → ℕ} {wanted : Bool}

/-- A symbol that can be exported is added under its name. -/
theorem kmodExport_adds {strtab : ℕ → UInt8} {j : ℕ} (full : ℕ → Bool) (a : ℕ)
    (hstr : ∀ p < (F.sh.header (F.names i)).size, strtab p = F.bytes (F.names i) p) (hd : (F.sym i j).Exported) :
    Comp.Wp False (kmodExport full strtab (F.sh.header (F.names i)).size (F.sym i j) a)
      (fun _ u => SymAdds s.kernelSyms (F.symName i j) a u.kernelSyms) s := by
  unfold kmodExport
  rw [Comp.when_true hd]
  have heq : cstring strtab ((F.sh.header (F.names i)).size - (F.sym i j).name) (F.sym i j).name =
      cstring (F.bytes (F.names i)) ((F.sh.header (F.names i)).size - (F.sym i j).name) (F.sym i j).name :=
    cstring_agree hstr (by omega)
  rw [heq]
  unfold symName
  cases cstring (F.bytes (F.names i)) ((F.sh.header (F.names i)).size - (F.sym i j).name) (F.sym i j).name with
  | none => exact Comp.Wp.bind (R := fun _ _ => False) (.of_fault rfl id) fun _ _ h => h.elim
  | some name => exact .step (a := name) (t := s) rfl ((symAddEntry_adds full name a s).relax)

/-- What one symbol adds. -/
theorem kmodSymbol_adds {strtab : ℕ → UInt8} {entry j : ℕ} (full : ℕ → Bool)
    (hstr : ∀ p < (F.sh.header (F.names i)).size, strtab p = F.bytes (F.names i) p)
    (hfits : F.SymFits addr wanted i j) (hentry : wanted = true → (entry ≠ 0 ↔ F.InitBefore addr i j)) :
    Comp.Wp False (kmodSymbol full wanted (F.loaded addr) strtab (F.sh.header (F.names i)).size (F.sym i j) entry)
      (fun _ u => SymRun s.kernelSyms (F.pubsAt addr wanted i j) u.kernelSyms) s := by
  classical
  -- Without the entry point in the way, a symbol is added where it is exported.
  have hexport : (F.sym i j).Defined → ¬ (wanted = true ∧ ¬ F.InitBefore addr i j ∧ (F.initCmp i j).2 = true) →
      Comp.Wp False (kmodExport full strtab (F.sh.header (F.names i)).size (F.sym i j)
        ((F.sym i j).address (F.loaded addr)))
      (fun _ u => SymRun s.kernelSyms (F.pubsAt addr wanted i j) u.kernelSyms) s := by
    intro hd hnot
    by_cases he : (F.sym i j).Exported
    · unfold pubsAt
      rw [if_pos ⟨hd, he, hnot⟩]
      exact (kmodExport_adds full _ hstr he).mono fun _ u hu => .cons hu (.nil _)
    · unfold kmodExport pubsAt
      rw [Comp.when_false he, if_neg fun h => he h.2.1]
      exact .pure (.nil _)
  unfold kmodSymbol
  refine .ite (fun hd => ?_) fun hd => ?_
  rotate_left
  · unfold pubsAt
    rw [if_neg fun h => hd h.1]
    exact .pure (.nil _)
  refine .ite (fun hcmp => ?_) fun hcmp => ?_
  · obtain ⟨hw, hzero⟩ := hcmp
    have hnot : ¬ F.InitBefore addr i j := fun h => (hentry hw).mpr h hzero
    have heq : strcmpEnd strtab (F.sym i j).name elfKmodInitFunc = F.initCmp i j :=
      strcmpEnd_congr hstr (hfits.compared hd hw hnot)
    refine elfGuard_wp False.elim fun _ => ?_
    rw [heq]
    refine .ite (fun hequal => ?_) fun hdiff => ?_
    · unfold pubsAt
      rw [if_neg fun h => h.2.2 ⟨hw, hnot, hequal⟩]
      exact .pure (.nil _)
    · exact .bind (hexport hd fun h => hdiff h.2.2) fun _ u hu => .pure hu
  · exact .bind (hexport hd fun h => hcmp ⟨h.1, by_contra fun hne => h.2.1 ((hentry h.1).mp hne)⟩) fun _ u hu => .pure hu

/-- What the symbols of a table from symbol `j` on add. -/
theorem kmodSymbols_adds {symtab strtab : ℕ → UInt8} {n entry j : ℕ} (full : ℕ → Bool)
    (hsym : ∀ p < (F.sh.header i).size, symtab p = F.bytes i p)
    (hstr : ∀ p < (F.sh.header (F.names i)).size, strtab p = F.bytes (F.names i) p)
    (hi : (F.sh.header i).type = shtSymtab) (hn : j + n = (F.sh.header i).size / (F.sh.header i).entsize)
    (hfits : F.SymsFit addr wanted i) (hentry : wanted = true → (entry ≠ 0 ↔ F.InitBefore addr i j)) :
    Comp.Wp False (kmodSymbols full wanted (F.loaded addr) symtab strtab (F.sh.header i).size (F.sh.header i).entsize
        (F.sh.header (F.names i)).size n j entry)
      (fun _ u => SymRun s.kernelSyms ((List.range' j n).flatMap (F.pubsAt addr wanted i)) u.kernelSyms) s := by
  induction n generalizing j entry s with
  | zero => exact .pure (.nil _)
  | succ n ih =>
    have hlt : j < (F.sh.header i).size / (F.sh.header i).entsize := by omega
    have hj := hfits.symbols j hlt
    unfold kmodSymbols
    refine elfGuard_wp False.elim fun _ => ?_
    rw [show kmodSym symtab (w32 (j * (F.sh.header i).entsize)) = F.sym i j from kmodSym_congr hj.fits hsym]
    refine .bind ((kmodSymbol_wp full hstr hi hlt hj.fits hentry).relax.and (kmodSymbol_adds full hstr hj hentry))
      fun r u hu => ?_
    obtain ⟨⟨-, -, hr⟩, hadds⟩ := hu
    refine (ih (by omega) hr).mono fun _ v hv => ?_
    rw [List.range'_succ, List.flatMap_cons]
    exact hadds.append hv

/-- What `elf_load_syms` adds from section `i` on. -/
theorem kmodLoadSyms_adds {n entry : ℕ} (full : ℕ → Bool) (hF : F.Reads s) (hn : i + n = F.sh.num)
    (hdone : ∀ k < i, ¬ F.NamesRejected k)
    (hrange : ∀ k < F.sh.num, (∀ l < k, ¬ F.NamesRejected l) → F.SymsStep addr wanted k)
    (hentry : wanted = true → (entry ≠ 0 ↔ F.InitBefore addr i 0)) :
    Comp.Wp False (kmodLoadSyms full wanted F.sh (F.loaded addr) n i entry)
      (fun r u => ∀ e, r = .ok e →
        SymRun s.kernelSyms ((List.range' i n).flatMap (F.pubsOf addr wanted)) u.kernelSyms) s := by
  induction n generalizing i entry s with
  | zero => exact .pure fun _ _ => .nil _
  | succ n ih =>
    have hlt : i < F.sh.num := by omega
    have hrest : ∀ {u : ElfHost} {e : ℕ}, s.Alike u → ¬ F.NamesRejected i →
        (wanted = true → (e ≠ 0 ↔ F.InitBefore addr (i + 1) 0)) →
        SymRun s.kernelSyms (F.pubsOf addr wanted i) u.kernelSyms →
        Comp.Wp False (kmodLoadSyms full wanted F.sh (F.loaded addr) n (i + 1) e)
          (fun r u => ∀ e, r = .ok e →
            SymRun s.kernelSyms ((List.range' i (n + 1)).flatMap (F.pubsOf addr wanted)) u.kernelSyms) u := by
      intro u e hu hnot he hadds
      refine (ih (hF.alike hu) (by omega) (fun k hk => ?_) he).mono fun r v hv e' he' => ?_
      · obtain hlt | rfl := Nat.lt_succ_iff_lt_or_eq.mp hk
        · exact hdone k hlt
        · exact hnot
      · rw [List.range'_succ, List.flatMap_cons]
        exact hadds.append (hv e' he')
    unfold kmodLoadSyms
    refine elfGuard_wp False.elim fun _ => .ite (fun htype => ?_) fun htype => ?_
    rotate_left
    · refine hrest (.refl s) (fun h => htype h.1) (fun hw => ?_) ?_
      · rw [hentry hw, InitBefore.next_table]
        exact ⟨Or.inl, fun h => h.resolve_right fun h => htype h.1⟩
      · unfold pubsOf
        rw [if_neg htype]
        exact .nil _
    refine elfGuard_wp False.elim fun _ => .ite (fun _ => .pure (by simp)) fun hgood => ?_
    have hnot : ¬ F.NamesRejected i := fun h => hgood h.2
    have hfits := (hrange i hlt hdone htype).2 hnot
    refine elfLoad_next_wp (fun _ => .pure (by simp)) (elfGuard_wp False.elim fun _ => ?_)
    refine elfLoad_next_wp (fun _ => .pure (by simp)) (elfGuard_wp False.elim fun _ => ?_)
    have hnext := s.alike_next.trans s.next.alike_next
    have hstr := hF s.heapCalls (F.sh.header (F.names i)).offset (F.sh.header (F.names i)).size
    have hsym := (hF.alike s.alike_next) s.next.heapCalls (F.sh.header i).offset (F.sh.header i).size
    refine .bind ((kmodSymbols_wp full hsym hstr htype (Nat.zero_add _) hentry).relax.and
      (kmodSymbols_adds full hsym hstr htype (Nat.zero_add _) hfits hentry)) fun e w hw => ?_
    obtain ⟨⟨hvw, -, he⟩, hadds⟩ := hw
    refine hrest (hnext.trans hvw) hnot (fun hw => ?_) ?_
    · rw [he hw, InitBefore.next_table]
      exact ⟨fun h => Or.inr ⟨htype, h⟩, fun h => h.elim InitBefore.of_start And.right⟩
    · unfold pubsOf
      rw [if_pos htype]
      exact hadds

/-! The symbols of the kernel stay as they are until the symbols of the module are loaded. -/

end KmodFile

section Quiet

variable {syms : List SymEntry}

theorem elfGuard_quiet (p : Prop) [Decidable p] : Comp.Keeps (fun u : ElfHost => u.kernelSyms = syms) (elfGuard p) :=
  .ite (fun _ => .pure _ _) fun _ => .fault _

theorem elfHeap_quiet : Comp.Keeps (fun u : ElfHost => u.kernelSyms = syms) elfHeap :=
  .bind (.read _ _) fun _ => .bind (.modify fun _ h => h) fun _ => .read _ _

theorem elfLoad_quiet (offset size : ℕ) : Comp.Keeps (fun u : ElfHost => u.kernelSyms = syms) (elfLoad offset size) :=
  .bind (.read _ _) fun _ => .bind (.modify fun _ h => h) fun _ => .bind (.read _ _) fun ok => by
    cases ok with
    | true => exact .bind (.read _ _) fun _ => .pure _ _
    | false => exact .pure _ _

theorem kmodReadShdr_quiet (info : ElfShInfo) : Comp.Keeps (fun u : ElfHost => u.kernelSyms = syms) (kmodReadShdr info) :=
  .bind (elfLoad_quiet _ _) fun block => by
    cases block with
    | none => exact .pure _ _
    | some bytes =>
      refine .bind (elfGuard_quiet _) fun _ => .ite (fun _ => .pure _ _) fun _ => .bind (elfGuard_quiet _) fun _ => ?_
      refine .bind (elfLoad_quiet _ _) fun names => ?_
      cases names with
      | none => exact .pure _ _
      | some _ => exact .pure _ _

theorem kmodLoadRel_quiet (place : ℕ → Option ℕ) (t : ElfShTable) (n i : ℕ) (prgload : List ElfPrgload) :
    Comp.Keeps (fun u : ElfHost => u.kernelSyms = syms) (kmodLoadRel place t n i prgload) := by
  induction n generalizing i prgload with
  | zero => exact .pure _ _
  | succ n ih =>
    unfold kmodLoadRel
    refine .bind (elfGuard_quiet _) fun _ => .ite (fun _ => ?_) fun _ => ih _ _
    cases place i with
    | none => exact .pure _ _
    | some vaddr =>
      refine .bind (.modify fun _ h => h) fun _ => .bind elfHeap_quiet fun ok => ?_
      cases ok with
      | true => exact ih _ _
      | false => exact .pure _ _

theorem elfSymtab_quiet (shdr : ℕ → UInt8) (shentsize link : ℕ) (t : RelocTables) :
    Comp.Keeps (fun u : ElfHost => u.kernelSyms = syms) (elfSymtab shdr shentsize link t) := by
  refine .ite (fun _ => .pure _ _) fun _ => .ite (fun _ => .bind (elfLoad_quiet _ _) fun block => ?_) fun _ => .pure _ _
  cases block with
  | none => exact .pure _ _
  | some _ => exact .pure _ _

theorem elfStrtab_quiet (shdr : ℕ → UInt8) (shentsize link : ℕ) (t : RelocTables) :
    Comp.Keeps (fun u : ElfHost => u.kernelSyms = syms) (elfStrtab shdr shentsize link t) := by
  refine .ite (fun _ => .pure _ _) fun _ => .ite (fun _ => .bind (elfLoad_quiet _ _) fun block => ?_) fun _ => .pure _ _
  cases block with
  | none => exact .pure _ _
  | some _ => exact .pure _ _

theorem kmodRelocEntry_quiet (machine : ℕ) (prgload : List ElfPrgload) (target : ElfPrgload) (t : KmodTables)
    (symHdr : ElfShdr) (r : ElfRel) :
    Comp.Keeps (fun u : ElfHost => u.kernelSyms = syms) (kmodRelocEntry machine prgload target t symHdr r) := by
  refine .bind (elfGuard_quiet _) fun _ => .bind (elfGuard_quiet _) fun _ => .bind (elfGuard_quiet _) fun _ => ?_
  refine .bind (.ite (fun _ => .pure _ _) fun _ => .ite (fun _ => ?_) fun _ => .pure _ _) fun _ => .modify fun _ h => h
  refine .bind (.readOr _ _) fun ent => ?_
  cases ent with
  | none => exact .pure _ _
  | some _ => exact .pure _ _

theorem kmodRelocSection_quiet (machine : ℕ) (sh : ElfShTable) (prgload : List ElfPrgload) (h : ElfShdr)
    (target : ElfPrgload) (t : KmodTables) :
    Comp.Keeps (fun u : ElfHost => u.kernelSyms = syms) (kmodRelocSection machine sh prgload h target t) := by
  refine .bind (elfGuard_quiet _) fun _ => .bind (elfSymtab_quiet _ _ _ _) fun symtab => ?_
  cases symtab with
  | error _ => exact .pure _ _
  | ok tables =>
    refine .bind (.readOr _ _) fun _ => .bind (elfGuard_quiet _) fun _ => .bind (elfStrtab_quiet _ _ _ _) fun strtab => ?_
    cases strtab with
    | error _ => exact .pure _ _
    | ok tables' =>
      refine .bind (elfLoad_quiet _ _) fun block => ?_
      cases block with
      | none => exact .pure _ _
      | some rel =>
        refine .bind (elfGuard_quiet _) fun _ => .bind (.forRange (fun j => ?_) _ _) fun _ => .pure _ _
        exact .bind (elfGuard_quiet _) fun _ => kmodRelocEntry_quiet _ _ _ _ _ _

theorem kmodRelocSections_quiet (machine : ℕ) (sh : ElfShTable) (prgload : List ElfPrgload) (n i : ℕ) (t : KmodTables) :
    Comp.Keeps (fun u : ElfHost => u.kernelSyms = syms) (kmodRelocSections machine sh prgload n i t) := by
  induction n generalizing i t with
  | zero => exact .pure _ _
  | succ n ih =>
    unfold kmodRelocSections
    refine .bind (elfGuard_quiet _) fun _ => .ite (fun _ => ?_) fun _ => ih _ _
    cases prgload.find? fun p => p.idx = (sh.header i).info with
    | none => exact ih _ _
    | some target =>
      refine .bind (kmodRelocSection_quiet _ _ _ _ _ _) fun r => ?_
      cases r with
      | error _ => exact .pure _ _
      | ok t => exact ih _ _

end Quiet

/-! The whole module. -/

namespace KmodFile

variable (F : KmodFile) (addr : ℕ → ℕ) (wanted : Bool)

/-- The sections have their places in the address space, and the symbols theirs in the sections. -/
structure WellPlaced : Prop where
  sections : ∀ k < F.sh.num, F.sh.Alloc k → addr k + (F.sh.header k).size < 4294967296
  symbols : ∀ i < F.sh.num, (F.sh.header i).type = shtSymtab →
    ∀ j < (F.sh.header i).size / (F.sh.header i).entsize, (F.sym i j).shndx < F.sh.num → F.sh.Alloc (F.sym i j).shndx →
      (F.sym i j).value ≤ (F.sh.header (F.sym i j).shndx).size

/-- Every symbol that is exported is defined in a section that is loaded. -/
def ExportsLoaded : Prop :=
  ∀ i < F.sh.num, (F.sh.header i).type = shtSymtab → ∀ j < (F.sh.header i).size / (F.sh.header i).entsize,
    F.Publishes addr wanted i j → (F.sym i j).shndx < F.sh.num ∧ F.sh.Alloc (F.sym i j).shndx

end KmodFile

/-- An addition for a global or weak symbol of a section that was loaded, with its address in that section. -/
def KmodPub.Owned (p : KmodPub) (prgload : List ElfPrgload) : Prop :=
  p.sym.Exported ∧ ∃ q ∈ prgload, q.idx = p.sym.shndx ∧ p.addr = q.vaddr + p.sym.value ∧ p.addr ≤ q.vaddr + q.size

section Whole

variable {F : KmodFile} {s t : ElfHost} {addr : ℕ → ℕ} {wanted : Bool}

theorem KmodFile.mem_published {p : KmodPub} : p ∈ F.published addr wanted ↔
    ∃ i < F.sh.num, (F.sh.header i).type = shtSymtab ∧ ∃ j < (F.sh.header i).size / (F.sh.header i).entsize,
      F.Publishes addr wanted i j ∧ p = ⟨F.sym i j, F.symName i j, (F.sym i j).address (F.loaded addr)⟩ := by
  unfold KmodFile.published
  rw [List.mem_flatMap]
  constructor
  · rintro ⟨i, hi, hp⟩
    have hlt : i < F.sh.num := by simpa [List.mem_range'_1] using hi
    unfold KmodFile.pubsOf at hp
    split_ifs at hp with htype
    · obtain ⟨j, hj, hp⟩ := List.mem_flatMap.mp hp
      unfold KmodFile.pubsAt at hp
      split_ifs at hp with hpub
      · exact ⟨i, hlt, htype, j, by simpa [List.mem_range'_1] using hj, hpub, List.mem_singleton.mp hp⟩
      · cases hp
    · cases hp
  · rintro ⟨i, hi, htype, j, hj, hpub, rfl⟩
    refine ⟨i, by simpa [List.mem_range'_1] using hi, ?_⟩
    unfold KmodFile.pubsOf
    rw [if_pos htype, List.mem_flatMap]
    refine ⟨j, by simpa [List.mem_range'_1] using hj, ?_⟩
    unfold KmodFile.pubsAt
    rw [if_pos hpub]
    exact List.mem_singleton_self _

/-- A symbol of a section that is loaded has its address there. -/
theorem KmodFile.address_of_loaded {k : ℕ} (hk : k < F.sh.num) (ha : F.sh.Alloc k) {sym : KmodSym} (hsym : sym.shndx = k)
    (hplace : addr k + sym.value < 4294967296) : sym.address (F.loaded addr) = addr k + sym.value := by
  unfold KmodSym.address
  rw [hsym]
  cases hfind : (F.loaded addr).find? fun p => p.idx = k with
  | none => exact absurd ⟨hk, ha⟩ (KmodFile.loaded_find_none hfind)
  | some p =>
    obtain ⟨l, -, -, rfl⟩ := KmodFile.mem_loaded.mp (List.mem_of_find?_eq_some hfind)
    obtain rfl : l = k := by simpa using List.find?_some hfind
    change w32 (sym.value + addr l) = addr l + sym.value
    rw [w32_of_lt (by omega), Nat.add_comm]

/-- Where a section is not loaded, an addition for one of its symbols is owned by none. -/
theorem KmodFile.owned_iff (hwell : F.WellPlaced addr) :
    (∀ p ∈ F.published addr wanted, p.Owned (F.loaded addr)) ↔ F.ExportsLoaded addr wanted := by
  constructor
  · intro h i hi htype j hj hpub
    obtain ⟨-, q, hq, hidx, -⟩ := h _ (KmodFile.mem_published.mpr ⟨i, hi, htype, j, hj, hpub, rfl⟩)
    obtain ⟨k, hk, ha, rfl⟩ := KmodFile.mem_loaded.mp hq
    change k = (F.sym i j).shndx at hidx
    rw [← hidx]
    exact ⟨hk, ha⟩
  · intro h p hp
    obtain ⟨i, hi, htype, j, hj, hpub, rfl⟩ := KmodFile.mem_published.mp hp
    obtain ⟨hk, ha⟩ := h i hi htype j hj hpub
    have hvalue := hwell.symbols i hi htype j hj hk ha
    have hsection := hwell.sections _ hk ha
    have haddr : (F.sym i j).address (F.loaded addr) = addr (F.sym i j).shndx + (F.sym i j).value :=
      KmodFile.address_of_loaded hk ha rfl (by omega)
    refine ⟨hpub.2.1, _, KmodFile.mem_loaded.mpr ⟨_, hk, ha, rfl⟩, rfl, haddr, ?_⟩
    change (F.sym i j).address (F.loaded addr) ≤ addr (F.sym i j).shndx + (F.sh.header (F.sym i j).shndx).size
    rw [haddr]
    omega

/-- What keeps the symbols of the kernel. -/
theorem quiet_wp {α : Type} {c : ElfOp α} {u : ElfHost} (h : Comp.Keeps (fun v : ElfHost => v.kernelSyms = s.kernelSyms) c)
    (hu : u.kernelSyms = s.kernelSyms) : Comp.Wp False c (fun _ v => v.kernelSyms = s.kernelSyms) u :=
  ⟨fun _ => id, fun a v hv => h u a v hu hv⟩

/-- `elf_load_kmod` adds what the module publishes. -/
theorem elfLoadKmod_adds {full room : ℕ → Bool} (hread : s.Steady)
    (hcheck : elfCheckHeader (elfEhdr s.kmodHeader) = true) (htype : (elfEhdr s.kmodHeader).type = etRel)
    (hrange : KmodInRange s addr wanted) :
    Comp.Wp False (elfLoadKmod (fun i => if room i then some (addr i) else none) full wanted)
      (fun r u => ∀ prgload entry, r = .ok (prgload, entry) → prgload = s.kmodFile.loaded addr ∧
        SymRun s.kernelSyms (s.kmodFile.published addr wanted) u.kernelSyms) s := by
  unfold elfLoadKmod
  refine .bind ((kmodReadHeader_wp hcheck).relax) fun r u hr => ?_
  obtain ⟨e, rfl, -⟩ | ⟨rfl, rfl⟩ := hr
  · exact .pure fun _ _ h => nomatch h
  refine .ite (fun h => absurd htype h) fun _ => ?_
  refine .bind (kmodReadShdr_wp.relax.and (quiet_wp (s := s) (kmodReadShdr_quiet _) rfl)) fun r u hr => ?_
  obtain ⟨⟨hu, hend⟩, husyms⟩ := hr
  cases r with
  | error e => exact .pure fun _ _ h => nomatch h
  | ok sh =>
    obtain ⟨rfl, -, hstr⟩ := hend
    set F := s.kmodFile with hFdef
    have hF : F.Reads s := hread.reads
    obtain ⟨-, hrelocs, hsyms⟩ := KmodFile.inRange_iff.mp (hrange.file hstr)
    refine .bind ((KmodFile.kmodLoadRel_wp (Nat.zero_add F.sh.num)).relax.and (quiet_wp (kmodLoadRel_quiet _ _ _ _ _) husyms))
      fun r v hr => ?_
    obtain ⟨⟨hv, hload⟩, hvsyms⟩ := hr
    cases r with
    | error e => exact .pure fun _ _ h => nomatch h
    | ok prgload =>
      obtain ⟨rfl, -⟩ := hload
      have hsv := hu.trans hv
      have hbefore : F.Before 0 kmodNoTables := Or.inl ⟨fun k hk => absurd hk (Nat.not_lt_zero k), rfl⟩
      have hdone : ∀ k < 0, ¬ F.Rejected k := fun k hk => absurd hk (Nat.not_lt_zero k)
      refine .bind ((KmodFile.kmodRelocSections_wp (hF.alike hsv) hbefore (Nat.zero_add F.sh.num) hdone).relax.and
        (quiet_wp (kmodRelocSections_quiet _ _ _ _ _ _) hvsyms)) fun r w hr => ?_
      obtain ⟨⟨hw, hend⟩, hwsyms⟩ := hr
      refine .ite (fun _ => .pure fun _ _ h => nomatch h) fun hok => ?_
      have hstart : wanted = true → ((0 : ℕ) ≠ 0 ↔ F.InitBefore addr 0 0) := by
        intro _
        refine ⟨fun h => absurd rfl h, fun ⟨k, l, _, _, hlt, _⟩ => ?_⟩
        exact absurd hlt (by omega)
      have hnames : ∀ k < 0, ¬ F.NamesRejected k := fun k hk => absurd hk (Nat.not_lt_zero k)
      refine .bind (KmodFile.kmodLoadSyms_adds full (hF.alike (hsv.trans hw)) (Nat.zero_add F.sh.num) hnames
        (hsyms (hend.passed (not_not.mp hok))) hstart) fun r x hr => ?_
      cases r with
      | error e => exact .pure fun _ _ h => nomatch h
      | ok entry =>
        refine .pure fun prgload' entry' h => ?_
        cases h
        have hadds := hr entry rfl
        rw [hwsyms] at hadds
        exact ⟨rfl, hadds⟩

/-- The symbols of the kernel change by the additions for the exported symbols of the module, and all of these are owned by
the module exactly where all exported symbols are defined in sections that are loaded. -/
theorem elf_load_kmod_published_iff {full room : ℕ → Bool} {prgload : List ElfPrgload} {entry : ℕ} (hread : s.Steady)
    (hcheck : elfCheckHeader (elfEhdr s.kmodHeader) = true) (htype : (elfEhdr s.kmodHeader).type = etRel)
    (hwell : s.kmodFile.WellPlaced addr)
    (hrun : elfLoadKmod (fun i => if room i then some (addr i) else none) full wanted s = some (.ok (prgload, entry), t)) :
    SymRun s.kernelSyms (s.kmodFile.published addr wanted) t.kernelSyms ∧
      ((∀ p ∈ s.kmodFile.published addr wanted, p.Owned prgload) ↔ s.kmodFile.ExportsLoaded addr wanted) := by
  have hrange : KmodInRange s addr wanted := (elfLoadKmod_wp hread hcheck htype).2 _ _ hrun (Or.inl ⟨_, rfl⟩)
  obtain ⟨rfl, hadds⟩ := (elfLoadKmod_adds hread hcheck htype hrange).2 _ _ hrun _ _ rfl
  exact ⟨hadds, KmodFile.owned_iff hwell⟩

/-- The number in four bytes. -/
def le32 (n : ℕ) : List UInt8 := [UInt8.ofNat n, UInt8.ofNat (n / 256), UInt8.ofNat (n / 65536), UInt8.ofNat (n / 16777216)]

/-- A module with a string table, a symbol table and a section of 8 bytes. Its only symbol, `a` with the value 4, is global and
of section `shndx`. -/
def kmodSymSampleFile (shndx : ℕ) : List UInt8 :=
  [0x7F, 0x45, 0x4C, 0x46, 1, 1, 1, 0, 0, 0, 0, 0, 0, 0, 0, 0, 1, 0, 3, 0, 1, 0, 0, 0, 0, 0, 0, 0, 0, 0, 0, 0,
    52, 0, 0, 0, 0, 0, 0, 0, 52, 0, 0, 0, 0, 0, 40, 0, 3, 0, 0, 0] ++
  [0, shtStrtab, 0, 0, 172, 2, 0, 0, 0, 0].flatMap le32 ++
  [0, shtSymtab, 0, 0, 176, 16, 0, 0, 0, 16].flatMap le32 ++
  [0, shtProgbits, 2, 0, 192, 8, 0, 0, 0, 0].flatMap le32 ++
  [97, 0, 0, 0] ++ [0, 4, 0].flatMap le32 ++ [16, 0, UInt8.ofNat shndx, UInt8.ofNat (shndx / 256)] ++
  [0, 0].flatMap le32

def kmodSymSample (shndx : ℕ) : ElfHost where
  mem _ := 0
  file offset size := ((kmodSymSampleFile shndx).drop offset).take size
  kernelSyms := []
  heapOk _ := true
  junk _ _ := 0
  heapCalls := 0

/-- The load of a sample: the sections, and the symbols of the kernel afterwards. -/
def kmodSymSampleRun (shndx : ℕ) : Option (Option (List ElfPrgload) × List (List UInt8 × ℕ)) :=
  (elfLoadKmod (fun i => if true then some ((fun _ => 4096) i) else none) (fun _ => false) true (kmodSymSample shndx)).map fun r =>
    (match r.1 with
      | .error _ => none
      | .ok v => some v.1, r.2.kernelSyms.map fun e => (e.name, e.addr))

theorem elf_load_kmod_published_sample : ∃ prgload entry t,
    elfLoadKmod (fun i => if (fun _ => true) i then some ((fun _ => 4096) i) else none) (fun _ => false) true (kmodSymSample 2) =
      some (.ok (prgload, entry), t) ∧
    SymRun [] ((kmodSymSample 2).kmodFile.published (fun _ => 4096) true) t.kernelSyms ∧
      ((∀ p ∈ (kmodSymSample 2).kmodFile.published (fun _ => 4096) true, p.Owned prgload) ↔
        (kmodSymSample 2).kmodFile.ExportsLoaded (fun _ => 4096) true) := by
  have hsome : (kmodSymSampleRun 2).bind Prod.fst = some [⟨2, 4096, 8⟩] := by decide +kernel
  unfold kmodSymSampleRun at hsome
  rw [Option.bind_map, Option.bind_eq_some_iff] at hsome
  obtain ⟨⟨r, t⟩, hrun, hr⟩ := hsome
  cases r with
  | error e => cases hr
  | ok v =>
    obtain ⟨prgload, entry⟩ := v
    have hwell : (kmodSymSample 2).kmodFile.WellPlaced fun _ => 4096 := ⟨by decide +kernel, by decide +kernel⟩
    exact ⟨prgload, entry, t, hrun, elf_load_kmod_published_iff (fun _ _ _ _ _ => rfl)
      (by decide +kernel) (by decide +kernel) hwell hrun⟩

/-- A common symbol (`SHN_COMMON`, 0xFFF2) is published with its alignment for an address. -/
theorem elf_load_kmod_publishes_common : kmodSymSampleRun 65522 = some (some [⟨2, 4096, 8⟩], [([97], 4)]) ∧
    ((kmodSymSample 65522).kmodFile.sym 1 0).shndx = 65522 := by
  decide +kernel

end Whole

end SysX
