import SysX.Loader

/-!
The loop of `elf_load_phdr` over the program headers, one segment at a time.
-/
namespace SysX

/-- The `n` program headers from number `i` on, of those with the type `PT_LOAD`. -/
def loadHeaders (phdr : ℕ → UInt8) (phentsize n i : ℕ) : List ElfPhdr :=
  ((List.range' i n).map (elfPhdr phdr phentsize)).filter (·.type = ptLoad)

theorem loadHeaders_succ (phdr : ℕ → UInt8) (phentsize n i : ℕ) : loadHeaders phdr phentsize (n + 1) i =
    if (elfPhdr phdr phentsize i).type = ptLoad then elfPhdr phdr phentsize i :: loadHeaders phdr phentsize n (i + 1)
    else loadHeaders phdr phentsize n (i + 1) := by
  unfold loadHeaders
  rw [List.range'_succ, List.map_cons, List.filter_cons]
  simp only [decide_eq_true_eq]

/-- One pass of the loop: the copy page, and the frames that are written. There is no result where an allocation failed. -/
def elfLoadSegment (K : Callees) (vmm : ℕ) (user : Bool) (file : ℕ → ℕ → List UInt8) (copyDst : ℕ) (p : ElfPhdr) :
    Kernel (Option (ℕ × List ℕ)) := do
  let dst ← elfCopyDst K copyDst
  if dst = 0 then pure none
  else do
    let ok ← elfMapPages K vmm user p p.pages 0
    if ok = false then pure none
    else do
      let written ← elfCopyPages K vmm dst file p loopFuel 0
      let block ← krealloc
      pure (block.map fun _ => (dst, written))

section Loop

variable {K : Callees} {vmm phentsize n i copyDst : ℕ} {user : Bool} {file : ℕ → ℕ → List UInt8} {phdr : ℕ → UInt8} {l : ElfLoaded}

theorem elfLoadSegments_load (h : (elfPhdr phdr phentsize i).type = ptLoad) :
    elfLoadSegments K vmm user file phdr phentsize (n + 1) i copyDst l = (do
      let r ← elfLoadSegment K vmm user file copyDst (elfPhdr phdr phentsize i)
      match r with
      | none => do
        elfUnloadPrg K vmm l.prgload
        pure (.error .errAlloc)
      | some (dst, written) =>
        elfLoadSegments K vmm user file phdr phentsize n (i + 1) dst
          ⟨l.prgload ++ [⟨i, (elfPhdr phdr phentsize i).vaddr, (elfPhdr phdr phentsize i).memsz⟩], l.written ++ written⟩) := by
  rw [elfLoadSegments, if_pos h, elfLoadSegment, Comp.bind_assoc]
  refine congrArg _ (funext fun dst => ?_)
  split_ifs
  · rfl
  · rw [Comp.bind_assoc]
    refine congrArg _ (funext fun ok => ?_)
    split_ifs
    · rfl
    · rw [Comp.bind_assoc]
      refine congrArg _ (funext fun written => ?_)
      rw [Comp.bind_assoc]
      refine congrArg _ (funext fun block => ?_)
      cases block <;> rfl

theorem elfLoadSegments_skip (h : (elfPhdr phdr phentsize i).type ≠ ptLoad) :
    elfLoadSegments K vmm user file phdr phentsize (n + 1) i copyDst l =
      elfLoadSegments K vmm user file phdr phentsize n (i + 1) copyDst l := by
  rw [elfLoadSegments, if_neg h]

/-- What one pass keeps, the whole loop keeps. `J done rest dst written` holds between the segments that are done and those that
are left; where `sure` excludes that an allocation fails, the loop ends with `LOAD_OK`. -/
theorem elfLoadSegments_wp {sure : Prop} {J : List ElfPhdr → List ElfPhdr → ℕ → List ℕ → Machine → Prop}
    {R : List ElfPhdr → List ℕ → Machine → Prop}
    (hseg : ∀ p done rest dst written t, J done (p :: rest) dst written t →
      Comp.Wp sure (elfLoadSegment K vmm user file dst p) (fun r t' => (∀ dst' w, r = some (dst', w) →
        J (done ++ [p]) rest dst' (written ++ w) t') ∧ (sure → r ≠ none)) t)
    (hclose : ∀ done dst written t, J done [] dst written t →
      Comp.Wp sure (Comp.when (dst ≠ 0) (vmmPgunmap K t.vmmCurrent dst 0)) (fun _ => R done written) t) (n : ℕ) :
    ∀ {i dst : ℕ} {l : ElfLoaded} {done : List ElfPhdr} {t : Machine}, J done (loadHeaders phdr phentsize n i) dst l.written t →
      Comp.Wp sure (elfLoadSegments K vmm user file phdr phentsize n i dst l) (fun r t' =>
        (∀ l', r = .ok l' → R (done ++ loadHeaders phdr phentsize n i) l'.written t') ∧ (sure → ∃ l', r = .ok l')) t := by
  induction n with
  | zero =>
    intro i dst l done t h
    rw [show loadHeaders phdr phentsize 0 i = [] from rfl] at h ⊢
    refine .read_bind (.bind (hclose done dst l.written t h) fun _ t' hR => .pure ⟨fun l' hl => ?_, fun _ => ⟨l, rfl⟩⟩)
    obtain rfl : l = l' := by simpa using hl
    rw [List.append_nil]
    exact hR
  | succ n ih =>
    intro i dst l done t h
    rw [loadHeaders_succ] at h ⊢
    by_cases htype : (elfPhdr phdr phentsize i).type = ptLoad
    · rw [if_pos htype] at h ⊢
      rw [elfLoadSegments_load htype]
      refine .bind (hseg _ done _ dst l.written t h) fun r t₁ ⟨hr, hsome⟩ => ?_
      cases r with
      | none =>
        have hunsure : ¬ sure := fun hs => hsome hs rfl
        refine .bind (R := fun _ _ => True) ((Comp.Wp.const trivial).weaken (fun hs => absurd hs hunsure) fun _ _ => id) fun _ _ _ => ?_
        exact .pure ⟨nofun, fun hs => absurd hs hunsure⟩
      | some x =>
        refine (ih (hr x.1 x.2 rfl)).mono fun r' t₂ ⟨hend, hok⟩ => ⟨fun l' hl => ?_, hok⟩
        have hR := hend l' hl
        rwa [List.append_assoc, List.singleton_append] at hR
    · rw [if_neg htype] at h ⊢
      rw [elfLoadSegments_skip htype]
      exact ih h

end Loop

/-! The table of the program headers. -/

/-- The program headers as they are in memory when the table has been read. -/
def ElfEhdr.table (hdr : ElfEhdr) (file : ℕ → ℕ → List UInt8) (junk : ℕ → ℕ → UInt8) (s : Machine) : ℕ → UInt8 := fun k =>
  ((file hdr.phoff (w32 (hdr.phentsize * hdr.phnum))).take (w32 (hdr.phentsize * hdr.phnum))).getD k (junk s.heapCalls k)

/-- The segments that are to be loaded. -/
def ElfEhdr.segments (hdr : ElfEhdr) (file : ℕ → ℕ → List UInt8) (junk : ℕ → ℕ → UInt8) (s : Machine) : List ElfPhdr :=
  loadHeaders (hdr.table file junk s) hdr.phentsize hdr.phnum 0

theorem elfLoadPhdr_wp {sure : Prop} {K : Callees} {file : ℕ → ℕ → List UInt8} {junk : ℕ → ℕ → UInt8} {hdr : ElfEhdr} {vmm : ℕ}
    {user : Bool} {J : List ElfPhdr → List ElfPhdr → ℕ → List ℕ → Machine → Prop} {R : List ElfPhdr → List ℕ → Machine → Prop}
    {s : Machine} (hheap : sure → (s.heap s.heapCalls).isSome)
    (hstart : J [] (hdr.segments file junk s) 0 [] { s with heapCalls := s.heapCalls + 1 })
    (hseg : ∀ p done rest dst written t, J done (p :: rest) dst written t →
      Comp.Wp sure (elfLoadSegment K vmm user file dst p) (fun r t' => (∀ dst' w, r = some (dst', w) →
        J (done ++ [p]) rest dst' (written ++ w) t') ∧ (sure → r ≠ none)) t)
    (hclose : ∀ done dst written t, J done [] dst written t →
      Comp.Wp sure (Comp.when (dst ≠ 0) (vmmPgunmap K t.vmmCurrent dst 0)) (fun _ => R done written) t) :
    Comp.Wp sure (elfLoadPhdr K file junk hdr vmm user) (fun r t =>
      (∀ l, r = .ok l → R (hdr.segments file junk s) l.written t) ∧ (sure → ∃ l, r = .ok l)) s := by
  have hblock : loadBlock file junk hdr.phoff (w32 (hdr.phentsize * hdr.phnum)) s =
      some ((s.heap s.heapCalls).map fun _ => hdr.table file junk s, { s with heapCalls := s.heapCalls + 1 }) := rfl
  refine .step hblock ?_
  cases hblock : s.heap s.heapCalls with
  | none =>
    refine .pure ⟨nofun, fun hs => ?_⟩
    have := hheap hs
    rw [hblock] at this
    cases this
  | some b =>
    have hrun := @elfLoadSegments_wp K vmm hdr.phentsize user file (hdr.table file junk s) sure J R hseg hclose hdr.phnum 0 0 ⟨[], []⟩
      [] _ hstart
    rw [List.nil_append] at hrun
    exact hrun

end SysX
