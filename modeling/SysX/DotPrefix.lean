import SysX.RoundTrip
import Mathlib.Data.List.Forall2

/-! Archives whose names all start with `./`, as `tar_init` and `vfs_traverse_path` see them. -/
namespace SysX

/-! What the prefix should not change. -/

/-- The entry `e` with `./` in front of its name. -/
structure DotEntry (e e' : TarEntry) : Prop where
  entry : e'.Coherent
  comps : e'.comps = [dot] :: e.comps
  trailing : e'.trailing = e.trailing
  directory : e'.directory = e.directory
  data : e'.data = e.data

/-- The entry of the directory `./`. -/
structure DotDirectory (d : TarEntry) : Prop where
  entry : d.Coherent
  comps : d.comps = [[dot]]
  trailing : d.trailing = true
  directory : d.directory = true
  data : d.data = []

/-- The archive that starts with the directory `./` and goes on with the entries, all prefixed. -/
def ArchiveDotted (es : List TarEntry) : List TarEntry → Prop
  | [] => False
  | d :: rest => DotDirectory d ∧ List.Forall₂ DotEntry es rest

/-- The path leads to a file with that content. -/
def FileAt (s : TarFs) (root : ℕ) (path content : Str) : Prop :=
  ∃ v, (vfsTraversePath (some root) path s).map Prod.fst = some (some v) ∧ (s.nodes v).flags = vfsFile ∧
    (s.nodes v).length = content.length ∧ ∀ offset size, offset + size < 18446744073709551616 →
      (vfsReadBytes v offset size s).map Prod.fst =
        some ((content.drop offset).take size, ((content.drop offset).take size).length)

/-- The same paths lead to files with the same content in both trees. -/
def SameFiles (s : TarFs) (root : ℕ) (s' : TarFs) (root' : ℕ) : Prop :=
  ∀ path content, FileAt s root path content ↔ FileAt s' root' path content

/-- The archive is in memory, and there is memory to unpack it. -/
structure TarReady (es : List TarEntry) (zeros buffer fuel : ℕ) (root : Option ℕ) (s : TarFs) : Prop where
  heap : ∀ n, s.heapOk n = true
  root : ∀ r, root = some r → r < s.nextNode
  placed : Placed s.mem buffer (archiveBytes es zeros)
  last : buffer + (archiveBytes es zeros).length < 4294967296
  small : (archiveBytes es zeros).length < 2147483648
  fuel : (archiveBytes es zeros).length / 512 < fuel

section Dotted

variable {es es' : List TarEntry} {e e' : TarEntry}

/-- The name is the one with the prefix. -/
theorem DotEntry.path (h : DotEntry e e') (hcomps : e.comps ≠ []) : e'.path = dot :: slash :: e.path := by
  obtain ⟨c, cs, hc⟩ := List.exists_cons_of_ne_nil hcomps
  rw [TarEntry.path, h.comps, h.trailing, hc, spell_cons_cons, TarEntry.path, hc]
  rfl

/-- The entry that a prefixed one was made from. -/
theorem forall₂_get {es' : List TarEntry} (h : List.Forall₂ DotEntry es es') {i : ℕ} (hi : es'[i]? = some e') :
    ∃ e, es[i]? = some e ∧ DotEntry e e' := by
  induction h generalizing i with
  | nil => cases hi
  | cons hd _ ih =>
    cases i with
    | zero =>
      cases hi
      exact ⟨_, rfl, hd⟩
    | succ i => exact ih hi

/-- The prefixed entry that was made from one. -/
theorem forall₂_get_left {es' : List TarEntry} (h : List.Forall₂ DotEntry es es') {i : ℕ} (hi : es[i]? = some e) :
    ∃ e', es'[i]? = some e' ∧ DotEntry e e' := by
  induction h generalizing i with
  | nil => cases hi
  | cons hd _ ih =>
    cases i with
    | zero =>
      cases hi
      exact ⟨_, rfl, hd⟩
    | succ i => exact ih hi

/-- Every path in the prefixed archive goes through the directory `.`. -/
theorem ArchiveDotted.comps (h : ArchiveDotted es es') : es'.map TarEntry.comps = (tarPaths es).map ([dot] :: ·) := by
  cases es' with
  | nil => exact h.elim
  | cons d rest =>
    obtain ⟨hd, hrest⟩ := h
    have htail : rest.map TarEntry.comps = (es.map TarEntry.comps).map ([dot] :: ·) := by
      induction hrest with
      | nil => rfl
      | cons he _ ih => simp [he.comps, ih]
    rw [List.map_cons, hd.comps, htail]
    rfl

theorem ArchiveDotted.coherent (h : ArchiveDotted es es') (ha : ArchiveCoherent es) : ArchiveCoherent es' := by
  have hdistinct : (es'.map TarEntry.comps).Nodup := by
    rw [h.comps]
    exact ha.rooted.nodup.map List.cons_injective
  cases es' with
  | nil => exact h.elim
  | cons d rest =>
    obtain ⟨hd, hrest⟩ := h
    constructor
    · intro e' he'
      obtain rfl | he' := List.mem_cons.mp he'
      · exact hd.entry
      · obtain ⟨i, hi⟩ := List.mem_iff_getElem?.mp he'
        obtain ⟨e, -, he⟩ := forall₂_get hrest hi
        exact he.entry
    · exact hdistinct
    · intro i e' he' hlong
      cases i with
      | zero =>
        cases he'
        rw [hd.comps] at hlong
        exact (hlong rfl).elim
      | succ i =>
        obtain ⟨e, hi, he⟩ := forall₂_get hrest he'
        have hne := (ha.entry e (List.mem_of_getElem? hi)).comps
        have hdrop : e'.comps.dropLast = [dot] :: e.comps.dropLast := by
          rw [he.comps, List.dropLast_cons_of_ne_nil hne]
        by_cases h1 : e.comps.length = 1
        · -- The parent is the directory `./`.
          obtain ⟨c, hc⟩ := List.length_eq_one_iff.mp h1
          refine ⟨0, d, Nat.succ_pos i, rfl, hd.directory, ?_⟩
          rw [hdrop, hc, hd.comps]
          rfl
        · obtain ⟨j, p, hlt, hj, hdir, hp⟩ := ha.parent i e hi h1
          obtain ⟨p', hj', hp'⟩ := forall₂_get_left hrest hj
          refine ⟨j + 1, p', Nat.succ_lt_succ hlt, hj', hp'.directory.trans hdir, ?_⟩
          rw [hdrop, hp'.comps, hp]

end Dotted

/-! Files. -/

section Files

variable {s s' : TarFs} {ptr ptr' : ℕ → ℕ} {es es' : List TarEntry} {e : TarEntry} {path content : Str}

theorem dot_notMem_pathElements (path : Str) : [dot] ∉ pathElements path := by
  unfold pathElements
  simp

theorem TarEntry.WellFormed.pathElements (h : e.WellFormed) : pathElements e.path = e.comps := by
  rw [SysX.pathElements, h.coherent.components, List.filter_eq_self]
  intro c hc
  simpa using (h.comp c hc).2.2

/-- A node that `vfs_traverse_path` finds stands at the elements of the path. -/
theorem TarTree.resolves (h : TarTree s ptr es) (ha : ArchiveCoherent es) (hlen : es.length + 1 < 4294967296)
    (hheap : ∀ n, s.heapOk n = true) {v : ℕ}
    (hv : (vfsTraversePath (some (ptr 0)) path s).map Prod.fst = some (some v)) :
    ∃ i, (tarPaths es)[i]? = some (pathElements path) ∧ v = ptr i := by
  obtain hfound | ⟨-, hfault⟩ := h.traverse ha hlen hheap path
  · rw [hfound, Option.some.injEq, Option.map_eq_some_iff] at hv
    obtain ⟨i, hi, rfl⟩ := hv
    exact ⟨i, (ha.rooted.walk ha.rooted.root).mp hi, rfl⟩
  · rw [hfault] at hv
    cases hv

/-- A file of the tree comes from a file of the archive. -/
theorem TarTree.fileAt_entry (h : TarTree s ptr es) (ha : ArchiveCoherent es) (hlen : es.length + 1 < 4294967296)
    (hheap : ∀ n, s.heapOk n = true) (hf : FileAt s (ptr 0) path content) :
    ∃ e ∈ es, e.comps = pathElements path ∧ e.directory = false := by
  obtain ⟨v, hv, hflags, -⟩ := hf
  obtain ⟨i, hi, rfl⟩ := h.resolves ha hlen hheap hv
  cases i with
  | zero =>
    rw [h.root.1] at hflags
    exact absurd hflags (by decide)
  | succ i =>
    obtain ⟨e, he, hcomps⟩ := tarPaths_succ.mp hi
    refine ⟨e, List.mem_of_getElem? he, hcomps, ?_⟩
    rw [(h.node i e he).flags] at hflags
    cases hd : e.directory with
    | false => rfl
    | true =>
      rw [hd] at hflags
      exact absurd hflags (by decide)

/-- A file of a well-formed archive is found under its path. -/
theorem TarTree.fileAt (h : TarTree s ptr es) (ha : ArchiveWellFormed es) (hlen : es.length + 1 < 4294967296)
    (hheap : ∀ n, s.heapOk n = true) (he : e ∈ es) (hfile : e.directory = false) :
    FileAt s (ptr 0) e.path e.data := by
  obtain ⟨v, hv, hlength, hread⟩ := (h.roundTrip ha hlen hheap).found e he
  refine ⟨v, hv, ?_, hlength, hread hfile⟩
  obtain ⟨i, hi, rfl⟩ := h.resolves ha.coherent hlen hheap hv
  rw [(ha.entry e he).pathElements] at hi
  obtain ⟨k, hk⟩ := List.mem_iff_getElem?.mp he
  rw [ha.coherent.rooted.unique hi (tarPaths_of_entry hk), (h.node k e hk).flags, hfile]
  rfl

/-- No path leads to a file of a prefixed archive: the elements of a path are never dots. -/
theorem TarTree.not_fileAt_dotted (h : TarTree s ptr es') (hd : ArchiveDotted es es') (ha : ArchiveCoherent es)
    (hlen : es'.length + 1 < 4294967296) (hheap : ∀ n, s.heapOk n = true) : ¬ FileAt s (ptr 0) path content := by
  intro hf
  obtain ⟨e, he, hcomps, -⟩ := h.fileAt_entry (hd.coherent ha) hlen hheap hf
  have hmem : e.comps ∈ es'.map TarEntry.comps := List.mem_map_of_mem he
  rw [hd.comps, List.mem_map] at hmem
  obtain ⟨cs, -, hcs⟩ := hmem
  apply dot_notMem_pathElements path
  rw [← hcomps, ← hcs]
  exact List.mem_cons_self

/-- Where the archive has a file, the trees are different. -/
theorem TarTree.sameFiles_iff (h : TarTree s ptr es) (h' : TarTree s' ptr' es') (ha : ArchiveWellFormed es)
    (hd : ArchiveDotted es es') (hlen : es.length + 1 < 4294967296) (hlen' : es'.length + 1 < 4294967296)
    (hheap : ∀ n, s.heapOk n = true) (hheap' : ∀ n, s'.heapOk n = true) :
    SameFiles s (ptr 0) s' (ptr' 0) ↔ ∀ e ∈ es, e.directory = true := by
  have hnone : ∀ path content, ¬ FileAt s' (ptr' 0) path content := fun _ _ =>
    h'.not_fileAt_dotted hd ha.coherent hlen' hheap'
  constructor
  · intro hsame e he
    cases hfile : e.directory with
    | true => rfl
    | false =>
      have hf := h.fileAt ha hlen hheap he hfile
      exact (hnone _ _ ((hsame _ _).mp hf)).elim
  · intro hdir path content
    have hno : ¬ FileAt s (ptr 0) path content := by
      intro hf
      obtain ⟨e, he, -, hfile⟩ := h.fileAt_entry ha.coherent hlen hheap hf
      rw [hdir e he] at hfile
      cases hfile
    exact iff_of_false hno (hnone path content)

/-- The tree that `tar_init` builds of an archive that is ready. -/
theorem TarReady.run {zeros buffer fuel : ℕ} {root : Option ℕ} (h : TarReady es zeros buffer fuel root s)
    (ha : ArchiveCoherent es) : ∃ t ptr, tarInit fuel buffer (archiveBytes es zeros).length root s = some (some (ptr 0), t) ∧
      TarTree t ptr es ∧ es.length + 1 < 4294967296 ∧ ∀ n, t.heapOk n = true := by
  obtain ⟨t, ptr, hrun, ht, -, hok⟩ := tarInit_run ha h.heap h.root h.placed h.last h.small h.fuel
  have hle := length_le_archiveBytes ha.entry zeros
  have hsmall := h.small
  exact ⟨t, ptr, hrun, ht, by omega, hok⟩

end Files

/-- An archive and the prefixed one unpack to trees with the same files exactly where the archive has no file. -/
theorem tar_dotted_iff {s s' : TarFs} {es es' : List TarEntry} {zeros zeros' buffer buffer' fuel fuel' : ℕ}
    {root root' : Option ℕ} (ha : ArchiveWellFormed es) (hd : ArchiveDotted es es')
    (hs : TarReady es zeros buffer fuel root s) (hs' : TarReady es' zeros' buffer' fuel' root' s') :
    ∃ r t r' t', tarInit fuel buffer (archiveBytes es zeros).length root s = some (some r, t) ∧
      tarInit fuel' buffer' (archiveBytes es' zeros').length root' s' = some (some r', t') ∧
      (SameFiles t r t' r' ↔ ∀ e ∈ es, e.directory = true) := by
  obtain ⟨t, ptr, hrun, ht, hlen, hok⟩ := hs.run ha.coherent
  obtain ⟨t', ptr', hrun', ht', hlen', hok'⟩ := hs'.run (hd.coherent ha.coherent)
  exact ⟨ptr 0, t, ptr' 0, t', hrun, hrun', ht.sameFiles_iff ht' ha hd hlen hlen' hok hok'⟩

/-! The small archive, as it is packed from the current directory. -/

/-- An entry without a user, a group and a time. -/
theorem coherent_of_zero {e : TarEntry} (hheader : e.header.length = 512) (hpad : (e.data.length + e.pad.length) % 512 = 0)
    (hshort : e.pad.length < 512 ∧ e.path.length < 100) (hname : Spells e.byte tarName e.path)
    (hcomps : e.comps ≠ [] ∧ ∀ c ∈ e.comps, c ≠ [] ∧ slash ∉ c)
    (htype : if e.directory then e.byte tarType = 53 else e.byte tarType = 0 ∨ e.byte tarType = 48)
    (hustar : isUstar e.byte = false) (hzero : e.byte tarUid = 0 ∧ e.byte tarGid = 0 ∧ e.byte tarMtime = 0)
    (hsize : OctalField e.byte tarSize 12 e.data.length) : e.Coherent where
  header := hheader
  padded := hpad
  padShort := hshort.1
  nameShort := hshort.2
  name := hname
  comps := hcomps.1
  comp := hcomps.2
  type := htype
  noPrefix h := by
    rw [hustar] at h
    cases h
  uid := ⟨0, [], by decide, by simp, hzero.1, rfl⟩
  gid := ⟨0, [], by decide, by simp, hzero.2.1, rfl⟩
  mtime := ⟨0, [], by decide, by simp, hzero.2.2, rfl⟩
  size := hsize

def dotSample : TarEntry := ⟨headerSample [46, 47] [48] 53, [[46]], true, true, [], []⟩

def dotDirectorySample : TarEntry := ⟨headerSample [46, 47, 100, 47] [48] 53, [[46], [100]], true, true, [], []⟩

def dotFileSample : TarEntry :=
  ⟨headerSample [46, 47, 100, 47, 102] [48, 50] 48, [[46], [100], [102]], false, false, [104, 105],
    List.replicate 510 0⟩

/-- The directories `./` and `./d/`, and the file `./d/f` with the data `hi`. -/
def dottedSample : List TarEntry := [dotSample, dotDirectorySample, dotFileSample]

theorem dotSample_coherent : dotSample.Coherent :=
  coherent_of_zero (by decide +kernel) (by decide) (by decide) (by decide +kernel) (by decide) (by decide +kernel)
    (by decide +kernel) (by decide +kernel) ⟨[48], by decide, by decide +kernel, by decide +kernel, rfl⟩

theorem dotDirectorySample_coherent : dotDirectorySample.Coherent :=
  coherent_of_zero (by decide +kernel) (by decide) (by decide) (by decide +kernel) (by decide) (by decide +kernel)
    (by decide +kernel) (by decide +kernel) ⟨[48], by decide, by decide +kernel, by decide +kernel, rfl⟩

theorem dotFileSample_coherent : dotFileSample.Coherent :=
  coherent_of_zero (by decide +kernel) (by decide +kernel) (by decide +kernel) (by decide +kernel) (by decide)
    (by decide +kernel) (by decide +kernel) (by decide +kernel)
    ⟨[48, 50], by decide, by decide +kernel, by decide +kernel, rfl⟩

theorem dottedSample_dotted : ArchiveDotted archiveSample dottedSample :=
  ⟨⟨dotSample_coherent, rfl, rfl, rfl, rfl⟩, .cons ⟨dotDirectorySample_coherent, rfl, rfl, rfl, rfl⟩
    (.cons ⟨dotFileSample_coherent, rfl, rfl, rfl, rfl⟩ .nil)⟩

/-- The prefixed archive stands at address 0, followed by a zero block. -/
def tarDottedSample : TarFs := { tarSample true with mem := fun a => (archiveBytes dottedSample 1).getD a 0 }

theorem dottedSample_length : (archiveBytes dottedSample 1).length = 2560 := by decide +kernel

theorem tarSample_ready : TarReady archiveSample 1 0 5 none (tarSample true) where
  heap _ := rfl
  root r hr := by cases hr
  placed := tarSample_placed true
  last := by rw [archiveSample_length]; decide
  small := by rw [archiveSample_length]; decide
  fuel := by rw [archiveSample_length]; decide

theorem tarDottedSample_ready : TarReady dottedSample 1 0 6 none tarDottedSample where
  heap _ := rfl
  root r hr := by cases hr
  placed i b hi := by simp only [tarDottedSample, Nat.zero_add, List.getD_eq_getElem?_getD, hi, Option.getD_some]
  last := by rw [dottedSample_length]; decide
  small := by rw [dottedSample_length]; decide
  fuel := by rw [dottedSample_length]; decide

theorem tar_dotted_sample :
    ∃ r t r' t', tarInit 5 0 (archiveBytes archiveSample 1).length none (tarSample true) = some (some r, t) ∧
      tarInit 6 0 (archiveBytes dottedSample 1).length none tarDottedSample = some (some r', t') ∧
      (SameFiles t r t' r' ↔ ∀ e ∈ archiveSample, e.directory = true) :=
  tar_dotted_iff archiveSample_wellFormed dottedSample_dotted tarSample_ready tarDottedSample_ready

/-- The file `d/f` is lost when the archive is packed as `./d/f`. -/
theorem tar_dotted_loses : ¬ ∀ (s s' : TarFs) es es' zeros zeros' buffer buffer' fuel fuel' (root root' : Option ℕ),
    ArchiveWellFormed es → ArchiveDotted es es' → TarReady es zeros buffer fuel root s →
    TarReady es' zeros' buffer' fuel' root' s' →
    ∃ r t r' t', tarInit fuel buffer (archiveBytes es zeros).length root s = some (some r, t) ∧
      tarInit fuel' buffer' (archiveBytes es' zeros').length root' s' = some (some r', t') ∧ SameFiles t r t' r' := by
  intro h
  obtain ⟨r, t, r', t', hr, hr', hsame⟩ := h _ _ _ _ _ _ _ _ _ _ _ _ archiveSample_wellFormed dottedSample_dotted
    tarSample_ready tarDottedSample_ready
  have ha := archiveSample_wellFormed
  obtain ⟨u, ptr, hrun, hu, hlen, hok⟩ := tarSample_ready.run ha.coherent
  obtain ⟨u', ptr', hrun', hu', hlen', hok'⟩ := tarDottedSample_ready.run (dottedSample_dotted.coherent ha.coherent)
  cases hr.symm.trans hrun
  cases hr'.symm.trans hrun'
  have hdir := (hu.sameFiles_iff hu' ha dottedSample_dotted hlen hlen' hok hok').mp hsame
  cases hdir fileSample (by simp [archiveSample])

end SysX
