import SysX.TarBuild
import SysX.RoundTrip
import SysX.Lib.Walk

/-! The tree of every archive that `tar_init` gets through, whatever is in it. -/
namespace SysX

variable {s t : TarFs} {ptr : ℕ → ℕ} {headers : List ℕ} {fuel header last : ℕ}

/-- A header with neither a name nor a size is skipped. -/
def tarSkips (mem : ℕ → UInt8) (header : ℕ) : Bool :=
  decide (mem (w32 (header + tarName)) = 0 ∧ mem (w32 (header + tarSize)) = 0)

/-- Where the loop of `tar_init` goes from a header. -/
def tarNext (mem : ℕ → UInt8) (header : ℕ) : Option ℕ :=
  if tarSkips mem header then some (w32 (header + 512))
  else (strtoull (fun i => mem (w32 (header + i))) tarSize 8).map fun length =>
    w32 (header + 512 + w32 (w32 length + 511) / 512 * 512)

/-- The headers that the loop reads. -/
abbrev TarWalk (mem : ℕ → UInt8) (last : ℕ) : ℕ → List ℕ → Prop := Walk (fun header => last ≤ header) (tarNext mem)

/-- The loop adds a node for each header that is not skipped, in the order in which it reads them. -/
theorem TarBuilt.loop {nameOk : Bool} (h : TarBuilt s ptr headers) (hheap : ∀ n, s.heapOk n = true)
    (hr : tarInitLoop nameOk (ptr 0) last fuel header s = some ((), t)) :
    ∃ ptr' visited, TarBuilt t ptr' (headers ++ visited.filter fun header => !tarSkips s.mem header) ∧
      ptr' 0 = ptr 0 ∧ TarWalk s.mem last header visited := by
  induction fuel generalizing s ptr headers header with
  | zero => cases hr
  | succ fuel ih =>
    rw [tarInitLoop] at hr
    by_cases hlast : header < last
    · rw [if_pos hlast, Comp.read_bind] at hr
      by_cases hskip : s.bytes header tarName = 0 ∧ s.bytes header tarSize = 0
      · rw [if_pos hskip] at hr
        have hskips : tarSkips s.mem header = true := decide_eq_true hskip
        obtain ⟨ptr', visited, hbuilt, hroot, hwalk⟩ := ih h hheap hr
        refine ⟨ptr', header :: visited, ?_, hroot, .step (Nat.not_le.mpr hlast) ?_ hwalk⟩
        · rw [List.filter_cons_of_neg (by simp [hskips])]
          exact hbuilt
        · rw [tarNext, if_pos hskips]
      · rw [if_neg hskip] at hr
        have hskips : tarSkips s.mem header = false := decide_eq_false hskip
        cases nameOk with
        | false => cases hr
        | true =>
          rw [if_pos rfl] at hr
          obtain ⟨name, s₁, hname, hr⟩ := Comp.bind_eq_some.mp hr
          rw [Comp.readOr_apply, Option.map_eq_some_iff] at hname
          obtain ⟨_, -, heq⟩ := hname
          cases heq
          obtain ⟨r, s₂, hadd, hr⟩ := Comp.bind_eq_some.mp hr
          obtain ⟨length, rfl⟩ := tarAdd_some hheap hadd
          have ha := (h.added hadd).toTarAdded
          have hbuilt := h.extend ha
          have hroot : Function.update ptr s.nodeCount s.nextNode 0 = ptr 0 :=
            Function.update_of_ne h.pos.ne _ _
          dsimp only at hr
          rw [← hroot] at hr
          obtain ⟨ptr', visited, hbuilt', hroot', hwalk⟩ := ih hbuilt (fun n => ha.heap ▸ hheap n) hr
          rw [ha.mem] at hbuilt' hwalk
          refine ⟨ptr', header :: visited, ?_, hroot'.trans hroot, .step (Nat.not_le.mpr hlast) ?_ hwalk⟩
          · rw [List.filter_cons_of_pos (by simp [hskips]), List.append_cons]
            exact hbuilt'
          · rw [tarNext, if_neg (by simp [hskips])]
            exact Option.map_eq_some_iff.mpr ⟨length, ha.length, rfl⟩
    · rw [if_neg hlast] at hr
      cases hr
      exact ⟨ptr, [], by simpa using h, rfl, .done (Nat.le_of_not_lt hlast)⟩

theorem tarNext_mod {mem : ℕ → UInt8} {a b : ℕ} (h : tarNext mem a = some b) : b % 512 = a % 512 := by
  unfold tarNext at h
  split_ifs at h
  · obtain rfl := Option.some.inj h
    unfold w32
    omega
  · obtain ⟨length, -, rfl⟩ := Option.map_eq_some_iff.mp h
    unfold w32
    omega

/-- The loop never gets to as many headers as there are numbers of nodes. -/
theorem TarWalk.length_le {mem : ℕ → UInt8} {visited : List ℕ} (h : TarWalk mem last header visited)
    (hlast : last < 4294967296) : visited.length ≤ 8388608 := by
  have hall : ∀ x ∈ visited, x % 512 = header % 512 ∧ ¬last ≤ x :=
    Walk.forall_mem h rfl fun a b hn ha => (tarNext_mod hn).trans ha
  apply length_le_of_mod (Walk.nodup h)
  intro x hx
  obtain ⟨hmod, hlt⟩ := hall x hx
  exact ⟨hmod, by omega⟩

/-- The root alone, before the archive is read. -/
theorem TarFs.setRoot_built {root : ℕ} (h : root < s.nextNode) : TarBuilt (s.setRoot root) (fun _ => root) [] where
  pos := Nat.one_pos
  root := rfl
  node i hi := by
    obtain rfl : i = 0 := Nat.lt_one_iff.mp hi
    rfl
  inode i hi := by
    obtain rfl : i = 0 := Nat.lt_one_iff.mp hi
    simp [TarFs.setRoot]
  parent i hi hpos := absurd hi (Nat.not_lt.mpr hpos)
  count := rfl
  room := by simp [TarFs.setRoot, tarHierarchyItemIncrement]
  aligned := by simp [TarFs.setRoot, tarHierarchyItemIncrement]
  fresh _ _ := h
  loaded i header hi := by cases hi

/-- The tree of an archive with its lookups: the nodes are those of the entries, in the order in which they are
read, each is below an earlier one, and the children of a node are listed and found in this order. -/
structure ArchiveTree (s : TarFs) (ptr : ℕ → ℕ) (headers : List ℕ) : Prop extends TarBuilt s ptr headers where
  rooted : ∀ i < s.nodeCount, Relation.ReflTransGen (fun i j => tarParent s i = some (ptr j)) i 0
  readdir : ∀ j < s.nodeCount, ∀ idx, tarVfsReaddir (ptr j) idx s =
    some ((tarChildren s ptr j)[idx]?.map fun i => ((s.nodes (ptr i)).name, i), s)
  finddir : ∀ j < s.nodeCount, ∀ name, tarVfsFinddir (ptr j) name s =
    some (((tarChildren s ptr j).find? fun i => (s.nodes (ptr i)).name = name).map ptr, s)

theorem tarUnpack_shape {buffer size root : ℕ} {r : Option ℕ} (hheap : ∀ n, s.heapOk n = true)
    (hroot : root < s.nextNode) (h : tarUnpack fuel buffer size root s = some (r, t)) :
    ∃ ptr visited, r = some (ptr 0) ∧ ptr 0 = root ∧ TarWalk s.mem (w32 (buffer + size)) buffer visited ∧
      ArchiveTree t ptr (visited.filter fun header => !tarSkips s.mem header) := by
  let s₁ : TarFs := { s with heapCalls := s.heapCalls + 1 }
  let s₂ : TarFs := { s₁ with heapCalls := s₁.heapCalls + 1 }
  let s₃ : TarFs := { s₂.setRoot root with heapCalls := (s₂.setRoot root).heapCalls + 1 }
  have h₁ : tarAlloc s = some (true, s₁) := tarAlloc_run hheap
  have h₂ : tarAlloc s₁ = some (true, s₂) := tarAlloc_run hheap
  have h₃ : tarAlloc (s₂.setRoot root) = some (true, s₃) := tarAlloc_run hheap
  rw [tarUnpack, Comp.bind_of_eq h₁, if_pos rfl, Comp.bind_of_eq h₂, if_pos rfl, Comp.modify_bind,
    Comp.bind_of_eq h₃] at h
  obtain ⟨_, t', hloop, h⟩ := Comp.bind_eq_some.mp h
  cases h
  have hstart : TarBuilt s₃ (fun _ => root) [] := by
    have hroot' : TarBuilt (s₂.setRoot root) (fun _ => root) [] := TarFs.setRoot_built hroot
    exact ⟨⟨hroot'.pos, hroot'.root, hroot'.node, hroot'.inode, hroot'.parent⟩, hroot'.count, hroot'.room,
      hroot'.aligned, hroot'.fresh, fun _ _ hi => by cases hi⟩
  obtain ⟨ptr, visited, hbuilt, hptr, hwalk⟩ := hstart.loop hheap hloop
  rw [List.nil_append] at hbuilt
  have hlast : w32 (buffer + size) < 4294967296 := Nat.mod_lt _ (by decide)
  have hcount : t.nodeCount < 4294967296 := by
    have hle := TarWalk.length_le hwalk hlast
    have hfilter := List.length_filter_le (fun header => !tarSkips s₃.mem header) visited
    rw [hbuilt.count]
    omega
  exact ⟨ptr, visited, congrArg some hptr.symm, hptr, hwalk, hbuilt, fun i hi => hbuilt.rooted hi,
    fun j hj idx => hbuilt.readdir hcount hj idx, fun j hj name => hbuilt.finddir hcount hj name⟩

/-- Whatever is in the archive, `tar_init` builds a tree, of which every child is listed once and found. -/
theorem tar_tree {buffer size : ℕ} {root r : Option ℕ} (hheap : ∀ n, s.heapOk n = true)
    (hroot : ∀ v, root = some v → v < s.nextNode) (h : tarInit fuel buffer size root s = some (r, t)) :
    ∃ ptr visited, r = some (ptr 0) ∧ (∀ v, root = some v → ptr 0 = v) ∧
      TarWalk s.mem (w32 (buffer + size)) buffer visited ∧
      ArchiveTree t ptr (visited.filter fun header => !tarSkips s.mem header) := by
  cases root with
  | some v =>
    obtain ⟨ptr, visited, hr, hptr, hwalk, htree⟩ := tarUnpack_shape hheap (hroot v rfl) h
    refine ⟨ptr, visited, hr, ?_, hwalk, htree⟩
    intro u hu
    cases hu
    exact hptr
  | none =>
    let s₁ : TarFs := { s with heapCalls := s.heapCalls + 1, nextNode := s.nextNode + 1 }
    let s₂ := s₁.setNode s.nextNode fun n => { n with name := [], uid := 0, gid := 0 }
    have halloc : tarAllocNode s = some (some s.nextNode, s₁) := by
      rw [tarAllocNode, Comp.bind_of_eq (tarAlloc_run hheap)]
      rfl
    have hnew : tarRoot none s = some (some s.nextNode, s₂) := by
      rw [tarRoot, Comp.bind_of_eq halloc]
      rfl
    rw [tarInit, Comp.bind_of_eq hnew] at h
    obtain ⟨ptr, visited, hr, -, hwalk, htree⟩ := @tarUnpack_shape s₂ t fuel buffer size s.nextNode r hheap
      (Nat.lt_succ_self _) h
    refine ⟨ptr, visited, hr, ?_, hwalk, htree⟩
    intro u hu
    cases hu

theorem tar_tree_sample : ∃ r t, tarInit 5 0 (archiveBytes archiveSample 1).length none (tarSample true) =
    some (r, t) ∧ ∃ ptr visited, r = some (ptr 0) ∧ (∀ v, none = some v → ptr 0 = v) ∧
      TarWalk (tarSample true).mem (w32 (0 + (archiveBytes archiveSample 1).length)) 0 visited ∧
      ArchiveTree t ptr (visited.filter fun header => !tarSkips (tarSample true).mem header) := by
  obtain ⟨t, ptr, hrun, -⟩ := tarInit_run archiveSample_wellFormed.coherent (fun _ => rfl)
    (fun r (hr : none = some r) => by cases hr) (tarSample_placed true)
    (by rw [archiveSample_length]; decide) (by rw [archiveSample_length]; decide)
    (show (archiveBytes archiveSample 1).length / 512 < 5 by rw [archiveSample_length]; decide)
  exact ⟨_, t, hrun, tar_tree (fun _ => rfl) (fun v (hv : none = some v) => by cases hv) hrun⟩

end SysX
