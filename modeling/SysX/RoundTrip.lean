import SysX.PathWalk

/-! An archive that is unpacked gives its entries back. -/
namespace SysX

/-! Bytes in memory. -/

section Bytes

variable {mem : ℕ → UInt8} {a : ℕ} {xs ys : Str}

theorem Placed.left (h : Placed mem a (xs ++ ys)) : Placed mem a xs := by
  intro i b hi
  apply h i b
  obtain ⟨hlt, -⟩ := List.getElem?_eq_some_iff.mp hi
  rwa [List.getElem?_append_left hlt]

theorem Placed.right (h : Placed mem a (xs ++ ys)) : Placed mem (a + xs.length) ys := by
  intro i b hi
  rw [Nat.add_assoc]
  apply h _ b
  rwa [List.getElem?_append_right (Nat.le_add_right _ _), Nat.add_sub_cancel_left]

theorem Placed.replicate_right {m n : ℕ} {b : UInt8} (h : Placed mem a (List.replicate (m + n) b)) :
    Placed mem (a + m) (List.replicate n b) := by
  rw [← List.replicate_append_replicate] at h
  have := h.right
  rwa [List.length_replicate] at this

end Bytes

/-! Reading the archive. -/

section Loop

variable {s : TarFs} {ptr : ℕ → ℕ} {es rest : List TarEntry} {e : TarEntry} {root a zeros : ℕ}

/-- The zero blocks at the end are skipped. -/
theorem tarInitLoop_zeros {fuel : ℕ} (hp : Placed s.mem a (List.replicate (512 * zeros) 0))
    (hend : a + 512 * zeros < 4294967296) (hfuel : zeros < fuel) :
    tarInitLoop true root (a + 512 * zeros) fuel a s = some ((), s) := by
  induction zeros generalizing a fuel with
  | zero =>
    cases fuel with
    | zero => cases hfuel
    | succ fuel =>
      rw [tarInitLoop, if_neg (by omega)]
      rfl
  | succ zeros ih =>
    cases fuel with
    | zero => cases hfuel
    | succ fuel =>
      have hzero : ∀ i < 512, s.bytes a i = 0 := by
        intro i hi
        have hw : w32 (a + i) = a + i := w32_of_lt (by omega)
        rw [TarFs.bytes, hw]
        apply hp i 0
        rw [List.getElem?_replicate, if_pos (by omega)]
      have hrest : Placed s.mem (a + 512) (List.replicate (512 * zeros) 0) := by
        apply Placed.replicate_right
        rwa [Nat.mul_add_one, Nat.add_comm (512 * zeros)] at hp
      have hlt : a + 512 < 4294967296 := Nat.lt_of_le_of_lt (by omega) hend
      have hnext : w32 (a + 512) = a + 512 := w32_of_lt hlt
      have hlast : a + 512 * (zeros + 1) = a + 512 + 512 * zeros := by omega
      rw [tarInitLoop, if_pos (by omega), Comp.read_bind,
        if_pos ⟨hzero _ (by decide), hzero _ (by decide)⟩, hnext, hlast]
      exact ih hrest (by omega) (Nat.lt_of_succ_lt_succ hfuel)

theorem TarEntry.Coherent.bytes_length (h : e.Coherent) :
    e.bytes.length = 512 + (e.data.length + 511) / 512 * 512 := by
  have h1 := h.header
  have h2 := h.padded
  have h3 := h.padShort
  simp only [TarEntry.bytes, List.length_append]
  omega

theorem archiveBytes_cons (e : TarEntry) (es : List TarEntry) (zeros : ℕ) :
    archiveBytes (e :: es) zeros = e.bytes ++ archiveBytes es zeros := by
  rw [archiveBytes, List.flatMap_cons, List.append_assoc, archiveBytes]

/-- One round of the loop adds the entry at the header. -/
theorem TarTree.step (h : TarTree s ptr es) (hr : Rooted (tarPaths (es ++ [e]))) (he : e.Coherent)
    (hheap : ∀ n, s.heapOk n = true) (hp : Placed s.mem a e.bytes) (fuel last : ℕ)
    (hlast : a + e.bytes.length ≤ last) (hend : last < 4294967296)
    (hsmall : e.data.length < 2147483648) :
    ∃ t, tarInitLoop true (ptr 0) last (fuel + 1) a s =
        tarInitLoop true (ptr 0) last fuel (a + e.bytes.length) t ∧
      TarTree t (Function.update ptr (es.length + 1) s.nextNode) (es ++ [e]) ∧ t.mem = s.mem ∧
      t.heapOk = s.heapOk := by
  have hlen := he.bytes_length
  have hheader := he.header
  have hhead : ∀ i < 512, s.bytes a i = e.byte i := by
    intro i hi
    have hw : w32 (a + i) = a + i := w32_of_lt (by omega)
    have hget : e.header[i]? = some (e.byte i) := by
      rw [TarEntry.byte, List.getD_eq_getElem?_getD, List.getElem?_eq_getElem (by omega)]
      rfl
    rw [TarFs.bytes, hw]
    exact hp.left.left i _ hget
  have hdata : e.data ≠ [] → w32 (a + 512) ≠ 0 ∧ w32 (a + 512) + e.data.length < 4294967296 ∧
      Placed s.mem (w32 (a + 512)) e.data := by
    intro hne
    have hpos : 0 < e.data.length := List.length_pos_iff.mpr hne
    have hw : w32 (a + 512) = a + 512 := w32_of_lt (by omega)
    rw [hw]
    refine ⟨by omega, by omega, ?_⟩
    have := hp.left.right
    rwa [hheader] at this
  obtain ⟨t, hadd, htree, hmem, hok⟩ := h.add hr he hheap hhead hdata
  have hnext : w32 (a + 512 + w32 (w32 e.data.length + 511) / 512 * 512) = a + e.bytes.length := by
    have h1 : w32 e.data.length = e.data.length := w32_of_lt (by omega)
    have h2 : w32 (e.data.length + 511) = e.data.length + 511 := w32_of_lt (by omega)
    rw [h1, h2, w32_of_lt (by omega)]
    omega
  have hread : Comp.readOr (fun _ : TarFs => tarPath (s.bytes a)) s = some (e.path, s) := by
    rw [Comp.readOr_apply, he.tarPath hhead]
    rfl
  refine ⟨t, ?_, htree, hmem, hok⟩
  rw [tarInitLoop, if_pos (by omega), Comp.read_bind,
    if_neg (fun h0 => he.name_ne_zero hhead h0.1), if_pos rfl, Comp.bind_of_eq hread,
    Comp.bind_of_eq hadd]
  dsimp only
  rw [hnext]

/-- The loop adds all entries. -/
theorem TarTree.loop {fuel : ℕ} (h : TarTree s ptr es) (hr : Rooted (tarPaths (es ++ rest)))
    (hrest : ∀ e ∈ rest, e.Coherent) (hheap : ∀ n, s.heapOk n = true)
    (hp : Placed s.mem a (archiveBytes rest zeros))
    (hend : a + (archiveBytes rest zeros).length < 4294967296)
    (hsmall : (archiveBytes rest zeros).length < 2147483648)
    (hfuel : (archiveBytes rest zeros).length / 512 < fuel) :
    ∃ t ptr', tarInitLoop true (ptr 0) (a + (archiveBytes rest zeros).length) fuel a s = some ((), t) ∧
      TarTree t ptr' (es ++ rest) ∧ ptr' 0 = ptr 0 ∧ t.heapOk = s.heapOk := by
  induction rest generalizing s ptr es a fuel with
  | nil =>
    have hbytes : archiveBytes [] zeros = List.replicate (512 * zeros) 0 := rfl
    rw [hbytes] at hp hend hfuel ⊢
    rw [List.length_replicate] at hend hfuel ⊢
    refine ⟨s, ptr, tarInitLoop_zeros hp hend (by omega), ?_, rfl, rfl⟩
    rwa [List.append_nil]
  | cons e rest ih =>
    cases fuel with
    | zero => cases hfuel
    | succ fuel =>
      rw [archiveBytes_cons] at hp hend hsmall hfuel ⊢
      rw [List.length_append] at hend hsmall hfuel ⊢
      have he := hrest e (by simp)
      have hlen := he.bytes_length
      have happ : es ++ e :: rest = es ++ [e] ++ rest := by simp
      have hr' : Rooted (tarPaths (es ++ [e])) := by
        have hsplit : tarPaths (es ++ e :: rest) = tarPaths (es ++ [e]) ++ rest.map TarEntry.comps := by
          simp [tarPaths]
        rw [hsplit] at hr
        exact hr.of_append (by simp [tarPaths])
      obtain ⟨s₁, hstep, htree, hmem, hok⟩ := h.step hr' he hheap hp.left fuel
        (a + (e.bytes.length + (archiveBytes rest zeros).length)) (by omega) hend (by omega)
      have hzero : Function.update ptr (es.length + 1) s.nextNode 0 = ptr 0 :=
        Function.update_of_ne (by omega) _ _
      rw [happ] at hr ⊢
      have hp₁ : Placed s₁.mem (a + e.bytes.length) (archiveBytes rest zeros) := by
        rw [hmem]
        exact hp.right
      have hfuel₁ : (archiveBytes rest zeros).length / 512 < fuel := by omega
      obtain ⟨t, ptr', hloop, htree', hptr, hok'⟩ := ih htree hr (fun d hd => hrest d (by simp [hd]))
        (by rw [hok]; exact hheap) hp₁ (by omega) (by omega) hfuel₁
      rw [hzero, Nat.add_assoc] at hloop
      exact ⟨t, ptr', hstep.trans hloop, htree', hptr.trans hzero, hok'.trans hok⟩

end Loop
/-- The tree before the archive is read: the root alone. -/
theorem TarFs.setRoot_tree {s : TarFs} {root : ℕ} (h : root < s.nextNode) :
    TarTree (s.setRoot root) (fun _ => root) [] where
  distinct i j hi hj _ := by
    rw [Nat.le_zero.mp hi, Nat.le_zero.mp hj]
  root := by simp [TarFs.setRoot]
  node i e he := by cases he
  item i e he := by cases he
  count := rfl
  room := rfl
  fresh _ _ := h

section Init

variable {s : TarFs} {es : List TarEntry} {zeros buffer fuel : ℕ}

theorem tarUnpack_run {root : ℕ} (ha : ArchiveCoherent es) (hheap : ∀ n, s.heapOk n = true)
    (hroot : root < s.nextNode) (hp : Placed s.mem buffer (archiveBytes es zeros))
    (hend : buffer + (archiveBytes es zeros).length < 4294967296)
    (hsmall : (archiveBytes es zeros).length < 2147483648)
    (hfuel : (archiveBytes es zeros).length / 512 < fuel) :
    ∃ t ptr, tarUnpack fuel buffer (archiveBytes es zeros).length root s = some (some root, t) ∧
      TarTree t ptr es ∧ ptr 0 = root ∧ ∀ n, t.heapOk n = true := by
  let s₁ : TarFs := { s with heapCalls := s.heapCalls + 1 }
  let s₂ : TarFs := { s₁ with heapCalls := s₁.heapCalls + 1 }
  let s₃ : TarFs := { s₂.setRoot root with heapCalls := (s₂.setRoot root).heapCalls + 1 }
  have h₁ : tarAlloc s = some (true, s₁) := tarAlloc_run hheap
  have h₂ : tarAlloc s₁ = some (true, s₂) := tarAlloc_run hheap
  have h₃ : tarAlloc (s₂.setRoot root) = some (true, s₃) := tarAlloc_run hheap
  have htree : TarTree s₃ (fun _ => root) [] := by
    have h0 : TarTree (s₂.setRoot root) (fun _ => root) [] := TarFs.setRoot_tree hroot
    exact ⟨h0.toTarNodes.congr rfl (fun _ _ => rfl) fun _ _ => rfl, h0.count, h0.room, h0.fresh⟩
  obtain ⟨t, ptr, hloop, ht, hptr, hok⟩ := htree.loop ha.rooted ha.entry hheap hp hend hsmall hfuel
  refine ⟨t, ptr, ?_, ht, hptr, fun n => by rw [hok]; exact hheap n⟩
  rw [tarUnpack, Comp.bind_of_eq h₁, if_pos rfl, Comp.bind_of_eq h₂, if_pos rfl, Comp.modify_bind,
    Comp.bind_of_eq h₃, w32_of_lt hend, Comp.bind_of_eq hloop]
  rfl

/-- `tar_init` unpacks a coherent archive, into the given root or a new one. -/
theorem tarInit_run {root : Option ℕ} (ha : ArchiveCoherent es) (hheap : ∀ n, s.heapOk n = true)
    (hroot : ∀ r, root = some r → r < s.nextNode) (hp : Placed s.mem buffer (archiveBytes es zeros))
    (hend : buffer + (archiveBytes es zeros).length < 4294967296)
    (hsmall : (archiveBytes es zeros).length < 2147483648)
    (hfuel : (archiveBytes es zeros).length / 512 < fuel) :
    ∃ t ptr, tarInit fuel buffer (archiveBytes es zeros).length root s = some (some (ptr 0), t) ∧
      TarTree t ptr es ∧ (∀ r, root = some r → ptr 0 = r) ∧ ∀ n, t.heapOk n = true := by
  cases root with
  | some r =>
    obtain ⟨t, ptr, hrun, ht, rfl, hok⟩ := tarUnpack_run ha hheap (hroot r rfl) hp hend hsmall hfuel
    refine ⟨t, ptr, hrun, ht, fun r hr => ?_, hok⟩
    cases hr
    rfl
  | none =>
    let s₁ : TarFs := { s with heapCalls := s.heapCalls + 1, nextNode := s.nextNode + 1 }
    let s₂ := s₁.setNode s.nextNode fun n => { n with name := [], uid := 0, gid := 0 }
    have halloc : tarAllocNode s = some (some s.nextNode, s₁) := by
      rw [tarAllocNode, Comp.bind_of_eq (tarAlloc_run hheap)]
      rfl
    have hnew : tarRoot none s = some (some s.nextNode, s₂) := by
      rw [tarRoot, Comp.bind_of_eq halloc]
      rfl
    obtain ⟨t, ptr, hrun, ht, hptr, hok⟩ := @tarUnpack_run s₂ es zeros buffer fuel s.nextNode ha hheap
      (Nat.lt_succ_self _) hp hend hsmall hfuel
    rw [← hptr] at hrun
    refine ⟨t, ptr, ?_, ht, (fun r hr => by cases hr), hok⟩
    rw [tarInit, Comp.bind_of_eq hnew]
    dsimp only
    rw [← hptr]
    exact hrun

end Init

/-! Reading the tree. -/

section Vfs

variable {s : TarFs} {ptr : ℕ → ℕ} {es : List TarEntry} {q : List Str} {x : Str} {j : ℕ}

theorem tarTraverseSymlink_run {v : ℕ} (h : (s.nodes v).flags &&& vfsSymlink = 0) :
    tarTraverseSymlink v s = some (v, s) := by
  rw [tarTraverseSymlink, Comp.read_bind, if_pos h]
  rfl

/-- A file has no children. -/
theorem ArchiveCoherent.childless (ha : ArchiveCoherent es) {e : TarEntry} (he : es[j]? = some e)
    (hfile : e.directory = false) (x : Str) : childOf (tarPaths es) (j + 1) x = none := by
  have hr := ha.rooted
  have hj := tarPaths_of_entry he
  cases hchild : childOf (tarPaths es) (j + 1) x with
  | none => rfl
  | some k =>
    have hk := (hr.childOf_eq_some hj).mp hchild
    have hlt := hr.parent_lt hk hj
    obtain ⟨k, rfl⟩ : ∃ m, k = m + 1 := ⟨k - 1, by omega⟩
    obtain ⟨c, hc, hcomps⟩ := tarPaths_succ.mp hk
    have hne : e.comps ≠ [] := (ha.entry e (List.mem_of_getElem? he)).comps
    have hlong : c.comps.length ≠ 1 := by
      rw [hcomps, List.length_append, List.length_singleton]
      have := List.length_pos_iff.mpr hne
      omega
    -- The parent of the child is the file itself.
    obtain ⟨m, d, -, hm, hdir, hparent⟩ := ha.parent k c hc hlong
    rw [hcomps, List.dropLast_concat] at hparent
    obtain rfl := Nat.succ.inj (hr.unique (tarPaths_succ.mpr ⟨d, hm, hparent⟩) hj)
    rw [he] at hm
    cases hm
    rw [hfile] at hdir
    cases hdir

/-- The node of a file or a directory is no link, and only a directory is searched. -/
theorem vfsFinddir_run {v : ℕ} {o : Option ℕ} (hflags : (s.nodes v).flags &&& vfsSymlink = 0)
    (hdir : (s.nodes v).flags = vfsDirectory ∨ (s.nodes v).flags = vfsMountpoint →
      (s.nodes v).hooked = true ∧ tarVfsFinddir v x s = some (o, s))
    (hfile : ¬ ((s.nodes v).flags = vfsDirectory ∨ (s.nodes v).flags = vfsMountpoint) → o = none) :
    vfsFinddir v x s = some (o, s) := by
  rw [vfsFinddir, Comp.bind_of_eq (tarTraverseSymlink_run hflags), Comp.read_bind]
  by_cases hsearched : (s.nodes v).flags = vfsDirectory ∨ (s.nodes v).flags = vfsMountpoint
  · obtain ⟨hhooked, hfound⟩ := hdir hsearched
    rw [if_pos hsearched, if_pos hhooked]
    exact hfound
  · rw [if_neg hsearched, hfile hsearched]
    rfl

/-- `vfs_finddir` finds the child of that name. -/
theorem TarTree.finddir (h : TarTree s ptr es) (ha : ArchiveCoherent es)
    (hlen : es.length + 1 < 4294967296) (hj : (tarPaths es)[j]? = some q) (x : Str) :
    vfsFinddir (ptr j) x s = some ((childOf (tarPaths es) j x).map ptr, s) := by
  have hr := ha.rooted
  have hle : j ≤ es.length := TarNodes.lookup_le hj
  -- No child stands before its parent.
  have hbefore : ∀ k ≤ j, (tarPaths es)[k]? ≠ some (q ++ [x]) := by
    intro k hk hchild
    have := hr.parent_lt hchild hj
    omega
  have hfind : tarFind s (ptr j) x (s.nodeCount - (j + 1)) (j + 1) =
      some ((childOf (tarPaths es) j x).map ptr) := by
    rw [h.count]
    exact h.find hr hj (by omega) hbefore
  have hsearch : (s.nodes (ptr j)).inode = j →
      tarVfsFinddir (ptr j) x s = some ((childOf (tarPaths es) j x).map ptr, s) := by
    intro hinode
    have hw : w32 (j + 1) = j + 1 := w32_of_lt (Nat.lt_of_le_of_lt (Nat.succ_le_succ hle) hlen)
    rw [tarVfsFinddir, Comp.readOr_apply, hinode, hw, hfind]
    rfl
  cases j with
  | zero =>
    obtain ⟨hflags, hinode, hhooked⟩ := h.root
    apply vfsFinddir_run
    · rw [hflags]
      decide
    · exact fun _ => ⟨hhooked, hsearch hinode⟩
    · exact fun hno => (hno (.inr hflags)).elim
  | succ j =>
    obtain ⟨e, he, -⟩ := tarPaths_succ.mp hj
    have hnode := h.node j e he
    have hflags := hnode.flags
    apply vfsFinddir_run
    · rw [hflags]
      split_ifs <;> decide
    · exact fun _ => ⟨hnode.hooked, hsearch hnode.inode⟩
    · intro hno
      have hfile : e.directory = false := by
        cases hd : e.directory with
        | false => rfl
        | true =>
          rw [hd] at hflags
          exact (hno (.inl hflags)).elim
      rw [ha.childless he hfile]
      rfl

/-- `vfs_finddir` below a node that may be missing. -/
def tarFinddir (node : Option ℕ) (c : Str) : TarOp (Option ℕ) :=
  match node with
  | none => pure none
  | some v => vfsFinddir v c

theorem vfsWalk_eq (fuel : ℕ) (path : Str) (node : Option ℕ) : vfsWalk fuel path node = walkPath tarFinddir fuel path node := by
  induction fuel generalizing path node with
  | zero => rfl
  | succ fuel ih =>
    cases node with
    | none => rfl
    | some v =>
      rw [vfsWalk, walkPath]
      simp only [ih]
      rfl

/-- The elements of a path lead from child to child, up to one that is too long. -/
theorem TarTree.fold (h : TarTree s ptr es) (ha : ArchiveCoherent es) (hlen : es.length + 1 < 4294967296)
    {cs : List Str} (hj : (tarPaths es)[j]? = some q) :
    cs.foldlM (pathStep tarFinddir) (some (ptr j)) s = some ((cs.foldlM (childOf (tarPaths es)) j).map ptr, s) ∨
      (∃ c ∈ cs, 256 ≤ c.length) ∧ cs.foldlM (pathStep tarFinddir) (some (ptr j)) s = none := by
  induction cs generalizing j q with
  | nil => exact .inl rfl
  | cons c cs ih =>
    rw [List.foldlM_cons, List.foldlM_cons]
    by_cases hlong : 256 ≤ c.length
    · have hfault : pathStep tarFinddir (some (ptr j)) c = Comp.fault := if_pos hlong
      rw [hfault]
      exact .inr ⟨⟨c, List.mem_cons_self, hlong⟩, rfl⟩
    · have hstep : pathStep tarFinddir (some (ptr j)) c = vfsFinddir (ptr j) c := if_neg hlong
      rw [hstep, Comp.bind_of_eq (h.finddir ha hlen hj c)]
      cases hchild : childOf (tarPaths es) j c with
      | none =>
        rw [Option.map_none, foldlM_pathStep_none]
        exact .inl rfl
      | some k =>
        have hk := (ha.rooted.childOf_eq_some hj).mp hchild
        obtain hfold | ⟨⟨d, hd, hdlong⟩, hfault⟩ := ih hk
        · exact .inl hfold
        · exact .inr ⟨⟨d, List.mem_cons_of_mem c hd, hdlong⟩, hfault⟩

/-- `vfs_traverse_path` from the root goes through the elements of the path. -/
theorem TarTree.traverse (h : TarTree s ptr es) (ha : ArchiveCoherent es) (hlen : es.length + 1 < 4294967296)
    (hheap : ∀ n, s.heapOk n = true) (path : Str) :
    (vfsTraversePath (some (ptr 0)) path s).map Prod.fst =
        some (((pathElements path).foldlM (childOf (tarPaths es)) 0).map ptr) ∨
      (∃ c ∈ pathElements path, 256 ≤ c.length) ∧ vfsTraversePath (some (ptr 0)) path s = none := by
  let s₁ : TarFs := { s with heapCalls := s.heapCalls + 1 }
  have h₁ : TarTree s₁ ptr es :=
    ⟨h.toTarNodes.congr rfl (fun _ _ => rfl) fun _ _ => rfl, h.count, h.room, h.fresh⟩
  have halloc : tarAlloc s = some (true, s₁) := tarAlloc_run hheap
  rw [vfsTraversePath, Comp.read_bind, if_neg (by simp), Comp.bind_of_eq halloc, if_pos rfl, Option.some_or, vfsWalk_eq,
    walkPath_eq_fold tarFinddir (Nat.le_refl _)]
  obtain hfold | hfault := h₁.fold ha hlen ha.rooted.root
  · rw [hfold]
    exact .inl rfl
  · exact .inr hfault

/-- A path whose components are short and no dots is found where the components lead. -/
theorem TarTree.traversePath (h : TarTree s ptr es) (ha : ArchiveCoherent es)
    (hlen : es.length + 1 < 4294967296) (hheap : ∀ n, s.heapOk n = true) {path : Str}
    (hcomp : ∀ c ∈ components slash path, c.length < 256 ∧ c ≠ [dot]) :
    (vfsTraversePath (some (ptr 0)) path s).map Prod.fst =
      some (((components slash path).foldlM (childOf (tarPaths es)) 0).map ptr) := by
  have helements : pathElements path = components slash path := by
    rw [pathElements, List.filter_eq_self]
    exact fun c hc => decide_eq_true (hcomp c hc).2
  obtain hfound | ⟨⟨c, hc, hlong⟩, -⟩ := h.traverse ha hlen hheap path
  · rw [hfound, helements]
  · rw [helements] at hc
    exact absurd (hcomp c hc).1 (Nat.not_lt.mpr hlong)

/-- `vfs_read` of a file gives a slice of its data. -/
theorem TarTree.read (h : TarTree s ptr es) {i offset size : ℕ} {e : TarEntry} (he : es[i]? = some e)
    (hfile : e.directory = false) (hsize : offset + size < 18446744073709551616) :
    vfsReadBytes (ptr (i + 1)) offset size s =
      some (((e.data.drop offset).take size, ((e.data.drop offset).take size).length), s) := by
  have hnode := h.node i e he
  obtain ⟨item, k, hitem, -, -, -, hdata⟩ := h.item i e he
  have hflags : (s.nodes (ptr (i + 1))).flags = vfsFile := by
    rw [hnode.flags, hfile]
    rfl
  have htrav : tarTraverseSymlink (ptr (i + 1)) s = some (ptr (i + 1), s) := by
    apply tarTraverseSymlink_run
    rw [hflags]
    decide
  have hread : Comp.readOr (fun u : TarFs => u.hierarchy[i + 1]?) s = some (item, s) := by
    rw [Comp.readOr_apply, hitem]
    rfl
  rw [vfsReadBytes, Comp.bind_of_eq htrav, Comp.read_bind, hflags, if_neg (by decide),
    if_pos hnode.hooked, tarVfsRead, Comp.read_bind, hnode.inode, Comp.bind_of_eq hread, hnode.length]
  by_cases hend : e.data.length ≤ offset
  · have hslice : (e.data.drop offset).take size = [] := by
      rw [List.drop_eq_nil_of_le hend, List.take_nil]
    rw [hslice]
    split_ifs <;> rfl
  · have hne : e.data ≠ [] := by
      rintro hnil
      rw [hnil] at hend
      exact hend (Nat.zero_le _)
    obtain ⟨hne0, hfit, hplaced⟩ := hdata hfile hne
    have hw : w64 (offset + size) = offset + size := Nat.mod_eq_of_lt hsize
    have hcount : (if e.data.length < w64 (offset + size) then e.data.length - offset else size) =
        ((e.data.drop offset).take size).length := by
      rw [List.length_take, List.length_drop, hw]
      split_ifs <;> omega
    have hle : ((e.data.drop offset).take size).length ≤ e.data.length - offset := by
      rw [List.length_take, List.length_drop]
      exact Nat.min_le_right _ _
    have hwsize : w32 ((e.data.drop offset).take size).length =
        ((e.data.drop offset).take size).length := w32_of_lt (by omega)
    rw [if_neg hne0, if_neg hend]
    simp only [hcount, Comp.read_bind, hwsize]
    refine congrArg (fun l => some ((l, _), s)) ?_
    apply List.ext_getElem
    · simp
    · intro m hm hm'
      have hlt : m < e.data.length - offset := Nat.lt_of_lt_of_le hm' hle
      rw [List.getElem_map, List.getElem_range, List.getElem_take, List.getElem_drop]
      have hw1 : w32 (item.data + offset) = item.data + offset := w32_of_lt (by omega)
      have hw2 : w32 (item.data + offset + m) = item.data + offset + m := w32_of_lt (by omega)
      rw [TarFs.bytes, hw1, hw2, Nat.add_assoc]
      exact hplaced _ _ (List.getElem?_eq_getElem (by omega))

end Vfs
/-! The round trip. -/

/-- Each entry is found under its path, with its length and data, and nothing else is found. -/
structure RoundTrip (es : List TarEntry) (root : ℕ) (s : TarFs) : Prop where
  found : ∀ e ∈ es, ∃ v, (vfsTraversePath (some root) e.path s).map Prod.fst = some (some v) ∧
    (s.nodes v).length = e.data.length ∧
    (e.directory = false → ∀ offset size, offset + size < 18446744073709551616 →
      (vfsReadBytes v offset size s).map Prod.fst =
        some ((e.data.drop offset).take size, ((e.data.drop offset).take size).length))
  missing : ∀ q : Str, components slash q ≠ [] →
    (∀ c ∈ components slash q, c.length < 256 ∧ c ≠ [dot]) →
    (∀ e ∈ es, components slash q ≠ e.comps) →
    (vfsTraversePath (some root) q s).map Prod.fst = some none

theorem length_le_archiveBytes {es : List TarEntry} (h : ∀ e ∈ es, e.Coherent) (zeros : ℕ) :
    es.length ≤ (archiveBytes es zeros).length := by
  induction es with
  | nil => exact Nat.zero_le _
  | cons e es ih =>
    have ih := ih fun d hd => h d (by simp [hd])
    have he := (h e (by simp)).bytes_length
    rw [archiveBytes_cons, List.length_append, List.length_cons]
    omega

theorem TarTree.roundTrip {s : TarFs} {ptr : ℕ → ℕ} {es : List TarEntry} (h : TarTree s ptr es)
    (ha : ArchiveWellFormed es) (hlen : es.length + 1 < 4294967296)
    (hheap : ∀ n, s.heapOk n = true) : RoundTrip es (ptr 0) s := by
  have hc := ha.coherent
  have hr := hc.rooted
  constructor
  · intro e he
    have hwf := ha.entry e he
    obtain ⟨i, hi⟩ := List.mem_iff_getElem?.mp he
    have hpath := tarPaths_of_entry hi
    have hcomp : ∀ c ∈ components slash e.path, c.length < 256 ∧ c ≠ [dot] := by
      intro c hc
      rw [hwf.coherent.components] at hc
      have h1 : c.length ≤ e.path.length := length_le_spell_of_mem hc e.trailing
      have h2 := hwf.nameShort
      exact ⟨by omega, (hwf.comp c hc).2.2⟩
    have hwalk : (components slash e.path).foldlM (childOf (tarPaths es)) 0 = some (i + 1) := by
      rw [hr.walk hr.root, hwf.coherent.components]
      exact hpath
    refine ⟨ptr (i + 1), ?_, (h.node i e hi).length, fun hfile offset size hsize => ?_⟩
    · rw [h.traversePath hc hlen hheap hcomp, hwalk]
      rfl
    · rw [h.read hi hfile hsize]
      rfl
  · intro q hq hcomp hno
    rw [h.traversePath hc hlen hheap hcomp]
    cases hwalk : (components slash q).foldlM (childOf (tarPaths es)) 0 with
    | none => rfl
    | some i =>
      have hi := (hr.walk hr.root).mp hwalk
      rw [List.nil_append] at hi
      cases i with
      | zero =>
        rw [hr.root] at hi
        exact (hq (Option.some.inj hi).symm).elim
      | succ i =>
        obtain ⟨e, he, hcomps⟩ := tarPaths_succ.mp hi
        exact (hno e (List.mem_of_getElem? he) hcomps.symm).elim

/-- Where the heap does not run out, `tar_init` unpacks a well-formed archive so that it reads back. -/
theorem tar_round_trip {s : TarFs} {es : List TarEntry} {zeros buffer fuel : ℕ} {root : Option ℕ}
    (ha : ArchiveWellFormed es) (hheap : ∀ n, s.heapOk n = true)
    (hroot : ∀ r, root = some r → r < s.nextNode) (hp : Placed s.mem buffer (archiveBytes es zeros))
    (hend : buffer + (archiveBytes es zeros).length < 4294967296)
    (hsmall : (archiveBytes es zeros).length < 2147483648)
    (hfuel : (archiveBytes es zeros).length / 512 < fuel) :
    ∃ r t, tarInit fuel buffer (archiveBytes es zeros).length root s = some (some r, t) ∧
      (∀ r', root = some r' → r = r') ∧ RoundTrip es r t := by
  obtain ⟨t, ptr, hrun, ht, hptr, hok⟩ := tarInit_run ha.coherent hheap hroot hp hend hsmall hfuel
  have hle := length_le_archiveBytes ha.coherent.entry zeros
  exact ⟨ptr 0, t, hrun, hptr, ht.roundTrip ha (by omega) hok⟩

/-! A small archive. -/

/-- A header with a name, a size and a type, where all other fields are zero. -/
def headerSample (name size : Str) (type : UInt8) : Str :=
  (List.range 512).map fun i =>
    if i < 100 then name.getD i 0
    else if tarSize ≤ i ∧ i < tarSize + 12 then size.getD (i - tarSize) 0
    else if i = tarType then type
    else 0

def directorySample : TarEntry := ⟨headerSample [100, 47] [48] 53, [[100]], true, true, [], []⟩

def fileSample : TarEntry :=
  ⟨headerSample [100, 47, 102] [48, 50] 48, [[100], [102]], false, false, [104, 105],
    List.replicate 510 0⟩

/-- The directory `d`, with a slash at the end, and the file `d/f` with the data `hi`. -/
def archiveSample : List TarEntry := [directorySample, fileSample]

theorem archiveSample_wellFormed : ArchiveWellFormed archiveSample := by
  have hzero : ∀ (e : TarEntry) (k width : ℕ), 0 < width → e.byte k = 0 →
      OctalField e.byte k width 0 := fun e k width hw h => ⟨[], hw, by simp, h, rfl⟩
  constructor
  · intro e he
    obtain rfl | he := List.mem_cons.mp he
    · constructor
      · decide +kernel
      · decide
      · decide
      · decide
      · decide +kernel
      · decide
      · decide
      · decide
      · decide +kernel
      · decide +kernel
      · exact ⟨0, hzero _ _ _ (by decide) (by decide +kernel)⟩
      · exact ⟨0, hzero _ _ _ (by decide) (by decide +kernel)⟩
      · exact ⟨0, hzero _ _ _ (by decide) (by decide +kernel)⟩
      · exact ⟨[48], by decide, by decide +kernel, by decide +kernel, rfl⟩
      · decide
    · obtain rfl := List.mem_singleton.mp he
      constructor
      · decide +kernel
      · decide +kernel
      · decide +kernel
      · decide
      · decide +kernel
      · decide
      · decide
      · decide
      · decide +kernel
      · decide +kernel
      · exact ⟨0, hzero _ _ _ (by decide) (by decide +kernel)⟩
      · exact ⟨0, hzero _ _ _ (by decide) (by decide +kernel)⟩
      · exact ⟨0, hzero _ _ _ (by decide) (by decide +kernel)⟩
      · exact ⟨[48, 50], by decide, by decide +kernel, by decide +kernel, rfl⟩
      · decide
  · decide
  · intro i e he hlong
    obtain rfl | rfl | hi : i = 0 ∨ i = 1 ∨ 2 ≤ i := by omega
    · obtain rfl : directorySample = e := Option.some.inj he
      exact (hlong rfl).elim
    · obtain rfl : fileSample = e := Option.some.inj he
      exact ⟨0, directorySample, by decide, rfl, rfl, rfl⟩
    · rw [List.getElem?_eq_none (l := archiveSample) hi] at he
      cases he

/-- The archive stands at address 0, followed by a zero block. -/
def tarSample (heapOk : Bool) : TarFs where
  mem a := (archiveBytes archiveSample 1).getD a 0
  nodes _ := ⟨[], 0, 0, 0, 0, 0, 0, false⟩
  nextNode := 0
  hierarchy := []
  nodeCount := 0
  junk _ := ⟨none, 0, none⟩
  heapOk _ := heapOk
  heapCalls := 0
  vfsRoot := none

theorem archiveSample_length : (archiveBytes archiveSample 1).length = 2048 := by decide +kernel

theorem tarSample_placed (heapOk : Bool) :
    Placed (tarSample heapOk).mem 0 (archiveBytes archiveSample 1) := by
  intro i b hi
  simp only [tarSample, Nat.zero_add, List.getD_eq_getElem?_getD, hi, Option.getD_some]

theorem tar_round_trip_sample :
    ∃ r t, tarInit 5 0 (archiveBytes archiveSample 1).length none (tarSample true) = some (some r, t) ∧
      RoundTrip archiveSample r t := by
  have hfuel : (archiveBytes archiveSample 1).length / 512 < 5 := by
    rw [archiveSample_length]
    decide
  obtain ⟨r, t, hrun, -, ht⟩ := tar_round_trip archiveSample_wellFormed (fun _ => rfl)
    (fun r (hr : none = some r) => by cases hr) (tarSample_placed true)
    (by rw [archiveSample_length]; decide) (by rw [archiveSample_length]; decide) hfuel
  exact ⟨r, t, hrun, ht⟩

/-- Without memory `tar_init` returns no tree. -/
theorem tar_init_no_memory : ¬ ∀ (s : TarFs) es zeros buffer fuel (root : Option ℕ),
    ArchiveWellFormed es → (∀ r, root = some r → r < s.nextNode) →
    Placed s.mem buffer (archiveBytes es zeros) →
    buffer + (archiveBytes es zeros).length < 4294967296 →
    (archiveBytes es zeros).length < 2147483648 → (archiveBytes es zeros).length / 512 < fuel →
    ∃ r t, tarInit fuel buffer (archiveBytes es zeros).length root s = some (some r, t) ∧
      RoundTrip es r t := by
  intro h
  have hnone : (tarInit 5 0 2048 none (tarSample false)).map Prod.fst = some none := by
    decide +kernel
  have hfuel : (archiveBytes archiveSample 1).length / 512 < 5 := by
    rw [archiveSample_length]
    decide
  obtain ⟨r, t, hrun, -⟩ := h (tarSample false) archiveSample 1 0 5 none archiveSample_wellFormed
    (fun r hr => by cases hr) (tarSample_placed false) (by rw [archiveSample_length]; decide)
    (by rw [archiveSample_length]; decide) hfuel
  rw [archiveSample_length] at hrun
  have hsome := congrArg (Option.map Prod.fst) hrun
  rw [hnone] at hsome
  cases hsome

end SysX
