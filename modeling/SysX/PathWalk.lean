import SysX.TarTree

/-! The walk along a path (`vfs_traverse_path` of `fs/vfs.c`) over directories with any hooks. -/
namespace SysX

variable {σ : Type}

/-- A node with its `finddir` hook, which is called with the node itself. -/
structure DirNode (σ : Type) extends VfsNode where
  finddir : Option (Str → Comp σ (Option ℕ))

/-- `vfs_finddir`, over nodes that the hooks may change. -/
def dirFind (dir : σ → ℕ → DirNode σ) (node : Option ℕ) (name : Str) : Comp σ (Option ℕ) := do
  let node ← Comp.readOr fun s => traverseSymlink (fun v => (dir s v).toVfsNode) symlinkFuel node
  match node with
  | none => pure none
  | some v => do
    let n ← Comp.read fun s => dir s v
    if n.flags = vfsDirectory ∨ n.flags = vfsMountpoint then
      match n.finddir with
      | none => pure none
      | some hook => hook name
    else pure none

/-- The loop of `vfs_traverse_path`. An element that does not fit into the 256 bytes of `name` overflows. -/
def walkPath (find : Option ℕ → Str → Comp σ (Option ℕ)) : (fuel : ℕ) → (path : Str) → (node : Option ℕ) → Comp σ (Option ℕ)
  | 0, _, node => pure node
  | fuel + 1, path, node =>
    match node with
    | none => pure none
    | some v =>
      if path = [] then pure (some v)
      else
        let (rest, len) := pathTraverse path
        if len = 0 ∨ len = 1 ∧ path.head? = some dot then walkPath find fuel rest (some v)
        else if 256 ≤ len then Comp.fault
        else do
          let node ← find (some v) (path.take len)
          walkPath find fuel rest node

/-- `vfs_traverse_path`, where `alloc` allocates the buffer for the names. -/
def traversePath (dir : σ → ℕ → DirNode σ) (vfsRoot : σ → Option ℕ) (alloc : Comp σ Bool) (startNode : Option ℕ) (path : Str) :
    Comp σ (Option ℕ) := do
  let root ← Comp.read vfsRoot
  if startNode = none ∧ path.head? ≠ some slash then pure none
  else do
    let ok ← alloc
    if ok then walkPath (dirFind dir) path.length path (startNode.or root) else pure none

/-! Elements. -/

/-- The elements of a path that are looked up. -/
def pathElements (path : Str) : List Str := (components slash path).filter (· ≠ [dot])

theorem pathElements_of_element {c rest path : Str} (hc : slash ∉ c)
    (hpath : rest = [] ∧ path = c ∨ path = c ++ slash :: rest) :
    pathElements path = if c = [] ∨ c = [dot] then pathElements rest else c :: pathElements rest := by
  have hcomps : components slash path = if c = [] then components slash rest else c :: components slash rest := by
    obtain ⟨rfl, rfl⟩ | rfl := hpath
    · exact components_of_not_mem hc
    · exact components_append_cons hc rest
  unfold pathElements
  rw [hcomps]
  by_cases hempty : c = []
  · simp [hempty]
  · by_cases hdot : c = [dot]
    · simp [hdot]
    · simp [hempty, hdot]

/-- The elements of a path that continues another. -/
theorem pathElements_append (p q : Str) : pathElements (p ++ slash :: q) = pathElements p ++ pathElements q := by
  suffices h : ∀ n, ∀ p : Str, p.length ≤ n → pathElements (p ++ slash :: q) = pathElements p ++ pathElements q from
    h p.length p (Nat.le_refl _)
  intro n
  induction n with
  | zero =>
    intro p hp
    obtain rfl := List.length_eq_zero_iff.mp (Nat.le_zero.mp hp)
    rw [List.nil_append, pathElements_of_element List.not_mem_nil (Or.inr (List.nil_append _).symm)]
    rfl
  | succ n ih =>
    intro p hp
    obtain ⟨c, rest, -, hc, hpath⟩ := pathTraverse_cases p
    rw [pathElements_of_element hc hpath]
    obtain ⟨rfl, rfl⟩ | rfl := hpath
    · rw [pathElements_of_element hc (Or.inr rfl)]
      split_ifs
      · rfl
      · rfl
    · have hrest : rest.length ≤ n := by
        rw [List.length_append, List.length_cons] at hp
        omega
      rw [List.append_assoc, List.cons_append, pathElements_of_element hc (Or.inr rfl), ih rest hrest]
      split_ifs
      · rfl
      · rfl

/-- One element, looked up from a node that was found. -/
def pathStep (find : Option ℕ → Str → Comp σ (Option ℕ)) (node : Option ℕ) (element : Str) : Comp σ (Option ℕ) :=
  match node with
  | none => pure none
  | some v => if 256 ≤ element.length then Comp.fault else find (some v) element

/-- Nothing is looked up from no node. -/
theorem foldlM_none {find : Option ℕ → Str → Comp σ (Option ℕ)} (hnone : ∀ e, find none e = pure none) (es : List Str) :
    es.foldlM find none = pure none := by
  induction es with
  | nil => rfl
  | cons e es ih =>
    rw [List.foldlM_cons, hnone, Comp.pure_bind]
    exact ih

theorem foldlM_pathStep_none (find : Option ℕ → Str → Comp σ (Option ℕ)) (es : List Str) :
    es.foldlM (pathStep find) none = pure none := foldlM_none (fun _ => rfl) es

/-- What the loop sees of the first element of a path. -/
theorem pathTraverse_first (path : Str) : ∃ c rest, pathTraverse path = (rest, c.length) ∧ slash ∉ c ∧
    (rest = [] ∧ path = c ∨ path = c ++ slash :: rest) ∧ path.take c.length = c ∧
    ((c.length = 0 ∨ c.length = 1 ∧ path.head? = some dot) ↔ c = [] ∨ c = [dot]) ∧
    (path ≠ [] → rest.length < path.length) := by
  obtain ⟨c, rest, htrav, hc, hpath⟩ := pathTraverse_cases path
  have htake : path.take c.length = c := by
    obtain ⟨-, rfl⟩ | rfl := hpath
    · exact List.take_length
    · exact List.take_left
  have hskip : (c.length = 0 ∨ c.length = 1 ∧ path.head? = some dot) ↔ c = [] ∨ c = [dot] := by
    rw [List.length_eq_zero_iff]
    refine or_congr_right ⟨fun ⟨h1, h2⟩ => ?_, fun h => ?_⟩
    · obtain ⟨y, rfl⟩ := List.length_eq_one_iff.mp h1
      obtain ⟨-, rfl⟩ | rfl := hpath
      · cases h2
        rfl
      · cases h2
        rfl
    · subst h
      obtain ⟨-, rfl⟩ | rfl := hpath
      · exact ⟨rfl, rfl⟩
      · exact ⟨rfl, rfl⟩
  have hshort : path ≠ [] → rest.length < path.length := by
    intro hne
    obtain ⟨rfl, -⟩ | rfl := hpath
    · exact List.length_pos_of_ne_nil hne
    · rw [List.length_append, List.length_cons]
      omega
  exact ⟨c, rest, htrav, hc, hpath, htake, hskip, hshort⟩

/-- The loop looks up the elements of the path one after the other. -/
theorem walkPath_eq_fold (find : Option ℕ → Str → Comp σ (Option ℕ)) {fuel : ℕ} {path : Str} (hfuel : path.length ≤ fuel)
    (node : Option ℕ) : walkPath find fuel path node = (pathElements path).foldlM (pathStep find) node := by
  induction fuel generalizing path node with
  | zero =>
    obtain rfl := List.length_eq_zero_iff.mp (Nat.le_zero.mp hfuel)
    rfl
  | succ fuel ih =>
    cases node with
    | none =>
      rw [foldlM_pathStep_none]
      rfl
    | some v =>
      by_cases hnil : path = []
      · subst hnil
        rfl
      obtain ⟨c, rest, htrav, hc, hpath, htake, hskip, hlt⟩ := pathTraverse_first path
      have hshort : rest.length ≤ fuel := Nat.le_of_lt_succ ((hlt hnil).trans_le hfuel)
      rw [walkPath, pathElements_of_element hc hpath]
      simp only [hnil, if_false, htrav, htake]
      by_cases hdrop : c = [] ∨ c = [dot]
      · rw [if_pos (hskip.mpr hdrop), if_pos hdrop]
        exact ih hshort (some v)
      · rw [if_neg fun h => hdrop (hskip.mp h), if_neg hdrop, List.foldlM_cons]
        unfold pathStep
        split_ifs
        · rfl
        · exact congrArg _ (funext fun node => ih hshort node)

/-! Whole paths. -/

section Paths

variable {dir : σ → ℕ → DirNode σ} {vfsRoot : σ → Option ℕ} {alloc : Comp σ Bool}

theorem traverseSymlink_none (nodes : ℕ → VfsNode) (fuel : ℕ) : traverseSymlink nodes fuel none = some none := by
  cases fuel with
  | zero => rfl
  | succ fuel => rfl

/-- Nothing is found below no node. -/
theorem dirFind_none (name : Str) : dirFind dir none name = pure none := by
  funext s
  unfold dirFind
  rw [Comp.bind_of_eq (by rw [Comp.readOr_apply, traverseSymlink_none]; rfl)]

theorem traversePath_eq (halloc : ∀ s, alloc s = some (true, s)) (v : ℕ) (path : Str) :
    traversePath dir vfsRoot alloc (some v) path = (pathElements path).foldlM (pathStep (dirFind dir)) (some v) := by
  rw [← walkPath_eq_fold (dirFind dir) (Nat.le_refl path.length)]
  funext s
  unfold traversePath
  rw [Comp.read_bind, if_neg fun h => nomatch h.1]
  exact Comp.bind_of_eq (halloc s)

/-- Elements that fit are looked up as they are. -/
theorem foldlM_pathStep {es : List Str} (h : ∀ e ∈ es, e.length < 256) (node : Option ℕ) :
    es.foldlM (pathStep (dirFind dir)) node = es.foldlM (dirFind dir) node := by
  induction es generalizing node with
  | nil => rfl
  | cons e es ih =>
    rw [List.foldlM_cons, List.foldlM_cons]
    have hstep : pathStep (dirFind dir) node e = dirFind dir node e := by
      cases node with
      | none => exact (dirFind_none e).symm
      | some v => exact if_neg (Nat.not_le.mpr (h e List.mem_cons_self))
    rw [hstep]
    exact congrArg _ (funext fun node => ih (fun a ha => h a (List.mem_cons_of_mem e ha)) node)

theorem pathElements_eq (path : Str) : pathElements path = (path.splitOn slash).filter fun c => c ≠ [] ∧ c ≠ [dot] := by
  unfold pathElements components
  rw [List.filter_filter]
  congr 1
  funext c
  rw [Bool.eq_iff_iff]
  simp [and_comm]

theorem pathElements_short {path : Str} (h : ∀ c ∈ path.splitOn slash, c.length < 256) : ∀ e ∈ pathElements path, e.length < 256 := by
  rw [pathElements_eq]
  exact fun e he => h e (List.mem_of_mem_filter he)

/-- `vfs_traverse_path` is the fold of `vfs_finddir` over the elements of the path, and a path that continues another is walked
from where that one leads. -/
theorem vfs_traverse_path_fold (halloc : ∀ s, alloc s = some (true, s)) (v : ℕ) :
    (∀ p : Str, (∀ c ∈ p.splitOn slash, c.length < 256) → traversePath dir vfsRoot alloc (some v) p =
      ((p.splitOn slash).filter fun c => c ≠ [] ∧ c ≠ [dot]).foldlM (dirFind dir) (some v)) ∧
    ∀ p q : Str, traversePath dir vfsRoot alloc (some v) (p ++ slash :: q) = (do
        let node ← traversePath dir vfsRoot alloc (some v) p
        match node with
        | none => pure none
        | some w => traversePath dir vfsRoot alloc (some w) q) := by
  refine ⟨fun p hp => ?_, fun p q => ?_⟩
  · rw [traversePath_eq halloc, foldlM_pathStep (pathElements_short hp), pathElements_eq]
  · rw [traversePath_eq halloc, traversePath_eq halloc, pathElements_append, List.foldlM_append]
    refine congrArg _ (funext fun node => ?_)
    cases node with
    | none => exact foldlM_pathStep_none (dirFind dir) (pathElements q)
    | some w => exact (traversePath_eq halloc w q).symm

/-- Node 1 has the child 2 under every name. -/
def dirSample : Unit → ℕ → DirNode Unit := fun _ v =>
  { flags := vfsDirectory, length := 0, target := none, data := false, readHook := none, writeHook := none, openHook := none,
    closeHook := false, finddir := some fun _ => pure (if v = 1 then some 2 else none) }

theorem vfs_traverse_path_fold_sample :
    (∀ p : Str, (∀ c ∈ p.splitOn slash, c.length < 256) → traversePath dirSample (fun _ => none) (pure true) (some 1) p =
      ((p.splitOn slash).filter fun c => c ≠ [] ∧ c ≠ [dot]).foldlM (dirFind dirSample) (some 1)) ∧
    ∀ p q : Str, traversePath dirSample (fun _ => none) (pure true) (some 1) (p ++ slash :: q) = (do
        let node ← traversePath dirSample (fun _ => none) (pure true) (some 1) p
        match node with
        | none => pure none
        | some w => traversePath dirSample (fun _ => none) (pure true) (some w) q) :=
  vfs_traverse_path_fold (fun _ => rfl) 1

end Paths

end SysX
