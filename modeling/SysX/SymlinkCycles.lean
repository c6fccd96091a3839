import SysX.Lib.Chase
import SysX.TarScan

/-! Where the walk of `vfs_traverse_symlink` ends, and what the links of an archive lead to. -/
namespace SysX

open Relation

variable {nodes : ℕ → VfsNode} {v w : ℕ}

/-- The nodes of a graph, with the targets of its links. -/
structure SymlinkGraph where
  nodes : ℕ → VfsNode
  members : Finset ℕ
  closed : ∀ v ∈ members, ∀ w, (nodes v).target = some w → w ∈ members

def IsSymlink (nodes : ℕ → VfsNode) (v : ℕ) : Prop := (nodes v).flags &&& vfsSymlink ≠ 0

/-- The node `v` is a link to `w`. -/
def LinksTo (nodes : ℕ → VfsNode) (v w : ℕ) : Prop := IsSymlink nodes v ∧ (nodes v).target = some w

/-- A link that is not one to itself. -/
def LinksOn (nodes : ℕ → VfsNode) (v w : ℕ) : Prop := LinksTo nodes v w ∧ w ≠ v

/-- The walk from `v` ends, and it ends at a node that is no link if one can be reached. -/
def SymlinkResolves (nodes : ℕ → VfsNode) (v : ℕ) : Prop :=
  (∃ fuel r, traverseSymlink nodes fuel (some v) = some r) ∧
    ∀ w, ReflTransGen (LinksTo nodes) v w → ¬IsSymlink nodes w → ∃ fuel, traverseSymlink nodes fuel (some v) = some (some w)

theorem traverseSymlink_of_not (h : ¬IsSymlink nodes v) (fuel : ℕ) :
    traverseSymlink nodes (fuel + 1) (some v) = some (some v) := if_pos (not_not.mp h)

theorem traverseSymlink_self (h : LinksTo nodes v v) (fuel : ℕ) :
    traverseSymlink nodes (fuel + 1) (some v) = some (some v) := by
  rw [traverseSymlink, if_neg h.1, if_pos h.2]

theorem traverseSymlink_on (h : LinksOn nodes v w) (fuel : ℕ) :
    traverseSymlink nodes (fuel + 1) (some v) = traverseSymlink nodes fuel (some w) := by
  have hne : (nodes v).target ≠ some v := by
    rw [h.1.2]
    exact fun heq => h.2 (Option.some.inj heq)
  rw [traverseSymlink, if_neg h.1.1, if_neg hne, h.1.2]

/-- The walk ends where no chain of links goes on for ever. -/
theorem traverseSymlink_ends_iff : (∃ fuel r, traverseSymlink nodes fuel (some v) = some r) ↔ ChainsEnd (LinksOn nodes) v := by
  constructor
  · rintro ⟨fuel, r, h⟩
    induction fuel generalizing v with
    | zero => cases h
    | succ fuel ih =>
      refine Acc.intro v fun w hlink => ?_
      rw [traverseSymlink_on hlink] at h
      exact ih h
  · intro h
    induction h with
    | intro v _ ih =>
      by_cases hlink : IsSymlink nodes v
      · cases htarget : (nodes v).target with
        | none =>
          refine ⟨1, none, ?_⟩
          have hne : (nodes v).target ≠ some v := by
            simp [htarget]
          rw [traverseSymlink, if_neg hlink, if_neg hne, htarget]
          rfl
        | some w =>
          by_cases hself : w = v
          · subst hself
            exact ⟨1, _, traverseSymlink_self ⟨hlink, htarget⟩ 0⟩
          · have hon : LinksOn nodes v w := ⟨⟨hlink, htarget⟩, hself⟩
            obtain ⟨fuel, r, hr⟩ := ih w hon
            exact ⟨fuel + 1, r, (traverseSymlink_on hon fuel).trans hr⟩
      · exact ⟨1, _, traverseSymlink_of_not hlink 0⟩

/-- A node that is no link is found from wherever it can be reached. -/
theorem traverseSymlink_reaches (hreach : ReflTransGen (LinksTo nodes) v w) (hw : ¬IsSymlink nodes w) :
    ∃ fuel, traverseSymlink nodes fuel (some v) = some (some w) := by
  induction hreach using ReflTransGen.head_induction_on with
  | refl => exact ⟨1, traverseSymlink_of_not hw 0⟩
  | @head a b hlink _ ih =>
    by_cases hself : b = a
    · subst hself
      exact ih
    · obtain ⟨fuel, hfuel⟩ := ih
      exact ⟨fuel + 1, (traverseSymlink_on ⟨hlink, hself⟩ fuel).trans hfuel⟩

theorem SymlinkGraph.resolves_iff (G : SymlinkGraph) (hv : v ∈ G.members) :
    SymlinkResolves G.nodes v ↔ NoCycle (LinksOn G.nodes) v := by
  rw [← chainsEnd_iff (fun x hx y hlink => G.closed x hx y hlink.1.2) hv, ← traverseSymlink_ends_iff]
  exact ⟨fun h => h.1, fun h => ⟨h, fun w hreach hw => traverseSymlink_reaches hreach hw⟩⟩

/-! The nodes of an archive. -/

section Archives

variable {s t : TarFs} {ptr : ℕ → ℕ} {headers : List ℕ} {root header last start fuel buffer size : ℕ} {nameOk : Bool}

/-- The nodes that `tar_init` leaves behind, with the headers that they were loaded from. Where there was no memory for
more items, the hierarchy is gone. -/
structure TarTreeNodes (mem : ℕ → UInt8) (last start top : ℕ) (t : TarFs) (ptr : ℕ → ℕ) (headers : List ℕ) : Prop where
  ptrTop : ptr 0 = top
  mountpoint : (t.nodes top).flags = vfsMountpoint
  count : t.nodeCount = headers.length + 1
  items : t.hierarchy = [] ∨ ∀ i < t.nodeCount, t.hierarchy[i]?.bind (·.node) = some (ptr i)
  entries : ∀ a ∈ headers, TarScanned mem last start a ∧ a < last ∧ tarSkips mem a = false
  flags : ∀ (i : ℕ) header, headers[i]? = some header → (t.nodes (ptr (i + 1))).flags = tarFlags (bytesAt mem header tarType)

theorem tarAllocNode_none (h : tarAllocNode s = some (none, t)) : t = { s with heapCalls := s.heapCalls + 1 } := by
  cases hok : s.heapOk s.heapCalls with
  | false =>
    rw [tarAllocNode, Comp.bind_of_eq (tarAlloc_eq hok)] at h
    cases h
    rfl
  | true =>
    rw [tarAllocNode, Comp.bind_of_eq (tarAlloc_eq hok)] at h
    cases h

theorem tarGrow_none {inode : ℕ} (h : tarGrow inode s = some (false, t)) :
    t = { s with heapCalls := s.heapCalls + 1, hierarchy := [] } := by
  unfold tarGrow at h
  split_ifs at h
  · cases hok : s.heapOk s.heapCalls with
    | false =>
      rw [Comp.bind_of_eq (tarAlloc_eq hok)] at h
      cases h
      rfl
    | true =>
      rw [Comp.bind_of_eq (tarAlloc_eq hok)] at h
      cases h
  · cases h

/-- An entry that finds no memory leaves the nodes as they are. -/
theorem tarAdd_none {name : Str} (h : tarAdd root header name s = some (none, t)) :
    t.nodes = s.nodes ∧ t.nodeCount = s.nodeCount ∧ (t.hierarchy = [] ∨ t.hierarchy = s.hierarchy) := by
  rw [tarAdd] at h
  obtain ⟨node, s₁, halloc, h⟩ := Comp.bind_eq_some.mp h
  cases node with
  | none =>
    cases h
    rw [tarAllocNode_none halloc]
    exact ⟨rfl, rfl, Or.inr rfl⟩
  | some v =>
    obtain ⟨rfl, rfl⟩ := tarAllocNode_some halloc
    dsimp only at h
    rw [Comp.read_bind] at h
    obtain ⟨ok, s₂, hgrow, h⟩ := Comp.bind_eq_some.mp h
    cases ok with
    | false =>
      cases h
      rw [tarGrow_none hgrow]
      exact ⟨rfl, rfl, Or.inl rfl⟩
    | true =>
      rw [if_pos rfl, Comp.modify_bind] at h
      obtain ⟨_, s₃, -, h⟩ := Comp.bind_eq_some.mp h
      obtain ⟨n, s₄, -, h⟩ := Comp.bind_eq_some.mp h
      rw [Comp.modify_bind] at h
      obtain ⟨_, s₅, -, h⟩ := Comp.bind_eq_some.mp h
      obtain ⟨_, s₆, -, h⟩ := Comp.bind_eq_some.mp h
      cases h

theorem TarGrown.treeNodes (h : TarGrown s root t ptr headers)
    (hentries : ∀ a ∈ headers, TarScanned s.mem last start a ∧ a < last ∧ tarSkips s.mem a = false) :
    TarTreeNodes s.mem last start root t ptr headers where
  ptrTop := h.ptrTop
  mountpoint := h.mountpoint
  count := h.count
  items := Or.inr h.node
  entries := hentries
  flags i header hi := by
    obtain ⟨n, hn⟩ := h.loaded i header hi
    obtain ⟨-, -, -, hflags⟩ := tarLoadNode_fields hn
    rw [← h.mem]
    exact hflags

theorem TarTreeNodes.congr {mem : ℕ → UInt8} (h : TarTreeNodes mem last start root s ptr headers) (hnodes : t.nodes = s.nodes)
    (hcount : t.nodeCount = s.nodeCount) (hitems : t.hierarchy = [] ∨ t.hierarchy = s.hierarchy) :
    TarTreeNodes mem last start root t ptr headers where
  ptrTop := h.ptrTop
  mountpoint := by
    rw [hnodes]
    exact h.mountpoint
  count := hcount.trans h.count
  items := by
    rw [hcount]
    obtain hnone | hsame := hitems
    · exact Or.inl hnone
    · rw [hsame]
      exact h.items
  entries := h.entries
  flags i header hi := by
    rw [hnodes]
    exact h.flags i header hi

/-- Whatever the heap answers, the tree of `tar_init` consists of the nodes of its entries. -/
theorem tarInit_nodes {r : Option ℕ} (hroot : ∀ v, r = some v → v < s.nextNode)
    (h : tarInit fuel buffer size r s = some (some root, t)) :
    ∃ ptr headers, TarTreeNodes s.mem (w32 (buffer + size)) buffer root t ptr headers := by
  rw [tarInit_eq] at h
  obtain ⟨begun, s₀, hbegin, h⟩ := Comp.bind_eq_some.mp h
  cases begun with
  | none => cases h
  | some begun =>
    obtain ⟨top, nameOk⟩ := begun
    obtain ⟨_, t', hloop, h⟩ := Comp.bind_eq_some.mp h
    cases h
    obtain ⟨h₀, hmem, -⟩ := tarBegin_grown hroot hbegin
    obtain ⟨n, header, t', hreach, hend⟩ := TarReach.of_loop .start hloop
    obtain ⟨ptr, headers, hgrown, -, hentries⟩ := hreach.grown h₀
    have hnodes := hgrown.treeNodes hentries
    rw [hmem] at hnodes
    refine ⟨ptr, headers, ?_⟩
    obtain ⟨-, rfl⟩ | ⟨-, hiter⟩ := hend
    · exact hnodes
    · obtain ⟨-, hnext, -⟩ | ⟨-, -, name, length, -, hadd, hnext⟩ := tarIter_cases hiter
      · cases hnext
      · cases length with
        | some length => cases hnext
        | none =>
          obtain ⟨hsame, hcount, hitems⟩ := tarAdd_none hadd
          exact hnodes.congr hsame hcount hitems

/-- The types that are loaded as links: `'1'` for hard links and `'2'` for symlinks. -/
def IsLinkType (type : UInt8) : Prop := type = 49 ∨ type = 50

theorem tarFlags_symlink (type : UInt8) : tarFlags type &&& vfsSymlink = 0 ↔ ¬IsLinkType type := by
  unfold IsLinkType
  by_cases h1 : type = 49
  · subst h1
    decide
  · by_cases h2 : type = 50
    · subst h2
      decide
    · simp only [h1, h2, or_self, not_false_iff, iff_true]
      unfold tarFlags
      rw [if_neg h1, if_neg h2]
      split_ifs
      all_goals rfl

theorem tarTraverseSymlink_iff {v : ℕ} : tarTraverseSymlink v t = some (v, t) ↔ (t.nodes v).flags &&& vfsSymlink = 0 := by
  rw [tarTraverseSymlink, Comp.read_bind]
  by_cases hflags : (t.nodes v).flags &&& vfsSymlink = 0
  · rw [if_pos hflags]
    exact ⟨fun _ => hflags, fun _ => rfl⟩
  · rw [if_neg hflags]
    have hnone : ¬ (none : Option (ℕ × TarFs)) = some (v, t) := by simp
    exact ⟨fun hrun => absurd hrun hnone, fun hzero => absurd hzero hflags⟩

end Archives

/-- The walk of `vfs_traverse_symlink` ends as it should just where no links lead from a node to others and back, and in the
tree of an archive it follows pointers to nodes just from the nodes that are not loaded as links. -/
theorem vfs_traverse_symlink_iff (G : SymlinkGraph) (v : G.members) :
    (SymlinkResolves G.nodes v ↔ NoCycle (LinksOn G.nodes) v) ∧
    ∀ fuel buffer size (r : Option ℕ) (s : TarFs) root t, (∀ v, r = some v → v < s.nextNode) →
      tarInit fuel buffer size r s = some (some root, t) → ∃ ptr headers,
        TarTreeNodes s.mem (w32 (buffer + size)) buffer root t ptr headers ∧ tarTraverseSymlink (ptr 0) t = some (ptr 0, t) ∧
          ∀ (i : ℕ) header, headers[i]? = some header →
            (tarTraverseSymlink (ptr (i + 1)) t = some (ptr (i + 1), t) ↔ ¬IsLinkType (bytesAt s.mem header tarType)) := by
  refine ⟨G.resolves_iff v.2, fun fuel buffer size r s root t hroot h => ?_⟩
  obtain ⟨ptr, headers, hnodes⟩ := tarInit_nodes hroot h
  refine ⟨ptr, headers, hnodes, ?_, fun i header hi => ?_⟩
  · rw [tarTraverseSymlink_iff, hnodes.ptrTop, hnodes.mountpoint]
    rfl
  · rw [tarTraverseSymlink_iff, hnodes.flags i header hi]
    exact tarFlags_symlink _

/-- Two links to each other. -/
def cycleSample : SymlinkGraph where
  nodes v := ⟨vfsSymlink, 0, some (3 - v), false, none, none, none, false⟩
  members := {1, 2}
  closed := by
    intro v hv w hw
    rw [Finset.mem_insert, Finset.mem_singleton] at hv ⊢
    have hw' : w = 3 - v := (Option.some.inj hw).symm
    omega

theorem vfs_traverse_symlink_never_ends : ¬ ∀ (G : SymlinkGraph), ∀ v ∈ G.members, SymlinkResolves G.nodes v := by
  intro h
  have hmem : 1 ∈ cycleSample.members := Finset.mem_insert_self 1 {2}
  have hresolves := h cycleSample 1 hmem
  have hforth : LinksOn cycleSample.nodes 1 2 := ⟨⟨(by decide : vfsSymlink &&& vfsSymlink ≠ 0), rfl⟩, by decide⟩
  have hback : LinksOn cycleSample.nodes 2 1 := ⟨⟨(by decide : vfsSymlink &&& vfsSymlink ≠ 0), rfl⟩, by decide⟩
  exact (cycleSample.resolves_iff hmem).mp hresolves 1 .refl (.tail (.single hforth) hback)

end SysX
