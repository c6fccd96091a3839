import SysX.Lib.Chained
import SysX.PathWalk
import SysX.StringCompare

/-! The tree of devices (`hal/devtree.c`) and the paths in it. -/
namespace SysX

/-- `devtree_t` without its size, its type and its mutex. -/
structure DevtreeNode where
  name : Str
  parent : Option ℕ
  firstChild : Option ℕ
  nextSibling : Option ℕ
  terminated : 0 ∉ name

/-- The nodes by their addresses. -/
abbrev Devtree := ℕ → DevtreeNode

/-- Write to a node. -/
def Devtree.set (d : Devtree) (v : ℕ) (g : DevtreeNode → DevtreeNode) : Devtree := Function.update d v (g (d v))

def devtreeAddChild (d : Devtree) (parent child : ℕ) : Devtree :=
  let d := d.set child fun n => { n with nextSibling := (d parent).firstChild }
  let d := d.set parent fun n => { n with firstChild := some child }
  d.set child fun n => { n with parent := some parent }

def devtreeAddSibling (d : Devtree) (sibExisting sibNew : ℕ) : Devtree :=
  let d := d.set sibNew fun n => { n with nextSibling := (d sibExisting).nextSibling }
  let d := d.set sibExisting fun n => { n with nextSibling := some sibNew }
  d.set sibNew fun n => { n with parent := (d sibExisting).parent }

/-- The loop of `devtree_traverse_path` over the siblings from `ret` on, for the first `len` characters of `e`. -/
def devtreeFind (d : Devtree) (e : Str) (len : ℕ) : (fuel : ℕ) → (ret : Option ℕ) → Option (Option ℕ)
  | _, none => some none
  | 0, some _ => none
  | fuel + 1, some v =>
    if strncmp (fun i => (d v).name.getD i 0) 0 e len = 0 then some (some v)
    else devtreeFind d e len fuel (d v).nextSibling

/-- The loop of `devtree_traverse_path` over `n` characters of the path. It faults where no node is left. -/
def devtreeWalk (d : Devtree) (fuel : ℕ) : (n : ℕ) → (path : Str) → (ret : Option ℕ) → Option (Option ℕ)
  | 0, _, ret => some ret
  | n + 1, path, ret =>
    if path = [] then some ret
    else
      let (rest, len) := pathTraverse path
      if len = 0 ∨ len = 1 ∧ path.head? = some dot then devtreeWalk d fuel n rest ret
      else ret.bind fun v =>
        if strncmp (fun i => path.getD i 0) 0 [dot, dot] len = 0 then devtreeWalk d fuel n rest (d v).parent
        else (devtreeFind d path len fuel (d v).firstChild).bind fun ret =>
          match ret with
          | none => some none
          | some w => devtreeWalk d fuel n rest (some w)

/-- `devtree_traverse_path`, where `root` is `&devtree_root`. -/
def devtreeTraversePath (d : Devtree) (root fuel : ℕ) (currNode : Option ℕ) (path : Str) : Option (Option ℕ) :=
  devtreeWalk d fuel path.length path (some (currNode.getD root))

/-! What a tree is. -/

/-- The children of every node, in the order of siblings. -/
structure DevtreeForest (d : Devtree) (root : ℕ) (kids : ℕ → List ℕ) : Prop where
  chain : ∀ v, Chained (fun w => (d w).nextSibling) (d v).firstChild (kids v)
  parent : ∀ v, ∀ w ∈ kids v, (d w).parent = some v
  rootParent : (d root).parent = some root
  rootTop : ∀ v, root ∉ kids v

/-- Trees that were put together by the two functions from trees that were there at the start, each with nodes that
have not been put anywhere. -/
inductive DevtreeBuilt (root : ℕ) : Devtree → (ℕ → List ℕ) → Prop
  | start {d : Devtree} {kids : ℕ → List ℕ} (h : DevtreeForest d root kids) : DevtreeBuilt root d kids
  | child {d : Devtree} {kids : ℕ → List ℕ} (h : DevtreeBuilt root d kids) (parent : ℕ) {child : ℕ} (hroot : child ≠ root)
      (hfree : ∀ v, child ∉ kids v) :
      DevtreeBuilt root (devtreeAddChild d parent child) (Function.update kids parent (child :: kids parent))
  | sibling {d : Devtree} {kids : ℕ → List ℕ} (h : DevtreeBuilt root d kids) {parent sibExisting sibNew : ℕ}
      {before behind : List ℕ} (hkids : kids parent = before ++ sibExisting :: behind) (hroot : sibNew ≠ root)
      (hfree : ∀ v, sibNew ∉ kids v) :
      DevtreeBuilt root (devtreeAddSibling d sibExisting sibNew)
        (Function.update kids parent (before ++ sibExisting :: sibNew :: behind))

/-- The nodes of the tree below the root. -/
inductive InDevtree (root : ℕ) (kids : ℕ → List ℕ) : ℕ → Prop
  | root : InDevtree root kids root
  | child {v w : ℕ} (h : InDevtree root kids v) (hw : w ∈ kids v) : InDevtree root kids w

/-! What a path stands for. -/

/-- The node that an element leads to: the parent, or the first child of that name. -/
def devtreeStep (d : Devtree) (kids : ℕ → List ℕ) (v : ℕ) (e : Str) : Option ℕ :=
  if e = [dot, dot] then (d v).parent else (kids v).find? fun w => (d w).name = e

/-- The node that a path leads to. Empty elements and dots lead nowhere else. -/
def devtreeResolve (d : Devtree) (kids : ℕ → List ℕ) (start : ℕ) (path : Str) : Option ℕ :=
  (pathElements path).foldlM (devtreeStep d kids) start

/-- An initial piece of a path, which ends with an element. -/
def PathSegment (before path : Str) : Prop := before = path ∨ ∃ after, path = before ++ slash :: after

/-- The path is followed element by element: each initial piece of it leads to the node that it stands for. -/
def DevtreeFollows (d : Devtree) (root : ℕ) (kids : ℕ → List ℕ) (start : Option ℕ) (path : Str) : Prop :=
  ∀ before, PathSegment before path → ∃ N, ∀ fuel, N ≤ fuel →
    devtreeTraversePath d root fuel start before = some (devtreeResolve d kids (start.getD root) before)

/-- Among the children that an element of the path is looked up in, the first one whose name starts with the element, if
there is any, has no longer name. -/
def DevtreeNamesFit (d : Devtree) (kids : ℕ → List ℕ) (start : ℕ) (path : Str) : Prop :=
  ∀ before e after, pathElements path = before ++ e :: after → e ≠ [dot, dot] →
    ∀ v, before.foldlM (devtreeStep d kids) start = some v →
      ∀ w, ((kids v).find? fun w => e <+: (d w).name) = some w → (d w).name = e

section Building

variable {d : Devtree} {root : ℕ} {kids : ℕ → List ℕ}

theorem Devtree.set_apply (v : ℕ) (g : DevtreeNode → DevtreeNode) (w : ℕ) : d.set v g w = if w = v then g (d v) else d w :=
  Function.update_apply d v _ w

/-- The fields of the nodes after a child was added. -/
theorem devtreeAddChild_fields (parent child w : ℕ) :
    (devtreeAddChild d parent child w).nextSibling = (if w = child then (d parent).firstChild else (d w).nextSibling) ∧
      (devtreeAddChild d parent child w).firstChild = (if w = parent then some child else (d w).firstChild) ∧
      (devtreeAddChild d parent child w).parent = if w = child then some parent else (d w).parent := by
  unfold devtreeAddChild
  simp only [Devtree.set_apply]
  rcases eq_or_ne w child with rfl | hchild
  · rcases eq_or_ne w parent with rfl | hparent
    · simp
    · simp [hparent]
  · rcases eq_or_ne w parent with rfl | hparent
    · simp [hchild]
    · simp [hchild, hparent]

theorem devtreeAddSibling_fields {sibExisting sibNew : ℕ} (hne : sibNew ≠ sibExisting) (w : ℕ) :
    (devtreeAddSibling d sibExisting sibNew w).nextSibling = (if w = sibNew then (d sibExisting).nextSibling
        else if w = sibExisting then some sibNew else (d w).nextSibling) ∧
      (devtreeAddSibling d sibExisting sibNew w).firstChild = (d w).firstChild ∧
      (devtreeAddSibling d sibExisting sibNew w).parent = if w = sibNew then (d sibExisting).parent else (d w).parent := by
  unfold devtreeAddSibling
  simp only [Devtree.set_apply]
  split_ifs <;> simp_all

theorem DevtreeForest.addChild (h : DevtreeForest d root kids) (parent : ℕ) {child : ℕ} (hroot : child ≠ root)
    (hfree : ∀ v, child ∉ kids v) :
    DevtreeForest (devtreeAddChild d parent child) root (Function.update kids parent (child :: kids parent)) := by
  have hother : ∀ v, ∀ w ∈ kids v, w ≠ child := fun v w hw heq => hfree v (heq ▸ hw)
  have hkept : ∀ v, ∀ w ∈ kids v, (devtreeAddChild d parent child w).nextSibling = (d w).nextSibling := by
    intro v w hw
    rw [(devtreeAddChild_fields parent child w).1, if_neg (hother v w hw)]
  constructor
  · intro v
    rw [(devtreeAddChild_fields parent child v).2.1]
    split_ifs with hv
    · rw [hv, Function.update_self]
      refine ⟨rfl, ?_⟩
      dsimp only
      rw [(devtreeAddChild_fields parent child child).1, if_pos rfl]
      exact (h.chain parent).congr (hkept parent)
    · rw [Function.update_of_ne hv]
      exact (h.chain v).congr (hkept v)
  · intro v w hw
    rw [(devtreeAddChild_fields parent child w).2.2]
    rcases eq_or_ne v parent with rfl | hv
    · rw [Function.update_self] at hw
      split_ifs with hchild
      · rfl
      · exact h.parent v w ((List.mem_cons.mp hw).resolve_left hchild)
    · rw [Function.update_of_ne hv] at hw
      rw [if_neg (hother v w hw)]
      exact h.parent v w hw
  · rw [(devtreeAddChild_fields parent child root).2.2, if_neg hroot.symm]
    exact h.rootParent
  · intro v
    rcases eq_or_ne v parent with rfl | hv
    · rw [Function.update_self, List.mem_cons, not_or]
      exact ⟨hroot.symm, h.rootTop v⟩
    · rw [Function.update_of_ne hv]
      exact h.rootTop v

theorem DevtreeForest.addSibling (h : DevtreeForest d root kids) {parent sibExisting sibNew : ℕ}
    {before behind : List ℕ} (hkids : kids parent = before ++ sibExisting :: behind) (hroot : sibNew ≠ root)
    (hfree : ∀ v, sibNew ∉ kids v) :
    DevtreeForest (devtreeAddSibling d sibExisting sibNew) root
      (Function.update kids parent (before ++ sibExisting :: sibNew :: behind)) := by
  have hexisting : sibExisting ∈ kids parent := by
    rw [hkids]
    exact List.mem_append_right _ List.mem_cons_self
  have hne : sibNew ≠ sibExisting := fun heq => hfree parent (heq ▸ hexisting)
  have hother : ∀ v, ∀ w ∈ kids v, w ≠ sibNew := fun v w hw heq => hfree v (heq ▸ hw)
  have hchain := h.chain parent
  rw [hkids] at hchain
  have hapart : sibExisting ∉ before ++ behind := (List.nodup_middle.mp hchain.nodup).notMem
  have hmem : ∀ w, w ∈ kids parent ↔ w = sibExisting ∨ w ∈ before ++ behind := by
    intro w
    rw [hkids, List.mem_append, List.mem_cons, List.mem_append, or_left_comm]
  constructor
  · intro v
    rw [(devtreeAddSibling_fields hne v).2.1]
    rcases eq_or_ne v parent with rfl | hv
    · rw [Function.update_self]
      apply hchain.insert
      · rw [(devtreeAddSibling_fields hne sibNew).1, if_pos rfl]
      · rw [(devtreeAddSibling_fields hne sibExisting).1, if_neg hne.symm, if_pos rfl]
      · intro w hw
        have hw' : w ≠ sibExisting := fun heq => hapart (heq ▸ hw)
        rw [(devtreeAddSibling_fields hne w).1, if_neg (hother v w ((hmem w).mpr (.inr hw))), if_neg hw']
    · rw [Function.update_of_ne hv]
      apply (h.chain v).congr
      intro w hw
      have hw' : w ≠ sibExisting := by
        rintro rfl
        exact hv (Option.some.inj ((h.parent v w hw).symm.trans (h.parent parent w hexisting)))
      rw [(devtreeAddSibling_fields hne w).1, if_neg (hother v w hw), if_neg hw']
  · intro v w hw
    rw [(devtreeAddSibling_fields hne w).2.2]
    rcases eq_or_ne v parent with rfl | hv
    · rw [Function.update_self] at hw
      split_ifs with hnew
      · exact h.parent v sibExisting hexisting
      · apply h.parent v w
        rw [hkids]
        simpa [hnew] using hw
    · rw [Function.update_of_ne hv] at hw
      rw [if_neg (hother v w hw)]
      exact h.parent v w hw
  · rw [(devtreeAddSibling_fields hne root).2.2, if_neg hroot.symm]
    exact h.rootParent
  · intro v
    rcases eq_or_ne v parent with rfl | hv
    · have htop := h.rootTop v
      rw [hkids] at htop
      rw [Function.update_self]
      simpa [hroot.symm] using htop
    · rw [Function.update_of_ne hv]
      exact h.rootTop v

theorem DevtreeBuilt.forest (h : DevtreeBuilt root d kids) : DevtreeForest d root kids := by
  induction h with
  | start h => exact h
  | child _ parent hroot hfree ih => exact ih.addChild parent hroot hfree
  | sibling _ hkids hroot hfree ih => exact ih.addSibling hkids hroot hfree

end Building

section Walking

variable {d : Devtree} {root : ℕ} {kids : ℕ → List ℕ}

/-- What an element leads to in the source: names are compared in their first characters only. -/
def devtreeStepPrefix (d : Devtree) (kids : ℕ → List ℕ) (v : ℕ) (e : Str) : Option ℕ :=
  if e = [dot, dot] then (d v).parent else (kids v).find? fun w => e <+: (d w).name

theorem devtreeFind_eq {e : Str} {len fuel : ℕ} {p : Option ℕ} {l : List ℕ} (he : 0 ∉ e) (hlen : len ≤ e.length)
    (h : Chained (fun w => (d w).nextSibling) p l) (hfuel : l.length ≤ fuel) :
    devtreeFind d e len fuel p = some (l.find? fun w => e.take len <+: (d w).name) := by
  induction l generalizing p fuel with
  | nil =>
    obtain rfl : p = none := h
    rw [devtreeFind, List.find?_nil]
  | cons w l ih =>
    obtain ⟨rfl, hrest⟩ := h
    cases fuel with
    | zero => cases hfuel
    | succ fuel =>
      have htest := strncmp_prefix_iff (spells_getD (d w).terminated) he hlen
      rw [devtreeFind, List.find?_cons]
      by_cases hname : e.take len <+: (d w).name
      · rw [if_pos (htest.mpr hname), decide_eq_true hname]
      · rw [if_neg fun h => hname (htest.mp h), decide_eq_false hname]
        exact ih hrest (Nat.le_of_succ_le_succ hfuel)

theorem DevtreeForest.step (h : DevtreeForest d root kids) {v w : ℕ} {e : Str} (hv : InDevtree root kids v)
    (hstep : devtreeStepPrefix d kids v e = some w) : InDevtree root kids w := by
  unfold devtreeStepPrefix at hstep
  split_ifs at hstep
  · cases hv with
    | root =>
      obtain rfl := Option.some.inj (h.rootParent.symm.trans hstep)
      exact .root
    | child hu hmem =>
      obtain rfl := Option.some.inj ((h.parent _ _ hmem).symm.trans hstep)
      exact hu
  · exact .child hv (List.mem_of_find?_eq_some hstep)

theorem DevtreeForest.parent_some (h : DevtreeForest d root kids) {v : ℕ} (hv : InDevtree root kids v) :
    ∃ u, (d v).parent = some u := by
  cases hv with
  | root => exact ⟨root, h.rootParent⟩
  | child hu hmem => exact ⟨_, h.parent _ _ hmem⟩

/-- The comparison with `".."` is one of whole elements. -/
theorem strncmp_dots_iff {path c : Str} (hpath : 0 ∉ path) (htake : path.take c.length = c) (hc : ¬(c = [] ∨ c = [dot])) :
    strncmp (fun i => path.getD i 0) 0 [dot, dot] c.length = 0 ↔ c = [dot, dot] := by
  rw [strncmp_eq_zero_iff (spells_getD hpath) (by decide), htake]
  rw [not_or] at hc
  match c with
  | [] => exact absurd rfl hc.1
  | [x] =>
    simp only [List.length_cons, List.length_nil, List.take_succ_cons, List.take_zero]
    exact iff_of_false hc.2 (by simp)
  | x :: y :: rest => simp

/-- The loop goes from element to element, given that it is let run long enough. -/
theorem devtreeWalk_eq (h : DevtreeForest d root kids) {n v : ℕ} {path : Str} (hn : path.length ≤ n) (hpath : 0 ∉ path)
    (hv : InDevtree root kids v) : ∃ N, ∀ fuel, N ≤ fuel →
      devtreeWalk d fuel n path (some v) = some ((pathElements path).foldlM (devtreeStepPrefix d kids) v) := by
  induction n generalizing path v with
  | zero =>
    obtain rfl := List.length_eq_zero_iff.mp (Nat.le_zero.mp hn)
    exact ⟨0, fun fuel _ => rfl⟩
  | succ n ih =>
    by_cases hnil : path = []
    · subst hnil
      exact ⟨0, fun fuel _ => rfl⟩
    obtain ⟨c, rest, htrav, hc, hparts, htake, hskip, hlt⟩ := pathTraverse_first path
    have hshort : rest.length ≤ n := Nat.le_of_lt_succ ((hlt hnil).trans_le hn)
    have hrest : 0 ∉ rest := by
      obtain ⟨rfl, -⟩ | rfl := hparts
      · exact List.not_mem_nil
      · intro hmem
        exact hpath (by simp [hmem])
    have hlen : c.length ≤ path.length := by
      rw [← htake]
      exact List.length_take_le' _ _
    simp only [devtreeWalk, if_neg hnil, htrav]
    rw [pathElements_of_element hc hparts]
    by_cases hdrop : c = [] ∨ c = [dot]
    · simp only [if_pos (hskip.mpr hdrop), if_pos hdrop]
      exact ih hshort hrest hv
    · simp only [if_neg fun hs => hdrop (hskip.mp hs), if_neg hdrop, Option.bind_some, List.foldlM_cons]
      have htest := strncmp_dots_iff hpath htake hdrop
      by_cases hdots : c = [dot, dot]
      · obtain ⟨u, hu⟩ := h.parent_some hv
        have hstep : devtreeStepPrefix d kids v c = some u := by
          rw [devtreeStepPrefix, if_pos hdots, hu]
        simp only [if_pos (htest.mpr hdots), hu, hstep]
        exact ih hshort hrest (h.step hv hstep)
      · have hstep : devtreeStepPrefix d kids v c = (kids v).find? fun w => c <+: (d w).name := if_neg hdots
        have hfind (fuel : ℕ) (hfuel : (kids v).length ≤ fuel) :
            devtreeFind d path c.length fuel (d v).firstChild = some (devtreeStepPrefix d kids v c) := by
          rw [devtreeFind_eq hpath hlen (h.chain v) hfuel, htake, hstep]
        simp only [if_neg fun hd => hdots (htest.mp hd)]
        cases hnext : devtreeStepPrefix d kids v c with
        | none =>
          refine ⟨(kids v).length, fun fuel hfuel => ?_⟩
          rw [hfind fuel hfuel, hnext]
          rfl
        | some w =>
          obtain ⟨N, hN⟩ := ih hshort hrest (h.step hv hnext)
          refine ⟨max (kids v).length N, fun fuel hfuel => ?_⟩
          rw [hfind fuel ((Nat.le_max_left _ _).trans hfuel), hnext]
          exact hN fuel ((Nat.le_max_right _ _).trans hfuel)

theorem devtreeTraversePath_eq (h : DevtreeForest d root kids) {start : Option ℕ} {path : Str} (hpath : 0 ∉ path)
    (hstart : ∀ v, start = some v → InDevtree root kids v) : ∃ N, ∀ fuel, N ≤ fuel →
      devtreeTraversePath d root fuel start path =
        some ((pathElements path).foldlM (devtreeStepPrefix d kids) (start.getD root)) := by
  apply devtreeWalk_eq h (Nat.le_refl _) hpath
  cases start with
  | none => exact .root
  | some v => exact hstart v rfl

end Walking

section Segments

variable {before path : Str} {es rest : List Str}

theorem PathSegment.elements (h : PathSegment before path) : pathElements before <+: pathElements path := by
  obtain rfl | ⟨after, rfl⟩ := h
  · exact List.prefix_rfl
  · rw [pathElements_append]
    exact List.prefix_append _ _

theorem PathSegment.zero (h : PathSegment before path) (hpath : 0 ∉ path) : 0 ∉ before := by
  obtain rfl | ⟨after, rfl⟩ := h
  · exact hpath
  · exact fun hmem => hpath (List.mem_append_left _ hmem)

theorem PathSegment.join (h : PathSegment before path) (c : Str) : PathSegment (c ++ slash :: before) (c ++ slash :: path) := by
  obtain rfl | ⟨after, rfl⟩ := h
  · exact .inl rfl
  · exact .inr ⟨after, by simp⟩

/-- The pieces of a path end with each of its elements. -/
theorem exists_pathSegment (hes : es ≠ []) (h : pathElements path = es ++ rest) :
    ∃ before, PathSegment before path ∧ pathElements before = es := by
  suffices hall : ∀ n, ∀ (path : Str) (es : List Str), path.length ≤ n → es ≠ [] → pathElements path = es ++ rest →
      ∃ before, PathSegment before path ∧ pathElements before = es from hall _ path es (Nat.le_refl _) hes h
  intro n
  induction n with
  | zero =>
    intro path es hlen hes h
    obtain rfl := List.length_eq_zero_iff.mp (Nat.le_zero.mp hlen)
    exact absurd (List.append_eq_nil_iff.mp h.symm).1 hes
  | succ n ih =>
    intro path es hlen hes h
    obtain ⟨c, tail, -, hc, hparts⟩ := pathTraverse_cases path
    rw [pathElements_of_element hc hparts] at h
    by_cases hdrop : c = [] ∨ c = [dot]
    · rw [if_pos hdrop] at h
      obtain ⟨rfl, rfl⟩ | rfl := hparts
      · exact absurd (List.append_eq_nil_iff.mp h.symm).1 hes
      · have hshort : tail.length ≤ n := by
          rw [List.length_append, List.length_cons] at hlen
          omega
        obtain ⟨before, hsegment, hbefore⟩ := ih tail es hshort hes h
        refine ⟨c ++ slash :: before, hsegment.join c, ?_⟩
        rw [pathElements_of_element hc (.inr rfl), if_pos hdrop, hbefore]
    · rw [if_neg hdrop] at h
      cases es with
      | nil => exact absurd rfl hes
      | cons e es =>
        obtain ⟨rfl, htail⟩ := List.cons.inj h
        by_cases hlast : es = []
        · subst hlast
          refine ⟨c, ?_, ?_⟩
          · obtain ⟨-, rfl⟩ | rfl := hparts
            · exact .inl rfl
            · exact .inr ⟨tail, rfl⟩
          · rw [pathElements_of_element hc (.inl ⟨rfl, rfl⟩), if_neg hdrop]
            rfl
        · obtain ⟨rfl, rfl⟩ | rfl := hparts
          · exact absurd (List.append_eq_nil_iff.mp htail.symm).1 hlast
          · have hshort : tail.length ≤ n := by
              rw [List.length_append, List.length_cons] at hlen
              omega
            obtain ⟨before, hsegment, hbefore⟩ := ih tail es hshort hlast htail
            refine ⟨c ++ slash :: before, hsegment.join c, ?_⟩
            rw [pathElements_of_element hc (.inr rfl), if_neg hdrop, hbefore]

end Segments

section Prefixes

variable {α β : Type} {f g : β → α → Option β} {l : List α} {b : β}

/-- Two folds agree on all initial pieces of a list where they agree on every element that is come to. -/
theorem foldlM_agree_iff : (∀ before, before <+: l → before.foldlM f b = before.foldlM g b) ↔
    ∀ before a after, l = before ++ a :: after → ∀ v, before.foldlM g b = some v → f v a = g v a := by
  constructor
  · rintro h before a after rfl v hv
    have hnext := h (before ++ [a]) ⟨after, by simp⟩
    rw [List.foldlM_append, List.foldlM_append, h before (List.prefix_append _ _), hv] at hnext
    simpa using hnext
  · rintro h before ⟨after, rfl⟩
    induction before using List.reverseRecOn generalizing after with
    | nil => rfl
    | append_singleton before a ih =>
      have hbefore := ih (a :: after) (by simpa using h)
      rw [List.foldlM_append, List.foldlM_append, hbefore]
      cases hv : before.foldlM g b with
      | none => rfl
      | some v =>
        have hstep := h before a after (by simp) v hv
        simp [hstep]

/-- A search with a weaker test finds the same where what it finds passes the stronger one. -/
theorem find?_agree_iff {p q : α → Bool} (h : ∀ a, q a = true → p a = true) :
    l.find? p = l.find? q ↔ ∀ a, l.find? p = some a → q a = true := by
  constructor
  · intro heq a ha
    rw [heq] at ha
    exact List.find?_some ha
  · intro hall
    induction l with
    | nil => rfl
    | cons c l ih =>
      rw [List.find?_cons] at hall ⊢
      rw [List.find?_cons]
      by_cases hp : p c = true
      · rw [hp] at hall ⊢
        rw [hall c rfl]
      · have hq : q c = false := by
          rw [← Bool.not_eq_true]
          exact fun hq => hp (h c hq)
        rw [Bool.not_eq_true] at hp
        rw [hp] at hall ⊢
        rw [hq]
        exact ih hall

end Prefixes

section Steps

variable {d : Devtree} {kids : ℕ → List ℕ}

theorem devtreeStepPrefix_iff {v : ℕ} {e : Str} : devtreeStepPrefix d kids v e = devtreeStep d kids v e ↔
    (e ≠ [dot, dot] → ∀ w, ((kids v).find? fun w => e <+: (d w).name) = some w → (d w).name = e) := by
  unfold devtreeStepPrefix devtreeStep
  by_cases hdots : e = [dot, dot]
  · simp [hdots]
  · rw [if_neg hdots, if_neg hdots, find?_agree_iff]
    · simp [hdots]
    · intro w hw
      rw [decide_eq_true_eq] at hw ⊢
      subst hw
      exact List.prefix_rfl

/-- The pieces of a path lead where they should exactly where the first elements do. -/
theorem devtreeFollows_iff {root : ℕ} {start : Option ℕ} {path : Str} (h : DevtreeForest d root kids)
    (hstart : ∀ v, start = some v → InDevtree root kids v) (hpath : 0 ∉ path) :
    DevtreeFollows d root kids start path ↔ ∀ es, es <+: pathElements path →
      es.foldlM (devtreeStepPrefix d kids) (start.getD root) = es.foldlM (devtreeStep d kids) (start.getD root) := by
  constructor
  · rintro hfollows es ⟨rest, hes⟩
    by_cases hnil : es = []
    · rw [hnil]
      rfl
    obtain ⟨before, hsegment, rfl⟩ := exists_pathSegment hnil hes.symm
    obtain ⟨N, hN⟩ := hfollows before hsegment
    obtain ⟨N', hN'⟩ := devtreeTraversePath_eq h (hsegment.zero hpath) hstart
    have hspec := hN (max N N') (Nat.le_max_left _ _)
    rw [hN' (max N N') (Nat.le_max_right _ _)] at hspec
    exact Option.some.inj hspec
  · intro hall before hsegment
    obtain ⟨N, hN⟩ := devtreeTraversePath_eq h (hsegment.zero hpath) hstart
    refine ⟨N, fun fuel hfuel => ?_⟩
    rw [hN fuel hfuel, hall _ hsegment.elements]
    rfl

end Steps

/-- A path is followed exactly where no child is found under the beginning of its name. -/
theorem devtree_traverse_iff {d : Devtree} {root : ℕ} {kids : ℕ → List ℕ} (h : DevtreeBuilt root d kids) {start : Option ℕ}
    (hstart : ∀ v, start = some v → InDevtree root kids v) {path : Str} (hpath : 0 ∉ path) :
    DevtreeFollows d root kids start path ↔ DevtreeNamesFit d kids (start.getD root) path := by
  rw [devtreeFollows_iff h.forest hstart hpath, foldlM_agree_iff]
  simp only [devtreeStepPrefix_iff]
  constructor
  · intro hall before e after heq hdots v hv
    exact hall before e after heq v hv hdots
  · intro hall before e after heq v hv hdots
    exact hall before e after heq hdots v hv

/-- The root at 0 and a node that is named `01.0` at 1, before it is added. -/
def devtreeNodes (v : ℕ) : DevtreeNode :=
  if v = 1 then ⟨[48, 49, 46, 48], none, none, none, by decide⟩ else ⟨[], some v, none, none, by decide⟩

def devtreeSample : Devtree := devtreeAddChild devtreeNodes 0 1

theorem devtreeSample_built : DevtreeBuilt 0 devtreeSample (Function.update (fun _ => []) 0 [1]) := by
  apply DevtreeBuilt.child _ 0 (by decide) fun v => List.not_mem_nil
  apply DevtreeBuilt.start
  constructor
  · intro v
    change (devtreeNodes v).firstChild = none
    unfold devtreeNodes
    split_ifs
    · rfl
    · rfl
  · exact fun v w hw => nomatch hw
  · rfl
  · exact fun v => List.not_mem_nil

theorem devtree_traverse_sample :
    DevtreeFollows devtreeSample 0 (Function.update (fun _ => []) 0 [1]) none [48, 49, 46, 48] ↔
      DevtreeNamesFit devtreeSample (Function.update (fun _ => []) 0 [1]) 0 [48, 49, 46, 48] :=
  have hstart : ∀ v, (none : Option ℕ) = some v → InDevtree 0 (Function.update (fun _ => []) 0 [1]) v := by simp
  devtree_traverse_iff devtreeSample_built hstart (by decide)

/-- The path `01` finds the node, though no child has that name. -/
theorem devtree_traverse_longer : ¬∀ d root kids, DevtreeBuilt root d kids → ∀ start : Option ℕ,
    (∀ v, start = some v → InDevtree root kids v) → ∀ path, 0 ∉ path → DevtreeFollows d root kids start path := by
  intro h
  obtain ⟨N, hN⟩ := h devtreeSample 0 _ devtreeSample_built none (by simp) [48, 49] (by decide) _ (.inl rfl)
  have hfound : devtreeTraversePath devtreeSample 0 (N + 1) none [48, 49] = some (some 1) := rfl
  have hnone : devtreeResolve devtreeSample (Function.update (fun _ => []) 0 [1]) 0 [48, 49] = none := by decide
  have hspec := hN (N + 1) (Nat.le_succ N)
  rw [hfound, Option.getD_none, hnone] at hspec
  cases hspec

end SysX
