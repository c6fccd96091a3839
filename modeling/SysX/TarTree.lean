import SysX.Archive

/-! The tree that `tar_init` builds, the lookups in it, and how a new entry finds its place. -/
namespace SysX

/-- The paths of the items of the hierarchy: the root, then the entries. -/
def tarPaths (es : List TarEntry) : List (List Str) := [] :: es.map TarEntry.comps

theorem tarPaths_succ {es : List TarEntry} {i : ℕ} {q : List Str} :
    (tarPaths es)[i + 1]? = some q ↔ ∃ e, es[i]? = some e ∧ e.comps = q := by
  rw [tarPaths, List.getElem?_cons_succ, List.getElem?_map, Option.map_eq_some_iff]

theorem tarPaths_of_entry {es : List TarEntry} {i : ℕ} {e : TarEntry} (he : es[i]? = some e) :
    (tarPaths es)[i + 1]? = some e.comps := tarPaths_succ.mpr ⟨e, he, rfl⟩

theorem ArchiveCoherent.rooted {es : List TarEntry} (h : ArchiveCoherent es) :
    Rooted (tarPaths es) := by
  refine ⟨rfl, List.nodup_cons.mpr ⟨?_, h.distinct⟩, fun i p h0 hi => ?_⟩
  · rw [List.mem_map]
    rintro ⟨e, he, hnil⟩
    exact (h.entry e he).comps hnil
  · obtain ⟨k, rfl⟩ := Nat.exists_eq_succ_of_ne_zero (Nat.pos_iff_ne_zero.mp h0)
    obtain ⟨e, he, rfl⟩ := tarPaths_succ.mp hi
    have hne := (h.entry e (List.mem_of_getElem? he)).comps
    have hlast := (List.dropLast_append_getLast hne).symm
    by_cases h1 : e.comps.length = 1
    · have hdrop : e.comps.dropLast = [] := by
        rw [← List.length_eq_zero_iff, List.length_dropLast, h1]
      exact ⟨0, _, e.comps.getLast hne, Nat.succ_pos k, congrArg some hdrop.symm, hlast⟩
    · obtain ⟨j, d, hj, hd, -, hcomps⟩ := h.parent k e he h1
      exact ⟨j + 1, _, e.comps.getLast hne, Nat.succ_lt_succ hj, tarPaths_succ.mpr ⟨d, hd, hcomps⟩, hlast⟩

/-- A node of the tree, with the entry it was made for. -/
structure TarNode.Holds (n : TarNode) (inode : ℕ) (e : TarEntry) : Prop where
  name : e.comps.getLast? = some n.name
  flags : n.flags = if e.directory then vfsDirectory else vfsFile
  inode : n.inode = inode
  length : n.length = e.data.length
  hooked : n.hooked = true

/-- The items and nodes for the root and the entries, where `ptr` gives the addresses of the nodes. -/
structure TarNodes (s : TarFs) (ptr : ℕ → ℕ) (es : List TarEntry) : Prop where
  distinct : ∀ i j, i ≤ es.length → j ≤ es.length → ptr i = ptr j → i = j
  root : (s.nodes (ptr 0)).flags = vfsMountpoint ∧ (s.nodes (ptr 0)).inode = 0 ∧
    (s.nodes (ptr 0)).hooked = true
  node : ∀ i e, es[i]? = some e → (s.nodes (ptr (i + 1))).Holds (i + 1) e
  item : ∀ i e, es[i]? = some e → ∃ (item : TarItem) (j : ℕ), s.hierarchy[i + 1]? = some item ∧
    item.node = some (ptr (i + 1)) ∧ (tarPaths es)[j]? = some e.comps.dropLast ∧
    item.parent = some (ptr j) ∧ (e.directory = false → e.data ≠ [] → item.data ≠ 0 ∧
      item.data + e.data.length < 4294967296 ∧ Placed s.mem item.data e.data)

/-! Paths. -/

section Paths

variable {c : Str} {x : UInt8}

theorem pathTraverse_cons (hx : x ≠ slash) (p : Str) :
    pathTraverse (x :: p) = ((pathTraverse p).1, (pathTraverse p).2 + 1) := by
  simp [pathTraverse, hx]

/-- The first element of a path. -/
theorem pathTraverse_cases (p : Str) : ∃ c rest, pathTraverse p = (rest, c.length) ∧ slash ∉ c ∧
    (rest = [] ∧ p = c ∨ p = c ++ slash :: rest) := by
  induction p with
  | nil => exact ⟨[], [], rfl, by simp, .inl ⟨rfl, rfl⟩⟩
  | cons x p ih =>
    by_cases hx : x = slash
    · subst hx
      exact ⟨[], p, by simp [pathTraverse], by simp, .inr rfl⟩
    · obtain ⟨c, rest, h, hc, hp⟩ := ih
      refine ⟨x :: c, rest, ?_, ?_, ?_⟩
      · rw [pathTraverse_cons hx, h]
        rfl
      · rw [List.mem_cons, not_or]
        exact ⟨Ne.symm hx, hc⟩
      · obtain ⟨rfl, rfl⟩ | rfl := hp
        · exact .inl ⟨rfl, rfl⟩
        · exact .inr rfl

theorem pathTraverse_append (hc : slash ∉ c) (rest : Str) :
    pathTraverse (c ++ slash :: rest) = (rest, c.length) := by
  induction c with
  | nil => simp [pathTraverse]
  | cons x c ih =>
    rw [List.mem_cons, not_or] at hc
    rw [List.cons_append, pathTraverse_cons (Ne.symm hc.1), ih hc.2]
    rfl

theorem pathTraverse_last (hc : slash ∉ c) : pathTraverse c = ([], c.length) := by
  induction c with
  | nil => rfl
  | cons x c ih =>
    rw [List.mem_cons, not_or] at hc
    rw [pathTraverse_cons (Ne.symm hc.1), ih hc.2]
    rfl

end Paths

/-! Lookups. -/

section Lookups

variable {s : TarFs} {ptr : ℕ → ℕ} {es : List TarEntry} {q : List Str} {x : Str} {j : ℕ}

theorem TarNodes.lookup_le (hj : (tarPaths es)[j]? = some q) : j ≤ es.length := by
  obtain ⟨hlt, -⟩ := List.getElem?_eq_some_iff.mp hj
  simp only [tarPaths, List.length_cons, List.length_map] at hlt
  omega

/-- An item is the child with a name exactly when its path says so. -/
theorem TarNodes.match_iff (h : TarNodes s ptr es) (hr : Rooted (tarPaths es)) {i k : ℕ} {e : TarEntry}
    (he : es[i]? = some e) (hj : (tarPaths es)[j]? = some q)
    (hk : (tarPaths es)[k]? = some e.comps.dropLast) :
    ptr k = ptr j ∧ (s.nodes (ptr (i + 1))).name = x ↔
      (tarPaths es)[i + 1]? = some (q ++ [x]) := by
  have hpath := tarPaths_of_entry he
  obtain ⟨l, y, hly⟩ : ∃ l y, e.comps = l ++ [y] := by
    have hne := hr.ne_nil hpath (Nat.succ_pos i)
    exact ⟨_, _, (List.dropLast_append_getLast hne).symm⟩
  have hname := (h.node i e he).name
  rw [hly, List.getLast?_concat, Option.some.injEq] at hname
  rw [hly, List.dropLast_concat] at hk
  rw [hpath, hly, Option.some.injEq, List.append_singleton_inj, hname]
  refine and_congr_left fun _ => ⟨fun hp => ?_, ?_⟩
  · have heq := h.distinct k j (lookup_le hk) (lookup_le hj) hp
    rw [heq, hj] at hk
    cases hk
    rfl
  · rintro rfl
    rw [hr.unique hk hj]

/-- The loop of `tar_vfs_finddir` from an item on finds the child of that name from there on. -/
theorem TarNodes.find (h : TarNodes s ptr es) (hr : Rooted (tarPaths es))
    (hj : (tarPaths es)[j]? = some q) {n i : ℕ} (hn : i + n = es.length)
    (hbefore : ∀ k ≤ i, (tarPaths es)[k]? ≠ some (q ++ [x])) :
    tarFind s (ptr j) x n (i + 1) = some ((childOf (tarPaths es) j x).map ptr) := by
  induction n generalizing i with
  | zero =>
    cases hx : childOf (tarPaths es) j x with
    | none => rfl
    | some k =>
      have hk := (hr.childOf_eq_some hj).mp hx
      have hle : k ≤ es.length := lookup_le hk
      exact (hbefore k (by omega) hk).elim
  | succ n ih =>
    obtain ⟨e, he⟩ : ∃ e, es[i]? = some e := ⟨_, List.getElem?_eq_getElem (by omega)⟩
    obtain ⟨item, k, hitem, hnode, hk, hparent, -⟩ := h.item i e he
    have hmatch := h.match_iff hr (x := x) he hj hk
    simp only [tarFind, hitem, hparent, hnode, Option.bind_eq_bind, Option.bind_some,
      Option.some.injEq]
    by_cases hx : (tarPaths es)[i + 1]? = some (q ++ [x])
    · obtain ⟨hp, hname⟩ := hmatch.mpr hx
      rw [if_pos hp, if_pos hname, (hr.childOf_eq_some hj).mpr hx]
      rfl
    · have hrest : tarFind s (ptr j) x n (i + 1 + 1) = some ((childOf (tarPaths es) j x).map ptr) := by
        apply ih (by omega)
        intro k hk
        obtain hlt | rfl := Nat.lt_or_eq_of_le hk
        · exact hbefore k (by omega)
        · exact hx
      by_cases hp : ptr k = ptr j
      · have hname : ¬ (s.nodes (ptr (i + 1))).name = x := fun hname => hx (hmatch.mp ⟨hp, hname⟩)
        rw [if_pos hp, if_neg hname, hrest]
      · rw [if_neg hp, hrest]

theorem take_length_eq_iff {name c : Str} : name.take c.length = c ∧ name[c.length]? = none ↔ name = c := by
  constructor
  · rintro ⟨htake, hend⟩
    have hle := List.getElem?_eq_none_iff.mp hend
    rwa [List.take_of_length_le hle] at htake
  · rintro rfl
    exact ⟨List.take_length, List.getElem?_eq_none (Nat.le_refl _)⟩

/-- The search of `tar_init` for a parent is that of `tar_vfs_finddir`. -/
theorem tarFindParent_eq (s : TarFs) (parent : ℕ) (c rest : Str) (n i : ℕ) :
    tarFindParent s parent (c ++ slash :: rest) c.length n i = tarFind s parent c n i := by
  induction n generalizing i with
  | zero => rfl
  | succ n ih => simp only [tarFindParent, tarFind, List.take_left', take_length_eq_iff, ih]

end Lookups

/-- The nodes and items in the hierarchy of an archive, which grows by 4 items at a time. -/
structure TarTree (s : TarFs) (ptr : ℕ → ℕ) (es : List TarEntry) : Prop extends TarNodes s ptr es where
  count : s.nodeCount = es.length + 1
  room : s.hierarchy.length = 4 * ((es.length + 4) / 4)
  fresh : ∀ i ≤ es.length, ptr i < s.nextNode

/-! How a new entry finds its place. -/

section Place

variable {s : TarFs} {ptr : ℕ → ℕ} {es : List TarEntry} {q cs : List Str} {x : Str} {j k : ℕ}

theorem spell_cons_cons (c d : Str) (cs : List Str) (trailing : Bool) :
    spell (c :: d :: cs) trailing = c ++ slash :: spell (d :: cs) trailing := by
  rw [spell, List.intercalate_cons_cons, List.append_assoc, List.append_assoc, List.singleton_append]
  rfl

theorem spell_ne_nil {c : Str} (hc : c ≠ []) (cs : List Str) (trailing : Bool) :
    spell (c :: cs) trailing ≠ [] := by
  cases cs with
  | nil => simp [spell, hc]
  | cons d cs => simp [spell_cons_cons, hc]

theorem pathTraverse_spell_singleton (hx : slash ∉ x) (trailing : Bool) :
    pathTraverse (spell [x] trailing) = ([], x.length) := by
  cases trailing with
  | false => simpa [spell] using pathTraverse_last hx
  | true => simpa [spell] using pathTraverse_append hx []

theorem length_le_spell (h : ∀ c ∈ cs, c ≠ []) (trailing : Bool) :
    cs.length ≤ (spell cs trailing).length := by
  induction cs with
  | nil => exact Nat.zero_le _
  | cons c cs ih =>
    have hc : 0 < c.length := List.length_pos_iff.mpr (h c (by simp))
    have ih := ih fun d hd => h d (by simp [hd])
    cases cs with
    | nil => simp [spell]; omega
    | cons d cs =>
      rw [spell_cons_cons, List.length_append, List.length_cons]
      simp only [List.length_cons] at ih ⊢
      omega

theorem length_le_spell_of_mem {c : Str} (h : c ∈ cs) (trailing : Bool) :
    c.length ≤ (spell cs trailing).length := by
  induction cs with
  | nil => cases h
  | cons d cs ih =>
    cases cs with
    | nil =>
      rw [List.mem_singleton.mp h]
      simp [spell]
    | cons d' cs =>
      rw [spell_cons_cons, List.length_append, List.length_cons]
      obtain rfl | h := List.mem_cons.mp h
      · omega
      · have := ih h
        omega

/-- The walk along the path of a new entry ends at the item of its parent. -/
theorem TarNodes.place (h : TarNodes s ptr es) (hr : Rooted (tarPaths es))
    (hj : (tarPaths es)[j]? = some q) (hk : (tarPaths es)[k]? = some (q ++ cs))
    (hcs : ∀ c ∈ cs, c ≠ [] ∧ slash ∉ c) (hx : x ≠ [] ∧ slash ∉ x) (hshort : x.length < 256)
    (hroom : es.length + 1 < s.hierarchy.length) (v : ℕ) (trailing : Bool) {fuel : ℕ}
    (hfuel : cs.length < fuel) :
    tarPlace v (es.length + 1) fuel (spell (cs ++ [x]) trailing) (ptr j) s =
      some ((), (s.setNode v fun n => { n with name := x }).setItem (es.length + 1)
        fun item => { item with parent := some (ptr k) }) := by
  induction cs generalizing j q fuel with
  | nil =>
    rw [List.append_nil] at hk
    obtain rfl := hr.unique hj hk
    obtain ⟨fuel, rfl⟩ := Nat.exists_eq_add_of_lt hfuel
    have htake : (spell [x] trailing).take x.length = x := by simp [spell]
    have hlt : ¬ 256 ≤ x.length := by omega
    simp only [List.length_nil, Nat.zero_add, tarPlace, List.nil_append,
      pathTraverse_spell_singleton hx.2, if_true, if_neg hlt, htake, Comp.modify_bind, tarSetItem,
      Comp.read_bind]
    exact congrFun (if_pos hroom) _
  | cons c cs ih =>
    obtain ⟨hc, hsep⟩ := hcs c (by simp)
    have hrest : ∀ d ∈ cs, d ≠ [] ∧ slash ∉ d := fun d hd => hcs d (by simp [hd])
    cases fuel with
    | zero => cases hfuel
    | succ fuel =>
      obtain ⟨d, ds, hds, hd⟩ : ∃ d ds, cs ++ [x] = d :: ds ∧ d ≠ [] := by
        cases cs with
        | nil => exact ⟨x, [], rfl, hx.1⟩
        | cons d cs => exact ⟨d, cs ++ [x], rfl, (hrest d (by simp)).1⟩
      have hmem : q ++ [c] ∈ tarPaths es :=
        hr.mem_of_append (r := cs) (by simpa using List.mem_of_getElem? hk)
      obtain ⟨m, hm⟩ := List.mem_iff_getElem?.mp hmem
      have hchild := (hr.childOf_eq_some hj).mpr hm
      have hfind : tarFindParent s (ptr j) (c ++ slash :: spell (cs ++ [x]) trailing) c.length
          es.length 1 = some (some (ptr m)) := by
        rw [tarFindParent_eq, h.find hr hj (Nat.zero_add _), hchild]
        · rfl
        · intro i hi h0
          obtain rfl := Nat.le_zero.mp hi
          have := hr.root
          rw [this] at h0
          simp at h0
      have hspell : spell (c :: cs ++ [x]) trailing = c ++ slash :: spell (cs ++ [x]) trailing := by
        rw [List.cons_append, hds]
        exact spell_cons_cons c d ds trailing
      have hne : spell (cs ++ [x]) trailing ≠ [] := by
        rw [hds]
        exact spell_ne_nil hd ds trailing
      have ih := ih hm (by simpa using hk) hrest (Nat.lt_of_succ_lt_succ hfuel)
      rw [hspell, tarPlace]
      simp only [pathTraverse_append hsep, if_neg hne, Nat.add_sub_cancel]
      rw [Comp.bind_of_eq (a := some (ptr m)) (t := s)]
      · exact ih
      · rw [Comp.readOr_apply, hfind]
        rfl

end Place
/-! Adding an entry. -/

section Add

variable {s t : TarFs} {ptr : ℕ → ℕ} {es : List TarEntry} {e : TarEntry} {v i j k : ℕ} {item : TarItem}
  {g : TarItem → TarItem}

@[simp] theorem TarFs.setItem_mem : (s.setItem i g).mem = s.mem := rfl

@[simp] theorem TarFs.setItem_nodes : (s.setItem i g).nodes = s.nodes := rfl

@[simp] theorem TarFs.setItem_length : (s.setItem i g).hierarchy.length = s.hierarchy.length :=
  List.length_modify ..

theorem TarFs.setItem_self (h : s.hierarchy[i]? = some item) :
    (s.setItem i g).hierarchy[i]? = some (g item) := by
  simp [TarFs.setItem, h]

theorem TarFs.setItem_of_ne (h : j ≠ i) : (s.setItem i g).hierarchy[j]? = s.hierarchy[j]? := by
  simp [TarFs.setItem, Ne.symm h]

@[simp] theorem TarFs.setNode_self (g : TarNode → TarNode) :
    (s.setNode v g).nodes v = g (s.nodes v) := by
  simp [TarFs.setNode]

theorem TarFs.setNode_of_ne {u : ℕ} (h : u ≠ v) (g : TarNode → TarNode) :
    (s.setNode v g).nodes u = s.nodes u := by
  simp [TarFs.setNode, h]

theorem tarSetItem_run (h : i < s.hierarchy.length) : tarSetItem i g s = some ((), s.setItem i g) := by
  rw [tarSetItem, Comp.read_bind, if_pos h]
  rfl

theorem tarAlloc_run (h : ∀ n, s.heapOk n = true) :
    tarAlloc s = some (true, { s with heapCalls := s.heapCalls + 1 }) := by
  simp only [tarAlloc, Comp.read_bind, Comp.modify_bind, Comp.pure_apply, h]

/-- What the lookups read is left alone. -/
theorem TarNodes.congr (h : TarNodes s ptr es) (hmem : t.mem = s.mem)
    (hnodes : ∀ i ≤ es.length, t.nodes (ptr i) = s.nodes (ptr i))
    (hitems : ∀ i ≤ es.length, t.hierarchy[i]? = s.hierarchy[i]?) : TarNodes t ptr es := by
  have hlt : ∀ (i : ℕ) e, es[i]? = some e → i + 1 ≤ es.length := fun i e he => by
    obtain ⟨hlt, -⟩ := List.getElem?_eq_some_iff.mp he
    exact hlt
  constructor
  · exact h.distinct
  · rw [hnodes 0 (Nat.zero_le _)]
    exact h.root
  · intro i e he
    rw [hnodes _ (hlt i e he)]
    exact h.node i e he
  · intro i e he
    rw [hitems _ (hlt i e he), hmem]
    exact h.item i e he

/-- The tree with a new node and item for the entry `e`. -/
theorem TarNodes.extend (h : TarNodes s ptr es) (hv : ∀ i ≤ es.length, ptr i ≠ v)
    (hnode : (s.nodes v).Holds (es.length + 1) e) (hitem : s.hierarchy[es.length + 1]? = some item)
    (hitemNode : item.node = some v) (hk : (tarPaths es)[k]? = some e.comps.dropLast)
    (hparent : item.parent = some (ptr k))
    (hdata : e.directory = false → e.data ≠ [] → item.data ≠ 0 ∧
      item.data + e.data.length < 4294967296 ∧ Placed s.mem item.data e.data) :
    TarNodes s (Function.update ptr (es.length + 1) v) (es ++ [e]) := by
  have hold : ∀ i ≤ es.length, Function.update ptr (es.length + 1) v i = ptr i := fun i hi =>
    Function.update_of_ne (by omega) _ _
  have hnew : Function.update ptr (es.length + 1) v (es.length + 1) = v :=
    Function.update_self ..
  have hlen : (es ++ [e]).length = es.length + 1 := by simp
  have hpaths : ∀ (j : ℕ) q, (tarPaths es)[j]? = some q → (tarPaths (es ++ [e]))[j]? = some q := by
    intro j q hj
    obtain ⟨hlt, -⟩ := List.getElem?_eq_some_iff.mp hj
    have happ : tarPaths (es ++ [e]) = tarPaths es ++ [e.comps] := by simp [tarPaths]
    rw [happ, List.getElem?_append_left hlt, hj]
  have hcases : ∀ (i : ℕ) d, (es ++ [e])[i]? = some d →
      es[i]? = some d ∧ i + 1 ≤ es.length ∨ i = es.length ∧ d = e := by
    intro i d hd
    obtain hlt | hge := Nat.lt_or_ge i es.length
    · rw [List.getElem?_append_left hlt] at hd
      exact .inl ⟨hd, hlt⟩
    · obtain ⟨hlt, -⟩ := List.getElem?_eq_some_iff.mp hd
      obtain rfl : i = es.length := by omega
      rw [List.getElem?_concat_length] at hd
      cases hd
      exact .inr ⟨rfl, rfl⟩
  constructor
  · intro i j hi hj hp
    rw [hlen] at hi hj
    obtain hi | rfl := Nat.le_or_eq_of_le_succ hi <;> obtain hj | rfl := Nat.le_or_eq_of_le_succ hj
    · rw [hold i hi, hold j hj] at hp
      exact h.distinct i j hi hj hp
    · rw [hold i hi, hnew] at hp
      exact (hv i hi hp).elim
    · rw [hnew, hold j hj] at hp
      exact (hv j hj hp.symm).elim
    · rfl
  · rw [hold 0 (Nat.zero_le _)]
    exact h.root
  · intro i d hd
    obtain ⟨hd, hle⟩ | ⟨rfl, rfl⟩ := hcases i d hd
    · rw [hold _ hle]
      exact h.node i d hd
    · rw [hnew]
      exact hnode
  · intro i d hd
    obtain ⟨hd, hle⟩ | ⟨rfl, rfl⟩ := hcases i d hd
    · obtain ⟨it, j, hit, hn, hj, hp, hdat⟩ := h.item i d hd
      refine ⟨it, j, hit, ?_, hpaths j _ hj, ?_, hdat⟩
      · rw [hold _ hle]
        exact hn
      · rw [hold _ (lookup_le hj)]
        exact hp
    · refine ⟨item, k, hitem, ?_, hpaths k _ hk, ?_, hdata⟩
      · rw [hnew]
        exact hitemNode
      · rw [hold _ (lookup_le hk)]
        exact hparent

/-- The hierarchy is made long enough for another item. -/
theorem tarGrow_run (hheap : ∀ n, s.heapOk n = true) (inode : ℕ) :
    ∃ calls items, tarGrow inode s = some (true, { s with heapCalls := calls, hierarchy := items }) ∧
      items.length = s.hierarchy.length + (if inode % 4 = 0 then 4 else 0) ∧
      ∀ i < s.hierarchy.length, items[i]? = s.hierarchy[i]? := by
  by_cases hfull : inode % 4 = 0
  · refine ⟨s.heapCalls + 1, s.hierarchy ++ (List.range 4).map fun i => s.junk (inode + i), ?_, ?_, ?_⟩
    · rw [tarGrow, if_pos (show inode % tarHierarchyItemIncrement = 0 from hfull),
        Comp.bind_of_eq (tarAlloc_run hheap)]
      rfl
    · simp [hfull]
    · intro i hi
      exact List.getElem?_append_left hi
  · refine ⟨s.heapCalls, s.hierarchy, ?_, by simp [hfull], fun _ _ => rfl⟩
    rw [tarGrow, if_neg (show ¬ inode % tarHierarchyItemIncrement = 0 from hfull)]
    rfl

theorem TarFs.setItem_id : s.setItem i (fun item => item) = s :=
  congrArg (fun l => { s with hierarchy := l }) (List.modify_id i s.hierarchy)

/-- Adding a coherent entry whose parent is there. -/
theorem TarTree.add (h : TarTree s ptr es) (hr : Rooted (tarPaths (es ++ [e]))) (he : e.Coherent)
    (hheap : ∀ n, s.heapOk n = true) {header : ℕ} (hhead : ∀ i < 512, s.bytes header i = e.byte i)
    (hdata : e.data ≠ [] → w32 (header + 512) ≠ 0 ∧
      w32 (header + 512) + e.data.length < 4294967296 ∧ Placed s.mem (w32 (header + 512)) e.data) :
    ∃ t, tarAdd (ptr 0) header e.path s = some (some e.data.length, t) ∧
      TarTree t (Function.update ptr (es.length + 1) s.nextNode) (es ++ [e]) ∧ t.mem = s.mem ∧
      t.heapOk = s.heapOk := by
  have happ : tarPaths (es ++ [e]) = tarPaths es ++ [e.comps] := by simp [tarPaths]
  have hrold : Rooted (tarPaths es) := by
    rw [happ] at hr
    exact hr.of_append (by simp [tarPaths])
  obtain ⟨cs, x, hcomps⟩ : ∃ cs x, e.comps = cs ++ [x] :=
    ⟨_, _, (List.dropLast_append_getLast he.comps).symm⟩
  have hdrop : e.comps.dropLast = cs := by rw [hcomps, List.dropLast_concat]
  -- The parent.
  obtain ⟨k, hk⟩ : ∃ k : ℕ, (tarPaths es)[k]? = some cs := by
    have hmem : cs ++ [x] ∈ tarPaths (es ++ [e]) := by simp [happ, hcomps]
    have hne : cs ≠ e.comps := by
      rw [hcomps]
      intro heq
      have := congrArg List.length heq
      simp at this
    have := hr.mem_of_append hmem
    rw [happ, List.mem_append, List.mem_singleton] at this
    exact List.mem_iff_getElem?.mp (this.resolve_right hne)
  have hwf := he.comp
  have hxmem : x ∈ e.comps := by simp [hcomps]
  have hxshort : x.length < 256 := by
    have h1 : x.length ≤ e.path.length := length_le_spell_of_mem hxmem e.trailing
    have h2 := he.nameShort
    omega
  have hfuel : cs.length < e.path.length + 1 := by
    have h1 : e.comps.length ≤ e.path.length := length_le_spell (fun c hc => (hwf c hc).1) e.trailing
    rw [hcomps, List.length_append] at h1
    omega
  -- The node is allocated, and the hierarchy has an item for it.
  have hv : ∀ i ≤ es.length, ptr i ≠ s.nextNode := fun i hi => Nat.ne_of_lt (h.fresh i hi)
  let s₁ : TarFs := { s with heapCalls := s.heapCalls + 1, nextNode := s.nextNode + 1 }
  have halloc : tarAllocNode s = some (some s.nextNode, s₁) := by
    rw [tarAllocNode, Comp.bind_of_eq (tarAlloc_run hheap)]
    rfl
  obtain ⟨calls, items, hgrow, hcount, hold⟩ := @tarGrow_run s₁ hheap (es.length + 1)
  have hroom : s₁.hierarchy.length = 4 * ((es.length + 4) / 4) := h.room
  have hlen : items.length = 4 * ((es.length + 1 + 4) / 4) := by
    split_ifs at hcount <;> omega
  let s₂ : TarFs := { s₁ with heapCalls := calls, hierarchy := items, nodeCount := s.nodeCount + 1 }
  have hin : es.length + 1 < s₂.hierarchy.length := by
    change es.length + 1 < items.length
    omega
  obtain ⟨it, hit⟩ : ∃ it, s₂.hierarchy[es.length + 1]? = some it := ⟨_, List.getElem?_eq_getElem hin⟩
  let s₃ := s₂.setItem (es.length + 1) fun item => { item with node := some s.nextNode }
  have hset : tarSetItem (es.length + 1) (fun item => { item with node := some s.nextNode }) s₂ =
      some ((), s₃) := tarSetItem_run hin
  -- The fields of the header are loaded.
  obtain ⟨uid, gid, mtime, hload⟩ := he.tarLoadNode (r := s₃.bytes header) hhead (es.length + 1)
    (s₃.nodes s.nextNode)
  let n : TarNode := { s₃.nodes s.nextNode with
    inode := es.length + 1, uid, gid, mtime
    length := e.data.length
    hooked := true
    flags := if e.directory then vfsDirectory else vfsFile }
  let s₄ := s₃.setNode s.nextNode fun _ => n
  let g : TarItem → TarItem := fun item =>
    if n.flags = vfsFile ∧ n.length ≠ 0 then { item with data := w32 (header + 512) } else item
  let s₅ := s₄.setItem (es.length + 1) g
  have hwhen : Comp.when (n.flags = vfsFile ∧ n.length ≠ 0)
      (tarSetItem (es.length + 1) fun item => { item with data := w32 (header + 512) }) s₄ =
      some ((), s₅) := by
    by_cases hc : n.flags = vfsFile ∧ n.length ≠ 0
    · have hg : g = fun item => { item with data := w32 (header + 512) } := by
        funext item
        exact if_pos hc
      rw [Comp.when_true hc, tarSetItem_run (by simpa [s₄, s₃, TarFs.setNode] using hin)]
      simp only [s₅, hg]
    · have hg : g = fun item => item := by
        funext item
        exact if_neg hc
      rw [Comp.when_false hc]
      simp only [s₅, hg, TarFs.setItem_id]
      rfl
  -- The parent is found in what was there before.
  have hnodes₅ : TarNodes s₅ ptr es := by
    refine h.toTarNodes.congr rfl (fun i hi => ?_) fun i hi => ?_
    · exact TarFs.setNode_of_ne (s := s₃) (hv i hi) fun _ => n
    · have hne : i ≠ es.length + 1 := by omega
      rw [TarFs.setItem_of_ne hne]
      exact (TarFs.setItem_of_ne hne).trans (hold i (by omega))
  have hplace := hnodes₅.place hrold hrold.root hk
    (fun c hc => hwf c (by simp [hcomps, hc])) (hwf x hxmem) hxshort
    (by simpa [s₅, s₄, s₃, TarFs.setNode] using hin) s.nextNode e.trailing hfuel
  rw [← hcomps] at hplace
  change tarPlace _ _ _ e.path _ _ = _ at hplace
  let t := (s₅.setNode s.nextNode fun n => { n with name := x }).setItem (es.length + 1)
    fun item => { item with parent := some (ptr k) }
  have hnodes : TarNodes t ptr es := by
    refine hnodes₅.congr rfl (fun i hi => ?_) fun i hi => ?_
    · exact TarFs.setNode_of_ne (s := s₅) (hv i hi) fun n => { n with name := x }
    · exact TarFs.setItem_of_ne (by omega)
  have hnew : t.nodes s.nextNode = { n with name := x } := by
    have h4 : s₅.nodes s.nextNode = n := TarFs.setNode_self (s := s₃) fun _ => n
    have h5 := TarFs.setNode_self (s := s₅) (v := s.nextNode) fun n => { n with name := x }
    rw [h4] at h5
    exact h5
  have hitem : t.hierarchy[es.length + 1]? =
      some { g { it with node := some s.nextNode } with parent := some (ptr k) } := by
    have h3 : s₄.hierarchy[es.length + 1]? = some { it with node := some s.nextNode } :=
      TarFs.setItem_self hit
    exact TarFs.setItem_self (TarFs.setItem_self (s := s₄) h3)
  refine ⟨t, ?_, ⟨hnodes.extend hv ?_ hitem ?_ ?_ rfl ?_, ?_, ?_, ?_⟩, rfl, rfl⟩
  · have hcount : s₁.nodeCount = es.length + 1 := h.count
    have hread : Comp.readOr (fun u : TarFs => tarLoadNode (u.bytes header) (es.length + 1)
        (u.nodes s.nextNode)) s₃ = some (n, s₃) := by
      rw [Comp.readOr_apply, hload]
      rfl
    rw [tarAdd, Comp.bind_of_eq halloc]
    dsimp only
    rw [Comp.read_bind, hcount, Comp.bind_of_eq hgrow, if_pos rfl, Comp.modify_bind,
      Comp.bind_of_eq hset, Comp.bind_of_eq hread, Comp.modify_bind, Comp.bind_of_eq hwhen,
      Comp.bind_of_eq hplace]
    rfl
  · rw [hnew]
    exact ⟨by rw [hcomps, List.getLast?_concat], rfl, rfl, rfl, rfl⟩
  · simp only [g]
    split_ifs <;> rfl
  · rw [hdrop]
    exact hk
  · intro hfile hne
    have hc : n.flags = vfsFile ∧ n.length ≠ 0 := by
      refine ⟨?_, fun h0 => hne (List.length_eq_zero_iff.mp h0)⟩
      change (if e.directory then vfsDirectory else vfsFile) = vfsFile
      rw [hfile]
      rfl
    simp only [g, if_pos hc]
    exact hdata hne
  · change s.nodeCount + 1 = _
    rw [h.count, List.length_append]
    rfl
  · rw [List.length_append]
    simpa [t, s₅, s₄, s₃, TarFs.setNode] using hlen
  · intro i hi
    change _ < s.nextNode + 1
    rw [List.length_append, List.length_singleton] at hi
    obtain hi | rfl := Nat.le_or_eq_of_le_succ hi
    · rw [Function.update_of_ne (by omega)]
      exact Nat.lt_succ_of_lt (h.fresh i hi)
    · rw [Function.update_self]
      exact Nat.lt_succ_self _

end Add
end SysX
