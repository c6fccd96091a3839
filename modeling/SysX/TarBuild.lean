import SysX.TarLookup

/-! What `tar_init` builds from any archive that it gets through. -/
namespace SysX

variable {s t : TarFs} {ptr : ℕ → ℕ} {headers : List ℕ} {i j v inode : ℕ}

theorem tarFindParent_mem {parent u n len : ℕ} {path : Str} (h : tarFindParent s parent path len n i = some (some u)) :
    ∃ j, i ≤ j ∧ j < i + n ∧ s.hierarchy[j]?.bind (·.node) = some u := by
  induction n generalizing i with
  | zero => cases h
  | succ n ih =>
    rw [tarFindParent] at h
    obtain ⟨item, hitem, h⟩ := Option.bind_eq_some_iff.mp h
    have hrest (h : tarFindParent s parent path len n (i + 1) = some (some u)) :
        ∃ j, i ≤ j ∧ j < i + (n + 1) ∧ s.hierarchy[j]?.bind (·.node) = some u := by
      obtain ⟨j, hlow, hhigh, hnode⟩ := ih h
      exact ⟨j, by omega, by omega, hnode⟩
    split_ifs at h with hparent
    · obtain ⟨w, hw, h⟩ := Option.bind_eq_some_iff.mp h
      dsimp only at h
      split_ifs at h with hname
      · cases h
        refine ⟨i, Nat.le_refl i, by omega, ?_⟩
        rw [hitem]
        exact hw
      · exact hrest h
    · exact hrest h

/-- The new node gets a name and a parent among the nodes before it. -/
theorem tarPlace_run {fuel parent : ℕ} {path : Str} (h : tarPlace v inode fuel path parent s = some ((), t))
    (hnode : ∀ i < inode, s.hierarchy[i]?.bind (·.node) = some (ptr i)) (hparent : ∃ j < inode, parent = ptr j) :
    ∃ name, ∃ j < inode, t = (s.setNode v fun n => { n with name := name }).setItem inode
      fun item => { item with parent := some (ptr j) } := by
  induction fuel generalizing path parent with
  | zero => cases h
  | succ fuel ih =>
    rw [tarPlace] at h
    obtain ⟨rest, len, hpath⟩ : ∃ rest len, pathTraverse path = (rest, len) := ⟨_, _, rfl⟩
    rw [hpath] at h
    dsimp only at h
    by_cases hrest : rest = []
    · rw [if_pos hrest] at h
      by_cases hlong : 256 ≤ len
      · rw [if_pos hlong] at h
        cases h
      rw [if_neg hlong, Comp.modify_bind, tarSetItem, Comp.read_bind] at h
      obtain ⟨j, hj, rfl⟩ := hparent
      split_ifs at h with hin
      · cases h
        exact ⟨path.take len, j, hj, rfl⟩
      · cases h
    · rw [if_neg hrest] at h
      obtain ⟨found, s₁, hfound, h⟩ := Comp.bind_eq_some.mp h
      rw [Comp.readOr_apply, Option.map_eq_some_iff] at hfound
      obtain ⟨found', hfind, heq⟩ := hfound
      cases heq
      apply ih h
      cases found with
      | none => exact hparent
      | some u =>
        obtain ⟨j, hlow, hhigh, hu⟩ := tarFindParent_mem hfind
        have hj : j < inode := by
          omega
        exact ⟨j, hj, Option.some.inj (hu.symm.trans (hnode j hj))⟩

/-- The items behind the nodes of the archive, which `headers` were loaded into. -/
structure TarBuilt (s : TarFs) (ptr : ℕ → ℕ) (headers : List ℕ) : Prop extends TarOrdered s ptr where
  count : s.nodeCount = headers.length + 1
  room : s.nodeCount ≤ s.hierarchy.length
  aligned : 4 ∣ s.hierarchy.length
  fresh : ∀ i < s.nodeCount, ptr i < s.nextNode
  loaded : ∀ (i : ℕ) header, headers[i]? = some header →
    ∃ n, tarLoadNode (s.bytes header) (i + 1) n = some { s.nodes (ptr (i + 1)) with name := n.name }
theorem tarLoadNode_fields {r : ℕ → UInt8} {n n' : TarNode} (h : tarLoadNode r inode n = some n') :
    n'.inode = inode ∧ n'.name = n.name ∧ strtoull r tarSize 8 = some n'.length ∧ n'.flags = tarFlags (r tarType) := by
  unfold tarLoadNode at h
  obtain ⟨uid, -, h⟩ := Option.bind_eq_some_iff.mp h
  obtain ⟨gid, -, h⟩ := Option.bind_eq_some_iff.mp h
  obtain ⟨length, hlength, h⟩ := Option.bind_eq_some_iff.mp h
  obtain ⟨mtime, -, h⟩ := Option.bind_eq_some_iff.mp h
  cases h
  exact ⟨rfl, rfl, hlength, rfl⟩

/-- What an entry of the archive leaves behind: its node, loaded and placed below an earlier one. -/
structure TarAdded (s t : TarFs) (ptr : ℕ → ℕ) (header length : ℕ) : Prop where
  mem : t.mem = s.mem
  heap : t.heapOk = s.heapOk
  count : t.nodeCount = s.nodeCount + 1
  next : t.nextNode = s.nextNode + 1
  room : s.nodeCount < t.hierarchy.length
  aligned : 4 ∣ t.hierarchy.length
  nodes : ∀ u, u ≠ s.nextNode → t.nodes u = s.nodes u
  items : ∀ i < s.nodeCount, t.hierarchy[i]? = s.hierarchy[i]?
  item : t.hierarchy[s.nodeCount]?.bind (·.node) = some s.nextNode
  parent : ∃ j < s.nodeCount, tarParent t s.nodeCount = some (ptr j)
  length : strtoull (s.bytes header) tarSize 8 = some length
  loaded : ∃ n, tarLoadNode (s.bytes header) s.nodeCount n =
    some { t.nodes s.nextNode with name := n.name }

/-- What is left of the heap in the items that are not in use. -/
def TarFs.Stale (s : TarFs) (data : ℕ) : Prop :=
  (∀ i, (s.junk i).data = data) ∧ ∀ (i : ℕ) item, s.nodeCount ≤ i → s.hierarchy[i]? = some item → item.data = data

/-- `TarAdded` with the data pointer of the entry, which only a file that is not empty gets. -/
structure TarEntryAdded (s t : TarFs) (ptr : ℕ → ℕ) (header size : ℕ) : Prop extends TarAdded s t ptr header size where
  junk : t.junk = s.junk
  data : tarFlags (s.bytes header tarType) = vfsFile → size ≠ 0 →
    ∃ item, t.hierarchy[s.nodeCount]? = some item ∧ item.data = w32 (header + 512)
  stale : ∀ data, s.Stale data → t.Stale data ∧ (¬(tarFlags (s.bytes header tarType) = vfsFile ∧ size ≠ 0) →
    ∃ item, t.hierarchy[s.nodeCount]? = some item ∧ item.data = data)

theorem tarAllocNode_some (h : tarAllocNode s = some (some v, t)) :
    v = s.nextNode ∧ t = { s with heapCalls := s.heapCalls + 1, nextNode := s.nextNode + 1 } := by
  rw [tarAllocNode, tarAlloc, Comp.bind_assoc, Comp.read_bind, Comp.bind_assoc, Comp.modify_bind, Comp.pure_bind] at h
  cases hok : s.heapOk s.heapCalls with
  | false =>
    rw [hok] at h
    cases h
  | true =>
    rw [hok] at h
    cases h
    exact ⟨rfl, rfl⟩

theorem tarGrow_some (h : tarGrow inode s = some (true, t)) :
    ∃ calls items, t = { s with heapCalls := calls, hierarchy := items } ∧
      items.length = s.hierarchy.length + (if inode % 4 = 0 then 4 else 0) ∧
      (∀ i < s.hierarchy.length, items[i]? = s.hierarchy[i]?) ∧
      ∀ (i : ℕ) item, s.hierarchy.length ≤ i → items[i]? = some item → ∃ j, item = s.junk j := by
  unfold tarGrow at h
  by_cases hfull : inode % 4 = 0
  · rw [if_pos (show inode % tarHierarchyItemIncrement = 0 from hfull), tarAlloc, Comp.bind_assoc, Comp.read_bind,
      Comp.bind_assoc, Comp.modify_bind, Comp.pure_bind] at h
    cases hok : s.heapOk s.heapCalls with
    | false =>
      rw [hok] at h
      cases h
    | true =>
      rw [hok] at h
      cases h
      refine ⟨s.heapCalls + 1, s.hierarchy ++ (List.range 4).map fun i => s.junk (inode + i), rfl, by simp [hfull], ?_, ?_⟩
      · intro i hi
        exact List.getElem?_append_left hi
      · intro i item hi hitem
        rw [List.getElem?_append_right hi, List.getElem?_map, Option.map_eq_some_iff] at hitem
        obtain ⟨k, -, rfl⟩ := hitem
        exact ⟨inode + k, rfl⟩
  · rw [if_neg (show ¬inode % tarHierarchyItemIncrement = 0 from hfull)] at h
    cases h
    refine ⟨s.heapCalls, s.hierarchy, rfl, by simp [hfull], fun _ _ => rfl, ?_⟩
    intro i item hi hitem
    rw [List.getElem?_eq_none hi] at hitem
    cases hitem

/-- An optional write of the data pointer of an item. -/
theorem tarSetData_run {p : Prop} [Decidable p] {data : ℕ} (hin : inode < s.hierarchy.length)
    (h : Comp.when p (tarSetItem inode fun item => { item with data := data }) s = some ((), t)) :
    ∃ g : TarItem → TarItem, t = s.setItem inode g ∧ (∀ item, (g item).node = item.node) ∧
      ∀ item, (g item).data = if p then data else item.data := by
  by_cases hp : p
  · rw [Comp.when_true hp, tarSetItem_run hin] at h
    cases h
    exact ⟨_, rfl, fun _ => rfl, fun _ => (if_pos hp).symm⟩
  · rw [Comp.when_false hp] at h
    cases h
    exact ⟨fun item => item, TarFs.setItem_id.symm, fun _ => rfl, fun _ => (if_neg hp).symm⟩

theorem TarBuilt.added {header length : ℕ} {name : Str} (h : TarBuilt s ptr headers)
    (hr : tarAdd (ptr 0) header name s = some (some length, t)) : TarEntryAdded s t ptr header length := by
  rw [tarAdd] at hr
  obtain ⟨node, s₁, halloc, hr⟩ := Comp.bind_eq_some.mp hr
  cases node with
  | none => cases hr
  | some v =>
  obtain ⟨rfl, rfl⟩ := tarAllocNode_some halloc
  dsimp only at hr
  rw [Comp.read_bind] at hr
  obtain ⟨ok, s₂', hgrow, hr⟩ := Comp.bind_eq_some.mp hr
  cases ok with
  | false => cases hr
  | true =>
  let s₁ : TarFs := { s with heapCalls := s.heapCalls + 1, nextNode := s.nextNode + 1 }
  obtain ⟨calls, items, rfl, hcount, hold, hgrown⟩ := @tarGrow_some s₁ _ s.nodeCount hgrow
  have hroom : s.nodeCount ≤ s₁.hierarchy.length := h.room
  have hold4 : 4 ∣ s₁.hierarchy.length := h.aligned
  have hin : s.nodeCount < items.length := by
    split_ifs at hcount <;> omega
  have haligned : 4 ∣ items.length := by
    split_ifs at hcount <;> omega
  let s₂ : TarFs := { s₁ with heapCalls := calls, hierarchy := items, nodeCount := s.nodeCount + 1 }
  let s₃ := s₂.setItem s.nodeCount fun item => { item with node := some s.nextNode }
  have hset : tarSetItem s.nodeCount (fun item => { item with node := some s.nextNode }) s₂ = some ((), s₃) :=
    tarSetItem_run hin
  rw [if_pos rfl, Comp.modify_bind] at hr
  obtain ⟨_, s₃', hset', hr⟩ := Comp.bind_eq_some.mp hr
  cases hset.symm.trans hset'
  obtain ⟨n, s₄, hload, hr⟩ := Comp.bind_eq_some.mp hr
  rw [Comp.readOr_apply, Option.map_eq_some_iff] at hload
  obtain ⟨n', hload, heq⟩ := hload
  cases heq
  obtain ⟨-, hname, hlength, hflags⟩ := tarLoadNode_fields hload
  let s₄ := s₃.setNode s.nextNode fun _ => n
  have hin₃ : s.nodeCount < s₃.hierarchy.length := by
    rw [TarFs.setItem_length]
    exact hin
  rw [Comp.modify_bind] at hr
  obtain ⟨_, s₅, hdata, hr⟩ := Comp.bind_eq_some.mp hr
  obtain ⟨g, hs₅, hg, hgdata⟩ := @tarSetData_run s₄ s₅ s.nodeCount _ _ _ hin₃ hdata
  obtain ⟨_, t', hplace, hr⟩ := Comp.bind_eq_some.mp hr
  cases hr
  have hold₅ : ∀ i < s.nodeCount, s₅.hierarchy[i]? = s.hierarchy[i]? := by
    intro i hi
    rw [hs₅, TarFs.setItem_of_ne hi.ne]
    exact (TarFs.setItem_of_ne hi.ne).trans (hold i (hi.trans_le h.room))
  have hnode : ∀ i < s.nodeCount, s₅.hierarchy[i]?.bind (·.node) = some (ptr i) := by
    intro i hi
    rw [hold₅ i hi]
    exact h.node i hi
  obtain ⟨name', j, hj, ht⟩ := tarPlace_run hplace hnode ⟨0, h.pos, rfl⟩
  obtain ⟨item, hitem⟩ : ∃ item, items[s.nodeCount]? = some item := ⟨_, List.getElem?_eq_getElem hin⟩
  have hitem₃ : s₃.hierarchy[s.nodeCount]? = some { item with node := some s.nextNode } :=
    TarFs.setItem_self hitem
  have hitem₅ : s₅.hierarchy[s.nodeCount]? = some (g { item with node := some s.nextNode }) := by
    rw [hs₅]
    exact TarFs.setItem_self hitem₃
  have hitem' := TarFs.setItem_self (s := s₅.setNode s.nextNode fun n => { n with name := name' })
    (g := fun item => { item with parent := some (ptr j) }) hitem₅
  rw [← ht] at hitem'
  have hnew : t.nodes s.nextNode = { n with name := name' } := by
    rw [ht, hs₅]
    simp [s₄, TarFs.setNode, TarFs.setItem]
  have hlen : t.hierarchy.length = items.length := by
    rw [ht, hs₅]
    simp [s₄, s₃, s₂, TarFs.setNode]
  constructor
  constructor
  · rw [ht, hs₅]
    rfl
  · rw [ht, hs₅]
    rfl
  · rw [ht, hs₅]
    rfl
  · rw [ht, hs₅]
    rfl
  · rw [hlen]
    exact hin
  · rw [hlen]
    exact haligned
  · intro u hu
    rw [ht, hs₅]
    simp [s₄, s₃, s₂, s₁, TarFs.setNode, TarFs.setItem, hu]
  · intro i hi
    rw [ht, TarFs.setItem_of_ne hi.ne]
    exact hold₅ i hi
  · rw [hitem']
    exact hg _
  · refine ⟨j, hj, ?_⟩
    rw [tarParent, hitem']
    rfl
  · exact hlength
  · refine ⟨s₃.nodes s.nextNode, ?_⟩
    rw [hnew, ← hname]
    exact hload
  · rw [ht, hs₅]
    rfl
  · intro hfile hsize
    refine ⟨_, hitem', ?_⟩
    exact (hgdata _).trans (if_pos ⟨hflags.trans hfile, hsize⟩)
  · intro data hstale
    have hraw : ∀ (i : ℕ) item, s.nodeCount ≤ i → items[i]? = some item → item.data = data := by
      intro i item hi hitem
      rcases Nat.lt_or_ge i s.hierarchy.length with hlt | hge
      · rw [hold i hlt] at hitem
        exact hstale.2 i item hi hitem
      · obtain ⟨j, rfl⟩ := hgrown i item hge hitem
        exact hstale.1 j
    refine ⟨⟨fun i => ?_, fun i item' hi hitem' => ?_⟩, fun hempty => ⟨_, hitem', ?_⟩⟩
    · rw [ht, hs₅]
      exact hstale.1 i
    · have hcount' : t.nodeCount = s.nodeCount + 1 := by
        rw [ht, hs₅]
        rfl
      have hne : i ≠ s.nodeCount := by
        omega
      rw [ht, TarFs.setItem_of_ne hne, hs₅] at hitem'
      have hitem₂ : s₃.hierarchy[i]? = some item' := (TarFs.setItem_of_ne hne).symm.trans hitem'
      rw [TarFs.setItem_of_ne hne] at hitem₂
      exact hraw i item' (by omega) hitem₂
    · have hnone : ¬(n.flags = vfsFile ∧ n.length ≠ 0) := fun h => hempty ⟨hflags.symm.trans h.1, h.2⟩
      exact (hgdata _).trans ((if_neg hnone).trans (hraw s.nodeCount item (Nat.le_refl _) hitem))

/-- With memory left every entry is added. -/
theorem tarAdd_some {root header : ℕ} {name : Str} {r : Option ℕ} (hheap : ∀ n, s.heapOk n = true)
    (hr : tarAdd root header name s = some (r, t)) : ∃ length, r = some length := by
  let s₁ : TarFs := { s with heapCalls := s.heapCalls + 1, nextNode := s.nextNode + 1 }
  have halloc : tarAllocNode s = some (some s.nextNode, s₁) := by
    rw [tarAllocNode, Comp.bind_of_eq (tarAlloc_run hheap)]
    rfl
  obtain ⟨calls, items, hgrow, -⟩ := tarGrow_run (s := s₁) hheap s.nodeCount
  rw [tarAdd, Comp.bind_of_eq halloc] at hr
  dsimp only at hr
  rw [Comp.read_bind, Comp.bind_of_eq hgrow, if_pos rfl, Comp.modify_bind] at hr
  obtain ⟨_, s₂, -, hr⟩ := Comp.bind_eq_some.mp hr
  obtain ⟨n, s₃, -, hr⟩ := Comp.bind_eq_some.mp hr
  rw [Comp.modify_bind] at hr
  obtain ⟨_, s₄, -, hr⟩ := Comp.bind_eq_some.mp hr
  obtain ⟨_, s₅, -, hr⟩ := Comp.bind_eq_some.mp hr
  cases hr
  exact ⟨n.length, rfl⟩


/-- The new node is the last one of the archive. -/
theorem TarBuilt.extend {header length : ℕ} (h : TarBuilt s ptr headers) (ha : TarAdded s t ptr header length) :
    TarBuilt t (Function.update ptr s.nodeCount s.nextNode) (headers ++ [header]) := by
  have hold : ∀ i < s.nodeCount, Function.update ptr s.nodeCount s.nextNode i = ptr i := fun i hi =>
    Function.update_of_ne hi.ne _ _
  have hnew : Function.update ptr s.nodeCount s.nextNode s.nodeCount = s.nextNode := Function.update_self ..
  have hnodes : ∀ i < s.nodeCount, t.nodes (ptr i) = s.nodes (ptr i) := fun i hi =>
    ha.nodes _ (h.fresh i hi).ne
  have hparents : ∀ i < s.nodeCount, tarParent t i = tarParent s i := fun i hi => by
    rw [tarParent, ha.items i hi]
    rfl
  have hcases {i : ℕ} (hi : i < t.nodeCount) : i < s.nodeCount ∨ i = s.nodeCount := by
    rw [ha.count] at hi
    omega
  obtain ⟨n, hn⟩ := ha.loaded
  constructor
  · constructor
    · rw [ha.count]
      omega
    · rw [hparents 0 h.pos]
      exact h.root
    · intro i hi
      rcases hcases hi with hi | rfl
      · rw [hold i hi, ha.items i hi]
        exact h.node i hi
      · rw [hnew]
        exact ha.item
    · intro i hi
      rcases hcases hi with hi | rfl
      · rw [hold i hi, hnodes i hi]
        exact h.inode i hi
      · rw [hnew]
        exact (tarLoadNode_fields hn).1
    · intro i hi hpos
      rcases hcases hi with hi | rfl
      · obtain ⟨j, hj, hp⟩ := h.parent i hi hpos
        refine ⟨j, hj, ?_⟩
        rw [hparents i hi, hold j (hj.trans hi)]
        exact hp
      · obtain ⟨j, hj, hp⟩ := ha.parent
        refine ⟨j, hj, ?_⟩
        rw [hold j hj]
        exact hp
  · rw [ha.count, List.length_append, h.count]
    rfl
  · rw [ha.count]
    exact ha.room
  · exact ha.aligned
  · intro i hi
    rw [ha.next]
    rcases hcases hi with hi | rfl
    · rw [hold i hi]
      exact (h.fresh i hi).trans (Nat.lt_succ_self _)
    · rw [hnew]
      exact Nat.lt_succ_self _
  · intro i header' hi
    have hbytes : t.bytes header' = s.bytes header' := by
      unfold TarFs.bytes
      rw [ha.mem]
    rw [hbytes]
    rcases Nat.lt_or_ge i headers.length with hlt | hge
    · rw [List.getElem?_append_left hlt] at hi
      have hi' : i + 1 < s.nodeCount := by
        rw [h.count]
        omega
      rw [hold _ hi', hnodes _ hi']
      exact h.loaded i header' hi
    · obtain ⟨hlt, -⟩ := List.getElem?_eq_some_iff.mp hi
      obtain rfl : i = headers.length := by
        rw [List.length_append] at hlt
        simp at hlt
        omega
      rw [List.getElem?_concat_length] at hi
      cases hi
      rw [← h.count, hnew]
      exact ha.loaded

end SysX
