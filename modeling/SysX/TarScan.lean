import SysX.TarShape

/-! The headers that the loop of `tar_init` comes to, whatever the heap answers. -/
namespace SysX

variable {s s₀ t u : TarFs} {ptr : ℕ → ℕ} {headers : List ℕ} {root last fuel start header next n : ℕ} {nameOk : Bool}

/-- One iteration of the loop of `tar_init`: the next header, or `none` where parsing stops. -/
def tarIter (nameOk : Bool) (root header : ℕ) : TarOp (Option ℕ) := do
  let r ← Comp.read fun s => s.bytes header
  if r tarName = 0 ∧ r tarSize = 0 then pure (some (w32 (header + 512)))
  else if nameOk then do
    let name ← Comp.readOr fun _ => tarPath r
    let length ← tarAdd root header name
    pure (length.map fun length => w32 (header + 512 + w32 (w32 length + 511) / 512 * 512))
  else Comp.fault

theorem tarInitLoop_succ (nameOk : Bool) (root last fuel header : ℕ) :
    tarInitLoop nameOk root last (fuel + 1) header = if header < last then (do
      let next ← tarIter nameOk root header
      match next with
      | none => pure ()
      | some next => tarInitLoop nameOk root last fuel next) else pure () := by
  funext s
  rw [tarInitLoop]
  by_cases hlast : header < last
  · rw [if_pos hlast, if_pos hlast, tarIter, Comp.bind_assoc, Comp.read_bind, Comp.read_bind]
    by_cases hskip : s.bytes header tarName = 0 ∧ s.bytes header tarSize = 0
    · rw [if_pos hskip, if_pos hskip]
      rfl
    · rw [if_neg hskip, if_neg hskip]
      cases nameOk with
      | false => rfl
      | true =>
        rw [if_pos rfl, if_pos rfl, Comp.bind_assoc]
        refine congrFun (congrArg _ (funext fun name => ?_)) s
        rw [Comp.bind_assoc]
        refine congrArg _ (funext fun length => ?_)
        cases length with
        | none => rfl
        | some length => rfl
  · rw [if_neg hlast, if_neg hlast]

/-- `tar_init` before its loop: the root, and whether there is a `name` buffer. -/
def tarBegin (root : Option ℕ) : TarOp (Option (ℕ × Bool)) := do
  let root ← tarRoot root
  match root with
  | none => pure none
  | some root => do
    let infoOk ← tarAlloc
    if infoOk then do
      let hierarchyOk ← tarAlloc
      if hierarchyOk then do
        Comp.modify fun s => s.setRoot root
        let nameOk ← tarAlloc
        pure (some (root, nameOk))
      else pure none
    else pure none

theorem tarInit_eq (fuel buffer size : ℕ) (root : Option ℕ) : tarInit fuel buffer size root = (do
    let begun ← tarBegin root
    match begun with
    | none => pure none
    | some (root, nameOk) => do
      tarInitLoop nameOk root (w32 (buffer + size)) fuel buffer
      pure (some root)) := by
  unfold tarInit tarBegin
  rw [Comp.bind_assoc]
  refine congrArg _ (funext fun root => ?_)
  cases root with
  | none => rfl
  | some root =>
    dsimp only
    unfold tarUnpack
    rw [Comp.bind_assoc]
    refine congrArg _ (funext fun infoOk => ?_)
    cases infoOk with
    | false => rfl
    | true =>
      rw [if_pos rfl, if_pos rfl, Comp.bind_assoc]
      refine congrArg _ (funext fun hierarchyOk => ?_)
      cases hierarchyOk with
      | false => rfl
      | true => rfl

/-- The loop comes from the header `start` and the state `s` to `header` and a later state in `n` iterations. -/
inductive TarReach (nameOk : Bool) (root last start : ℕ) (s : TarFs) : (n header : ℕ) → TarFs → Prop
  | start : TarReach nameOk root last start s 0 start s
  | next {n header next : ℕ} {t u : TarFs} (h : TarReach nameOk root last start s n header t) (hlast : header < last)
      (hiter : tarIter nameOk root header t = some (some next, u)) : TarReach nameOk root last start s (n + 1) next u

/-- A run of the loop ends at the end of the archive, or where an iteration stops it. -/
theorem TarReach.of_loop {m : ℕ} (h : TarReach nameOk root last start s m header t)
    (hr : tarInitLoop nameOk root last fuel header t = some ((), u)) :
    ∃ n header' t', TarReach nameOk root last start s n header' t' ∧
      (last ≤ header' ∧ u = t' ∨ header' < last ∧ tarIter nameOk root header' t' = some (none, u)) := by
  induction fuel generalizing m header t with
  | zero => cases hr
  | succ fuel ih =>
    rw [tarInitLoop_succ] at hr
    by_cases hlast : header < last
    · rw [if_pos hlast] at hr
      obtain ⟨next, t', hiter, hr⟩ := Comp.bind_eq_some.mp hr
      cases next with
      | none =>
        cases hr
        exact ⟨m, header, t, h, Or.inr ⟨hlast, hiter⟩⟩
      | some next => exact ih (h.next hlast hiter) hr
    · rw [if_neg hlast] at hr
      cases hr
      exact ⟨m, header, _, h, Or.inl ⟨Nat.le_of_not_lt hlast, rfl⟩⟩

/-! The scan of the memory. -/

/-- The bytes from an address on. -/
def bytesAt (mem : ℕ → UInt8) (a : ℕ) : ℕ → UInt8 := fun i => mem (w32 (a + i))

theorem TarFs.bytes_eq {t : TarFs} {mem : ℕ → UInt8} (h : t.mem = mem) (a : ℕ) : t.bytes a = bytesAt mem a := by
  rw [← h]
  rfl

/-- The prefix, which only the headers of one format have, and the name end so early that both fit into 256 bytes with a
terminator. -/
def PathFits (r : ℕ → UInt8) : Prop :=
  ∃ m n, m + n < 256 ∧ (if isUstar r then r (tarNamePrefix + m) = 0 else m = 0) ∧ r (tarName + n) = 0

/-- The scan goes from a header that is skipped, or whose path fits, to the next one. -/
def TarScans (mem : ℕ → UInt8) (last header next : ℕ) : Prop :=
  header < last ∧ (tarSkips mem header = true ∨ PathFits (bytesAt mem header)) ∧ tarNext mem header = some next

/-- The headers that the scan comes to. -/
abbrev TarScanned (mem : ℕ → UInt8) (last : ℕ) : ℕ → ℕ → Prop := Relation.ReflTransGen (TarScans mem last)

section Paths

variable {r : ℕ → UInt8} {k : ℕ} {str : Str}

theorem cstring_spells (h : cstring r n k = some str) : Spells r k str ∧ str.length < n := by
  induction n generalizing k str with
  | zero => cases h
  | succ n ih =>
    rw [cstring] at h
    by_cases hend : r k = 0
    · rw [if_pos hend] at h
      cases h
      exact ⟨hend, Nat.succ_pos n⟩
    · rw [if_neg hend] at h
      obtain ⟨tail, htail, rfl⟩ := Option.map_eq_some_iff.mp h
      obtain ⟨hs, hlen⟩ := ih htail
      exact ⟨⟨rfl, hend, hs⟩, Nat.succ_lt_succ hlen⟩

/-- A string ends where its first terminator is. -/
theorem cstring_of_end {i : ℕ} (hi : i < n) (h : r (k + i) = 0) : ∃ str, cstring r n k = some str ∧ str.length ≤ i := by
  induction n generalizing k i with
  | zero => cases hi
  | succ n ih =>
    rw [cstring]
    by_cases hend : r k = 0
    · exact ⟨[], if_pos hend, Nat.zero_le i⟩
    · cases i with
      | zero => exact absurd h hend
      | succ i =>
        rw [← Nat.add_assoc, Nat.add_right_comm] at h
        obtain ⟨str, hstr, hlen⟩ := ih (Nat.lt_of_succ_lt_succ hi) h
        refine ⟨r k :: str, ?_, Nat.succ_le_succ hlen⟩
        rw [if_neg hend, hstr]
        rfl

theorem tarPath_fits (h : tarPath r = some str) : PathFits r ∧ str.length < 256 := by
  obtain ⟨pre, hpre, h⟩ := Option.bind_eq_some_iff.mp h
  obtain ⟨name, hname, h⟩ := Option.bind_eq_some_iff.mp h
  cases h
  obtain ⟨hs, hlen⟩ := cstring_spells hname
  have hend : r (tarName + name.length) = 0 := by
    rw [hs.get (Nat.le_refl _), List.getD_eq_default _ _ (Nat.le_refl _)]
  refine ⟨⟨pre.length, name.length, by omega, ?_, hend⟩, by rw [List.length_append]; omega⟩
  unfold tarPrefix at hpre
  split_ifs at hpre ⊢
  · obtain ⟨hs, -⟩ := cstring_spells hpre
    rw [hs.get (Nat.le_refl _), List.getD_eq_default _ _ (Nat.le_refl _)]
  · cases hpre
    rfl

theorem PathFits.path (h : PathFits r) : ∃ str, tarPath r = some str := by
  obtain ⟨m, n, hlt, hpre, hname⟩ := h
  have hprefix : ∃ pre, tarPrefix r = some pre ∧ pre.length ≤ m := by
    unfold tarPrefix
    split_ifs at hpre ⊢
    · exact cstring_of_end (by omega) hpre
    · exact ⟨[], rfl, Nat.zero_le m⟩
  obtain ⟨pre, hpre, hlen⟩ := hprefix
  obtain ⟨name, hname, -⟩ := (cstring_of_end (by omega) hname :
    ∃ name, cstring r (256 - pre.length) tarName = some name ∧ name.length ≤ n)
  refine ⟨pre ++ name, ?_⟩
  unfold tarPath
  rw [hpre]
  change (cstring r (256 - pre.length) tarName).bind _ = _
  rw [hname]
  rfl

end Paths

/-! The state of the loop. -/

theorem tarIter_cases {r : Option ℕ} (h : tarIter nameOk root header t = some (r, u)) :
    tarSkips t.mem header = true ∧ r = some (w32 (header + 512)) ∧ u = t ∨
    tarSkips t.mem header = false ∧ nameOk = true ∧ ∃ name length, tarPath (bytesAt t.mem header) = some name ∧
      tarAdd root header name t = some (length, u) ∧
      r = length.map fun length => w32 (header + 512 + w32 (w32 length + 511) / 512 * 512) := by
  rw [tarIter, Comp.read_bind] at h
  by_cases hskip : t.bytes header tarName = 0 ∧ t.bytes header tarSize = 0
  · rw [if_pos hskip] at h
    cases h
    exact Or.inl ⟨decide_eq_true hskip, rfl, rfl⟩
  · rw [if_neg hskip] at h
    cases nameOk with
    | false => cases h
    | true =>
      rw [if_pos rfl] at h
      obtain ⟨name, t', hname, h⟩ := Comp.bind_eq_some.mp h
      rw [Comp.readOr_apply, Option.map_eq_some_iff] at hname
      obtain ⟨name', hname, heq⟩ := hname
      cases heq
      obtain ⟨length, u', hadd, h⟩ := Comp.bind_eq_some.mp h
      cases h
      exact Or.inr ⟨decide_eq_false hskip, rfl, name, length, hname, hadd, rfl⟩

/-- The archive as the loop has built it so far, over the memory and the heap of `s`. -/
structure TarGrown (s : TarFs) (top : ℕ) (t : TarFs) (ptr : ℕ → ℕ) (headers : List ℕ) : Prop extends
    TarBuilt t ptr headers where
  ptrTop : ptr 0 = top
  mountpoint : (t.nodes top).flags = vfsMountpoint
  mem : t.mem = s.mem
  heap : t.heapOk = s.heapOk

/-- What an iteration that goes on does. -/
theorem TarGrown.iter (h : TarGrown s root t ptr headers) (hiter : tarIter nameOk root header t = some (some next, u)) :
    tarNext s.mem header = some next ∧
      (tarSkips s.mem header = true ∧ u = t ∨
        tarSkips s.mem header = false ∧ nameOk = true ∧ PathFits (bytesAt s.mem header) ∧
          ∃ length, strtoull (bytesAt s.mem header) tarSize 8 = some length ∧ TarEntryAdded t u ptr header length ∧
            TarGrown s root u (Function.update ptr t.nodeCount t.nextNode) (headers ++ [header])) := by
  obtain ⟨hskip, hnext, rfl⟩ | ⟨hskip, hname, name, length, hpath, hadd, hnext⟩ := tarIter_cases hiter
  · rw [h.mem] at hskip
    refine ⟨?_, Or.inl ⟨hskip, rfl⟩⟩
    rw [tarNext, if_pos hskip, ← hnext]
  · rw [h.mem] at hskip hpath
    cases length with
    | none => cases hnext
    | some length =>
      obtain rfl := Option.some.inj hnext
      rw [← h.ptrTop] at hadd
      have ha := h.added hadd
      have hlength : strtoull (bytesAt s.mem header) tarSize 8 = some length := by
        rw [← h.mem]
        exact ha.length
      have hroot : ptr 0 ≠ t.nextNode := (h.fresh 0 h.pos).ne
      refine ⟨?_, Or.inr ⟨hskip, hname, (tarPath_fits hpath).1, length, hlength, ha, h.extend ha.toTarAdded, ?_, ?_,
        ha.mem.trans h.mem, ha.heap.trans h.heap⟩⟩
      · rw [tarNext, if_neg (by simp [hskip])]
        exact Option.map_eq_some_iff.mpr ⟨length, hlength, rfl⟩
      · rw [Function.update_of_ne h.pos.ne]
        exact h.ptrTop
      · rw [← h.ptrTop, ha.nodes _ hroot, h.ptrTop]
        exact h.mountpoint

/-- What is reached was scanned, and the entries of the archive are among what was scanned. -/
theorem TarReach.grown (h : TarReach nameOk root last start s n header t) (h₀ : TarGrown s root s ptr []) :
    ∃ ptr headers, TarGrown s root t ptr headers ∧ TarScanned s.mem last start header ∧
      ∀ a ∈ headers, TarScanned s.mem last start a ∧ a < last ∧ tarSkips s.mem a = false := by
  induction h with
  | start => exact ⟨ptr, [], h₀, .refl, fun _ ha => nomatch ha⟩
  | @next n header next t u _ hlast hiter ih =>
    obtain ⟨ptr, headers, hgrown, hscan, hentries⟩ := ih
    obtain ⟨hnext, ⟨hskip, rfl⟩ | ⟨hskip, -, hfits, length, -, -, hgrown'⟩⟩ := hgrown.iter hiter
    · exact ⟨ptr, headers, hgrown, hscan.tail ⟨hlast, Or.inl hskip, hnext⟩, hentries⟩
    · refine ⟨_, _, hgrown', hscan.tail ⟨hlast, Or.inr hfits, hnext⟩, fun a ha => ?_⟩
      rcases List.mem_append.mp ha with ha | ha
      · exact hentries a ha
      · obtain rfl := List.mem_singleton.mp ha
        exact ⟨hscan, hlast, hskip⟩

theorem tarAlloc_eq {ok : Bool} (h : s.heapOk s.heapCalls = ok) :
    tarAlloc s = some (ok, { s with heapCalls := s.heapCalls + 1 }) := by
  rw [← h]
  rfl

/-- The root node, in a state where it is one of the nodes. -/
theorem tarRoot_some {r : Option ℕ} (hroot : ∀ v, r = some v → v < s.nextNode) (h : tarRoot r s = some (some root, t)) :
    root < t.nextNode ∧ t.mem = s.mem ∧ t.heapOk = s.heapOk ∧ t.junk = s.junk := by
  cases r with
  | some v =>
    cases h
    exact ⟨hroot root rfl, rfl, rfl, rfl⟩
  | none =>
    obtain ⟨node, s₁, halloc, h⟩ := Comp.bind_eq_some.mp h
    cases node with
    | none => cases h
    | some v =>
      obtain ⟨rfl, rfl⟩ := tarAllocNode_some halloc
      cases h
      exact ⟨Nat.lt_succ_self _, rfl, rfl, rfl⟩

/-- Before the loop there is the root alone. -/
theorem tarBegin_grown {r : Option ℕ} (hroot : ∀ v, r = some v → v < s.nextNode)
    (h : tarBegin r s = some (some (root, nameOk), s₀)) :
    TarGrown s₀ root s₀ (fun _ => root) [] ∧ s₀.mem = s.mem ∧ s₀.heapOk = s.heapOk ∧
      ∀ data, (∀ i, (s.junk i).data = data) → s₀.Stale data := by
  obtain ⟨found, s₁, hfound, h⟩ := Comp.bind_eq_some.mp h
  cases found with
  | none => cases h
  | some v =>
    dsimp only at h
    cases hinfo : s₁.heapOk s₁.heapCalls with
    | false =>
      rw [Comp.bind_of_eq (tarAlloc_eq hinfo)] at h
      cases h
    | true =>
      rw [Comp.bind_of_eq (tarAlloc_eq hinfo), if_pos rfl] at h
      cases hitems : s₁.heapOk (s₁.heapCalls + 1) with
      | false =>
        rw [Comp.bind_of_eq (tarAlloc_eq hitems)] at h
        cases h
      | true =>
        rw [Comp.bind_of_eq (tarAlloc_eq hitems), if_pos rfl] at h
        cases h
        obtain ⟨hlt, hmem, hheap, hjunk⟩ := tarRoot_some hroot hfound
        have hb := @TarFs.setRoot_built { s₁ with heapCalls := s₁.heapCalls + 1 + 1 } root hlt
        refine ⟨⟨⟨⟨hb.pos, hb.root, hb.node, hb.inode, hb.parent⟩, hb.count, hb.room, hb.aligned, hb.fresh,
          fun _ _ hi => nomatch hi⟩, rfl, ?_, rfl, rfl⟩, hmem, hheap, fun data hdata => ⟨fun i => ?_, ?_⟩⟩
        · simp [TarFs.setRoot]
        · exact (congrArg (fun junk => (junk i).data) hjunk).trans (hdata i)
        · intro i item hi hitem
          obtain ⟨i, rfl⟩ := Nat.exists_eq_add_of_le' (show 1 ≤ i from hi)
          obtain ⟨hlt, rfl⟩ := List.getElem?_eq_some_iff.mp hitem
          simp [TarFs.setRoot, hjunk, hdata]

/-! With memory left, an iteration is only stopped by a path that does not fit. -/

section Total

variable {r : ℕ → UInt8} {k j inode : ℕ}

theorem skipSpaces_total (hj : k ≤ j) (hlt : j < k + fuel) (hend : r j = 0) : ∃ k', skipSpaces r fuel k = some k' := by
  induction fuel generalizing k with
  | zero => omega
  | succ fuel ih =>
    rw [skipSpaces]
    by_cases hspace : isSpace (r k) = true
    · have hne : k ≠ j := by
        rintro rfl
        rw [hend] at hspace
        cases hspace
      rw [if_pos hspace]
      exact ih (by omega) (by omega)
    · exact ⟨k, if_neg hspace⟩

theorem strtoullDigits_total {base result : ℕ} (hj : k ≤ j) (hlt : j < k + fuel) (hend : r j = 0) :
    ∃ v, strtoullDigits base r fuel k result = some v := by
  induction fuel generalizing k result with
  | zero => omega
  | succ fuel ih =>
    rw [strtoullDigits]
    by_cases hzero : r k = 0
    · exact ⟨result, if_pos hzero⟩
    · have hne : k ≠ j := by
        rintro rfl
        exact hzero hend
      rw [if_neg hzero]
      cases digitOf (r k) with
      | none => exact ⟨result, rfl⟩
      | some d =>
        dsimp only
        split_ifs
        · exact ⟨result, rfl⟩
        · exact ⟨uint64Max, rfl⟩
        · exact ⟨uint64Max, rfl⟩
        · exact ih (by omega) (by omega)

/-- Addresses wrap, and so a terminator comes again. -/
theorem bytesAt_end {mem : ℕ → UInt8} {a i : ℕ} (hend : bytesAt mem a i = 0) (k : ℕ) :
    ∃ j, k ≤ j ∧ j < k + stringFuel ∧ bytesAt mem a j = 0 := by
  refine ⟨k + (i + (4294967296 - k % 4294967296)) % 4294967296, Nat.le_add_right _ _, ?_, ?_⟩
  · unfold stringFuel
    omega
  · rw [← hend]
    unfold bytesAt w32
    congr 1
    omega

theorem strtoull_total {base : ℕ} (hend : ∀ k, ∃ j, k ≤ j ∧ j < k + stringFuel ∧ r j = 0) (k : ℕ) :
    ∃ v, strtoull r k base = some v := by
  unfold strtoull
  obtain ⟨j, hj, hlt, h⟩ := hend (if r k = 43 ∨ r k = 45 then k + 1 else k)
  obtain ⟨k', hk'⟩ := skipSpaces_total hj hlt h
  obtain ⟨j', hj', hlt', h'⟩ := hend k'
  obtain ⟨v, hv⟩ : ∃ v, strtoullDigits base r stringFuel k' 0 = some v := strtoullDigits_total hj' hlt' h'
  refine ⟨v, ?_⟩
  dsimp only
  rw [hk', Option.bind_some, hv]

theorem strtoul_total {base : ℕ} (hend : ∀ k, ∃ j, k ≤ j ∧ j < k + stringFuel ∧ r j = 0) (k : ℕ) :
    ∃ v, strtoul r k base = some v := by
  obtain ⟨v, hv⟩ : ∃ v, strtoull r k base = some v := strtoull_total hend k
  exact ⟨_, congrArg _ hv⟩

theorem tarLoadNode_total (hend : ∀ k, ∃ j, k ≤ j ∧ j < k + stringFuel ∧ r j = 0) (inode : ℕ) (n : TarNode) :
    ∃ n', tarLoadNode r inode n = some n' := by
  obtain ⟨uid, huid⟩ : ∃ v, strtoul r tarUid 8 = some v := strtoul_total hend tarUid
  obtain ⟨gid, hgid⟩ : ∃ v, strtoul r tarGid 8 = some v := strtoul_total hend tarGid
  obtain ⟨length, hlength⟩ : ∃ v, strtoull r tarSize 8 = some v := strtoull_total hend tarSize
  obtain ⟨mtime, hmtime⟩ : ∃ v, strtoul r tarMtime 8 = some v := strtoul_total hend tarMtime
  unfold tarLoadNode
  rw [huid, hgid, hlength, hmtime]
  exact ⟨_, rfl⟩

theorem tarFindParent_total {parent len i : ℕ} {path : Str}
    (h : ∀ j, i ≤ j → j < i + n → ∃ v, s.hierarchy[j]?.bind (·.node) = some v) :
    ∃ found, tarFindParent s parent path len n i = some found := by
  induction n generalizing i with
  | zero => exact ⟨none, rfl⟩
  | succ n ih =>
    obtain ⟨v, hv⟩ := h i (Nat.le_refl i) (by omega)
    obtain ⟨item, hitem, hnode⟩ := Option.bind_eq_some_iff.mp hv
    obtain ⟨found, hfound⟩ : ∃ found, tarFindParent s parent path len n (i + 1) = some found :=
      ih fun j hlow hhigh => h j (by omega) (by omega)
    rw [tarFindParent, hitem]
    change ∃ found, (if item.parent = some parent then item.node.bind _ else _) = some found
    rw [hnode]
    split_ifs with hparent
    · rw [Option.bind_some]
      dsimp only
      split_ifs
      · exact ⟨some v, rfl⟩
      · exact ⟨found, hfound⟩
    · exact ⟨found, hfound⟩

theorem tarPlace_total {v parent : ℕ} {path : Str} (hfuel : path.length < fuel) (hpath : path.length < 256)
    (hin : inode < s.hierarchy.length) (hnode : ∀ i < inode, ∃ v, s.hierarchy[i]?.bind (·.node) = some v) :
    ∃ t, tarPlace v inode fuel path parent s = some ((), t) := by
  induction fuel generalizing path parent with
  | zero => omega
  | succ fuel ih =>
    obtain ⟨c, rest, htrav, -, hcases⟩ := pathTraverse_cases path
    have hshort : c.length ≤ path.length ∧ (rest ≠ [] → rest.length < path.length) := by
      obtain ⟨rfl, rfl⟩ | rfl := hcases
      · exact ⟨Nat.le_refl _, fun h => absurd rfl h⟩
      · rw [List.length_append, List.length_cons]
        exact ⟨by omega, fun _ => by omega⟩
    rw [tarPlace, htrav]
    dsimp only
    by_cases hrest : rest = []
    · rw [if_pos hrest, if_neg (by omega), Comp.modify_bind]
      exact ⟨_, tarSetItem_run hin⟩
    · have hlt := hshort.2 hrest
      obtain ⟨found, hfound⟩ : ∃ found, tarFindParent s parent path c.length (inode - 1) 1 = some found :=
        tarFindParent_total fun j _ hj => hnode j (by omega)
      have hread : (Comp.readOr fun s => tarFindParent s parent path c.length (inode - 1) 1 : TarOp (Option ℕ)) s =
          some (found, s) := Comp.readOr_eq hfound
      rw [if_neg hrest, Comp.bind_of_eq hread]
      exact ih (by omega) (by omega)

theorem TarBuilt.add_total {name : Str} (h : TarBuilt s ptr headers) (hheap : ∀ n, s.heapOk n = true)
    (hend : ∀ k, ∃ j, k ≤ j ∧ j < k + stringFuel ∧ s.bytes header j = 0) (hname : name.length < 256) :
    ∃ length t, tarAdd root header name s = some (some length, t) := by
  let s₁ : TarFs := { s with heapCalls := s.heapCalls + 1, nextNode := s.nextNode + 1 }
  have halloc : tarAllocNode s = some (some s.nextNode, s₁) := by
    rw [tarAllocNode, Comp.bind_of_eq (tarAlloc_run hheap)]
    rfl
  obtain ⟨calls, items, hgrow, hcount, hold⟩ := @tarGrow_run s₁ hheap s.nodeCount
  have hroom : s.nodeCount ≤ s₁.hierarchy.length := h.room
  have haligned : 4 ∣ s₁.hierarchy.length := h.aligned
  have hin : s.nodeCount < items.length := by
    split_ifs at hcount <;> omega
  let s₂ : TarFs := { s₁ with heapCalls := calls, hierarchy := items, nodeCount := s.nodeCount + 1 }
  let s₃ := s₂.setItem s.nodeCount fun item => { item with node := some s.nextNode }
  have hset : tarSetItem s.nodeCount (fun item => { item with node := some s.nextNode }) s₂ = some ((), s₃) :=
    tarSetItem_run hin
  obtain ⟨n, hload⟩ : ∃ n, tarLoadNode (s₃.bytes header) s.nodeCount (s₃.nodes s.nextNode) = some n :=
    tarLoadNode_total hend s.nodeCount (s₃.nodes s.nextNode)
  have hread : (Comp.readOr fun s' => tarLoadNode (s'.bytes header) s.nodeCount (s'.nodes s.nextNode) : TarOp TarNode) s₃ =
      some (n, s₃) := Comp.readOr_eq hload
  let s₄ := s₃.setNode s.nextNode fun _ => n
  have hin₃ : s.nodeCount < s₄.hierarchy.length := by
    change s.nodeCount < s₃.hierarchy.length
    rw [TarFs.setItem_length]
    exact hin
  obtain ⟨s₅, hdata⟩ : ∃ s₅, Comp.when (n.flags = vfsFile ∧ n.length ≠ 0)
      (tarSetItem s.nodeCount fun item => { item with data := w32 (header + 512) }) s₄ = some ((), s₅) := by
    by_cases hp : n.flags = vfsFile ∧ n.length ≠ 0
    · rw [Comp.when_true hp]
      exact ⟨_, tarSetItem_run hin₃⟩
    · rw [Comp.when_false hp]
      exact ⟨_, rfl⟩
  obtain ⟨g, hs₅, -⟩ := tarSetData_run hin₃ hdata
  have hold₅ : ∀ i < s.nodeCount, s₅.hierarchy[i]? = s.hierarchy[i]? := by
    intro i hi
    rw [hs₅, TarFs.setItem_of_ne hi.ne]
    exact (TarFs.setItem_of_ne hi.ne).trans (hold i (hi.trans_le h.room))
  have hin₅ : s.nodeCount < s₅.hierarchy.length := by
    rw [hs₅, TarFs.setItem_length]
    exact hin₃
  obtain ⟨t, hplace⟩ : ∃ t, tarPlace s.nextNode s.nodeCount (name.length + 1) name root s₅ = some ((), t) := by
    refine tarPlace_total (Nat.lt_succ_self name.length) hname hin₅ fun i hi => ⟨ptr i, ?_⟩
    rw [hold₅ i hi]
    exact h.node i hi
  refine ⟨n.length, t, ?_⟩
  rw [tarAdd, Comp.bind_of_eq halloc]
  dsimp only
  rw [Comp.read_bind, Comp.bind_of_eq hgrow, if_pos rfl, Comp.modify_bind]
  refine (Comp.bind_of_eq hset).trans ?_
  refine (Comp.bind_of_eq hread).trans ?_
  rw [Comp.modify_bind]
  refine (Comp.bind_of_eq hdata).trans ?_
  exact Comp.bind_of_eq hplace

end Total

/-- From a header that is skipped, or an entry with a path that fits, the loop goes on. -/
theorem TarGrown.iter_total (h : TarGrown s root t ptr headers)
    (hgo : tarSkips s.mem header = true ∨ (nameOk = true ∧ ∀ n, s.heapOk n = true) ∧ PathFits (bytesAt s.mem header)) :
    ∃ next u, tarIter nameOk root header t = some (some next, u) := by
  rw [tarIter, Comp.read_bind]
  by_cases hskip : t.bytes header tarName = 0 ∧ t.bytes header tarSize = 0
  · rw [if_pos hskip]
    exact ⟨_, t, rfl⟩
  · have hskips : tarSkips s.mem header = false := by
      rw [← h.mem]
      exact decide_eq_false hskip
    rw [hskips] at hgo
    obtain ⟨⟨rfl, hheap⟩, hfits⟩ := hgo.resolve_left nofun
    obtain ⟨name, hname⟩ := hfits.path
    obtain ⟨m, n, -, -, hend⟩ := hfits
    have hbytes : t.bytes header = bytesAt s.mem header := TarFs.bytes_eq h.mem header
    have hheap' : ∀ n, t.heapOk n = true := by
      rw [h.heap]
      exact hheap
    obtain ⟨length, u, hadd⟩ : ∃ length u, tarAdd root header name t = some (some length, u) := by
      refine h.add_total hheap' ?_ (tarPath_fits hname).2
      rw [hbytes]
      exact bytesAt_end hend
    have hread : (Comp.readOr fun _ => tarPath (bytesAt s.mem header) : TarOp Str) t = some (name, t) :=
      Comp.readOr_eq hname
    rw [if_neg hskip, if_pos rfl, hbytes, Comp.bind_of_eq hread, Comp.bind_of_eq hadd]
    exact ⟨_, u, rfl⟩

/-- The loop comes to whatever the scan comes to, as long as the entries find memory and a `name` buffer. -/
theorem TarReach.of_scanned (h₀ : TarGrown s root s ptr [])
    (hname : ∀ n a t, TarReach nameOk root last start s n a t → a < last →
      tarSkips s.mem a = true ∨ nameOk = true ∧ ∀ n, s.heapOk n = true)
    (h : TarScanned s.mem last start header) : ∃ n t, TarReach nameOk root last start s n header t := by
  induction h with
  | refl => exact ⟨0, s, .start⟩
  | @tail a b _ hstep ih =>
    obtain ⟨n, t, hreach⟩ := ih
    obtain ⟨hlast, hgo, hnext⟩ := hstep
    obtain ⟨ptr', headers, hgrown, -⟩ := hreach.grown h₀
    have hname' := hname n a t hreach hlast
    obtain ⟨next, u, hiter⟩ : ∃ next u, tarIter nameOk root a t = some (some next, u) :=
      hgrown.iter_total (hgo.elim Or.inl fun hfits => hname'.imp_right fun hok => ⟨hok, hfits⟩)
    obtain rfl := Option.some.inj (hnext.symm.trans (hgrown.iter hiter).1)
    exact ⟨n + 1, u, hreach.next hlast hiter⟩

/-- A heap that leaves `data` in the items and answers as `heapOk` says, with nothing in it yet. -/
def tarBlank (mem : ℕ → UInt8) (data : ℕ) (heapOk : ℕ → Bool) : TarFs where
  mem := mem
  nodes := fun _ =>
    { name := [], flags := 0, uid := 0, gid := 0, inode := 0, length := 0, mtime := 0, hooked := false }
  nextNode := 0
  hierarchy := []
  nodeCount := 0
  junk := fun _ => ⟨none, data, none⟩
  heapOk := heapOk
  heapCalls := 0
  vfsRoot := none

/-- Every start of the loop is possible. -/
theorem tarBegin_blank (mem : ℕ → UInt8) (data : ℕ) (heapOk : ℕ → Bool) (h : ∀ n < 3, heapOk n = true) :
    ∃ s₀, tarBegin none (tarBlank mem data heapOk) = some (some (0, heapOk 3), s₀) ∧ s₀.heapOk = heapOk := by
  have hnode : tarAllocNode (tarBlank mem data heapOk) =
      some (some 0, { tarBlank mem data heapOk with heapCalls := 1, nextNode := 1 }) := by
    rw [tarAllocNode, Comp.bind_of_eq (tarAlloc_eq (h 0 (by omega)))]
    rfl
  have hroot : tarRoot none (tarBlank mem data heapOk) = some (some 0, { tarBlank mem data heapOk with
      heapCalls := 1, nextNode := 1 }.setNode 0 fun n => { n with name := [], uid := 0, gid := 0 }) := by
    rw [tarRoot, Comp.bind_of_eq hnode]
    rfl
  rw [tarBegin, Comp.bind_of_eq hroot]
  dsimp only
  rw [Comp.bind_of_eq (tarAlloc_eq (h 1 (by omega))), if_pos rfl, Comp.bind_of_eq (tarAlloc_eq (h 2 (by omega))),
    if_pos rfl, Comp.modify_bind]
  exact ⟨_, rfl, rfl⟩

end SysX
