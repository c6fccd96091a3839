import SysX.PathWalk
import SysX.TarScan

/-! The writes to the 256 bytes of a name: in the walk along a path, and in the loop of `tar_init`. -/
namespace SysX

variable {σ : Type} {s t : σ} {path rest : Str} {node : Option ℕ} {find : Option ℕ → Str → Comp σ (Option ℕ)}

/-- How many bytes of `name` the loop of `vfs_traverse_path` writes for the first element of a path. -/
def walkWritten (path : Str) : ℕ :=
  let len := (pathTraverse path).2
  if len = 0 ∨ len = 1 ∧ path.head? = some dot then 0 else len + 1

/-- One iteration of the loop of `vfs_traverse_path`: the rest of the path and the next node. -/
def walkIter (find : Option ℕ → Str → Comp σ (Option ℕ)) (path : Str) (v : ℕ) : Comp σ (Str × Option ℕ) :=
  let (rest, len) := pathTraverse path
  if len = 0 ∨ len = 1 ∧ path.head? = some dot then pure (rest, some v)
  else if 256 ≤ len then Comp.fault
  else do
    let node ← find (some v) (path.take len)
    pure (rest, node)

theorem walkPath_succ (fuel : ℕ) (path : Str) (node : Option ℕ) : walkPath find (fuel + 1) path node = match node with
    | none => pure none
    | some v => if path = [] then pure (some v) else (do
      let (rest, node) ← walkIter find path v
      walkPath find fuel rest node) := by
  cases node with
  | none => rfl
  | some v =>
    rw [walkPath]
    unfold walkIter
    dsimp only
    split_ifs
    · rfl
    · rfl
    · rfl
    · rw [Comp.bind_assoc]
      rfl

/-- The loop goes from the path and the node of one state to those of the next. -/
def WalkStep (find : Option ℕ → Str → Comp σ (Option ℕ)) (a b : Str × Option ℕ × σ) : Prop :=
  ∃ v, a.2.1 = some v ∧ a.1 ≠ [] ∧ walkIter find a.1 v a.2.2 = some ((b.1, b.2.1), b.2.2)

/-- No write is out of bounds, wherever the loop comes from a path and a node on. -/
def WalkSafe (find : Option ℕ → Str → Comp σ (Option ℕ)) (path : Str) (node : Option ℕ) (s : σ) : Prop :=
  ∀ rest v t, Relation.ReflTransGen (WalkStep find) (path, node, s) (rest, some v, t) → rest ≠ [] → walkWritten rest ≤ 256

/-- No node is left to look up the long elements of a path from. -/
def LongMissed (find : Option ℕ → Str → Comp σ (Option ℕ)) (path : Str) (node : Option ℕ) (s : σ) : Prop :=
  ∀ pre e post, pathElements path = pre ++ e :: post → 256 ≤ e.length → ∀ w t, pre.foldlM find node s ≠ some (some w, t)

/-! The walk. -/

/-- The first element of a path, with what an iteration does with it. -/
theorem walkIter_cases (find : Option ℕ → Str → Comp σ (Option ℕ)) (hpath : path ≠ []) :
    ∃ c rest, rest.length < path.length ∧
      ((pathElements path = pathElements rest ∧ walkWritten path = 0 ∧ ∀ v, walkIter find path v = pure (rest, some v)) ∨
        pathElements path = c :: pathElements rest ∧ walkWritten path = c.length + 1 ∧ ∀ v, walkIter find path v =
          if 256 ≤ c.length then Comp.fault else (do
            let node ← find (some v) c
            pure (rest, node))) := by
  obtain ⟨c, rest, htrav, hc, hcases, htake, hskip, hshort⟩ := pathTraverse_first path
  have helements := pathElements_of_element hc hcases
  refine ⟨c, rest, hshort hpath, ?_⟩
  unfold walkWritten walkIter
  simp only [htrav, htake]
  by_cases hdrop : c = [] ∨ c = [dot]
  · rw [if_pos hdrop] at helements
    simp only [if_pos (hskip.mpr hdrop)]
    exact Or.inl ⟨helements, trivial, fun _ => trivial⟩
  · rw [if_neg hdrop] at helements
    simp only [if_neg fun h => hdrop (hskip.mp h)]
    exact Or.inr ⟨helements, trivial, fun _ => trivial⟩

/-- The loop has looked up the elements in front of the rest of the path. -/
theorem WalkStep.elements {rest : Str} {node' : Option ℕ} {t : σ}
    (h : Relation.ReflTransGen (WalkStep find) (path, node, s) (rest, node', t)) :
    ∃ pre, pathElements path = pre ++ pathElements rest ∧ pre.foldlM find node s = some (node', t) := by
  generalize hb : (rest, node', t) = b at h
  induction h generalizing rest node' t with
  | refl =>
    cases hb
    exact ⟨[], rfl, rfl⟩
  | @tail a b _ hstep ih =>
    subst hb
    obtain ⟨v, hv, hne, hiter⟩ := hstep
    obtain ⟨mid, node₁, t₁⟩ := a
    obtain rfl : node₁ = some v := hv
    obtain ⟨pre, hpre, hfold⟩ := ih rfl
    obtain ⟨c, rest', -, ⟨helements, -, hrun⟩ | ⟨helements, -, hrun⟩⟩ := walkIter_cases find hne
    · rw [hrun v] at hiter
      cases hiter
      exact ⟨pre, hpre.trans (congrArg _ helements), hfold⟩
    · rw [hrun v] at hiter
      by_cases hlong : 256 ≤ c.length
      · rw [if_pos hlong] at hiter
        cases hiter
      · rw [if_neg hlong] at hiter
        obtain ⟨node₂, t₂, hfind, hiter⟩ := Comp.bind_eq_some.mp hiter
        cases hiter
        refine ⟨pre ++ [c], ?_, ?_⟩
        · rw [hpre, helements, List.append_assoc]
          rfl
        · rw [List.foldlM_append, Comp.bind_of_eq hfold, List.foldlM_cons, Comp.bind_of_eq hfind]
          rfl

/-- An element that is too long is written when a node is left. -/
theorem WalkStep.overflow {pre post : List Str} {e : Str} {v w : ℕ} (hnone : ∀ name, find none name = pure none)
    (helements : pathElements path = pre ++ e :: post) (hlong : 256 ≤ e.length)
    (hfold : pre.foldlM find (some v) s = some (some w, t)) :
    ∃ rest v' t', Relation.ReflTransGen (WalkStep find) (path, some v, s) (rest, some v', t') ∧ rest ≠ [] ∧
      256 < walkWritten rest := by
  suffices h : ∀ n, ∀ {path : Str} {pre : List Str} {v : ℕ} {s : σ}, path.length ≤ n → pathElements path = pre ++ e :: post →
      pre.foldlM find (some v) s = some (some w, t) →
      ∃ rest v' t', Relation.ReflTransGen (WalkStep find) (path, some v, s) (rest, some v', t') ∧ rest ≠ [] ∧
        256 < walkWritten rest from h path.length (Nat.le_refl _) helements hfold
  clear helements hfold
  intro n
  induction n with
  | zero =>
    intro path pre v s hn helements
    obtain rfl := List.length_eq_zero_iff.mp (Nat.le_zero.mp hn)
    cases pre <;> cases helements
  | succ n ih =>
    intro path pre v s hn helements hfold
    have hne : path ≠ [] := by
      rintro rfl
      cases pre <;> cases helements
    obtain ⟨c, rest, hshort, ⟨heq, -, hrun⟩ | ⟨heq, hwritten, hrun⟩⟩ := walkIter_cases find hne
    · obtain ⟨rest', v', t', hreach, hout⟩ := ih (Nat.le_of_lt_succ (hshort.trans_le hn)) (heq.symm.trans helements) hfold
      exact ⟨rest', v', t', .head ⟨v, rfl, hne, by rw [hrun v]; rfl⟩ hreach, hout⟩
    · by_cases hover : 256 ≤ c.length
      · exact ⟨path, v, s, .refl, hne, by omega⟩
      · rw [heq] at helements
        cases pre with
        | nil =>
          obtain ⟨rfl, -⟩ := List.cons.inj helements
          exact absurd hlong hover
        | cons c' pre =>
          obtain ⟨rfl, hrest⟩ := List.cons.inj helements
          rw [List.foldlM_cons] at hfold
          obtain ⟨node, s₁, hfind, hfold⟩ := Comp.bind_eq_some.mp hfold
          have hstep : WalkStep find (path, some v, s) (rest, node, s₁) := by
            refine ⟨v, rfl, hne, ?_⟩
            rw [hrun v, if_neg hover, Comp.bind_of_eq hfind]
            rfl
          cases node with
          | none =>
            rw [foldlM_none hnone] at hfold
            cases hfold
          | some v₁ =>
            obtain ⟨rest', v', t', hreach, hout⟩ := ih (Nat.le_of_lt_succ (hshort.trans_le hn)) hrest hfold
            exact ⟨rest', v', t', .head hstep hreach, hout⟩

theorem walkSafe_iff (hnone : ∀ name, find none name = pure none) : WalkSafe find path node s ↔ LongMissed find path node s := by
  constructor
  · intro h pre e post helements hlong w t hfold
    cases node with
    | none =>
      rw [foldlM_none hnone] at hfold
      cases hfold
    | some v =>
      obtain ⟨rest, v', t', hreach, hne, hout⟩ := WalkStep.overflow hnone helements hlong hfold
      have hin := h rest v' t' hreach hne
      omega
  · intro h rest v t hreach hne
    by_contra hout
    obtain ⟨pre, hpre, hfold⟩ := WalkStep.elements hreach
    obtain ⟨c, rest', -, ⟨-, hwritten, -⟩ | ⟨heq, hwritten, -⟩⟩ := walkIter_cases find hne
    · omega
    · exact h pre c (pathElements rest') (hpre.trans (congrArg _ heq)) (by omega) v t hfold

/-- The loop of `vfs_traverse_path` starts from `node` in the state `s₁`. -/
def TraverseFrom (vfsRoot : σ → Option ℕ) (alloc : Comp σ Bool) (startNode : Option ℕ) (path : Str) (s : σ) (node : Option ℕ)
    (s₁ : σ) : Prop :=
  (startNode ≠ none ∨ path.head? = some slash) ∧ node = startNode.or (vfsRoot s) ∧ alloc s = some (true, s₁)

theorem TraverseFrom.run {dir : σ → ℕ → DirNode σ} {vfsRoot : σ → Option ℕ} {alloc : Comp σ Bool} {startNode : Option ℕ}
    {s₁ : σ} (h : TraverseFrom vfsRoot alloc startNode path s node s₁) :
    traversePath dir vfsRoot alloc startNode path s = walkPath (dirFind dir) path.length path node s₁ := by
  obtain ⟨hstart, rfl, halloc⟩ := h
  unfold traversePath
  rw [Comp.read_bind, if_neg fun hnone => hstart.elim (fun h => h hnone.1) hnone.2]
  exact Comp.bind_of_eq halloc

/-! The loop of `tar_init`. -/

/-- The path of the header fits into `name`, which is there, and its elements into the names of nodes. -/
def NameWritesFit (nameOk : Bool) (r : ℕ → UInt8) : Prop :=
  nameOk = true ∧ ∃ path, tarPath r = some path ∧ ∀ e ∈ path.splitOn slash, e.length < 256

/-- No write of `tar_init` over a memory is out of bounds, where `nameOk` tells whether `name` is allocated. -/
def TarSafe (mem : ℕ → UInt8) (buffer last : ℕ) (nameOk : Bool) : Prop :=
  ∀ (r : Option ℕ) (s s₀ : TarFs) root, s.mem = mem → (∀ v, r = some v → v < s.nextNode) →
    tarBegin r s = some (some (root, nameOk), s₀) → ∀ n header t, TarReach nameOk root last buffer s₀ n header t →
      header < last → tarSkips t.mem header = false → NameWritesFit nameOk (t.bytes header)

/-- The prefix and the name of every entry that the scan comes to end soon enough. -/
def TarNamesFit (mem : ℕ → UInt8) (buffer last : ℕ) (nameOk : Bool) : Prop :=
  ∀ header, TarScanned mem last buffer header → header < last → tarSkips mem header = false →
    nameOk = true ∧ PathFits (bytesAt mem header)

theorem nameWritesFit_iff {nameOk : Bool} {r : ℕ → UInt8} : NameWritesFit nameOk r ↔ nameOk = true ∧ PathFits r := by
  refine and_congr_right fun _ => ⟨fun ⟨path, hpath, _⟩ => (tarPath_fits hpath).1, fun h => ?_⟩
  obtain ⟨path, hpath⟩ := h.path
  refine ⟨path, hpath, fun e he => ?_⟩
  have hle := length_le_spell_of_mem he false
  have hspell : spell (path.splitOn slash) false = path := by
    unfold spell
    rw [if_neg nofun, List.append_nil]
    exact List.intercalate_splitOn slash
  rw [hspell] at hle
  exact hle.trans_lt (tarPath_fits hpath).2

theorem tarSafe_iff {mem : ℕ → UInt8} {buffer last : ℕ} {nameOk : Bool} :
    TarSafe mem buffer last nameOk ↔ TarNamesFit mem buffer last nameOk := by
  constructor
  · intro h header hscan hlast hskip
    have hnone : ∀ v, none = some v → v < (tarBlank mem 0 fun n => n ≠ 3 || nameOk).nextNode := by simp
    obtain ⟨s₀, hbegin, hheap⟩ := tarBegin_blank mem 0 (fun n => n ≠ 3 || nameOk) fun n hn => by
      have hne : n ≠ 3 := by omega
      simp [hne]
    obtain ⟨h₀, hmem, -⟩ := tarBegin_grown hnone hbegin
    replace hmem : s₀.mem = mem := hmem
    have hok : (3 ≠ 3 || nameOk) = nameOk := by simp
    have hfit : ∀ n a t, TarReach nameOk 0 last buffer s₀ n a t → a < last → tarSkips mem a = false →
        nameOk = true ∧ PathFits (bytesAt mem a) := by
      intro n a t hreach hlt hskip
      obtain ⟨ptr, headers, hgrown, -⟩ := hreach.grown h₀
      have hmem' : t.mem = mem := hgrown.mem.trans hmem
      have hbytes : t.bytes a = bytesAt mem a := TarFs.bytes_eq hmem' a
      rw [← hmem'] at hskip
      rw [← hbytes, ← nameWritesFit_iff]
      exact h none _ s₀ 0 rfl hnone (by simpa using hbegin) n a t hreach hlt hskip
    have hgo : ∀ n a t, TarReach nameOk 0 last buffer s₀ n a t → a < last →
        tarSkips s₀.mem a = true ∨ nameOk = true ∧ ∀ n, s₀.heapOk n = true := by
      intro n a t hreach hlt
      rw [hmem]
      cases hskip : tarSkips mem a with
      | true => exact Or.inl rfl
      | false =>
        obtain ⟨rfl, -⟩ := hfit n a t hreach hlt hskip
        refine Or.inr ⟨rfl, fun n => ?_⟩
        rw [hheap]
        simp
    rw [← hmem] at hscan
    obtain ⟨n, t, hreach⟩ := TarReach.of_scanned h₀ hgo hscan
    exact hfit n header t hreach hlast hskip
  · rintro h r s s₀ root rfl hroot hbegin n header t hreach hlast hskip
    obtain ⟨h₀, hmem, -⟩ := tarBegin_grown hroot hbegin
    obtain ⟨ptr, headers, hgrown, hscan, -⟩ := hreach.grown h₀
    have hmem' : t.mem = s.mem := hgrown.mem.trans hmem
    have hbytes : t.bytes header = bytesAt s.mem header := TarFs.bytes_eq hmem' header
    rw [hmem] at hscan
    rw [hmem'] at hskip
    rw [hbytes, nameWritesFit_iff]
    exact h header hscan hlast hskip

/-! Both. -/

/-- A walk is safe when no node is left to look up its long elements from, and `tar_init` when all its names end soon enough. -/
theorem path_buffers_iff :
    (∀ (dir : σ → ℕ → DirNode σ) vfsRoot alloc startNode path s,
      (∀ node s₁, TraverseFrom vfsRoot alloc startNode path s node s₁ → WalkSafe (dirFind dir) path node s₁) ↔
        ∀ node s₁, TraverseFrom vfsRoot alloc startNode path s node s₁ → LongMissed (dirFind dir) path node s₁) ∧
    ∀ mem buffer size nameOk, TarSafe mem buffer (w32 (buffer + size)) nameOk ↔
      TarNamesFit mem buffer (w32 (buffer + size)) nameOk := by
  refine ⟨fun dir vfsRoot alloc startNode path s => ?_, fun _ _ _ _ => tarSafe_iff⟩
  exact forall_congr' fun node => forall_congr' fun s₁ => imp_congr_right fun _ => walkSafe_iff dirFind_none

/-- The path with one element of 256 letters is looked up in the root. -/
theorem vfs_traverse_path_overflows : ¬ ∀ (dir : Unit → ℕ → DirNode Unit) vfsRoot alloc startNode path s node s₁,
    TraverseFrom vfsRoot alloc startNode path s node s₁ → WalkSafe (dirFind dir) path node s₁ := by
  intro h
  have hsafe := h dirSample (fun _ => some 1) (pure true) none (slash :: List.replicate 256 97) () (some 1) ()
    ⟨Or.inr rfl, rfl, rfl⟩
  have hfirst : WalkStep (dirFind dirSample) (slash :: List.replicate 256 97, some 1, ()) (List.replicate 256 97, some 1, ()) :=
    ⟨1, rfl, nofun, rfl⟩
  have hin := hsafe (List.replicate 256 97) 1 () (.single hfirst) (List.cons_ne_nil 97 (List.replicate 255 97))
  revert hin
  decide +kernel

end SysX
