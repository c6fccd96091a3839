import SysX.Lib.Chained
import SysX.Lib.Walk
import SysX.StringCompare

/-! The list of device nodes (`fs/devfs.c`), with the heap that nodes and hooks lie in. -/
namespace SysX

/-- The functions that `devfs_create` puts into a `vfs_hook_t`, by their addresses. -/
structure DevfsFns where
  read : ℕ
  write : ℕ
  «open» : ℕ
  close : ℕ
  ioctl : ℕ
  deriving DecidableEq

/-- A pointer to `devfs_hook_root` or to a block of the heap. -/
inductive DevfsHookPtr where
  | devfsHookRoot
  | block (a : ℕ)
  deriving DecidableEq

/-- The fields of a `vfs_node_t` that `fs/devfs.c` uses. -/
structure DevfsNode where
  name : Str
  flags : ℕ
  inode : ℕ
  length : ℕ
  hook : DevfsHookPtr
  link : Option ℕ

inductive DevfsBlock where
  | node (n : DevfsNode)
  | hook (fns : DevfsFns)

/-- The blocks of the heap by their addresses. -/
abbrev Devfs := ℕ → Option DevfsBlock

namespace Devfs

variable (s : Devfs)

def node? (v : ℕ) : Option DevfsNode :=
  match s v with
  | some (.node n) => some n
  | _ => none

def fns? (a : ℕ) : Option DevfsFns :=
  match s a with
  | some (.hook fns) => some fns
  | _ => none

/-- The functions of a hook that is allocated. -/
def hook? : DevfsHookPtr → Option DevfsFns
  | .devfsHookRoot => none
  | .block a => s.fns? a

def put (a : ℕ) (b : DevfsBlock) : Devfs := Function.update s a (some b)

/-- `kfree` of a block that is allocated. -/
def free (a : ℕ) : Option Devfs := (s a).map fun _ => Function.update s a none

/-- The link of a node. -/
def link (v : ℕ) : Option ℕ := (s.node? v).bind DevfsNode.link

end Devfs

/-- What a device is created with. `name` is the formatted name. -/
structure DevfsDevice where
  fns : DevfsFns
  block : Bool
  size : ℕ
  name : Str
  terminated : 0 ∉ name

/-- The hook to share after a node with the hook `p` was looked at. -/
def devfsShare (s : Devfs) (fns : DevfsFns) : (hook : Option ℕ) → (p : DevfsHookPtr) → Option (Option ℕ)
  | some h, _ => some (some h)
  | none, .devfsHookRoot => none
  | none, .block a => (s.fns? a).map fun f => if f = fns then some a else none

/-- The loop of `devfs_create`: the last node, and the hook of the first one with the same functions. -/
def devfsScan (s : Devfs) (fns : DevfsFns) : (fuel lastNode : ℕ) → (hook : Option ℕ) → Option (ℕ × Option ℕ)
  | 0, _, _ => none
  | fuel + 1, lastNode, hook => do
    let n ← s.node? lastNode
    let hook ← devfsShare s fns hook n.hook
    match n.link with
    | some next => devfsScan s fns fuel next hook
    | none => some (lastNode, hook)

/-- The last node, where there is one. -/
def devfsLast (fuel : ℕ) (s : Devfs) (fns : DevfsFns) (r : DevfsNode) : Option (Option ℕ × Option ℕ) :=
  match r.link with
  | none => some (none, none)
  | some first => (devfsScan s fns fuel first none).map fun p => (some p.1, p.2)

/-- The new node at `v`, and the link to it. -/
def devfsAppend (s : Devfs) (root : ℕ) (r : DevfsNode) (v : ℕ) (node : DevfsNode) : (lastNode : Option ℕ) → Option Devfs
  | none => some ((s.put v (.node node)).put root (.node { r with link := some v }))
  | some last => (s.node? last).map fun l =>
    (s.put v (.node { node with inode := w64 (l.inode + 1) })).put last (.node { l with link := some v })

/-- `devfs_create`, where the heap hands out `nodeAt` and then `hookAt`. A name that does not fit overflows. -/
def devfsCreate (fuel root : ℕ) (dev : DevfsDevice) (nodeAt hookAt : Option ℕ) (s : Devfs) : Option (Option ℕ × Devfs) := do
  let r ← s.node? root
  if r.hook ≠ .devfsHookRoot then some (none, s)
  else do
    let (lastNode, hook) ← devfsLast fuel s dev.fns r
    match nodeAt, hook.or hookAt with
    | none, _ => some (none, s)
    | some _, none => some (none, s)
    | some v, some h =>
      let s := if hook = none then s.put h (.hook dev.fns) else s
      if 256 ≤ dev.name.length then none
      else
        let node : DevfsNode :=
          { name := dev.name, flags := if dev.block then vfsBlockdev else vfsChardev, inode := 0, length := dev.size,
            hook := .block h, link := none }
        (devfsAppend s root r v node lastNode).map fun s => (some v, s)

/-- The loop of `devfs_remove`. -/
def devfsBefore (s : Devfs) (node : ℕ) : (fuel root : ℕ) → Option ℕ
  | 0, _ => none
  | fuel + 1, root => do
    let r ← s.node? root
    match r.link with
    | none => some root
    | some next => if next = node then some root else devfsBefore s node fuel next

/-- `devfs_remove` -/
def devfsRemove (fuel root node : ℕ) (s : Devfs) : Option Devfs := do
  let r ← s.node? root
  if r.hook ≠ .devfsHookRoot then some s
  else do
    let before ← devfsBefore s node fuel root
    let b ← s.node? before
    if b.link ≠ some node then do
      let n ← s.node? node
      let s := s.put before (.node { b with link := n.link })
      match n.hook with
      | .devfsHookRoot => none
      | .block h => do
        let s ← s.free h
        s.free node
    else some s

/-- The loop of `devfs_vfs_readdir`. -/
def devfsSkip (s : Devfs) : (idx : ℕ) → (node : Option ℕ) → Option (Option ℕ)
  | 0, node => some node
  | _ + 1, none => some none
  | idx + 1, some v => (s.node? v).bind fun n => devfsSkip s idx n.link

/-- `devfs_vfs_readdir`: the name and the inode of the directory entry. -/
def devfsVfsReaddir (s : Devfs) (root idx : ℕ) : Option (Option (Str × ℕ)) := do
  let r ← s.node? root
  let node ← devfsSkip s idx r.link
  match node with
  | none => some none
  | some v => (s.node? v).map fun n => some (n.name, n.inode)

/-- The loop of `devfs_vfs_finddir`. -/
def devfsFind (s : Devfs) (name : Str) : (fuel : ℕ) → (node : Option ℕ) → Option (Option ℕ)
  | _, none => some none
  | 0, some _ => none
  | fuel + 1, some v => do
    let n ← s.node? v
    if strcmp (fun i => n.name.getD i 0) 0 name = 0 then some (some v) else devfsFind s name fuel n.link

def devfsVfsFinddir (s : Devfs) (fuel root : ℕ) (name : Str) : Option (Option ℕ) := do
  let r ← s.node? root
  devfsFind s name fuel r.link

/-! What the list should be. -/

/-- A node that was created and not removed. -/
structure DevfsEntry where
  addr : ℕ
  dev : DevfsDevice

/-- The list as it is read: the nodes in the order of their creation, with inode numbers that increase, each found by
its name, and each with an allocated hook that has its functions. -/
structure DevfsListed (s : Devfs) (root : ℕ) (es : List DevfsEntry) : Prop where
  readdir : ∃ inodes : List ℕ, inodes.length = es.length ∧ inodes.Pairwise (· < ·) ∧ ∀ idx,
    devfsVfsReaddir s root idx = some ((es.zip inodes)[idx]?.map fun p => (p.1.dev.name, p.2))
  finddir : ∀ name, 0 ∉ name → ∃ N, ∀ fuel, N ≤ fuel →
    devfsVfsFinddir s fuel root name = some ((es.find? fun e => e.dev.name = name).map DevfsEntry.addr)
  hooks : ∀ e ∈ es, ∃ n, s.node? e.addr = some n ∧ s.hook? n.hook = some e.dev.fns

inductive DevfsOp where
  | create (dev : DevfsDevice) (nodeAt hookAt : ℕ)
  | remove (node : ℕ)

/-- The addresses that the heap hands out are not in use. -/
def DevfsFresh (s : Devfs) (nodeAt hookAt : ℕ) : Prop :=
  s nodeAt = none ∧ s hookAt = none ∧ nodeAt ≠ hookAt ∧ nodeAt < 4294967296

/-- Runs of calls from a mounted root on, which are all as `ok` says, with the nodes that should be listed. -/
inductive DevfsRun (root : ℕ) (ok : Devfs → List DevfsEntry → DevfsOp → Prop) : Devfs → List DevfsEntry → Prop
  | mounted {s : Devfs} {r : DevfsNode} (hroot : s.node? root = some r) (hhook : r.hook = .devfsHookRoot) (hlink : r.link = none) :
      DevfsRun root ok s []
  | create {s t : Devfs} {es : List DevfsEntry} {dev : DevfsDevice} {nodeAt hookAt fuel : ℕ} {ret : Option ℕ}
      (run : DevfsRun root ok s es) (hok : ok s es (.create dev nodeAt hookAt)) (hfresh : DevfsFresh s nodeAt hookAt)
      (h : devfsCreate fuel root dev (some nodeAt) (some hookAt) s = some (ret, t)) :
      DevfsRun root ok t (es ++ [⟨nodeAt, dev⟩])
  | remove {s t : Devfs} {es : List DevfsEntry} {node fuel : ℕ} (run : DevfsRun root ok s es) (hok : ok s es (.remove node))
      (h : devfsRemove fuel root node s = some t) : DevfsRun root ok t (es.filter fun e => e.addr ≠ node)

/-- A call that keeps the list in order: the name of a new node fits, and what is removed is a node that is not listed,
with no link and with a hook that no listed node has. -/
def DevfsSafe (root : ℕ) (s : Devfs) (es : List DevfsEntry) : DevfsOp → Prop
  | .create dev _ _ => dev.name.length < 256
  | .remove node => node ≠ root ∧ (∀ e ∈ es, e.addr ≠ node) ∧ ∃ n, s.node? node = some n ∧ n.link = none ∧
      (∃ fns, s.hook? n.hook = some fns) ∧ ∀ e ∈ es, ∀ m, s.node? e.addr = some m → m.hook ≠ n.hook

section Heap

variable {s : Devfs} {a v h : ℕ} {n m : DevfsNode} {fns : DevfsFns} {b : DevfsBlock}

namespace Devfs

theorem node?_eq_some : s.node? v = some n ↔ s v = some (.node n) := by
  unfold node?
  split
  · next m heq =>
    rw [heq]
    simp
  · next hne =>
    constructor
    · intro h
      cases h
    · intro h
      exact (hne n h).elim

theorem fns?_eq_some : s.fns? a = some fns ↔ s a = some (.hook fns) := by
  unfold fns?
  split
  · next f heq =>
    rw [heq]
    simp
  · next hne =>
    constructor
    · intro h
      cases h
    · intro h
      exact (hne fns h).elim

theorem hook?_congr {t : Devfs} {p : DevfsHookPtr} (h : s.hook? p = some fns) (hsame : ∀ a, s a = some (.hook fns) → t a = s a) :
    t.hook? p = some fns := by
  cases p with
  | devfsHookRoot => cases h
  | block a =>
    have ha := fns?_eq_some.mp h
    exact fns?_eq_some.mpr ((hsame a ha).trans ha)

theorem link_eq (h : s.node? v = some n) : s.link v = n.link := by
  rw [link, h, Option.bind_some]

end Devfs

/-- The node at an address is listed with its device. -/
structure DevfsHolds (s : Devfs) (i : ℕ) (e : DevfsEntry) (n : DevfsNode) : Prop where
  node : s.node? e.addr = some n
  name : n.name = e.dev.name
  inode : n.inode = i
  hook : s.hook? n.hook = some e.dev.fns

/-- The list of nodes as it lies in the heap. The inode numbers count the nodes. -/
structure DevfsInv (s : Devfs) (root : ℕ) (es : List DevfsEntry) (r : DevfsNode) : Prop where
  rootNode : s.node? root = some r
  rootHook : r.hook = .devfsHookRoot
  chain : Chained s.link r.link (es.map DevfsEntry.addr)
  apart : ∀ e ∈ es, e.addr ≠ root
  entry : ∀ i e, es[i]? = some e → ∃ n, DevfsHolds s i e n
  small : ∀ e ∈ es, e.addr < 4294967296

end Heap

section Reading

variable {s : Devfs} {root : ℕ} {es : List DevfsEntry} {r : DevfsNode}

theorem DevfsInv.mem (h : DevfsInv s root es r) {e : DevfsEntry} (he : e ∈ es) : ∃ i n, DevfsHolds s i e n := by
  obtain ⟨i, hi⟩ := List.mem_iff_getElem?.mp he
  exact ⟨i, h.entry i e hi⟩

/-- There are no more nodes than addresses. -/
theorem DevfsInv.length_le (h : DevfsInv s root es r) : es.length ≤ 4294967296 := by
  rw [← List.length_map (f := DevfsEntry.addr)]
  apply length_le_of_mod (k := 1) (r := 0) h.chain.nodup
  intro a ha
  obtain ⟨e, he, rfl⟩ := List.mem_map.mp ha
  have hsmall := h.small e he
  omega

theorem devfsSkip_eq {p : Option ℕ} {l : List ℕ} (hl : Chained s.link p l) (hnodes : ∀ a ∈ l, (s.node? a).isSome) (idx : ℕ) :
    devfsSkip s idx p = some l[idx]? := by
  induction idx generalizing p l with
  | zero =>
    cases l with
    | nil => exact congrArg some hl
    | cons a l => exact congrArg some hl.1
  | succ idx ih =>
    cases l with
    | nil =>
      obtain rfl : p = none := hl
      rfl
    | cons a l =>
      obtain ⟨rfl, hrest⟩ := hl
      obtain ⟨n, hn⟩ := Option.isSome_iff_exists.mp (hnodes a List.mem_cons_self)
      rw [s.link_eq hn] at hrest
      rw [devfsSkip, hn, Option.bind_some, ih hrest fun b hb => hnodes b (List.mem_cons_of_mem _ hb), List.getElem?_cons_succ]

theorem DevfsInv.readdir (h : DevfsInv s root es r) (idx : ℕ) :
    devfsVfsReaddir s root idx = some ((es.zip (List.range es.length))[idx]?.map fun p => (p.1.dev.name, p.2)) := by
  have hnodes : ∀ a ∈ es.map DevfsEntry.addr, (s.node? a).isSome := by
    intro a ha
    obtain ⟨e, he, rfl⟩ := List.mem_map.mp ha
    obtain ⟨i, n, hn⟩ := h.mem he
    rw [hn.node]
    rfl
  unfold devfsVfsReaddir
  rw [h.rootNode, Option.bind_eq_bind, Option.bind_some, devfsSkip_eq h.chain hnodes, List.getElem?_map]
  cases he : es[idx]? with
  | none =>
    have hnone : (es.zip (List.range es.length))[idx]? = none := by
      rw [List.getElem?_eq_none_iff] at he ⊢
      rwa [List.length_zip, List.length_range, Nat.min_self]
    rw [hnone]
    rfl
  | some e =>
    obtain ⟨hlt, -⟩ := List.getElem?_eq_some_iff.mp he
    obtain ⟨n, hn⟩ := h.entry idx e he
    have hzip : (es.zip (List.range es.length))[idx]? = some (e, idx) := by
      rw [List.getElem?_zip_eq_some]
      exact ⟨he, List.getElem?_range hlt⟩
    rw [hzip, Option.map_some, Option.map_some, ← hn.name, ← hn.inode]
    simp [hn.node]

theorem devfsFind_eq {name : Str} (hname : 0 ∉ name) {p : Option ℕ} {fuel : ℕ} (hl : Chained s.link p (es.map DevfsEntry.addr))
    (hnodes : ∀ e ∈ es, ∃ i n, DevfsHolds s i e n) (hfuel : es.length ≤ fuel) :
    devfsFind s name fuel p = some ((es.find? fun e => e.dev.name = name).map DevfsEntry.addr) := by
  induction es generalizing p fuel with
  | nil =>
    obtain rfl : p = none := hl
    rw [devfsFind]
    rfl
  | cons e es ih =>
    obtain ⟨rfl, hrest⟩ := hl
    cases fuel with
    | zero => cases hfuel
    | succ fuel =>
      obtain ⟨i, n, hn⟩ := hnodes e List.mem_cons_self
      rw [s.link_eq hn.node] at hrest
      have htest : strcmp (fun i => n.name.getD i 0) 0 name = 0 ↔ e.dev.name = name := by
        rw [hn.name]
        exact strcmp_getD_iff e.dev.terminated hname
      rw [devfsFind, hn.node, Option.bind_eq_bind, Option.bind_some, List.find?_cons]
      by_cases heq : e.dev.name = name
      · rw [if_pos (htest.mpr heq), decide_eq_true heq]
        rfl
      · rw [if_neg fun h => heq (htest.mp h), decide_eq_false heq]
        exact ih hrest (fun e' he' => hnodes e' (List.mem_cons_of_mem _ he')) (Nat.le_of_succ_le_succ hfuel)

theorem DevfsInv.listed (h : DevfsInv s root es r) : DevfsListed s root es := by
  constructor
  · exact ⟨List.range es.length, List.length_range, List.pairwise_lt_range, h.readdir⟩
  · intro name hname
    refine ⟨es.length, fun fuel hfuel => ?_⟩
    unfold devfsVfsFinddir
    rw [h.rootNode]
    exact devfsFind_eq hname h.chain (fun e he => h.mem he) hfuel
  · intro e he
    obtain ⟨i, n, hn⟩ := h.mem he
    exact ⟨n, hn.node, hn.hook⟩

end Reading

section Steps

variable {s t : Devfs} {root : ℕ} {es : List DevfsEntry} {r : DevfsNode}

/-- The list depends on the blocks of the root, of its nodes and of their hooks only. -/
theorem DevfsInv.congr (h : DevfsInv s root es r) (hroot : t root = s root) (hnodes : ∀ e ∈ es, t e.addr = s e.addr)
    (hhooks : ∀ e ∈ es, ∀ n, s.node? e.addr = some n → ∀ a, n.hook = .block a → t a = s a) : DevfsInv t root es r := by
  have hnode {v : ℕ} {n : DevfsNode} (hn : s.node? v = some n) (hsame : t v = s v) : t.node? v = some n := by
    rw [Devfs.node?_eq_some] at hn ⊢
    rw [hsame, hn]
  constructor
  · exact hnode h.rootNode hroot
  · exact h.rootHook
  · apply h.chain.congr
    intro a ha
    obtain ⟨e, he, rfl⟩ := List.mem_map.mp ha
    obtain ⟨i, n, hn⟩ := h.mem he
    rw [s.link_eq hn.node, t.link_eq (hnode hn.node (hnodes e he))]
  · exact h.apart
  · intro i e he
    have hmem := List.mem_of_getElem? he
    obtain ⟨n, hn⟩ := h.entry i e he
    refine ⟨n, hnode hn.node (hnodes e hmem), hn.name, hn.inode, ?_⟩
    have hsame := hhooks e hmem n hn.node
    have hhook := hn.hook
    cases hp : n.hook with
    | devfsHookRoot =>
      rw [hp] at hhook
      cases hhook
    | block a =>
      rw [hp] at hhook
      have ha := Devfs.fns?_eq_some.mp hhook
      exact Devfs.fns?_eq_some.mpr ((hsame a hp).trans ha)
  · exact h.small

/-- What is allocated besides does not matter. -/
theorem DevfsInv.mono (h : DevfsInv s root es r) (hsub : ∀ a b, s a = some b → t a = some b) : DevfsInv t root es r := by
  have hnode {v : ℕ} {n : DevfsNode} (hn : s.node? v = some n) : t v = s v := by
    have hv := Devfs.node?_eq_some.mp hn
    rw [hsub v _ hv, hv]
  apply h.congr (hnode h.rootNode)
  · intro e he
    obtain ⟨i, n, hn⟩ := h.mem he
    exact hnode hn.node
  · intro e he n hn a ha
    obtain ⟨i, m, hm⟩ := h.mem he
    obtain rfl := Option.some.inj (hn.symm.trans hm.node)
    have hhook := hm.hook
    rw [ha] at hhook
    have hblock := Devfs.fns?_eq_some.mp hhook
    rw [hsub a _ hblock, hblock]

theorem devfsShare_good {fns : DevfsFns} {hook : Option ℕ} {p : DevfsHookPtr} {f : DevfsFns} (hp : s.hook? p = some f)
    (hhook : ∀ k, hook = some k → s.fns? k = some fns) :
    ∃ hk, devfsShare s fns hook p = some hk ∧ ∀ k, hk = some k → s.fns? k = some fns := by
  cases hook with
  | some k => exact ⟨some k, rfl, hhook⟩
  | none =>
    cases p with
    | devfsHookRoot => cases hp
    | block a =>
      have ha : s.fns? a = some f := hp
      refine ⟨if f = fns then some a else none, by rw [devfsShare, ha]; rfl, ?_⟩
      split_ifs with hf
      · rintro k hk
        obtain rfl := Option.some.inj hk
        rw [ha, hf]
      · exact fun k hk => nomatch hk

theorem devfsScan_eq {fns : DevfsFns} {first : ℕ} {rest : List ℕ} {hook : Option ℕ}
    (h : Chained s.link (some first) (first :: rest))
    (hnodes : ∀ a ∈ first :: rest, ∃ n f, s.node? a = some n ∧ s.hook? n.hook = some f)
    (hhook : ∀ k, hook = some k → s.fns? k = some fns) :
    ∃ hk, (∀ k, hk = some k → s.fns? k = some fns) ∧ ∀ fuel, devfsScan s fns fuel first hook =
      if rest.length < fuel then some ((first :: rest).getLast (List.cons_ne_nil _ _), hk) else none := by
  induction rest generalizing first hook with
  | nil =>
    obtain ⟨n, f, hn, hf⟩ := hnodes first List.mem_cons_self
    obtain ⟨hk, hshare, hgood⟩ := devfsShare_good hf hhook
    have hlast : n.link = none := (s.link_eq hn).symm.trans h.2
    refine ⟨hk, hgood, fun fuel => ?_⟩
    cases fuel with
    | zero => rfl
    | succ fuel =>
      rw [devfsScan, hn, Option.bind_eq_bind, Option.bind_some, hshare, Option.bind_eq_bind, Option.bind_some, hlast]
      exact (if_pos (Nat.succ_pos fuel)).symm
  | cons next rest ih =>
    obtain ⟨n, f, hn, hf⟩ := hnodes first List.mem_cons_self
    obtain ⟨hk, hshare, hgood⟩ := devfsShare_good hf hhook
    have hrest : Chained s.link n.link (next :: rest) := by
      rw [← s.link_eq hn]
      exact h.2
    have hnext : n.link = some next := hrest.1
    rw [hnext] at hrest
    obtain ⟨hk', hgood', hscan⟩ := ih hrest (fun a ha => hnodes a (List.mem_cons_of_mem _ ha)) hgood
    refine ⟨hk', hgood', fun fuel => ?_⟩
    cases fuel with
    | zero => rfl
    | succ fuel =>
      rw [devfsScan, hn, Option.bind_eq_bind, Option.bind_some, hshare, Option.bind_eq_bind, Option.bind_some, hnext]
      dsimp only
      rw [hscan, List.length_cons, List.getLast_cons (List.cons_ne_nil _ _)]
      simp only [Nat.add_lt_add_iff_right]

theorem DevfsInv.last (h : DevfsInv s root es r) (fns : DevfsFns) : ∃ hk, (∀ k, hk = some k → s.fns? k = some fns) ∧
    ∀ fuel, devfsLast fuel s fns r = if es.length ≤ fuel then some ((es.map DevfsEntry.addr).getLast?, hk) else none := by
  have hchain := h.chain
  unfold devfsLast
  cases es with
  | nil =>
    have hlink : r.link = none := hchain
    rw [hlink]
    exact ⟨none, by simp, fun fuel => (if_pos (Nat.zero_le fuel)).symm⟩
  | cons e es =>
    have hnodes : ∀ a ∈ (e :: es).map DevfsEntry.addr, ∃ n f, s.node? a = some n ∧ s.hook? n.hook = some f := by
      intro a ha
      obtain ⟨e', he', rfl⟩ := List.mem_map.mp ha
      obtain ⟨i, n, hn⟩ := h.mem he'
      exact ⟨n, _, hn.node, hn.hook⟩
    have hnew : ∀ k, (none : Option ℕ) = some k → s.fns? k = some fns := by simp
    have hlink : r.link = some e.addr := hchain.1
    rw [hlink] at hchain ⊢
    obtain ⟨hk, hgood, hscan⟩ := devfsScan_eq hchain hnodes hnew
    refine ⟨hk, hgood, fun fuel => ?_⟩
    dsimp only
    rw [hscan, List.length_map, List.length_cons, List.map_cons, List.getLast?_eq_some_getLast (List.cons_ne_nil _ _)]
    simp only [Nat.succ_le_iff]
    split_ifs
    · rfl
    · rfl

theorem Devfs.link_node {v : ℕ} {n : DevfsNode} (h : s v = some (.node n)) : s.link v = n.link :=
  s.link_eq (Devfs.node?_eq_some.mpr h)

section Linking

variable {e : DevfsEntry} {l node : DevfsNode} {v : ℕ}

/-- The new node, and the link to it in the node `l` at `v`. -/
def Devfs.linked (s : Devfs) (addr : ℕ) (node : DevfsNode) (v : ℕ) (l : DevfsNode) : Devfs :=
  (s.put addr (.node node)).put v (.node { l with link := some addr })

theorem linked_apart (hv : s e.addr = none) (hl : s v = some (.node l)) : e.addr ≠ v := by
  rintro rfl
  rw [hv] at hl
  cases hl

theorem linked_last : s.linked e.addr node v l v = some (.node { l with link := some e.addr }) := Function.update_self _ _ _

theorem linked_new (hv : s e.addr = none) (hl : s v = some (.node l)) : s.linked e.addr node v l e.addr = some (.node node) := by
  rw [Devfs.linked, Devfs.put, Devfs.put, Function.update_of_ne (linked_apart hv hl), Function.update_self]

/-- All other blocks stay. -/
theorem linked_other (hv : s e.addr = none) {a : ℕ} {b : DevfsBlock} (hab : s a = some b) (ha : a ≠ v) :
    s.linked e.addr node v l a = some b := by
  have ha' : a ≠ e.addr := by
    rintro rfl
    rw [hv] at hab
    cases hab
  rw [Devfs.linked, Devfs.put, Devfs.put, Function.update_of_ne ha, Function.update_of_ne ha', hab]

theorem linked_hook (hv : s e.addr = none) (hl : s v = some (.node l)) {p : DevfsHookPtr} {f : DevfsFns}
    (hp : s.hook? p = some f) : (s.linked e.addr node v l).hook? p = some f := by
  apply Devfs.hook?_congr hp
  intro a ha
  rw [linked_other hv ha, ha]
  rintro rfl
  rw [hl] at ha
  cases ha

end Linking

theorem getElem?_concat_cases {α : Type} {as : List α} {a b : α} {i : ℕ} (h : (as ++ [a])[i]? = some b) :
    as[i]? = some b ∨ i = as.length ∧ b = a := by
  rcases Nat.lt_trichotomy i as.length with hlt | rfl | hgt
  · rw [List.getElem?_append_left hlt] at h
    exact .inl h
  · rw [List.getElem?_concat_length] at h
    exact .inr ⟨rfl, (Option.some.inj h).symm⟩
  · have hlen : (as ++ [a]).length ≤ i := by
      rw [List.length_append]
      exact hgt
    rw [List.getElem?_eq_none hlen] at h
    cases h

/-- The first node is linked to the root. -/
theorem DevfsInv.first (h : DevfsInv s root [] r) {e : DevfsEntry} {node : DevfsNode} (hv : s e.addr = none)
    (hsmall : e.addr < 4294967296) (hname : node.name = e.dev.name) (hinode : node.inode = 0)
    (hhook : s.hook? node.hook = some e.dev.fns) (hlink : node.link = none) :
    DevfsInv (s.linked e.addr node root r) root [e] { r with link := some e.addr } := by
  have hroot := Devfs.node?_eq_some.mp h.rootNode
  have hnew : s.linked e.addr node root r e.addr = some (.node node) := linked_new hv hroot
  constructor
  · exact Devfs.node?_eq_some.mpr linked_last
  · exact h.rootHook
  · refine ⟨rfl, ?_⟩
    rw [Devfs.link_node hnew]
    exact hlink
  · intro e' he'
    rw [List.mem_singleton.mp he']
    exact linked_apart hv hroot
  · intro i e' he'
    have hlook : (([] : List DevfsEntry) ++ [e])[i]? = some e' := he'
    obtain hno | ⟨rfl, rfl⟩ := getElem?_concat_cases hlook
    · cases hno
    · exact ⟨node, Devfs.node?_eq_some.mpr hnew, hname, hinode, linked_hook hv hroot hhook⟩
  · intro e' he'
    rwa [List.mem_singleton.mp he']

/-- Every other node is linked to the last one. -/
theorem DevfsInv.snoc {init : List DevfsEntry} {e e' : DevfsEntry} {l node : DevfsNode} (h : DevfsInv s root (init ++ [e]) r)
    (hl : s.node? e.addr = some l) (hv : s e'.addr = none) (hsmall : e'.addr < 4294967296) (hname : node.name = e'.dev.name)
    (hhook : s.hook? node.hook = some e'.dev.fns) (hlink : node.link = none) (hinode : node.inode = w64 (l.inode + 1)) :
    DevfsInv (s.linked e'.addr node e.addr l) root (init ++ [e] ++ [e']) r := by
  have hroot := Devfs.node?_eq_some.mp h.rootNode
  have hlast := Devfs.node?_eq_some.mp hl
  have hnew : s.linked e'.addr node e.addr l e'.addr = some (.node node) := linked_new hv hlast
  have hchain := h.chain
  rw [List.map_append] at hchain
  obtain ⟨m, hm⟩ := h.entry init.length e (by simp)
  obtain rfl := Option.some.inj (hl.symm.trans hm.node)
  have hnumber : node.inode = (init ++ [e]).length := by
    have hlen := h.length_le
    rw [List.length_append, List.length_singleton] at hlen ⊢
    rw [hinode, hm.inode]
    exact Nat.mod_eq_of_lt (by omega)
  constructor
  · exact Devfs.node?_eq_some.mpr (linked_other hv hroot (h.apart e (by simp)).symm)
  · exact h.rootHook
  · rw [List.append_assoc, List.map_append]
    apply hchain.replace
    · intro a ha
      obtain ⟨e'', he'', rfl⟩ := List.mem_map.mp ha
      obtain ⟨i, n, hn⟩ := h.mem (List.mem_append_left _ he'')
      have hapart : e''.addr ≠ e.addr := by
        intro heq
        have hnodup := hchain.nodup
        rw [List.nodup_append] at hnodup
        exact hnodup.2.2 e''.addr ha e.addr (by simp) heq
      have hsame : s.linked e'.addr node e.addr l e''.addr = some (.node n) :=
        linked_other hv (Devfs.node?_eq_some.mp hn.node) hapart
      rw [s.link_eq hn.node, Devfs.link_node hsame]
    · refine ⟨Devfs.link_node linked_last, ?_⟩
      rw [Devfs.link_node hnew]
      exact hlink
  · intro e'' he''
    rcases List.mem_append.mp he'' with he'' | he''
    · exact h.apart e'' he''
    · rw [List.mem_singleton.mp he'']
      exact linked_apart hv hroot
  · intro i e'' he''
    obtain hold | ⟨rfl, rfl⟩ := getElem?_concat_cases he''
    · obtain ⟨n, hn⟩ := h.entry i e'' hold
      by_cases hsame : e''.addr = e.addr
      · obtain rfl : n = l := by
          have hnode := hn.node
          rw [hsame] at hnode
          exact Option.some.inj (hnode.symm.trans hl)
        refine ⟨{ n with link := some e'.addr }, ?_, hn.name, hn.inode, linked_hook hv hlast hn.hook⟩
        rw [hsame]
        exact Devfs.node?_eq_some.mpr linked_last
      · have hnode : s.linked e'.addr node e.addr l e''.addr = some (.node n) :=
          linked_other hv (Devfs.node?_eq_some.mp hn.node) hsame
        exact ⟨n, Devfs.node?_eq_some.mpr hnode, hn.name, hn.inode, linked_hook hv hlast hn.hook⟩
    · exact ⟨node, Devfs.node?_eq_some.mpr hnew, hname, hnumber, linked_hook hv hlast hhook⟩
  · intro e'' he''
    rcases List.mem_append.mp he'' with he'' | he''
    · exact h.small e'' he''
    · rwa [List.mem_singleton.mp he'']

theorem DevfsInv.append (h : DevfsInv s root es r) {dev : DevfsDevice} {v k : ℕ} {node : DevfsNode} (hv : s v = none)
    (hsmall : v < 4294967296) (hname : node.name = dev.name) (hinode : node.inode = 0) (hhook : node.hook = .block k)
    (hfns : s.fns? k = some dev.fns) (hlink : node.link = none) :
    ∃ t r', devfsAppend s root r v node (es.map DevfsEntry.addr).getLast? = some t ∧ DevfsInv t root (es ++ [⟨v, dev⟩]) r' := by
  have hfound : s.hook? node.hook = some dev.fns := by
    rw [hhook]
    exact hfns
  rcases List.eq_nil_or_concat es with rfl | ⟨init, e, rfl⟩
  · exact ⟨_, _, rfl, h.first (e := ⟨v, dev⟩) hv hsmall hname hinode hfound hlink⟩
  · rw [List.concat_eq_append] at h ⊢
    obtain ⟨l, hl⟩ := h.entry init.length e (by simp)
    have hlast : ((init ++ [e]).map DevfsEntry.addr).getLast? = some e.addr := by simp
    rw [hlast, devfsAppend, hl.node, Option.map_some]
    let e' : DevfsEntry := ⟨v, dev⟩
    have hv' : s e'.addr = none := hv
    exact ⟨_, _, rfl, h.snoc hl.node hv' hsmall hname hfound hlink rfl⟩

theorem DevfsInv.create (h : DevfsInv s root es r) {dev : DevfsDevice} {nodeAt hookAt : ℕ} (hfresh : DevfsFresh s nodeAt hookAt)
    (hname : dev.name.length < 256) : ∃ t r', DevfsInv t root (es ++ [⟨nodeAt, dev⟩]) r' ∧ ∀ fuel,
      devfsCreate fuel root dev (some nodeAt) (some hookAt) s = if es.length ≤ fuel then some (some nodeAt, t) else none := by
  obtain ⟨hnode, hfree, hne, hsmall⟩ := hfresh
  obtain ⟨hk, hgood, hlast⟩ := h.last dev.fns
  obtain ⟨k, s', hkor, hs', hsub, hfns, hnode'⟩ : ∃ k s', hk.or (some hookAt) = some k ∧
      (if hk = none then s.put k (.hook dev.fns) else s) = s' ∧ (∀ a b, s a = some b → s' a = some b) ∧
      s'.fns? k = some dev.fns ∧ s' nodeAt = none := by
    cases hk with
    | some k => exact ⟨k, s, rfl, rfl, fun a b hab => hab, hgood k rfl, hnode⟩
    | none =>
      refine ⟨hookAt, _, rfl, if_pos rfl, fun a b hab => ?_, ?_, ?_⟩
      · have ha : a ≠ hookAt := by
          rintro rfl
          rw [hfree] at hab
          cases hab
        rw [Devfs.put, Function.update_of_ne ha, hab]
      · exact Devfs.fns?_eq_some.mpr (Function.update_self _ _ _)
      · rw [Devfs.put, Function.update_of_ne hne, hnode]
  have hnamed : DevfsNode.name ⟨dev.name, if dev.block then vfsBlockdev else vfsChardev, 0, dev.size, .block k, none⟩ =
      dev.name := rfl
  obtain ⟨t, r', happend, ht⟩ := (h.mono hsub).append hnode' hsmall hnamed rfl rfl hfns rfl
  refine ⟨t, r', ht, fun fuel => ?_⟩
  unfold devfsCreate
  rw [h.rootNode, Option.bind_eq_bind, Option.bind_some, if_neg (not_not.mpr h.rootHook), hlast]
  by_cases hfuel : es.length ≤ fuel
  · rw [if_pos hfuel, if_pos hfuel, Option.bind_eq_bind, Option.bind_some]
    dsimp only
    rw [hkor]
    dsimp only
    rw [hs', if_neg (Nat.not_le_of_lt hname), happend]
    rfl
  · rw [if_neg hfuel, if_neg hfuel]
    rfl

theorem devfsBefore_eq {node v : ℕ} {l : List ℕ} (hv : ∃ n, s.node? v = some n ∧ Chained s.link n.link l)
    (hnodes : ∀ a ∈ l, ∃ n, s.node? a = some n) (hnode : node ∉ l) :
    ∃ last b, s.node? last = some b ∧ b.link = none ∧ ∀ fuel, devfsBefore s node fuel v =
      if l.length < fuel then some last else none := by
  induction l generalizing v with
  | nil =>
    obtain ⟨n, hn, hend⟩ := hv
    refine ⟨v, n, hn, hend, fun fuel => ?_⟩
    cases fuel with
    | zero => rfl
    | succ fuel =>
      have hlink : n.link = none := hend
      rw [devfsBefore, hn, Option.bind_eq_bind, Option.bind_some, hlink]
      exact (if_pos (Nat.succ_pos fuel)).symm
  | cons next l ih =>
    obtain ⟨n, hn, hlink, hrest⟩ := hv
    obtain ⟨m, hm⟩ := hnodes next List.mem_cons_self
    rw [s.link_eq hm] at hrest
    have hne : next ≠ node := fun heq => hnode (heq ▸ List.mem_cons_self)
    obtain ⟨last, b, hb, hend, hbefore⟩ := ih ⟨m, hm, hrest⟩ (fun a ha => hnodes a (List.mem_cons_of_mem _ ha))
      fun hmem => hnode (List.mem_cons_of_mem _ hmem)
    refine ⟨last, b, hb, hend, fun fuel => ?_⟩
    cases fuel with
    | zero => rfl
    | succ fuel =>
      rw [devfsBefore, hn, Option.bind_eq_bind, Option.bind_some, hlink]
      dsimp only
      rw [if_neg hne, hbefore, List.length_cons]
      simp only [Nat.add_lt_add_iff_right]

theorem DevfsInv.remove (h : DevfsInv s root es r) {node : ℕ} (hsafe : DevfsSafe root s es (.remove node)) :
    ∃ t, DevfsInv t root es r ∧ ∀ fuel, devfsRemove fuel root node s = if es.length < fuel then some t else none := by
  obtain ⟨hroot, hlisted, n, hn, hlink, ⟨f, hf⟩, hshared⟩ := hsafe
  have hunlisted : node ∉ es.map DevfsEntry.addr := by
    intro hmem
    obtain ⟨e, he, heq⟩ := List.mem_map.mp hmem
    exact hlisted e he heq
  obtain ⟨before, b, hb, hend, hbefore⟩ := devfsBefore_eq ⟨r, h.rootNode, h.chain⟩
    (fun a ha => by
      obtain ⟨e, he, rfl⟩ := List.mem_map.mp ha
      obtain ⟨i, m, hm⟩ := h.mem he
      exact ⟨m, hm.node⟩) hunlisted
  have hsame : s.put before (.node { b with link := n.link }) = s := by
    rw [hlink, ← hend]
    exact Function.update_eq_self_iff.mpr (Devfs.node?_eq_some.mp hb).symm
  obtain ⟨k, hk, hblock⟩ : ∃ k, n.hook = .block k ∧ s k = some (.hook f) := by
    cases hp : n.hook with
    | devfsHookRoot =>
      rw [hp] at hf
      cases hf
    | block k =>
      rw [hp] at hf
      exact ⟨k, rfl, Devfs.fns?_eq_some.mp hf⟩
  have hnode := Devfs.node?_eq_some.mp hn
  have hapart {v : ℕ} {m : DevfsNode} (hm : s.node? v = some m) : v ≠ k := by
    rintro rfl
    rw [Devfs.node?_eq_some.mp hm] at hblock
    cases hblock
  refine ⟨Function.update (Function.update s k none) node none, ?_, fun fuel => ?_⟩
  · apply h.congr
    · rw [Function.update_of_ne hroot.symm, Function.update_of_ne (hapart h.rootNode)]
    · intro e he
      obtain ⟨i, m, hm⟩ := h.mem he
      rw [Function.update_of_ne (hlisted e he), Function.update_of_ne (hapart hm.node)]
    · intro e he m hm a ha
      obtain ⟨i, m', hm'⟩ := h.mem he
      obtain rfl := Option.some.inj (hm.symm.trans hm'.node)
      have hhook := hm'.hook
      rw [ha] at hhook
      have hne : a ≠ node := by
        rintro rfl
        rw [Devfs.fns?_eq_some.mp hhook] at hnode
        cases hnode
      have hne' : a ≠ k := by
        rintro rfl
        exact hshared e he m hm (ha.trans hk.symm)
      rw [Function.update_of_ne hne, Function.update_of_ne hne']
  · unfold devfsRemove
    rw [h.rootNode, Option.bind_eq_bind, Option.bind_some, if_neg (not_not.mpr h.rootHook), hbefore, List.length_map]
    by_cases hfuel : es.length < fuel
    · have hfree : s.free k = some (Function.update s k none) := by
        rw [Devfs.free, hblock]
        rfl
      have hfree' : Devfs.free (Function.update s k none) node = some (Function.update (Function.update s k none) node none) := by
        rw [Devfs.free, Function.update_of_ne (hapart hn), hnode]
        rfl
      rw [if_pos hfuel, if_pos hfuel, Option.bind_eq_bind, Option.bind_some, hb, Option.bind_eq_bind, Option.bind_some,
        if_pos (by rw [hend]; simp), hn, Option.bind_some, hk]
      dsimp only
      rw [hsame, hfree, Option.bind_some, hfree']
    · rw [if_neg hfuel, if_neg hfuel]
      rfl

end Steps

section Runs

variable {s : Devfs} {root : ℕ} {es : List DevfsEntry}

theorem DevfsRun.inv (h : DevfsRun root (DevfsSafe root) s es) : ∃ r, DevfsInv s root es r := by
  induction h with
  | @mounted s r hroot hhook hlink =>
    refine ⟨r, hroot, hhook, hlink, ?_, ?_, ?_⟩
    · exact fun e he => (List.not_mem_nil he).elim
    · exact fun i e he => nomatch he
    · exact fun e he => (List.not_mem_nil he).elim
  | @create s t es dev nodeAt hookAt fuel ret _ hok hfresh hstep ih =>
    obtain ⟨r, hr⟩ := ih
    obtain ⟨t', r', ht, hcreate⟩ := hr.create hfresh hok
    rw [hcreate] at hstep
    split_ifs at hstep
    cases hstep
    exact ⟨r', ht⟩
  | @remove s t es node fuel _ hok hstep ih =>
    obtain ⟨r, hr⟩ := ih
    obtain ⟨t', ht, hremove⟩ := hr.remove hok
    rw [hremove] at hstep
    split_ifs at hstep
    cases hstep
    have hall : (es.filter fun e => e.addr ≠ node) = es := by
      rw [List.filter_eq_self]
      exact fun e he => decide_eq_true (hok.2.1 e he)
    rw [hall]
    exact ⟨r, ht⟩

end Runs

/-- A call that is let run long enough comes to an end. -/
def DevfsReturns (root : ℕ) (s : Devfs) : DevfsOp → Prop
  | .create dev nodeAt hookAt => DevfsFresh s nodeAt hookAt → ∃ N, ∀ fuel, N ≤ fuel →
      (devfsCreate fuel root dev (some nodeAt) (some hookAt) s).isSome
  | .remove node => ∃ N, ∀ fuel, N ≤ fuel → (devfsRemove fuel root node s).isSome

/-- In every run of calls that are safe where they are made, the list is in order, and the next safe call returns. -/
theorem devfs_run_listed (root : ℕ) (s : Devfs) (es : List DevfsEntry) (h : DevfsRun root (DevfsSafe root) s es) :
    DevfsListed s root es ∧ ∀ op, DevfsSafe root s es op → DevfsReturns root s op := by
  obtain ⟨r, hr⟩ := h.inv
  refine ⟨hr.listed, fun op hop => ?_⟩
  cases op with
  | create dev nodeAt hookAt =>
    intro hfresh
    obtain ⟨t, r', -, hcreate⟩ := hr.create hfresh hop
    refine ⟨es.length, fun fuel hfuel => ?_⟩
    rw [hcreate, if_pos hfuel]
    rfl
  | remove node =>
    obtain ⟨t, -, hremove⟩ := hr.remove hop
    refine ⟨es.length + 1, fun fuel hfuel => ?_⟩
    rw [hremove, if_pos (Nat.lt_of_succ_le hfuel)]
    rfl

/-- A root that was just mounted at 1. -/
def devfsMounted : Devfs := fun a => if a = 1 then some (.node ⟨[], vfsMountpoint, 0, 0, .devfsHookRoot, none⟩) else none

/-- The character device `a`. -/
def devfsDevice : DevfsDevice := ⟨⟨7, 0, 0, 0, 0⟩, false, 0, [97], by decide⟩

/-- The device was created with its node at 2 and its hook at 3. -/
def devfsCreated : Devfs :=
  ((devfsMounted.put 3 (.hook devfsDevice.fns)).put 2 (.node ⟨[97], vfsChardev, 0, 0, .block 3, none⟩)).put 1
    (.node ⟨[], vfsMountpoint, 0, 0, .devfsHookRoot, some 2⟩)

theorem devfsMounted_run (ok : Devfs → List DevfsEntry → DevfsOp → Prop) : DevfsRun 1 ok devfsMounted [] :=
  .mounted (r := ⟨[], vfsMountpoint, 0, 0, .devfsHookRoot, none⟩) rfl rfl rfl

theorem devfsCreated_run {ok : Devfs → List DevfsEntry → DevfsOp → Prop} (hok : ok devfsMounted [] (.create devfsDevice 2 3)) :
    DevfsRun 1 ok devfsCreated [⟨2, devfsDevice⟩] := by
  have hcreate : devfsCreate 0 1 devfsDevice (some 2) (some 3) devfsMounted = some (some 2, devfsCreated) := rfl
  exact (devfsMounted_run ok).create hok ⟨rfl, rfl, by decide, by decide⟩ hcreate

theorem devfs_run_sample : DevfsListed devfsCreated 1 [⟨2, devfsDevice⟩] ∧
    ∀ op, DevfsSafe 1 devfsCreated [⟨2, devfsDevice⟩] op → DevfsReturns 1 devfsCreated op :=
  devfs_run_listed 1 devfsCreated [⟨2, devfsDevice⟩] (devfsCreated_run (by decide : devfsDevice.name.length < 256))

/-- The device is removed, and still read from the list. -/
theorem devfs_remove_keeps : ¬∀ root s es, DevfsRun root (fun _ _ _ => True) s es → DevfsListed s root es := by
  intro h
  have hremove : devfsRemove 1 1 2 devfsCreated = some devfsCreated := rfl
  have hrun : DevfsRun 1 (fun _ _ _ => True) devfsCreated [] := (devfsCreated_run trivial).remove trivial hremove
  obtain ⟨inodes, -, -, hread⟩ := (h 1 devfsCreated [] hrun).readdir
  have hfirst : devfsVfsReaddir devfsCreated 1 0 = some (some ([97], 0)) := rfl
  have hnone := hread 0
  rw [hfirst] at hnone
  cases hnone

end SysX
