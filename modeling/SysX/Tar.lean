import SysX.Files
import SysX.Lib.Text

/-!
Archives (`fs/tarfs.c`), the walk along a path (`fs/vfs.c`, `helpers/path.c`) and the number parser
(`lib/stdlib.c`).
-/
namespace SysX

abbrev Str := List UInt8

/-- `'/'` -/
def slash : UInt8 := 47
/-- `'.'` -/
def dot : UInt8 := 46

/-- `VFS_DIRECTORY` -/
def vfsDirectory : ℕ := 2
/-- `VFS_CHARDEV` -/
def vfsChardev : ℕ := 3
/-- `VFS_BLOCKDEV` -/
def vfsBlockdev : ℕ := 7
/-- `VFS_PIPE` -/
def vfsPipe : ℕ := 15
/-- `VFS_MOUNTPOINT` -/
def vfsMountpoint : ℕ := 18

/-! `lib/stdlib.c` -/

/-- The memory is no longer than this. -/
def stringFuel : ℕ := 4294967296

def digitOf (c : UInt8) : Option ℕ :=
  let c := if 97 ≤ c ∧ c ≤ 122 then c - 32 else c
  if 48 ≤ c ∧ c ≤ 57 then some (c - 48).toNat
  else if 65 ≤ c ∧ c ≤ 90 then some (c - 65 + 10).toNat
  else none

/-- `UINT64_MAX` -/
def uint64Max : ℕ := 18446744073709551615

def strtoullDigits (base : ℕ) (r : ℕ → UInt8) : (fuel k result : ℕ) → Option ℕ
  | 0, _, _ => none
  | fuel + 1, k, result =>
    if r k = 0 then some result
    else match digitOf (r k) with
      | none => some result
      | some d =>
        if base ≤ d then some result
        else if uint64Max / base < result then some uint64Max
        else if uint64Max - d < result * base then some uint64Max
        else strtoullDigits base r fuel (k + 1) (result * base + d)

def isSpace (c : UInt8) : Bool := c = 9 || c = 10 || c = 11 || c = 12 || c = 13 || c = 32

def skipSpaces (r : ℕ → UInt8) : (fuel k : ℕ) → Option ℕ
  | 0, _ => none
  | fuel + 1, k => if isSpace (r k) then skipSpaces r fuel (k + 1) else some k

/-- `strtoull` of the string at `k`, in a base other than 0 and with no `endptr`. -/
def strtoull (r : ℕ → UInt8) (k base : ℕ) : Option ℕ :=
  let k := if r k = 43 ∨ r k = 45 then k + 1 else k
  (skipSpaces r stringFuel k).bind fun k => strtoullDigits base r stringFuel k 0

def strtoul (r : ℕ → UInt8) (k base : ℕ) : Option ℕ :=
  (strtoull r k base).map fun v => if 4294967295 < v then 4294967295 else v

/-! `helpers/path.c` -/

/-- The rest of the path, and the length of its first element. -/
def pathTraverse (path : Str) : Str × ℕ :=
  ((path.dropWhile (· ≠ slash)).drop 1, (path.takeWhile (· ≠ slash)).length)

/-! `fs/tarfs.c` -/

/-- A `vfs_node_t`. `hooked` tells that its hooks are `tar_hooks` and its link is the `root_info` of the
archive. -/
structure TarNode where
  name : Str
  flags : ℕ
  uid : ℕ
  gid : ℕ
  inode : ℕ
  length : ℕ
  mtime : ℕ
  hooked : Bool

/-- `tar_hierarchy_t` -/
structure TarItem where
  node : Option ℕ
  data : ℕ
  parent : Option ℕ

/-- Memory, the nodes by their addresses, and the `tar_info_t` of the archive. The heap puts a new node
at `nextNode` and leaves `junk` in new items of the hierarchy, and `heapOk n` tells whether its `n`-th
allocation succeeds. -/
structure TarFs where
  mem : ℕ → UInt8
  nodes : ℕ → TarNode
  nextNode : ℕ
  hierarchy : List TarItem
  nodeCount : ℕ
  junk : ℕ → TarItem
  heapOk : ℕ → Bool
  heapCalls : ℕ
  vfsRoot : Option ℕ

abbrev TarOp := Comp TarFs

def TarFs.setNode (s : TarFs) (v : ℕ) (g : TarNode → TarNode) : TarFs :=
  { s with nodes := Function.update s.nodes v (g (s.nodes v)) }

def TarFs.setItem (s : TarFs) (i : ℕ) (g : TarItem → TarItem) : TarFs :=
  { s with hierarchy := s.hierarchy.modify i g }

/-- The bytes from an address on. -/
def TarFs.bytes (s : TarFs) (a : ℕ) : ℕ → UInt8 := fun i => s.mem (w32 (a + i))

def tarAlloc : TarOp Bool := do
  let ok ← Comp.read fun s => s.heapOk s.heapCalls
  Comp.modify fun s => { s with heapCalls := s.heapCalls + 1 }
  pure ok

/-- `kmalloc(sizeof(vfs_node_t))` -/
def tarAllocNode : TarOp (Option ℕ) := do
  let ok ← tarAlloc
  if ok then do
    let v ← Comp.read fun s => s.nextNode
    Comp.modify fun s => { s with nextNode := s.nextNode + 1 }
    pure (some v)
  else pure none

/-- Write to an item of the hierarchy. -/
def tarSetItem (i : ℕ) (g : TarItem → TarItem) : TarOp Unit := do
  let n ← Comp.read fun s => s.hierarchy.length
  if i < n then Comp.modify fun s => s.setItem i g else Comp.fault

/-- The bytes of the file that are copied to the buffer, and the value that is returned. -/
def tarVfsRead (node : ℕ) (offset size : ℕ) : TarOp (Str × ℕ) := do
  let n ← Comp.read fun s => s.nodes node
  let item ← Comp.readOr fun s => s.hierarchy[n.inode]?
  if item.data = 0 then pure ([], 0)
  else if n.length ≤ offset then pure ([], 0)
  else do
    let size := if n.length < w64 (offset + size) then n.length - offset else size
    let bytes ← Comp.read fun s => s.bytes (w32 (item.data + offset))
    pure ((List.range (w32 size)).map bytes, size)

/-- The loop of `tar_vfs_finddir` over `n` items from `i` on. -/
def tarFind (s : TarFs) (parent : ℕ) (name : Str) : (n i : ℕ) → Option (Option ℕ)
  | 0, _ => some none
  | n + 1, i => do
    let item ← s.hierarchy[i]?
    if item.parent = some parent then do
      let v ← item.node
      if (s.nodes v).name = name then some (some v) else tarFind s parent name n (i + 1)
    else tarFind s parent name n (i + 1)

def tarVfsFinddir (node : ℕ) (name : Str) : TarOp (Option ℕ) :=
  Comp.readOr fun s =>
    let i := w32 ((s.nodes node).inode + 1)
    tarFind s node name (s.nodeCount - i) i

/-- The loop of `tar_vfs_readdir` over `n` items from `i` on, `seen` children of the node being behind. The
directory entry is a name with an inode. -/
def tarEntryAt (s : TarFs) (parent idx : ℕ) : (n i seen : ℕ) → Option (Option (Str × ℕ))
  | 0, _, _ => some none
  | n + 1, i, seen => do
    let item ← s.hierarchy[i]?
    if item.parent = some parent then
      if seen = idx then do
        let v ← item.node
        some (some ((s.nodes v).name, (s.nodes v).inode))
      else tarEntryAt s parent idx n (i + 1) (seen + 1)
    else tarEntryAt s parent idx n (i + 1) seen

def tarVfsReaddir (node idx : ℕ) : TarOp (Option (Str × ℕ)) :=
  Comp.readOr fun s =>
    let i := w32 ((s.nodes node).inode + 1)
    tarEntryAt s node idx (s.nodeCount - i) i 0

/-- `TAR_HIERARCHY_ITEM_INCREMENT` -/
def tarHierarchyItemIncrement : ℕ := 4

/-- The fields of a `tar_header_t` that are read. -/
def tarName : ℕ := 0
def tarUid : ℕ := 108
def tarGid : ℕ := 116
def tarSize : ℕ := 124
def tarMtime : ℕ := 136
def tarType : ℕ := 156
def tarUstarSig : ℕ := 257
def tarNamePrefix : ℕ := 345

/-- `"ustar"` and its terminator -/
def ustarSig : Str := [117, 115, 116, 97, 114, 0]

/-- The flags by the type in the header. Other types are treated as files. -/
def tarFlags (type : UInt8) : ℕ :=
  if type = 0 then vfsFile
  else if type = 48 then vfsFile
  else if type = 49 then vfsSymlink
  else if type = 50 then vfsSymlink
  else if type = 51 then vfsChardev
  else if type = 52 then vfsBlockdev
  else if type = 53 then vfsDirectory
  else if type = 54 then vfsPipe
  else vfsFile

def isUstar (r : ℕ → UInt8) : Bool :=
  decide ((List.range 6).map (fun i => r (tarUstarSig + i)) = ustarSig)

/-- The name prefix, which only the headers of one format have. -/
def tarPrefix (r : ℕ → UInt8) : Option Str :=
  if isUstar r then cstring r 256 tarNamePrefix else some []

/-- The full path of an entry, as put together in the 256 bytes of `name`. A longer path overflows. -/
def tarPath (r : ℕ → UInt8) : Option Str := do
  let pre ← tarPrefix r
  let name ← cstring r (256 - pre.length) tarName
  some (pre ++ name)

/-- What is loaded from a header into the node with number `inode`. -/
def tarLoadNode (r : ℕ → UInt8) (inode : ℕ) (n : TarNode) : Option TarNode := do
  let uid ← strtoul r tarUid 8
  let gid ← strtoul r tarGid 8
  let length ← strtoull r tarSize 8
  let mtime ← strtoul r tarMtime 8
  some { n with inode, uid, gid, length, mtime, hooked := true, flags := tarFlags (r tarType) }

/-- The search for the parent in `tar_init`: the first of the `n` items from `i` on that is below
`parent` and has the first `len` bytes of `path` as its name. -/
def tarFindParent (s : TarFs) (parent : ℕ) (path : Str) (len : ℕ) : (n i : ℕ) → Option (Option ℕ)
  | 0, _ => some none
  | n + 1, i => do
    let item ← s.hierarchy[i]?
    if item.parent = some parent then do
      let v ← item.node
      let name := (s.nodes v).name
      -- `strncmp` finds no difference in `len` bytes, and the name ends there.
      if name.take len = path.take len ∧ name[len]? = none then some (some v)
      else tarFindParent s parent path len n (i + 1)
    else tarFindParent s parent path len n (i + 1)

/-- The walk along the path of the new node `v` to its parent. Where an element is not found, the parent
stays as it is. -/
def tarPlace (v inode : ℕ) : (fuel : ℕ) → (path : Str) → (parent : ℕ) → TarOp Unit
  | 0, _, _ => Comp.fault
  | fuel + 1, path, parent =>
    let (rest, len) := pathTraverse path
    if rest = [] then do
      -- `node->name` has 256 bytes.
      if 256 ≤ len then Comp.fault
      else do
        Comp.modify fun s => s.setNode v fun n => { n with name := path.take len }
        tarSetItem inode fun item => { item with parent := some parent }
    else do
      let found ← Comp.readOr fun s => tarFindParent s parent path len (inode - 1) 1
      tarPlace v inode fuel rest (found.getD parent)

/-- Make room for the item `inode` of the hierarchy, which has `inode` items when it is grown. -/
def tarGrow (inode : ℕ) : TarOp Bool :=
  if inode % tarHierarchyItemIncrement = 0 then do
    let ok ← tarAlloc
    if ok then do
      Comp.modify fun s => { s with
        hierarchy := s.hierarchy ++ (List.range tarHierarchyItemIncrement).map fun i => s.junk (inode + i) }
      pure true
    else do
      Comp.modify fun s => { s with hierarchy := [] }
      pure false
  else pure true

/-- Add the entry with the header at `header` and the path `name`. The result is its length, or `none`
when parsing stops. -/
def tarAdd (root header : ℕ) (name : Str) : TarOp (Option ℕ) := do
  let node ← tarAllocNode
  match node with
  | none => pure none
  | some v => do
    let inode ← Comp.read fun s => s.nodeCount
    let ok ← tarGrow inode
    if ok then do
      Comp.modify fun s => { s with nodeCount := s.nodeCount + 1 }
      tarSetItem inode fun item => { item with node := some v }
      let n ← Comp.readOr fun s => tarLoadNode (s.bytes header) inode (s.nodes v)
      Comp.modify fun s => s.setNode v fun _ => n
      Comp.when (n.flags = vfsFile ∧ n.length ≠ 0)
        (tarSetItem inode fun item => { item with data := w32 (header + 512) })
      tarPlace v inode (name.length + 1) name root
      pure (some n.length)
    else pure none

/-- The loop of `tar_init` over the headers, where `nameOk` tells whether there is a `name` buffer. -/
def tarInitLoop (nameOk : Bool) (root last : ℕ) : (fuel header : ℕ) → TarOp Unit
  | 0, _ => Comp.fault
  | fuel + 1, header =>
    if header < last then do
      let r ← Comp.read fun s => s.bytes header
      if r tarName = 0 ∧ r tarSize = 0 then tarInitLoop nameOk root last fuel (w32 (header + 512))
      else if nameOk then do
        let name ← Comp.readOr fun _ => tarPath r
        let length ← tarAdd root header name
        match length with
        | none => pure ()
        | some length =>
          tarInitLoop nameOk root last fuel
            (w32 (header + 512 + w32 (w32 length + 511) / 512 * 512))
      else Comp.fault
    else pure ()

/-- What `tar_init` writes before it reads the archive. -/
def TarFs.setRoot (s : TarFs) (root : ℕ) : TarFs :=
  { s.setNode root fun n => { n with flags := vfsMountpoint, inode := 0, hooked := true } with
    hierarchy := ⟨some root, 0, none⟩ :: (List.range (tarHierarchyItemIncrement - 1)).map fun i => s.junk (i + 1)
    nodeCount := 1 }

/-- The root node: the given one, or a new one. -/
def tarRoot : Option ℕ → TarOp (Option ℕ)
  | some root => pure (some root)
  | none => do
    let root ← tarAllocNode
    match root with
    | none => pure none
    | some v => do
      Comp.modify fun s => s.setNode v fun n => { n with name := [], uid := 0, gid := 0 }
      pure (some v)

/-- `tar_init` from the point on where there is a root node. -/
def tarUnpack (fuel buffer size root : ℕ) : TarOp (Option ℕ) := do
  let infoOk ← tarAlloc
  if infoOk then do
    let hierarchyOk ← tarAlloc
    if hierarchyOk then do
      Comp.modify fun s => s.setRoot root
      let nameOk ← tarAlloc
      tarInitLoop nameOk root (w32 (buffer + size)) fuel buffer
      pure (some root)
    else pure none
  else pure none

def tarInit (fuel buffer size : ℕ) (root : Option ℕ) : TarOp (Option ℕ) := do
  let root ← tarRoot root
  match root with
  | none => pure none
  | some root => tarUnpack fuel buffer size root

/-! `fs/vfs.c` on the nodes of an archive -/

/-- The link of a symlink of an archive is the `root_info`, which is no node. -/
def tarTraverseSymlink (node : ℕ) : TarOp ℕ := do
  let n ← Comp.read fun s => s.nodes node
  if n.flags &&& vfsSymlink = 0 then pure node else Comp.fault

def vfsFinddir (node : ℕ) (name : Str) : TarOp (Option ℕ) := do
  let node ← tarTraverseSymlink node
  let n ← Comp.read fun s => s.nodes node
  if n.flags = vfsDirectory ∨ n.flags = vfsMountpoint then
    if n.hooked then tarVfsFinddir node name else Comp.fault
  else pure none

/-- `vfs_read` into a buffer: the bytes that are written there, and the value that is returned. -/
def vfsReadBytes (node : ℕ) (offset size : ℕ) : TarOp (Str × ℕ) := do
  let node ← tarTraverseSymlink node
  let n ← Comp.read fun s => s.nodes node
  if n.flags &&& vfsFile = 0 then pure ([], 0)
  else if n.hooked then tarVfsRead node offset size
  else Comp.fault

/-- The loop of `vfs_traverse_path`. An element that does not fit into the 256 bytes of `name`
overflows. -/
def vfsWalk : (fuel : ℕ) → (path : Str) → (node : Option ℕ) → TarOp (Option ℕ)
  | 0, _, node => pure node
  | fuel + 1, path, node =>
    match node with
    | none => pure none
    | some v =>
      if path = [] then pure (some v)
      else
        let (rest, len) := pathTraverse path
        if len = 0 ∨ len = 1 ∧ path.head? = some dot then vfsWalk fuel rest node
        else if 256 ≤ len then Comp.fault
        else do
          let node ← vfsFinddir v (path.take len)
          vfsWalk fuel rest node

def vfsTraversePath (startNode : Option ℕ) (path : Str) : TarOp (Option ℕ) := do
  let root ← Comp.read fun s => s.vfsRoot
  if startNode = none ∧ path.head? ≠ some slash then pure none
  else do
    let ok ← tarAlloc
    if ok then vfsWalk path.length path (startNode.or root) else pure none

end SysX
