import SysX.Machine

/-!
The file layer: VFS nodes and their hooks (`fs/vfs.c`, `fs/devfs_std.c`, `fs/memfs.c`, `fs/tarfs.c`,
`hal/serial.c`), the file table (`fs/ftab.c`), and the file descriptors of the processes
(`exec/process.c`).
-/
namespace SysX

/-- Arithmetic on `uint64_t`. -/
def w64 (n : ℕ) : ℕ := n % 18446744073709551616

inductive ReadHook where
  | tar
  | memfs
  | console
  | zero
  | random
  | serial
  deriving DecidableEq, Repr

inductive WriteHook where
  | memfs
  | null
  | console
  | random
  | serial
  deriving DecidableEq, Repr

/-- `VFS_FILE` -/
def vfsFile : ℕ := 1
/-- `VFS_SYMLINK` -/
def vfsSymlink : ℕ := 32

/-- The fields of a node that the file layer reads. `data` tells whether the node's archive entry has
data, `target` is where a symlink points. A node without an `open` hook opens for every access. -/
structure VfsNode where
  flags : ℕ
  length : ℕ
  target : Option ℕ
  data : Bool
  readHook : Option ReadHook
  writeHook : Option WriteHook
  openHook : Option (Bool → Bool → Bool)
  closeHook : Bool

/-- What a hook returns, and how many bytes of the caller's buffer it touched, from its start on. -/
structure Transfer where
  ret : ℕ
  touched : ℕ
  deriving DecidableEq, Repr

/-- `tar_vfs_read`, `memfs_vfs_read`, `devfs_console_read`, `devfs_zero_read` (whose `memset` has its
last two arguments swapped), `devfs_random_read` and `ser_devfs_read`. -/
def ReadHook.run (n : VfsNode) (offset size : ℕ) : ReadHook → Transfer
  | .tar =>
    if n.data = false ∨ n.length ≤ offset then ⟨0, 0⟩
    else
      let size := if n.length < w64 (offset + size) then n.length - offset else size
      ⟨size, w32 size⟩
  | .memfs =>
    if n.length < w64 (offset + size) then
      if n.length ≤ offset then ⟨0, 0⟩ else ⟨n.length - offset, w32 (n.length - offset)⟩
    else ⟨size, w32 size⟩
  | .console => ⟨size, size⟩
  | .zero => ⟨size, 0⟩
  | .random => ⟨size, size⟩
  | .serial => ⟨size, size⟩

/-- `memfs_vfs_write`, `devfs_null_write`, `devfs_console_write`, `devfs_random_write` (which reads at
most the first four bytes) and `ser_devfs_write`. -/
def WriteHook.run (n : VfsNode) (offset size : ℕ) : WriteHook → Transfer
  | .memfs =>
    if n.length < w64 (offset + size) then
      if n.length ≤ offset then ⟨0, 0⟩ else ⟨n.length - offset, w32 (n.length - offset)⟩
    else ⟨size, w32 size⟩
  | .null => ⟨size, 0⟩
  | .console => ⟨size, size⟩
  | .random => ⟨size, min 4 size⟩
  | .serial => ⟨size, size⟩

/-- A call of `vfs_close` or of a hook. `touched` bytes of the buffer at `buf` were written (by
`read`) or read. -/
inductive HookCall where
  | vfsClose (node : Option ℕ)
  | read (node offset size buf touched : ℕ)
  | write (node offset size buf touched : ℕ)
  | open (node : ℕ) (read write : Bool)
  | close (node : ℕ)
  deriving DecidableEq, Repr

/-- `&ftab[idx]` of the block at `base`. -/
structure FtabPtr where
  base : ℕ
  idx : ℕ
  deriving DecidableEq, Repr

/-- `struct ftab`, its bit field `refs` of 30 bits. -/
structure Ftab where
  node : Option ℕ
  read : Bool
  write : Bool
  refs : ℕ
  excl : Option ℕ
  mutex : Bool
  deriving DecidableEq, Inhabited, Repr

def ftabZero : Ftab := ⟨none, false, false, 0, none, false⟩

/-- `fd_t`, without its mutex: it is never held when a call returns. -/
structure Fd where
  ftab : Option FtabPtr
  read : Bool
  write : Bool
  append : Bool
  offset : ℕ
  deriving DecidableEq, Inhabited, Repr

def fdZero : Fd := ⟨none, false, false, false, 0⟩

/-- The state of the file layer. Processes are named by their addresses, and `nextProc` is the next
address the heap hands out. `ftabHeap n` is what the `n`-th `krealloc` of the file table returns,
`otherHeap n` tells whether the `n`-th allocation of another block succeeds. -/
structure Files where
  nodes : ℕ → VfsNode
  ftab : List Ftab
  ftabBase : ℕ
  ftabMutex : Bool
  fds : ℕ → List Fd
  pidtab : List (Option ℕ)
  pid : ℕ → ℕ
  parentPid : ℕ → ℕ
  nextProc : ℕ
  devConsole : ℕ
  ftabHeap : ℕ → Option ℕ
  ftabCalls : ℕ
  otherHeap : ℕ → Bool
  otherCalls : ℕ
  calls : List HookCall

abbrev FileOp := Comp Files

namespace Files

def ftabAt (s : Files) (p : FtabPtr) : Option Ftab := if p.base = s.ftabBase then s.ftab[p.idx]? else none

def modifyFtab (s : Files) (i : ℕ) (g : Ftab → Ftab) : Files := { s with ftab := s.ftab.modify i g }

def setFds (s : Files) (p : ℕ) (l : List Fd) : Files := { s with fds := Function.update s.fds p l }

def log (s : Files) (c : HookCall) : Files := { s with calls := s.calls ++ [c] }

end Files

/-! Allocation. -/

def ftabRealloc : FileOp (Option ℕ) := do
  let r ← Comp.read fun s => s.ftabHeap s.ftabCalls
  Comp.modify fun s => { s with ftabCalls := s.ftabCalls + 1 }
  pure r

def otherAlloc : FileOp Bool := do
  let r ← Comp.read fun s => s.otherHeap s.otherCalls
  Comp.modify fun s => { s with otherCalls := s.otherCalls + 1 }
  pure r

/-! `fs/vfs.c` -/

/-- The walk of `vfs_traverse_symlink`. A chain with more links than this visits a node twice and
never ends. -/
def traverseSymlink (nodes : ℕ → VfsNode) : (fuel : ℕ) → Option ℕ → Option (Option ℕ)
  | _, none => some none
  | 0, some _ => none
  | fuel + 1, some v =>
    if (nodes v).flags &&& vfsSymlink = 0 then some (some v)
    else if (nodes v).target = some v then some (some v)
    else traverseSymlink nodes fuel (nodes v).target

/-- There are fewer nodes than addresses. -/
def symlinkFuel : ℕ := 4294967296

def vfsTraverseSymlink (node : Option ℕ) : FileOp (Option ℕ) :=
  Comp.readOr fun s => traverseSymlink s.nodes symlinkFuel node

def vfsRead (node : Option ℕ) (offset size buf : ℕ) : FileOp ℕ := do
  let node ← vfsTraverseSymlink node
  match node with
  | none => pure 0
  | some v => do
    let n ← Comp.read fun s => s.nodes v
    if n.flags &&& vfsFile = 0 then pure 0
    else match n.readHook with
      | none => pure 0
      | some h => do
        let r := h.run n offset size
        Comp.modify fun s => s.log (.read v offset size buf r.touched)
        pure r.ret

def vfsWrite (node : Option ℕ) (offset size buf : ℕ) : FileOp ℕ := do
  let node ← vfsTraverseSymlink node
  match node with
  | none => pure 0
  | some v => do
    let n ← Comp.read fun s => s.nodes v
    if n.flags &&& vfsFile = 0 then pure 0
    else match n.writeHook with
      | none => pure 0
      | some h => do
        let r := h.run n offset size
        Comp.modify fun s => s.log (.write v offset size buf r.touched)
        pure r.ret

def vfsOpen (node : Option ℕ) (read write : Bool) : FileOp Bool := do
  let node ← vfsTraverseSymlink node
  match node with
  | none => pure true
  | some v => do
    let n ← Comp.read fun s => s.nodes v
    match n.openHook with
    | none => pure true
    | some h => do
      Comp.modify fun s => s.log (.open v read write)
      pure (h read write)

def vfsClose (node : Option ℕ) : FileOp Unit := do
  Comp.modify fun s => s.log (.vfsClose node)
  let node ← vfsTraverseSymlink node
  match node with
  | none => pure ()
  | some v => do
    let n ← Comp.read fun s => s.nodes v
    Comp.when n.closeHook (Comp.modify fun s => s.log (.close v))

/-! `fs/ftab.c` -/

def ftabAllocSz : ℕ := 4

/-- `FTAB_REFS_BITS` -/
def ftabRefsMod : ℕ := 1073741824

/-- `refs++` and `refs--` on the bit field. -/
@[irreducible] def refsInc (n : ℕ) : ℕ := (n + 1) % ftabRefsMod

@[irreducible] def refsDec (n : ℕ) : ℕ := (n + (ftabRefsMod - 1)) % ftabRefsMod

/-- A mutex that is held is never released: its holder has left without releasing it. -/
def ftabAcquire : FileOp Unit := do
  let locked ← Comp.read (·.ftabMutex)
  if locked then Comp.fault else Comp.modify fun s => { s with ftabMutex := true }

def ftabRelease : FileOp Unit := Comp.modify fun s => { s with ftabMutex := false }

def ftabEntAcquire (i : ℕ) : FileOp Unit := do
  let locked ← Comp.readOr fun s => s.ftab[i]?.map (·.mutex)
  if locked then Comp.fault else Comp.modify fun s => s.modifyFtab i fun e => { e with mutex := true }

def ftabEntRelease (i : ℕ) : FileOp Unit :=
  Comp.modify fun s => s.modifyFtab i fun e => { e with mutex := false }

/-- The search loop: the first entry that is empty or holds the node. -/
def ftabSearch (s : Files) (node : ℕ) : Option ℕ :=
  s.ftab.findIdx? fun e => e.node = none ∨ e.node = some node

/-- "allocate more entries" -/
def ftabGrow : FileOp (Option ℕ) := do
  let len ← Comp.read fun s => s.ftab.length
  let block ← ftabRealloc
  match block with
  | none => pure none
  | some base => do
    Comp.modify fun s => { s with
      ftab := s.ftab ++ List.replicate ftabAllocSz ftabZero
      ftabBase := base }
    pure (some len)

/-- "empty entry - file is opened for the first time" -/
def ftabOpenFirst (i node proc : ℕ) (read write excl : Bool) : FileOp (Option FtabPtr) := do
  let ok ← vfsOpen (some node) read write
  if ok = false then pure none -- both mutexes stay held
  else do
    Comp.modify fun s => s.modifyFtab i fun e => { e with
      node := some node, read := read, write := write, refs := 1
      excl := if excl then some proc else none }
    ftabEntRelease i
    ftabRelease
    let base ← Comp.read (·.ftabBase)
    pure (some ⟨base, i⟩)

/-- "non-empty entry - file is already opened" -/
def ftabOpenAgain (i node proc : ℕ) (e : Ftab) (read write excl : Bool) :
    FileOp (Option FtabPtr) := do
  if e.excl ≠ none ∧ e.excl ≠ some proc then do
    ftabEntRelease i
    ftabRelease
    pure none
  else if excl = true ∧ e.refs ≠ 0 then do
    ftabEntRelease i
    ftabRelease
    pure none
  else do
    let read := read || e.read
    let write := write || e.write
    let ok ← (if read ≠ e.read ∨ write ≠ e.write then vfsOpen (some node) read write else pure true)
    if ok = false then do
      ftabEntRelease i
      ftabRelease
      pure none
    else do
      Comp.modify fun s => s.modifyFtab i fun e => { e with
        read := read, write := write, refs := refsInc e.refs }
      ftabEntRelease i
      ftabRelease
      let base ← Comp.read (·.ftabBase)
      pure (some ⟨base, i⟩)

def ftabOpen (node proc : ℕ) (read write excl : Bool) : FileOp (Option FtabPtr) := do
  ftabAcquire
  let slot ← Comp.read fun s => ftabSearch s node
  let slot ← (match slot with
    | some i => pure (some i)
    | none => ftabGrow)
  match slot with
  | none => do
    ftabRelease
    pure none
  | some i => do
    ftabEntAcquire i
    let e ← Comp.readOr fun s => s.ftab[i]?
    if e.node = none then ftabOpenFirst i node proc read write excl
    else ftabOpenAgain i node proc e read write excl

/-- Follow a pointer to an entry; one into a released block reaches nothing. -/
def ftabDeref (p : FtabPtr) : FileOp Ftab := Comp.readOr fun s => s.ftabAt p

def ftabClose (p : FtabPtr) (proc : ℕ) : FileOp Unit := do
  let e ← ftabDeref p
  if e.excl ≠ none ∧ e.excl ≠ some proc then pure ()
  else do
    ftabEntAcquire p.idx
    let refs := refsDec e.refs
    Comp.modify fun s => s.modifyFtab p.idx fun e => { e with refs := refs }
    Comp.when (refs = 0) do
      vfsClose e.node
      Comp.modify fun s => s.modifyFtab p.idx fun _ => ftabZero
    ftabEntRelease p.idx

/-- `(!ent->excl || ent->excl == proc)` -/
def Ftab.admits (e : Ftab) (proc : ℕ) : Bool := e.excl = none || e.excl = some proc

/-- `ftab->node`, which is the node of the first entry, not `ent->node`. -/
def ftabFirstNode (s : Files) : Option (Option ℕ) := s.ftab.head?.map (·.node)

def ftabRead (p : FtabPtr) (proc offset size buf : ℕ) : FileOp ℕ := do
  let e ← ftabDeref p
  ftabEntAcquire p.idx
  let ret ← (if e.admits proc && e.read then do
      let node ← Comp.readOr ftabFirstNode
      vfsRead node offset size buf
    else pure 0)
  ftabEntRelease p.idx
  pure ret

def ftabWrite (p : FtabPtr) (proc offset size buf : ℕ) : FileOp ℕ := do
  let e ← ftabDeref p
  ftabEntAcquire p.idx
  let ret ← (if e.admits proc && e.write then do
      let node ← Comp.readOr ftabFirstNode
      vfsWrite node offset size buf
    else pure 0)
  ftabEntRelease p.idx
  pure ret

/-! `exec/process.c` -/

def procFdsAllocSz : ℕ := 4

/-- The loop of `proc_fd_open`: a free slot, or one with the same entry unless duplicates are asked
for. -/
def fdSearch (fds : List Fd) (duplicate : Bool) (p : FtabPtr) : Option ℕ :=
  fds.findIdx? fun f => f.ftab = none ∨ (duplicate = false ∧ f.ftab = some p)

def procFdOpen (proc node : ℕ) (duplicate read write append excl : Bool) : FileOp (Option ℕ) := do
  let ftab ← ftabOpen node proc read write excl
  match ftab with
  | none => pure none
  | some p => do
    let fds ← Comp.read fun s => s.fds proc
    let slot ← (match fdSearch fds duplicate p with
      | some i => pure (some i)
      | none => do
        let ok ← otherAlloc
        if ok then do
          Comp.modify fun s => s.setFds proc (fds ++ List.replicate procFdsAllocSz fdZero)
          pure (some fds.length)
        else pure none)
    match slot with
    | none => pure none
    | some i => do
      Comp.modify fun s => s.setFds proc ((s.fds proc).set i ⟨some p, read, write, append, 0⟩)
      pure (some i)

/-- `proc_fd_check`, and the descriptor where it succeeds. -/
def procFdGet (s : Files) (proc fd : ℕ) : Option (Fd × FtabPtr) :=
  (s.fds proc)[fd]?.bind fun f => f.ftab.map fun p => (f, p)

def procFdClose (proc fd : ℕ) : FileOp Unit := do
  let live ← Comp.read fun s => procFdGet s proc fd
  match live with
  | none => pure ()
  | some (_, p) => do
    ftabClose p proc
    Comp.modify fun s => s.setFds proc ((s.fds proc).set fd fdZero)

def procFdRead (proc fd size buf : ℕ) : FileOp ℕ := do
  let live ← Comp.read fun s => procFdGet s proc fd
  match live with
  | none => pure 0
  | some (f, p) =>
    if f.read then do
      let ret ← ftabRead p proc f.offset size buf
      Comp.modify fun s => s.setFds proc ((s.fds proc).modify fd fun f =>
        { f with offset := w64 (f.offset + ret) })
      pure ret
    else pure 0

def procFdWrite (proc fd size buf : ℕ) : FileOp ℕ := do
  let live ← Comp.read fun s => procFdGet s proc fd
  match live with
  | none => pure 0
  | some (f, p) =>
    if f.write then do
      let offset ← (if f.append then do
          let e ← ftabDeref p
          Comp.readOr fun s => e.node.map fun v => (s.nodes v).length
        else pure f.offset)
      let ret ← ftabWrite p proc offset size buf
      Comp.modify fun s => s.setFds proc ((s.fds proc).modify fd fun f =>
        { f with offset := w64 (offset + ret) })
      pure ret
    else pure 0

/-! Processes. -/

def procPidMax : ℕ := 65535
def procPidtabAllocSz : ℕ := 4

/-- `1 << TASK_PID_BITS` -/
def taskPidLimit : ℕ := 268435456

def procPidAlloc (proc : ℕ) : FileOp (Option ℕ) := do
  let tab ← Comp.read (·.pidtab)
  match tab.findIdx? (· = none) with
  | some i => do
    Comp.modify fun s => { s with pidtab := s.pidtab.set i (some proc), pid := Function.update s.pid proc i }
    pure (some i)
  | none =>
    if procPidMax < tab.length ∨ taskPidLimit ≤ tab.length then pure none
    else do
      let ok ← otherAlloc
      if ok then do
        Comp.modify fun s => { s with
          pidtab := s.pidtab ++ some proc :: List.replicate (procPidtabAllocSz - 1) none
          pid := Function.update s.pid proc tab.length }
        pure (some tab.length)
      else pure none

def procPidFree (pid : ℕ) : FileOp Unit :=
  Comp.modify fun s => { s with pidtab := s.pidtab.set pid none }

def Files.procGet (s : Files) (pid : ℕ) : Option ℕ := s.pidtab[pid]?.join

/-- The processes that exist: those in the PID table. -/
def Files.live (s : Files) : List ℕ := s.pidtab.filterMap id

/-- `proc_create`, of which `vmmOk` tells whether the VMM could be had. -/
def procCreate (parent : Option ℕ) (vmmOk : Bool) : FileOp (Option ℕ) := do
  let ok ← otherAlloc
  if ok = false then pure none
  else do
    let proc ← Comp.read (·.nextProc)
    Comp.modify fun s => { s with
      nextProc := s.nextProc + 1, fds := Function.update s.fds proc []
      parentPid := Function.update s.parentPid proc 0 }
    if vmmOk = false then pure none
    else do
      let pid ← procPidAlloc proc
      match pid with
      | none => pure none
      | some _ => do
        let console ← Comp.read (·.devConsole)
        let _ ← procFdOpen proc console true true false false false
        let _ ← procFdOpen proc console true false true false false
        let _ ← procFdOpen proc console true false true false false
        match parent with
        | none => pure (some proc)
        | some par => do
          Comp.modify fun s => { s with parentPid := Function.update s.parentPid proc (s.pid par) }
          pure (some proc)

/-- `proc_do_delete`, which a deleted process ends in. Its descriptors are not closed. -/
def procDoDelete (proc : ℕ) : FileOp Unit := do
  let pid ← Comp.read fun s => s.pid proc
  procPidFree pid

/-- "reopen files": an inherited descriptor from 3 on counts, unless its file is held exclusively. -/
def forkReopen (dst : ℕ) (i : ℕ) : FileOp Unit := do
  let f ← Comp.readOr fun s => (s.fds dst)[i]?
  match f.ftab with
  | none => pure ()
  | some p => do
    let e ← ftabDeref p
    if e.excl ≠ none then Comp.modify fun s => s.setFds dst ((s.fds dst).set i fdZero)
    else do
      ftabEntAcquire p.idx
      Comp.modify fun s => s.modifyFtab p.idx fun e => { e with refs := refsInc e.refs }
      ftabEntRelease p.idx

/-- `proc_fork` of the process `src`, of which `vmmOk` and `taskOk` tell whether the VMM and the task
could be cloned. On a failure `proc_delete` finds no task to delete, and the new process stays. -/
def procFork (src : ℕ) (vmmOk taskOk : Bool) : FileOp (Option ℕ) := do
  let dst ← procCreate (some src) vmmOk
  match dst with
  | none => pure none
  | some dst => do
    Comp.modify fun s => { s with parentPid := Function.update s.parentPid dst (s.pid src) }
    let ok ← otherAlloc
    if ok = false then pure none
    else do
      let fds ← Comp.read fun s => s.fds src
      Comp.modify fun s => s.setFds dst fds
      Comp.forRange (forkReopen dst) (fds.length - 3) 3
      pure (if taskOk then some dst else none)

end SysX
