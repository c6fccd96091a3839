import SysX.Routing

/-!
The system calls (`exec/syscall.c`), and which bytes of the caller's buffer a transfer touches.
-/
namespace SysX

/-- The registers that `syscall_handler_stub` reads and writes: `eax`, `ecx`, `edx` and `ebx`. -/
structure Registers where
  funcRet : BitVec 32
  arg1 : BitVec 32
  arg2 : BitVec 32
  arg3 : BitVec 32
  deriving DecidableEq

def syscallExitNo : BitVec 32 := 0
def syscallReadNo : BitVec 32 := 1
def syscallWriteNo : BitVec 32 := 2
def syscallForkNo : BitVec 32 := 3

/-- `proc_abort` deletes the process and waits for the next task switch. -/
def syscallExit : FileOp Unit := Comp.fault

/-- `syscall_fork` as the parent sees it. -/
def syscallFork (pid : ℕ) (vmmOk taskOk : Bool) : FileOp ℕ := do
  let src ← Comp.readOr fun s => s.procGet pid
  let child ← procFork src vmmOk taskOk
  match child with
  | none => pure sizeMax
  | some child => do
    let cpid ← Comp.read fun s => s.pid child
    pure (if pid = cpid then 0 else cpid)

/-- `syscall_handler_stub` for a task of the process `pid`, with the registers it leaves. `vmmOk` and
`taskOk` are those of `proc_fork`. -/
def syscallHandlerStub (pid : ℕ) (vmmOk taskOk : Bool) (r : Registers) :
    FileOp (Registers × Bool) :=
  if r.funcRet = syscallExitNo then do
    syscallExit
    pure (r, true)
  else if r.funcRet = syscallReadNo then do
    let proc ← Comp.readOr fun s => s.procGet pid
    let ret ← procFdRead proc r.arg3.toNat r.arg1.toNat r.arg2.toNat
    pure ({ r with funcRet := .ofNat 32 ret }, true)
  else if r.funcRet = syscallWriteNo then do
    let proc ← Comp.readOr fun s => s.procGet pid
    let ret ← procFdWrite proc r.arg3.toNat r.arg1.toNat r.arg2.toNat
    pure ({ r with funcRet := .ofNat 32 ret }, true)
  else if r.funcRet = syscallForkNo then do
    let ret ← syscallFork pid vmmOk taskOk
    pure ({ r with funcRet := .ofNat 32 ret }, true)
  else pure ({ r with funcRet := .ofNat 32 sizeMax }, false)

/-! What a transfer touches. -/

/-- The addresses of the caller's buffer that a call of a hook reads or writes. -/
def HookCall.Touches : HookCall → ℕ → Prop
  | .read _ _ _ buf touched, a => ∃ i < touched, a = w32 (buf + i)
  | .write _ _ _ buf touched, a => ∃ i < touched, a = w32 (buf + i)
  | _, _ => False

/-- The buffer ends below the kernel. -/
def UserRange (r : Registers) : Prop :=
  r.arg1 = 0 ∨ r.arg2.toNat + r.arg1.toNat ≤ kernelStart

/-- All bytes that the call touches through the buffer are below the kernel, and a buffer that
reaches the kernel or wraps around is refused. -/
def Confined (s t : Files) (r r' : Registers) : Prop :=
  ∃ cs, t.calls = s.calls ++ cs ∧ (∀ c ∈ cs, ∀ a, c.Touches a → a < kernelStart) ∧
    (¬ UserRange r → r'.funcRet = 0 ∧ ∀ c ∈ cs, ∀ a, ¬ c.Touches a)

/-- The hook has nothing left to give at the offset. -/
def ReadHook.AtEnd (n : VfsNode) (offset size : ℕ) : ReadHook → Prop
  | .tar => n.data = false ∨ n.length ≤ offset
  | .memfs => n.length < w64 (offset + size) ∧ n.length ≤ offset
  | _ => False

def WriteHook.AtEnd (n : VfsNode) (offset size : ℕ) : WriteHook → Prop
  | .memfs => n.length < w64 (offset + size) ∧ n.length ≤ offset
  | _ => False

/-- The node, hook and offset that a read on a descriptor reaches, where every check on the way
succeeds. -/
def readReached (s : Files) (proc fd : ℕ) : Option (ℕ × ReadHook × ℕ) :=
  (procFdGet s proc fd).bind fun (f, q) => (s.ftabAt q).bind fun e =>
    if f.read && e.admits proc && e.read then
      (ftabFirstNode s).bind fun first =>
        (hookTarget s.nodes VfsNode.readHook first).map fun (v, h) => (v, h, f.offset)
    else none

def writeReached (s : Files) (proc fd : ℕ) : Option (ℕ × WriteHook × ℕ) :=
  (procFdGet s proc fd).bind fun (f, q) => (s.ftabAt q).bind fun e =>
    if f.write && e.admits proc && e.write then
      (ftabFirstNode s).bind fun first =>
        (hookTarget s.nodes VfsNode.writeHook first).map fun (v, h) =>
          (v, h, if f.append then (e.node.map fun v => (s.nodes v).length).getD 0 else f.offset)
    else none

/-- The request reaches no hook, or one that is at its end. -/
def Idle (s : Files) (pid : ℕ) (r : Registers) : Prop :=
  ∀ proc, s.procGet pid = some proc →
    if r.funcRet = syscallReadNo then
      ∀ v h offset, readReached s proc r.arg3.toNat = some (v, h, offset) →
        h.AtEnd (s.nodes v) offset r.arg1.toNat
    else
      ∀ v h offset, writeReached s proc r.arg3.toNat = some (v, h, offset) →
        h.AtEnd (s.nodes v) offset r.arg1.toNat

/-! What the hooks transfer. -/

/-- What is left of a file of `length` bytes at `offset`, where less than `size` bytes are. -/
theorem rest_le {length offset size : ℕ} (h : length < w64 (offset + size)) :
    length - offset ≤ size := by
  unfold w64 at h
  omega

theorem w32_le (n : ℕ) : w32 n ≤ n := Nat.mod_le n _

theorem ReadHook.run_le (h : ReadHook) (n : VfsNode) (offset size : ℕ) :
    (h.run n offset size).ret ≤ size ∧ (h.run n offset size).touched ≤ size := by
  cases h with
  | tar =>
    simp only [ReadHook.run]
    split_ifs with h1 h2
    · exact ⟨Nat.zero_le _, Nat.zero_le _⟩
    · exact ⟨rest_le h2, (w32_le _).trans (rest_le h2)⟩
    · exact ⟨le_refl _, w32_le _⟩
  | memfs =>
    simp only [ReadHook.run]
    split_ifs with h1 h2
    · exact ⟨Nat.zero_le _, Nat.zero_le _⟩
    · exact ⟨rest_le h1, (w32_le _).trans (rest_le h1)⟩
    · exact ⟨le_refl _, w32_le _⟩
  | zero => exact ⟨le_refl _, Nat.zero_le _⟩
  | _ => exact ⟨le_refl _, le_refl _⟩

theorem WriteHook.run_le (h : WriteHook) (n : VfsNode) (offset size : ℕ) :
    (h.run n offset size).ret ≤ size ∧ (h.run n offset size).touched ≤ size := by
  cases h with
  | memfs =>
    simp only [WriteHook.run]
    split_ifs with h1 h2
    · exact ⟨Nat.zero_le _, Nat.zero_le _⟩
    · exact ⟨rest_le h1, (w32_le _).trans (rest_le h1)⟩
    · exact ⟨le_refl _, w32_le _⟩
  | null => exact ⟨le_refl _, Nat.zero_le _⟩
  | random => exact ⟨le_refl _, Nat.min_le_right _ _⟩
  | _ => exact ⟨le_refl _, le_refl _⟩

/-- A hook transfers nothing exactly when it is at its end. -/
theorem ReadHook.run_atEnd {h : ReadHook} {n : VfsNode} {offset size : ℕ}
    (ha : h.AtEnd n offset size) :
    (h.run n offset size).ret = 0 ∧ (h.run n offset size).touched = 0 := by
  cases h with
  | tar => simp [ReadHook.run, if_pos (show n.data = false ∨ n.length ≤ offset from ha)]
  | memfs => simp [ReadHook.run, ha.1, ha.2]
  | _ => exact ha.elim

theorem WriteHook.run_atEnd {h : WriteHook} {n : VfsNode} {offset size : ℕ}
    (ha : h.AtEnd n offset size) :
    (h.run n offset size).ret = 0 ∧ (h.run n offset size).touched = 0 := by
  cases h with
  | memfs => simp [WriteHook.run, ha.1, ha.2]
  | _ => exact ha.elim

theorem ReadHook.atEnd_of_run {h : ReadHook} {n : VfsNode} {offset size : ℕ} (hs : 0 < size)
    (hr : (h.run n offset size).ret = 0) : h.AtEnd n offset size := by
  cases h with
  | tar =>
    simp only [ReadHook.run] at hr
    split_ifs at hr with h1 h2
    · exact h1
    · have hr' : n.length - offset = 0 := hr
      omega
    · have hr' : size = 0 := hr
      omega
  | memfs =>
    simp only [ReadHook.run] at hr
    split_ifs at hr with h1 h2
    · exact ⟨h1, h2⟩
    · have hr' : n.length - offset = 0 := hr
      omega
    · have hr' : size = 0 := hr
      omega
  | _ =>
    simp only [ReadHook.run] at hr
    omega

theorem WriteHook.atEnd_of_run {h : WriteHook} {n : VfsNode} {offset size : ℕ} (hs : 0 < size)
    (hr : (h.run n offset size).ret = 0) : h.AtEnd n offset size := by
  cases h with
  | memfs =>
    simp only [WriteHook.run] at hr
    split_ifs at hr with h1 h2
    · exact ⟨h1, h2⟩
    · have hr' : n.length - offset = 0 := hr
      omega
    · have hr' : size = 0 := hr
      omega
  | _ =>
    simp only [WriteHook.run] at hr
    omega

section Confinement

variable {s t : Files} {proc fd size buf offset n : ℕ}

theorem vfsRead_resolves {node : Option ℕ} (h : vfsRead node offset size buf s = some (n, t)) :
    Resolves s.nodes node := by
  obtain ⟨v, u, hv, -⟩ := Comp.bind_eq_some.mp h
  rw [vfsTraverseSymlink, Comp.readOr_apply, Option.map_eq_some_iff] at hv
  obtain ⟨a, ha, -⟩ := hv
  exact ⟨a, ha⟩

theorem vfsWrite_resolves {node : Option ℕ} (h : vfsWrite node offset size buf s = some (n, t)) :
    Resolves s.nodes node := by
  obtain ⟨v, u, hv, -⟩ := Comp.bind_eq_some.mp h
  rw [vfsTraverseSymlink, Comp.readOr_apply, Option.map_eq_some_iff] at hv
  obtain ⟨a, ha, -⟩ := hv
  exact ⟨a, ha⟩

/-- A read of an entry that returns. -/
theorem ftabRead_inv {p : FtabPtr} (h : ftabRead p proc offset size buf s = some (n, t)) :
    ∃ e, s.ftabAt p = some e ∧ if e.admits proc && e.read then
      ∃ first, ftabFirstNode s = some first ∧ n = (readCall s.nodes first offset size buf).1 ∧
        t.calls = s.calls ++ (readCall s.nodes first offset size buf).2
    else n = 0 ∧ t.calls = s.calls := by
  obtain ⟨e, s', he, h⟩ := Comp.bind_eq_some.mp h
  rw [ftabDeref, Comp.readOr_apply, Option.map_eq_some_iff] at he
  obtain ⟨a, ha, hau⟩ := he
  cases hau
  obtain ⟨_, u, hacq, h⟩ := Comp.bind_eq_some.mp h
  obtain ⟨-, rfl⟩ := ftabEntAcquire_run hacq
  obtain ⟨ret, v, hread, h⟩ := Comp.bind_eq_some.mp h
  cases h
  refine ⟨e, ha, ?_⟩
  split_ifs at hread ⊢ with hc
  · obtain ⟨first, u, hfirst, hread⟩ := Comp.bind_eq_some.mp hread
    rw [Comp.readOr_apply, Option.map_eq_some_iff] at hfirst
    obtain ⟨b, hb, hbu⟩ := hfirst
    cases hbu
    rw [ftabFirstNode_ent, ent_modify_mutex, ← ftabFirstNode_ent] at hb
    rw [vfsRead_run (vfsRead_resolves hread)] at hread
    cases hread
    exact ⟨first, hb, rfl, rfl⟩
  · cases hread
    exact ⟨rfl, rfl⟩

theorem ftabWrite_inv {p : FtabPtr} (h : ftabWrite p proc offset size buf s = some (n, t)) :
    ∃ e, s.ftabAt p = some e ∧ if e.admits proc && e.write then
      ∃ first, ftabFirstNode s = some first ∧ n = (writeCall s.nodes first offset size buf).1 ∧
        t.calls = s.calls ++ (writeCall s.nodes first offset size buf).2
    else n = 0 ∧ t.calls = s.calls := by
  obtain ⟨e, s', he, h⟩ := Comp.bind_eq_some.mp h
  rw [ftabDeref, Comp.readOr_apply, Option.map_eq_some_iff] at he
  obtain ⟨a, ha, hau⟩ := he
  cases hau
  obtain ⟨_, u, hacq, h⟩ := Comp.bind_eq_some.mp h
  obtain ⟨-, rfl⟩ := ftabEntAcquire_run hacq
  obtain ⟨ret, v, hwrite, h⟩ := Comp.bind_eq_some.mp h
  cases h
  refine ⟨e, ha, ?_⟩
  split_ifs at hwrite ⊢ with hc
  · obtain ⟨first, u, hfirst, hwrite⟩ := Comp.bind_eq_some.mp hwrite
    rw [Comp.readOr_apply, Option.map_eq_some_iff] at hfirst
    obtain ⟨b, hb, hbu⟩ := hfirst
    cases hbu
    rw [ftabFirstNode_ent, ent_modify_mutex, ← ftabFirstNode_ent] at hb
    rw [vfsWrite_run (vfsWrite_resolves hwrite)] at hwrite
    cases hwrite
    exact ⟨first, hb, rfl, rfl⟩
  · cases hwrite
    exact ⟨rfl, rfl⟩

/-- The hook that a read on a descriptor reaches is the one it calls. -/
theorem procFdRead_reached (h : procFdRead proc fd size buf s = some (n, t)) :
    readReached s proc fd = none ∧ n = 0 ∧ t.calls = s.calls ∨
    ∃ v k o, readReached s proc fd = some (v, k, o) ∧ n = (k.run (s.nodes v) o size).ret ∧
      t.calls = s.calls ++ [.read v o size buf (k.run (s.nodes v) o size).touched] := by
  rw [procFdRead, Comp.read_bind] at h
  unfold readReached
  cases hg : procFdGet s proc fd with
  | none =>
    rw [hg] at h
    cases h
    exact .inl ⟨rfl, rfl, rfl⟩
  | some x =>
    obtain ⟨f, q⟩ := x
    rw [hg] at h
    simp only [Option.bind_some]
    cases hf : f.read with
    | false =>
      simp only [hf, Bool.false_eq_true, if_false] at h
      cases h
      refine .inl ⟨?_, rfl, rfl⟩
      cases s.ftabAt q with
      | none => rfl
      | some e => simp
    | true =>
      simp only [hf, if_true] at h
      obtain ⟨ret, u, hread, h⟩ := Comp.bind_eq_some.mp h
      cases h
      obtain ⟨e, he, hres⟩ := ftabRead_inv hread
      simp only [he, Option.bind_some, Bool.true_and]
      split_ifs at hres ⊢ with hc
      · obtain ⟨first, hfirst, rfl, hcalls⟩ := hres
        rw [hfirst, Option.bind_some]
        unfold readCall at hcalls ⊢
        cases ht : hookTarget s.nodes VfsNode.readHook first with
        | none =>
          rw [ht] at hcalls
          exact .inl ⟨rfl, rfl, hcalls.trans (List.append_nil _)⟩
        | some y =>
          rw [ht] at hcalls
          exact .inr ⟨y.1, y.2, f.offset, rfl, rfl, hcalls⟩
      · exact .inl ⟨rfl, hres.1, hres.2⟩

theorem procFdWrite_reached (h : procFdWrite proc fd size buf s = some (n, t)) :
    writeReached s proc fd = none ∧ n = 0 ∧ t.calls = s.calls ∨
    ∃ v k o, writeReached s proc fd = some (v, k, o) ∧ n = (k.run (s.nodes v) o size).ret ∧
      t.calls = s.calls ++ [.write v o size buf (k.run (s.nodes v) o size).touched] := by
  rw [procFdWrite, Comp.read_bind] at h
  unfold writeReached
  cases hg : procFdGet s proc fd with
  | none =>
    rw [hg] at h
    cases h
    exact .inl ⟨rfl, rfl, rfl⟩
  | some x =>
    obtain ⟨f, q⟩ := x
    rw [hg] at h
    simp only [Option.bind_some]
    cases hf : f.write with
    | false =>
      simp only [hf, Bool.false_eq_true, if_false] at h
      cases h
      refine .inl ⟨?_, rfl, rfl⟩
      cases s.ftabAt q with
      | none => rfl
      | some e => simp
    | true =>
      simp only [hf, if_true] at h
      obtain ⟨off, s', hoff, h⟩ := Comp.bind_eq_some.mp h
      obtain ⟨ret, u, hwrite, h⟩ := Comp.bind_eq_some.mp h
      cases h
      have hs : s' = s ∧ ∀ e, s.ftabAt q = some e →
          off = if f.append then (e.node.map fun v => (s.nodes v).length).getD 0 else f.offset := by
        split_ifs at hoff ⊢ with happ
        · obtain ⟨e, s₁, he, hoff⟩ := Comp.bind_eq_some.mp hoff
          rw [ftabDeref, Comp.readOr_apply, Option.map_eq_some_iff] at he
          obtain ⟨a, ha, hau⟩ := he
          cases hau
          rw [Comp.readOr_apply, Option.map_eq_some_iff] at hoff
          obtain ⟨b, hb, hbu⟩ := hoff
          cases hbu
          refine ⟨rfl, fun e' he' => ?_⟩
          rw [ha] at he'
          cases he'
          rw [hb]
          rfl
        · cases hoff
          exact ⟨rfl, fun _ _ => rfl⟩
      obtain ⟨rfl, hoff'⟩ := hs
      obtain ⟨e, he, hres⟩ := ftabWrite_inv hwrite
      simp only [he, Option.bind_some, Bool.true_and, ← hoff' e he]
      split_ifs at hres ⊢ with hc
      · obtain ⟨first, hfirst, rfl, hcalls⟩ := hres
        rw [hfirst, Option.bind_some]
        unfold writeCall at hcalls ⊢
        cases ht : hookTarget s'.nodes VfsNode.writeHook first with
        | none =>
          rw [ht] at hcalls
          exact .inl ⟨rfl, rfl, hcalls.trans (List.append_nil _)⟩
        | some y =>
          rw [ht] at hcalls
          exact .inr ⟨y.1, y.2, off, rfl, rfl, hcalls⟩
      · exact .inl ⟨rfl, hres.1, hres.2⟩

/-- Touching at most `size` bytes from `buf` on stays below the kernel where the range does. -/
theorem touches_lt {touched a : ℕ} (ht : touched ≤ size)
    (hr : size = 0 ∨ buf + size ≤ kernelStart) (ha : ∃ i < touched, a = w32 (buf + i)) :
    a < kernelStart := by
  obtain ⟨i, hi, rfl⟩ := ha
  have hlt : w32 (buf + i) ≤ buf + i := w32_le _
  omega

/-- A call of a hook with `touched` bytes from `buf` on and the result `n` is confined where the range
is below the kernel, or where nothing is transferred. -/
theorem confined_iff {r : Registers} {c : HookCall} {touched : ℕ} {atEnd : Prop}
    (hcalls : t.calls = s.calls ++ [c])
    (hc : ∀ a, c.Touches a ↔ ∃ i < touched, a = w32 (r.arg2.toNat + i))
    (hle : n ≤ r.arg1.toNat ∧ touched ≤ r.arg1.toNat) (hend : atEnd → n = 0 ∧ touched = 0)
    (hzero : 0 < r.arg1.toNat → n = 0 → atEnd) :
    Confined s t r { r with funcRet := .ofNat 32 n } ↔ UserRange r ∨ atEnd := by
  have h1 : r.arg1.toNat < 2 ^ 32 := r.arg1.isLt
  constructor
  · rintro ⟨cs, hcs, -, hrefused⟩
    by_cases hr : UserRange r
    · exact .inl hr
    · right
      have hret : n % 2 ^ 32 = 0 := congrArg BitVec.toNat (hrefused hr).1
      have hpos : 0 < r.arg1.toNat := by
        refine Nat.pos_of_ne_zero fun h0 => hr (.inl ?_)
        apply BitVec.eq_of_toNat_eq
        simpa using h0
      apply hzero hpos
      omega
  · rintro (hr | hr)
    · refine ⟨[c], hcalls, fun x hx a ha => ?_, fun hn => (hn hr).elim⟩
      rw [List.mem_singleton.mp hx, hc] at ha
      apply touches_lt hle.2 _ ha
      obtain h0 | h0 := hr
      · left
        rw [h0]
        rfl
      · exact .inr h0
    · obtain ⟨rfl, rfl⟩ := hend hr
      have hno : ∀ x ∈ [c], ∀ a, ¬ x.Touches a := by
        intro x hx a ha
        rw [List.mem_singleton.mp hx, hc] at ha
        obtain ⟨i, hi, -⟩ := ha
        omega
      exact ⟨[c], hcalls, fun x hx a ha => (hno x hx a ha).elim, fun _ => ⟨rfl, hno⟩⟩

/-- A call that reaches no hook is confined. -/
theorem confined_none {r : Registers} (hcalls : t.calls = s.calls) :
    Confined s t r { r with funcRet := .ofNat 32 0 } := by
  refine ⟨[], by simpa using hcalls, ?_, fun _ => ⟨rfl, ?_⟩⟩
  · intro c hc
    cases hc
  · intro c hc
    cases hc

end Confinement

/-- The calls of `read` and `write` that return are confined when the buffer ends below the kernel,
and otherwise only when nothing is there to transfer. -/
theorem syscall_confined_iff {s t : Files} {pid : ℕ} {vmmOk taskOk ok : Bool} {r r' : Registers}
    (hf : r.funcRet = syscallReadNo ∨ r.funcRet = syscallWriteNo)
    (h : syscallHandlerStub pid vmmOk taskOk r s = some ((r', ok), t)) :
    Confined s t r r' ↔ UserRange r ∨ Idle s pid r := by
  unfold syscallHandlerStub at h
  obtain hf | hf := hf
  · rw [if_neg (by rw [hf]; decide), if_pos hf] at h
    obtain ⟨proc, s', hproc, h⟩ := Comp.bind_eq_some.mp h
    rw [Comp.readOr_apply, Option.map_eq_some_iff] at hproc
    obtain ⟨p, hp, hpu⟩ := hproc
    obtain ⟨rfl, rfl⟩ := Prod.mk.inj hpu
    obtain ⟨n, u, hread, h⟩ := Comp.bind_eq_some.mp h
    cases h
    have hidle : Idle s pid r ↔ ∀ v k o, readReached s p r.arg3.toNat = some (v, k, o) →
        k.AtEnd (s.nodes v) o r.arg1.toNat := by
      simp [Idle, hp, hf]
    rw [hidle]
    obtain ⟨hnone, rfl, hcalls⟩ | ⟨v, k, o, hsome, rfl, hcalls⟩ := procFdRead_reached hread
    · simp only [hnone]
      exact iff_of_true (confined_none hcalls) (.inr fun _ _ _ hx => by cases hx)
    · have hend : (∀ v' k' o', readReached s p r.arg3.toNat = some (v', k', o') →
          k'.AtEnd (s.nodes v') o' r.arg1.toNat) ↔ k.AtEnd (s.nodes v) o r.arg1.toNat := by
        rw [hsome]
        exact ⟨fun hx => hx _ _ _ rfl, fun hx _ _ _ he => by cases he; exact hx⟩
      rw [hend]
      exact confined_iff hcalls (fun _ => Iff.rfl) (k.run_le _ _ _) ReadHook.run_atEnd
        ReadHook.atEnd_of_run
  · rw [if_neg (by rw [hf]; decide), if_neg (by rw [hf]; decide), if_pos hf] at h
    obtain ⟨proc, s', hproc, h⟩ := Comp.bind_eq_some.mp h
    rw [Comp.readOr_apply, Option.map_eq_some_iff] at hproc
    obtain ⟨p, hp, hpu⟩ := hproc
    obtain ⟨rfl, rfl⟩ := Prod.mk.inj hpu
    obtain ⟨n, u, hwrite, h⟩ := Comp.bind_eq_some.mp h
    cases h
    have hidle : Idle s pid r ↔ ∀ v k o, writeReached s p r.arg3.toNat = some (v, k, o) →
        k.AtEnd (s.nodes v) o r.arg1.toNat := by
      simp [Idle, hp, hf, syscallReadNo, syscallWriteNo]
    rw [hidle]
    obtain ⟨hnone, rfl, hcalls⟩ | ⟨v, k, o, hsome, rfl, hcalls⟩ := procFdWrite_reached hwrite
    · simp only [hnone]
      exact iff_of_true (confined_none hcalls) (.inr fun _ _ _ hx => by cases hx)
    · have hend : (∀ v' k' o', writeReached s p r.arg3.toNat = some (v', k', o') →
          k'.AtEnd (s.nodes v') o' r.arg1.toNat) ↔ k.AtEnd (s.nodes v) o r.arg1.toNat := by
        rw [hsome]
        exact ⟨fun hx => hx _ _ _ rfl, fun hx _ _ _ he => by cases he; exact hx⟩
      rw [hend]
      exact confined_iff hcalls (fun _ => Iff.rfl) (k.run_le _ _ _) WriteHook.run_atEnd
        WriteHook.atEnd_of_run

/-- Process 1 has the console open for reading. -/
def consoleSample : Files := after (procFdOpen 1 11 false true false false false) filesSample

def readSample (buf : BitVec 32) : Registers := ⟨syscallReadNo, 4, buf, 0⟩

theorem syscall_confined_iff_sample :
    ∃ t, syscallHandlerStub 0 true true (readSample 4096) consoleSample =
        some ((readSample 4096 |> fun r => { r with funcRet := 4 }, true), t) ∧
      Confined consoleSample t (readSample 4096) { readSample 4096 with funcRet := 4 } := by
  have hrun := run_after (c := syscallHandlerStub 0 true true (readSample 4096)) (s := consoleSample)
    (a := ({ readSample 4096 with funcRet := 4 }, true)) (by decide +kernel)
  exact ⟨_, hrun, (syscall_confined_iff (.inl rfl) hrun).mpr (.inl (.inr (by decide)))⟩

/-- A read of the console into the kernel is not refused. -/
theorem syscall_read_unconfined : ¬ ∀ s t pid vmmOk taskOk ok r r',
    r.funcRet = syscallReadNo ∨ r.funcRet = syscallWriteNo →
    syscallHandlerStub pid vmmOk taskOk r s = some ((r', ok), t) → Confined s t r r' := by
  intro h
  have hrun := run_after (c := syscallHandlerStub 0 true true (readSample 0xc0100000))
    (s := consoleSample) (a := ({ readSample 0xc0100000 with funcRet := 4 }, true)) (by decide +kernel)
  obtain ⟨cs, -, -, hrefused⟩ := h _ _ _ _ _ _ _ _ (.inl rfl) hrun
  have hret := (hrefused (by unfold UserRange; decide)).1
  cases hret

end SysX
