import SysX.Files
import SysX.WideMemset

/-!
The hooks that move the bytes of a node (`fs/memfs.c`, `fs/tarfs.c`, `fs/devfs_std.c`), down to the memory that
`memcpy` and `memset` (`lib/string.c`) change.
-/
namespace SysX

namespace LibString

/-- The loop of `memcpy`, from its pass `i` on. -/
def memcpyLoop (dest src : ℕ) : (n i : ℕ) → (ℕ → UInt8) → ℕ → UInt8
  | 0, _, m => m
  | n + 1, i, m => memcpyLoop dest src n (i + 1) (Function.update m (w32 (dest + i)) (m (w32 (src + i))))

/-- Nothing is copied where the two pointers are equal. -/
def memcpy (m : ℕ → UInt8) (dest src n : ℕ) : ℕ → UInt8 := if dest = src then m else memcpyLoop dest src n 0 m

def memset (m : ℕ → UInt8) (str c n : ℕ) : ℕ → UInt8 := memsetLoop 1 c str n 0 m

end LibString

/-- `memfs_vfs_read` of the node with `length` bytes at `link`: the value that is returned, and the memory. -/
def memfsVfsRead (m : ℕ → UInt8) (link length offset size buffer : ℕ) : ℕ × (ℕ → UInt8) :=
  if length < w64 (offset + size) then
    if length ≤ offset then (0, m)
    else
      let size := length - offset
      (size, LibString.memcpy m buffer (w32 (link + w32 offset)) (w32 size))
  else (size, LibString.memcpy m buffer (w32 (link + w32 offset)) (w32 size))

def memfsVfsWrite (m : ℕ → UInt8) (link length offset size buffer : ℕ) : ℕ × (ℕ → UInt8) :=
  if length < w64 (offset + size) then
    if length ≤ offset then (0, m)
    else
      let size := length - offset
      (size, LibString.memcpy m (w32 (link + w32 offset)) buffer (w32 size))
  else (size, LibString.memcpy m (w32 (link + w32 offset)) buffer (w32 size))

/-- `tar_vfs_read` of a node whose entry of the hierarchy has `data`. -/
def tarVfsReadTo (m : ℕ → UInt8) (data length offset size buffer : ℕ) : ℕ × (ℕ → UInt8) :=
  if data = 0 then (0, m)
  else if length ≤ offset then (0, m)
  else
    let size := if length < w64 (offset + size) then length - offset else size
    (size, LibString.memcpy m buffer (w32 (data + w32 offset)) (w32 size))

/-- The arguments of `memset` stand the wrong way round. -/
def devfsZeroRead (m : ℕ → UInt8) (size buffer : ℕ) : ℕ × (ℕ → UInt8) :=
  (size, LibString.memset m buffer (w32 size) 0)

/-- The hooks return what the file layer takes them to return. -/
theorem hooks_ret (n : VfsNode) (m : ℕ → UInt8) (link offset size buffer : ℕ) (hdata : n.data = true ↔ link ≠ 0) :
    (memfsVfsRead m link n.length offset size buffer).1 = (ReadHook.memfs.run n offset size).ret ∧
      (memfsVfsWrite m link n.length offset size buffer).1 = (WriteHook.memfs.run n offset size).ret ∧
      (tarVfsReadTo m link n.length offset size buffer).1 = (ReadHook.tar.run n offset size).ret ∧
      (devfsZeroRead m size buffer).1 = (ReadHook.zero.run n offset size).ret := by
  refine ⟨?_, ?_, ?_, rfl⟩
  · unfold memfsVfsRead ReadHook.run
    split_ifs <;> rfl
  · unfold memfsVfsWrite WriteHook.run
    split_ifs <;> rfl
  · unfold tarVfsReadTo ReadHook.run
    have hlink : n.data = false ↔ link = 0 := by
      rw [← Bool.not_eq_true, hdata, not_not]
    simp only [hlink]
    by_cases h0 : link = 0
    · simp [h0]
    · simp only [h0, if_false, false_or]
      split_ifs <;> rfl

/-! What the hooks are for. -/

/-- How many bytes there are to be moved. -/
def hookBytes (length offset size : ℕ) : ℕ := if offset < length then min size (length - offset) else 0

/-- `r` bytes were moved, and nothing else was touched. -/
structure BytesMoved (src dest r : ℕ) (m : ℕ → UInt8) (out : ℕ × (ℕ → UInt8)) : Prop where
  ret : out.1 = r
  moved : ∀ i < r, out.2 (w32 (dest + i)) = m (w32 (src + i))
  kept : ∀ a, (∀ i < r, a ≠ w32 (dest + i)) → out.2 a = m a

/-- `size` zeros were written, and nothing else. -/
structure Zeroed (dest size : ℕ) (m : ℕ → UInt8) (out : ℕ × (ℕ → UInt8)) : Prop where
  ret : out.1 = size
  zeros : ∀ i < size, out.2 (w32 (dest + i)) = 0
  kept : ∀ a, (∀ i < size, a ≠ w32 (dest + i)) → out.2 a = m a

/-- A forward copy of `r` bytes reads none that it has written, and the length of the copy is not cut off. -/
def CopyFits (src dest r : ℕ) : Prop := dest = src ∨ r < 4294967296 ∧ r ≤ w32 (dest + 4294967296 - src)

/-- The sum of `offset` and `size` wraps and passes the check of the length. -/
def SumPasses (length offset size : ℕ) : Prop := 18446744073709551616 ≤ offset + size ∧ w64 (offset + size) ≤ length

section Copies

variable {m : ℕ → UInt8} {dest src n i a d : ℕ}

theorem memcpyLoop_add (k : ℕ) :
    LibString.memcpyLoop dest src (k + n) i m =
      LibString.memcpyLoop dest src n (i + k) (LibString.memcpyLoop dest src k i m) := by
  induction k generalizing i m with
  | zero => rw [Nat.zero_add, Nat.add_zero, LibString.memcpyLoop]
  | succ k ih => rw [Nat.succ_add, LibString.memcpyLoop, LibString.memcpyLoop, ih, Nat.add_assoc, Nat.add_comm 1]

theorem memcpyLoop_kept (h : ∀ j < n, a ≠ w32 (dest + (i + j))) : LibString.memcpyLoop dest src n i m a = m a := by
  induction n generalizing i m with
  | zero => rfl
  | succ n ih =>
    rw [LibString.memcpyLoop, ih]
    · exact Function.update_of_ne (h 0 (Nat.succ_pos n)) _ _
    · intro j hj
      rw [Nat.add_assoc, Nat.add_comm 1]
      exact h (j + 1) (Nat.succ_lt_succ hj)

/-- The copy from `src` to the target at the distance `d` behind it. -/
theorem memcpyLoop_moved (hdest : dest = w32 (src + d)) (hd : d < 4294967296) (hn : n ≤ d) :
    ∀ j < n, LibString.memcpyLoop dest src n 0 m (w32 (dest + j)) = m (w32 (src + j)) := by
  induction n with
  | zero => exact fun j hj => nomatch hj
  | succ n ih =>
    intro j hj
    have hlast : LibString.memcpyLoop dest src (n + 1) 0 m =
        Function.update (LibString.memcpyLoop dest src n 0 m) (w32 (dest + n))
          (LibString.memcpyLoop dest src n 0 m (w32 (src + n))) := by
      rw [memcpyLoop_add, LibString.memcpyLoop, LibString.memcpyLoop, Nat.zero_add]
    rw [hlast]
    rcases Nat.lt_succ_iff_lt_or_eq.mp hj with hlt | rfl
    · rw [Function.update_of_ne (by unfold w32 at *; omega)]
      exact ih (by omega) j hlt
    · rw [Function.update_self, memcpyLoop_kept]
      intro k hk
      unfold w32 at *
      omega

/-- Where the target starts inside the source, the first byte comes back behind it. -/
theorem memcpyLoop_overlaps (hdest : dest = w32 (src + d)) (hsrc : src < 4294967296) (hd : 0 < d) (hn : d < n)
    (hfit : n < 4294967296) : LibString.memcpyLoop dest src n 0 m (w32 (dest + d)) = m src := by
  obtain ⟨k, rfl⟩ := Nat.exists_eq_add_of_lt hn
  rw [Nat.add_assoc, memcpyLoop_add, Nat.add_comm k, memcpyLoop_add, Nat.zero_add, memcpyLoop_kept]
  · have hfirst := memcpyLoop_moved (m := m) hdest (by omega) (Nat.le_refl d) 0 hd
    have hread : w32 (src + d) = w32 (dest + 0) := by
      unfold w32 at *
      omega
    have hsource : w32 (src + 0) = src := w32_of_lt (by omega)
    rw [LibString.memcpyLoop, LibString.memcpyLoop, Function.update_self, hread, hfirst, hsource]
  · intro j hj
    unfold w32
    omega

/-- A memory in which one address stands out. -/
def marked (a : ℕ) : ℕ → UInt8 := fun b => if b = a then 1 else 0

theorem marked_eq_iff {b : ℕ} : marked a a = marked a b ↔ b = a := by
  unfold marked
  rw [if_pos rfl]
  split_ifs with h
  · simp [h]
  · simp [h]

/-- A copy that is too long leaves an address behind its cut off length as it was. -/
theorem memcpyLoop_not_long {r : ℕ} (hdest : dest = w32 (src + d)) (hd : 0 < d) (hsmall : d < 4294967296) (hr : 4294967296 ≤ r) :
    ¬∀ m, BytesMoved src dest r m (r, LibString.memcpyLoop dest src (w32 r) 0 m) := by
  intro h
  have hcut : w32 r < 4294967296 := Nat.mod_lt _ (by decide)
  have hmoved := (h (marked (w32 (dest + w32 r)))).moved (w32 r) (by omega)
  dsimp only at hmoved
  rw [memcpyLoop_kept, marked_eq_iff] at hmoved
  · unfold w32 at *
    omega
  · intro j hj
    unfold w32 at *
    omega

theorem memcpyLoop_not_overlapping {r : ℕ} (hdest : dest = w32 (src + d)) (hsrc : src < 4294967296) (hd : 0 < d) (hn : d < r)
    (hr : r < 4294967296) : ¬∀ m, BytesMoved src dest r m (r, LibString.memcpyLoop dest src (w32 r) 0 m) := by
  intro h
  have hmoved := (h (marked src)).moved d hn
  dsimp only at hmoved
  rw [w32_of_lt hr, memcpyLoop_overlaps hdest hsrc hd hn hr, marked_eq_iff] at hmoved
  unfold w32 at *
  omega

theorem memcpy_moved_iff {r : ℕ} (hsrc : src < 4294967296) (hdest : dest < 4294967296) :
    (∀ m, BytesMoved src dest r m (r, LibString.memcpy m dest src (w32 r))) ↔ CopyFits src dest r := by
  obtain ⟨d, hd, hdist⟩ : ∃ d, d = w32 (dest + 4294967296 - src) ∧ dest = w32 (src + d) := by
    refine ⟨_, rfl, ?_⟩
    unfold w32
    omega
  have hsmall : d < 4294967296 := by
    rw [hd]
    exact Nat.mod_lt _ (by decide)
  unfold CopyFits LibString.memcpy
  rw [← hd]
  split_ifs with hsame
  · subst hsame
    exact ⟨fun _ => .inl rfl, fun _ m => ⟨rfl, fun i hi => rfl, fun a ha => rfl⟩⟩
  · have hpos : 0 < d := by
      rw [hd]
      unfold w32
      omega
    constructor
    · intro h
      right
      by_contra hout
      rcases Nat.lt_or_ge r 4294967296 with hr | hr
      · exact memcpyLoop_not_overlapping hdist hsrc hpos (by omega) hr h
      · exact memcpyLoop_not_long hdist hpos hsmall hr h
    · intro h m
      obtain ⟨hr, hle⟩ := h.resolve_left hsame
      rw [w32_of_lt hr]
      refine ⟨rfl, memcpyLoop_moved hdist hsmall hle, fun a ha => memcpyLoop_kept fun j hj => ?_⟩
      rw [Nat.zero_add]
      exact ha j hj

end Copies

/-- The arguments of a hook: pointers of 32 bits, and numbers of 64 bits. -/
structure HookArgs (link length offset size buffer : ℕ) : Prop where
  link : link < 4294967296
  length : length < 18446744073709551616
  offset : offset < 18446744073709551616
  size : size < 18446744073709551616
  buffer : buffer < 4294967296

section Hooks

variable {link length offset size buffer : ℕ}

/-- The check of the length finds out how much there is to be moved, unless the sum passes it by wrapping. -/
theorem hookBytes_eq (h : HookArgs link length offset size buffer) (hpass : ¬SumPasses length offset size) :
    hookBytes length offset size =
      if length < w64 (offset + size) then if length ≤ offset then 0 else length - offset else size := by
  have hsize := h.size
  have hoffset := h.offset
  have hlength := h.length
  unfold SumPasses w64 at hpass
  unfold hookBytes w64
  split_ifs <;> omega

theorem hookBytes_ne (h : HookArgs link length offset size buffer) (hpass : SumPasses length offset size) :
    hookBytes length offset size ≠ size := by
  have hoffset := h.offset
  have hlength := h.length
  unfold SumPasses w64 at hpass
  unfold hookBytes
  split_ifs <;> omega

theorem w32_add_w32 (a b : ℕ) : w32 (a + w32 b) = w32 (a + b) := Nat.add_mod_mod a b _

theorem memcpy_zero {m : ℕ → UInt8} {dest src : ℕ} : LibString.memcpy m dest src (w32 0) = m := by
  unfold LibString.memcpy
  split_ifs
  · rfl
  · rfl

/-- A hook that returns something else in the bad case, and copies what there is in every other. -/
theorem hook_iff {f : (ℕ → UInt8) → ℕ × (ℕ → UInt8)} {src dest r : ℕ} {bad : Prop} (hsrc : src < 4294967296)
    (hdest : dest < 4294967296) (hbad : bad → ∀ m, (f m).1 ≠ r)
    (hgood : ¬bad → ∀ m, f m = (r, LibString.memcpy m dest src (w32 r))) :
    (∀ m, BytesMoved src dest r m (f m)) ↔ ¬bad ∧ CopyFits src dest r := by
  rw [← memcpy_moved_iff hsrc hdest]
  constructor
  · intro h
    have hnot : ¬bad := fun hb => hbad hb (fun _ => 0) (h fun _ => 0).ret
    exact ⟨hnot, fun m => hgood hnot m ▸ h m⟩
  · rintro ⟨hnot, h⟩ m
    rw [hgood hnot]
    exact h m

theorem memfs_read_iff (h : HookArgs link length offset size buffer) :
    (∀ m, BytesMoved (w32 (link + offset)) buffer (hookBytes length offset size) m
      (memfsVfsRead m link length offset size buffer)) ↔
      ¬SumPasses length offset size ∧ CopyFits (w32 (link + offset)) buffer (hookBytes length offset size) := by
  apply hook_iff (Nat.mod_lt _ (by decide)) h.buffer
  · intro hpass m
    have hsum : ¬length < w64 (offset + size) := Nat.not_lt_of_le hpass.2
    rw [memfsVfsRead, if_neg hsum]
    exact (hookBytes_ne h hpass).symm
  · intro hpass m
    rw [hookBytes_eq h hpass, memfsVfsRead, w32_add_w32]
    split_ifs
    · rw [memcpy_zero]
    · rfl
    · rfl

theorem memfs_write_iff (h : HookArgs link length offset size buffer) :
    (∀ m, BytesMoved buffer (w32 (link + offset)) (hookBytes length offset size) m
      (memfsVfsWrite m link length offset size buffer)) ↔
      ¬SumPasses length offset size ∧ CopyFits buffer (w32 (link + offset)) (hookBytes length offset size) := by
  apply hook_iff h.buffer (Nat.mod_lt _ (by decide))
  · intro hpass m
    have hsum : ¬length < w64 (offset + size) := Nat.not_lt_of_le hpass.2
    rw [memfsVfsWrite, if_neg hsum]
    exact (hookBytes_ne h hpass).symm
  · intro hpass m
    rw [hookBytes_eq h hpass, memfsVfsWrite, w32_add_w32]
    split_ifs
    · rw [memcpy_zero]
    · rfl
    · rfl

/-- `tar_vfs_read` checks the offset first, and so only goes wrong inside the file. -/
theorem tar_read_iff (h : HookArgs link length offset size buffer) (hdata : link ≠ 0) :
    (∀ m, BytesMoved (w32 (link + offset)) buffer (hookBytes length offset size) m
      (tarVfsReadTo m link length offset size buffer)) ↔
      ¬(offset < length ∧ 18446744073709551616 ≤ offset + size) ∧
        CopyFits (w32 (link + offset)) buffer (hookBytes length offset size) := by
  have hsize := h.size
  have hlength := h.length
  apply hook_iff (Nat.mod_lt _ (by decide)) h.buffer
  · rintro ⟨hin, hwrap⟩ m
    have hpass : SumPasses length offset size := by
      refine ⟨hwrap, ?_⟩
      unfold w64
      omega
    have hsum : ¬length < w64 (offset + size) := Nat.not_lt_of_le hpass.2
    rw [tarVfsReadTo, if_neg hdata, if_neg (Nat.not_le_of_lt hin), if_neg hsum]
    exact (hookBytes_ne h hpass).symm
  · intro hnot m
    have hbytes : hookBytes length offset size =
        if length ≤ offset then 0 else if length < w64 (offset + size) then length - offset else size := by
      unfold hookBytes w64
      split_ifs <;> omega
    rw [hbytes, tarVfsReadTo, if_neg hdata, w32_add_w32]
    split_ifs
    · rw [memcpy_zero]
    · rfl
    · rfl

theorem zero_read_iff : (∀ m, Zeroed buffer size m (devfsZeroRead m size buffer)) ↔ size = 0 := by
  constructor
  · intro h
    by_contra hsize
    have hzero := (h fun _ => 1).zeros 0 (Nat.pos_of_ne_zero hsize)
    have hkept : (devfsZeroRead (fun _ => 1) size buffer).2 (w32 (buffer + 0)) = 1 := rfl
    rw [hkept] at hzero
    exact absurd hzero (by decide)
  · rintro rfl m
    exact ⟨rfl, fun i hi => (Nat.not_lt_zero i hi).elim, fun a ha => rfl⟩

end Hooks

/-- The hooks keep their contract exactly where the sum of offset and size does not pass the check of the length by
wrapping, and the copy neither overlaps itself in front nor is too long for `size_t`. Zeros are never written. -/
theorem node_hooks_iff {link length offset size buffer : ℕ} (h : HookArgs link length offset size buffer) :
    ((∀ m, BytesMoved (w32 (link + offset)) buffer (hookBytes length offset size) m
      (memfsVfsRead m link length offset size buffer)) ↔
      ¬SumPasses length offset size ∧ CopyFits (w32 (link + offset)) buffer (hookBytes length offset size)) ∧
    ((∀ m, BytesMoved buffer (w32 (link + offset)) (hookBytes length offset size) m
      (memfsVfsWrite m link length offset size buffer)) ↔
      ¬SumPasses length offset size ∧ CopyFits buffer (w32 (link + offset)) (hookBytes length offset size)) ∧
    (link ≠ 0 → ((∀ m, BytesMoved (w32 (link + offset)) buffer (hookBytes length offset size) m
      (tarVfsReadTo m link length offset size buffer)) ↔
      ¬(offset < length ∧ 18446744073709551616 ≤ offset + size) ∧
        CopyFits (w32 (link + offset)) buffer (hookBytes length offset size))) ∧
    ((∀ m, Zeroed buffer size m (devfsZeroRead m size buffer)) ↔ size = 0) :=
  ⟨memfs_read_iff h, memfs_write_iff h, tar_read_iff h, zero_read_iff⟩

/-- A file of 4 bytes, of which 8 are read from offset 2 on. -/
theorem node_hooks_sample : HookArgs 4096 4 2 8 8192 ∧
    ((∀ m, BytesMoved (w32 (4096 + 2)) 8192 (hookBytes 4 2 8) m (memfsVfsRead m 4096 4 2 8 8192)) ↔
      ¬SumPasses 4 2 8 ∧ CopyFits (w32 (4096 + 2)) 8192 (hookBytes 4 2 8)) := by
  have h : HookArgs 4096 4 2 8 8192 := ⟨by decide, by decide, by decide, by decide, by decide⟩
  exact ⟨h, (node_hooks_iff h).1⟩

/-- From offset 2 of a file of one byte `2 ^ 64 - 1` bytes are read, where there is nothing. -/
theorem memfs_read_wraps : ¬BytesMoved (w32 (4096 + 2)) 8192 (hookBytes 1 2 18446744073709551615) (fun _ => 0)
    (memfsVfsRead (fun _ => 0) 4096 1 2 18446744073709551615 8192) := by
  intro h
  have hret := h.ret
  rw [memfsVfsRead, if_neg (by decide)] at hret
  revert hret
  decide

/-- A byte read from the zero device is the one that was in the buffer before. -/
theorem node_hooks_fail : (∃ link length offset size buffer, HookArgs link length offset size buffer ∧
    ¬∀ m, BytesMoved (w32 (link + offset)) buffer (hookBytes length offset size) m (memfsVfsRead m link length offset size buffer)) ∧
    ¬Zeroed 8192 1 (fun _ => 7) (devfsZeroRead (fun _ => 7) 1 8192) := by
  constructor
  · have hargs : HookArgs 4096 1 2 18446744073709551615 8192 := ⟨by decide, by decide, by decide, by decide, by decide⟩
    exact ⟨4096, 1, 2, 18446744073709551615, 8192, hargs, fun h => memfs_read_wraps (h fun _ => 0)⟩
  · intro h
    have hzero := h.zeros 0 Nat.one_pos
    revert hzero
    decide

end SysX
