import SysX.TarScan

/-! Whether the loop of `tar_init` goes forward through the archive and stays inside. -/
namespace SysX

variable {s s₀ t u : TarFs} {ptr : ℕ → ℕ} {headers : List ℕ} {mem : ℕ → UInt8} {root buffer size header next n : ℕ}
  {nameOk : Bool}

/-- The data of every entry that has some lies between two addresses. -/
def DataInside (low high : ℕ) (t : TarFs) : Prop :=
  ∀ (i : ℕ) item v, 0 < i → i < t.nodeCount → t.hierarchy[i]? = some item → item.node = some v → (t.nodes v).length ≠ 0 →
    low ≤ item.data ∧ item.data + (t.nodes v).length ≤ high

/-- What `tar_init` is to keep where its loop comes to a header after `n` iterations. -/
structure TarProgress (nameOk : Bool) (root buffer size n header : ℕ) (t : TarFs) : Prop where
  count : n ≤ size / 512 + 1
  inside : header < buffer + size → buffer ≤ header ∧ header + 500 ≤ buffer + size
  forward : ∀ next u, header < buffer + size → tarIter nameOk root header t = some (some next, u) → header < next
  data : DataInside buffer (buffer + size) t

/-- `TarProgress` in every state of the loop of every run of `tar_init` over a memory. -/
def TarProgresses (mem : ℕ → UInt8) (buffer size : ℕ) : Prop :=
  ∀ (r : Option ℕ) (s s₀ : TarFs) root nameOk, s.mem = mem → (∀ v, r = some v → v < s.nextNode) →
    tarBegin r s = some (some (root, nameOk), s₀) → ∀ n header t,
      TarReach nameOk root (buffer + size) buffer s₀ n header t → TarProgress nameOk root buffer size n header t

/-- Every header that the scan comes to has its bytes inside, and either no size or the data of a file that is inside as
well, and the next header does not wrap. -/
def TarFits (mem : ℕ → UInt8) (buffer last : ℕ) : Prop :=
  ∀ header, TarScanned mem last buffer header → header < last → header + 500 ≤ last ∧
    (tarSkips mem header = true → header + 512 < 4294967296) ∧
    (tarSkips mem header = false → PathFits (bytesAt mem header) → ∀ length,
      strtoull (bytesAt mem header) tarSize 8 = some length →
      (length = 0 ∨ tarFlags (bytesAt mem header tarType) = vfsFile ∧ header + 512 + length ≤ last) ∧
        header + 512 + (length + 511) / 512 * 512 < 4294967296)

/-! What the entries hold. -/

theorem TarEntryAdded.length_eq {length : ℕ} (ha : TarEntryAdded t u ptr header length) :
    (u.nodes t.nextNode).length = length := by
  obtain ⟨n, hn⟩ := ha.loaded
  obtain ⟨-, -, hlength, -⟩ := tarLoadNode_fields hn
  exact Option.some.inj (hlength.symm.trans ha.length)

/-- The data of the archive stays inside when that of the new entry is. -/
theorem DataInside.add {low high length : ℕ} (h : DataInside low high t) (hb : TarBuilt t ptr headers)
    (ha : TarEntryAdded t u ptr header length)
    (hnew : length ≠ 0 → tarFlags (t.bytes header tarType) = vfsFile ∧ low ≤ w32 (header + 512) ∧
      w32 (header + 512) + length ≤ high) : DataInside low high u := by
  intro i item v hpos hi hitem hnode hlength
  rw [ha.count] at hi
  rcases Nat.lt_succ_iff_lt_or_eq.mp hi with hlt | rfl
  · rw [ha.items i hlt] at hitem
    have hv : v = ptr i := by
      have hptr := hb.node i hlt
      rw [hitem] at hptr
      exact Option.some.inj (hnode.symm.trans hptr)
    have hne : v ≠ t.nextNode := hv ▸ (hb.fresh i hlt).ne
    rw [ha.nodes v hne] at hlength ⊢
    exact h i item v hpos hlt hitem hnode hlength
  · have hv : v = t.nextNode := by
      have hptr := ha.item
      rw [hitem] at hptr
      exact Option.some.inj (hnode.symm.trans hptr)
    rw [hv, ha.length_eq] at hlength ⊢
    obtain ⟨hfile, hlow, hhigh⟩ := hnew hlength
    obtain ⟨item', hitem', hdata⟩ := ha.data hfile hlength
    obtain rfl := Option.some.inj (hitem.symm.trans hitem')
    rw [hdata]
    exact ⟨hlow, hhigh⟩

/-- What the heap leaves in the items stays there until they are used. -/
theorem TarReach.stale {data last start : ℕ} (h : TarReach nameOk root last start s n header t)
    (h₀ : TarGrown s root s ptr []) (hs : s.Stale data) : t.Stale data := by
  induction h with
  | start => exact hs
  | @next n header next t u hreach hlast hiter ih =>
    obtain ⟨ptr, headers, hgrown, -⟩ := hreach.grown h₀
    obtain ⟨-, ⟨-, rfl⟩ | ⟨-, -, -, length, -, ha, -⟩⟩ := hgrown.iter hiter
    · exact ih
    · exact (ha.stale data ih).1

/-! An archive that fits. -/

theorem tarNext_skip (hskip : tarSkips mem header = true) (h : tarNext mem header = some next) :
    next = w32 (header + 512) := by
  rw [tarNext, if_pos hskip] at h
  exact (Option.some.inj h).symm

theorem tarNext_entry {length : ℕ} (hskip : tarSkips mem header = false)
    (hlength : strtoull (bytesAt mem header) tarSize 8 = some length) (h : tarNext mem header = some next) :
    next = w32 (header + 512 + w32 (w32 length + 511) / 512 * 512) := by
  rw [tarNext, if_neg (by simp [hskip])] at h
  change (strtoull (bytesAt mem header) tarSize 8).map _ = some next at h
  rw [hlength] at h
  exact (Option.some.inj h).symm

/-- A step that does not wrap, as it is computed. -/
theorem entry_step {length : ℕ} (h : header + 512 + (length + 511) / 512 * 512 < 4294967296) :
    w32 (header + 512 + w32 (w32 length + 511) / 512 * 512) = header + 512 + (length + 511) / 512 * 512 := by
  have hlength : w32 length = length := w32_of_lt (by omega)
  have hround : w32 (length + 511) = length + 511 := w32_of_lt (by omega)
  rw [hlength, hround, w32_of_lt h]

/-- The loop is at least 512 bytes further on after each iteration, and all data is inside. -/
structure TarOnward (buffer size n header : ℕ) (t : TarFs) : Prop where
  count : n ≤ size / 512 + 1
  far : buffer + 512 * n ≤ header
  data : DataInside buffer (buffer + size) t

theorem TarFits.onward (hfits : TarFits s.mem buffer (buffer + size)) (hsize : buffer + size < 4294967296)
    (h₀ : TarGrown s root s ptr []) (h : TarReach nameOk root (buffer + size) buffer s n header t) :
    TarOnward buffer size n header t := by
  induction h with
  | start =>
    refine ⟨Nat.zero_le _, Nat.le_refl _, fun i item v hpos hi => ?_⟩
    have hone : s.nodeCount = 1 := h₀.count
    omega
  | @next n header next t u hreach hlast hiter ih =>
    obtain ⟨ptr, headers, hgrown, hscan, -⟩ := hreach.grown h₀
    obtain ⟨hinside, hskipped, hentry⟩ := hfits header hscan hlast
    have hfar := ih.far
    have hcount : n + 1 ≤ size / 512 + 1 := by
      omega
    obtain ⟨hnext, ⟨hskip, rfl⟩ | ⟨hskip, -, hpath, length, hlength, ha, -⟩⟩ := hgrown.iter hiter
    · have hnext' := tarNext_skip hskip hnext
      rw [w32_of_lt (hskipped hskip)] at hnext'
      have hfar' : buffer + 512 * (n + 1) ≤ next := by
        rw [hnext', Nat.mul_succ, ← Nat.add_assoc]
        exact Nat.add_le_add_right hfar 512
      exact ⟨hcount, hfar', ih.data⟩
    · obtain ⟨hsized, hwrap⟩ := hentry hskip hpath length hlength
      have hnext' := tarNext_entry hskip hlength hnext
      rw [entry_step hwrap] at hnext'
      have hfar' : buffer + 512 * (n + 1) ≤ next := by
        rw [hnext', Nat.mul_succ, ← Nat.add_assoc]
        exact Nat.le_add_right_of_le (Nat.add_le_add_right hfar 512)
      refine ⟨hcount, hfar', ih.data.add hgrown.toTarBuilt ha fun hne => ?_⟩
      obtain ⟨hfile, hlong⟩ := hsized.resolve_left hne
      have hbytes : t.bytes header = bytesAt s.mem header := TarFs.bytes_eq hgrown.mem header
      rw [w32_of_lt (by omega), hbytes]
      exact ⟨hfile, by omega, by omega⟩

theorem TarFits.progresses (hfits : TarFits mem buffer (buffer + size)) (hsize : buffer + size < 4294967296) :
    TarProgresses mem buffer size := by
  rintro r s s₀ root nameOk rfl hroot hbegin n header t hreach
  obtain ⟨h₀, hmem, -⟩ := tarBegin_grown hroot hbegin
  rw [← hmem] at hfits
  have honward := hfits.onward hsize h₀ hreach
  have hfar := honward.far
  refine ⟨honward.count, fun hlast => ?_, fun next u hlast hiter => ?_, honward.data⟩
  · obtain ⟨ptr, headers, -, hscan, -⟩ := hreach.grown h₀
    exact ⟨by omega, (hfits header hscan hlast).1⟩
  · obtain ⟨ptr, headers, hgrown, hscan, -⟩ := hreach.grown h₀
    obtain ⟨-, hskipped, hentry⟩ := hfits header hscan hlast
    obtain ⟨hnext, ⟨hskip, rfl⟩ | ⟨hskip, -, hpath, length, hlength, -, -⟩⟩ := hgrown.iter hiter
    · have hnext' := tarNext_skip hskip hnext
      rw [w32_of_lt (hskipped hskip)] at hnext'
      omega
    · have hnext' := tarNext_entry hskip hlength hnext
      rw [entry_step (hentry hskip hpath length hlength).2] at hnext'
      omega

/-! An archive that does not fit. -/

/-- A step forward does not wrap. -/
theorem step_of_forward {x : ℕ} (hheader : header < 4294967296) (hx : x ≤ 4294966784) (h : header < w32 (header + 512 + x)) :
    header + 512 + x < 4294967296 := by
  unfold w32 at h
  omega

/-- The data pointer and the next header of an entry, where the data is inside and the next header is further on. -/
theorem entry_of_forward {last length : ℕ} (hlast : last < 4294967296) (hheader : header < last)
    (hforward : header < w32 (header + 512 + w32 (w32 length + 511) / 512 * 512))
    (hdata : length ≠ 0 → w32 (header + 512) + length ≤ last) :
    (length = 0 ∨ header + 512 + length ≤ last) ∧ header + 512 + (length + 511) / 512 * 512 < 4294967296 := by
  have hround : w32 (w32 length + 511) / 512 * 512 ≤ 4294966784 := by
    unfold w32
    omega
  have hstep := step_of_forward (hheader.trans hlast) hround hforward
  have hdata' : length ≠ 0 → header + 512 + length ≤ last := by
    intro hne
    have h := hdata hne
    rwa [w32_of_lt (by omega)] at h
  have hshort : length + 511 < 4294967296 := by
    by_cases hzero : length = 0
    · omega
    · have h := hdata' hzero
      omega
  have hlength : w32 length = length := w32_of_lt (by omega)
  rw [hlength, w32_of_lt hshort] at hstep
  exact ⟨(em (length = 0)).imp_right hdata', hstep⟩

theorem TarProgresses.fits (h : TarProgresses mem buffer size) (hsize : buffer + size < 4294967296) :
    TarFits mem buffer (buffer + size) := by
  have hnone : ∀ v, none = some v → v < (tarBlank mem (buffer + size) fun _ => true).nextNode := by simp
  obtain ⟨s₀, hbegin, hheap⟩ := tarBegin_blank mem (buffer + size) (fun _ => true) fun _ _ => rfl
  obtain ⟨h₀, hmem, -, hstale⟩ := tarBegin_grown hnone hbegin
  replace hmem : s₀.mem = mem := hmem
  have hheap' : ∀ n, s₀.heapOk n = true := fun n => congrFun hheap n
  intro header hscan hlast
  rw [← hmem] at hscan ⊢
  obtain ⟨n, t, hreach⟩ := TarReach.of_scanned h₀ (fun _ _ _ _ _ => Or.inr ⟨rfl, hheap'⟩) hscan
  have hprogress := h none _ s₀ 0 true rfl hnone hbegin n header t hreach
  obtain ⟨ptr, headers, hgrown, -⟩ := hreach.grown h₀
  refine ⟨(hprogress.inside hlast).2, fun hskip => ?_, fun hskip hpath length hlength => ?_⟩
  · obtain ⟨next, u, hiter⟩ : ∃ next u, tarIter true 0 header t = some (some next, u) :=
      hgrown.iter_total (Or.inl hskip)
    have hforward := hprogress.forward next u hlast hiter
    rw [tarNext_skip hskip (hgrown.iter hiter).1] at hforward
    exact step_of_forward (x := 0) (hlast.trans hsize) (Nat.zero_le _) hforward
  · obtain ⟨next, u, hiter⟩ : ∃ next u, tarIter true 0 header t = some (some next, u) :=
      hgrown.iter_total (Or.inr ⟨⟨rfl, hheap'⟩, hpath⟩)
    have hforward := hprogress.forward next u hlast hiter
    have hdata := (h none _ s₀ 0 true rfl hnone hbegin _ next u (hreach.next hlast hiter)).data
    obtain ⟨hnext, ⟨hskip', -⟩ | ⟨-, -, -, length', hlength', ha, -⟩⟩ := hgrown.iter hiter
    · rw [hskip] at hskip'
      cases hskip'
    obtain rfl := Option.some.inj (hlength.symm.trans hlength')
    rw [tarNext_entry hskip hlength hnext] at hforward
    have hbytes : t.bytes header = bytesAt s₀.mem header := TarFs.bytes_eq hgrown.mem header
    have hcount : t.nodeCount < u.nodeCount := by
      rw [ha.count]
      exact Nat.lt_succ_self _
    -- Every entry with a size has its data inside, wherever its item says the data is.
    have hitem : ∀ item, u.hierarchy[t.nodeCount]? = some item → length ≠ 0 →
        buffer ≤ item.data ∧ item.data + length ≤ buffer + size := by
      intro item hitem hne
      have hnode := ha.item
      rw [hitem] at hnode
      have hinside := hdata t.nodeCount item t.nextNode hgrown.pos hcount hitem hnode
      rw [ha.length_eq] at hinside
      exact hinside hne
    have hfile : length ≠ 0 → tarFlags (bytesAt s₀.mem header tarType) = vfsFile := by
      intro hne
      by_contra hother
      obtain ⟨item, hat, hold⟩ := (ha.stale _ (hreach.stale h₀ (hstale (buffer + size) fun _ => rfl))).2 fun hfile => by
        rw [hbytes] at hfile
        exact hother hfile.1
      have hin := hitem item hat hne
      rw [hold] at hin
      omega
    have hfits := entry_of_forward hsize hlast hforward fun hne => by
      obtain ⟨item, hat, hnew⟩ := ha.data (by rw [hbytes]; exact hfile hne) hne
      rw [← hnew]
      exact (hitem item hat hne).2
    refine ⟨?_, hfits.2⟩
    by_cases hzero : length = 0
    · exact Or.inl hzero
    · exact Or.inr ⟨hfile hzero, hfits.1.resolve_left hzero⟩

/-- The loop goes forward and stays inside for just the archives that fit. -/
theorem tar_scan_progress_iff (hsize : buffer + size < 4294967296) :
    TarProgresses mem buffer size ↔ TarFits mem buffer (buffer + size) :=
  ⟨fun h => h.fits hsize, fun h => h.progresses hsize⟩

theorem tar_scan_progress_sample : TarProgresses (tarSample true).mem 0 2048 ↔ TarFits (tarSample true).mem 0 (0 + 2048) :=
  tar_scan_progress_iff (by decide)

/-- At address 4096 there is a header with a size that is rounded up to nearly the whole address space. -/
def endlessSample : ℕ → UInt8 := fun a => (headerSample [97] [51, 55, 55, 55, 55, 55, 55, 55, 48, 48, 48] 48).getD (a - 4096) 0

/-- The header after the first one is the first one. -/
theorem endlessSample_next : tarNext endlessSample 4096 = some 4096 := by
  have hfield : OctalField (bytesAt endlessSample 4096) tarSize 12 4294966784 :=
    ⟨[51, 55, 55, 55, 55, 55, 55, 55, 48, 48, 48], by decide, by decide +kernel, by decide +kernel, by decide +kernel⟩
  have hlength : strtoull (bytesAt endlessSample 4096) tarSize 8 = some 4294966784 := hfield.strtoull (by decide)
  have hskip : tarSkips endlessSample 4096 = false := by decide +kernel
  rw [tarNext, if_neg (by simp [hskip])]
  change (strtoull (bytesAt endlessSample 4096) tarSize 8).map _ = some 4096
  rw [hlength]
  rfl

theorem endlessSample_path : PathFits (bytesAt endlessSample 4096) := ⟨0, 1, by omega, by decide +kernel, by decide +kernel⟩

theorem tar_scan_stands_still : ¬ ∀ mem buffer size, buffer + size < 4294967296 → TarProgresses mem buffer size := by
  intro h
  have hfits := (h endlessSample 4096 512 (by decide)).fits (by decide)
  obtain ⟨-, -, hentry⟩ := hfits 4096 .refl (by decide)
  have hskip : tarSkips endlessSample 4096 = false := by decide +kernel
  have hnext := endlessSample_next
  rw [tarNext, if_neg (by simp [hskip])] at hnext
  obtain ⟨length, hlength, hwrap⟩ := Option.map_eq_some_iff.mp hnext
  have hstep := entry_step (hentry hskip endlessSample_path length hlength).2
  omega

end SysX
