import SysX.Tar
import SysX.Lib.PathTree

/-! Well-formed archives, and what `tar_init` reads from the header of an entry. -/
namespace SysX

/-- An entry of an archive: its header block, its path and type, and its data with the padding. -/
structure TarEntry where
  header : Str
  comps : List Str
  trailing : Bool
  directory : Bool
  data : Str
  pad : Str

/-- A path as an archive spells it. -/
def spell (cs : List Str) (trailing : Bool) : Str :=
  List.intercalate [slash] cs ++ if trailing then [slash] else []

namespace TarEntry

def path (e : TarEntry) : Str := spell e.comps e.trailing

def bytes (e : TarEntry) : Str := e.header ++ e.data ++ e.pad

def byte (e : TarEntry) (i : ℕ) : UInt8 := e.header.getD i 0

end TarEntry

/-- The value of a string of octal digits that continues `v`. -/
def octal (v : ℕ) (digits : Str) : ℕ := digits.foldl (fun v d => v * 8 + (d.toNat - 48)) v

/-- The field of `width` bytes at `k` holds a terminated octal number. -/
def OctalField (r : ℕ → UInt8) (k width v : ℕ) : Prop :=
  ∃ digits : Str, digits.length < width ∧ (∀ d ∈ digits, 48 ≤ d ∧ d ≤ 55) ∧ Spells r k digits ∧
    octal 0 digits = v

structure TarEntry.WellFormed (e : TarEntry) : Prop where
  header : e.header.length = 512
  padded : (e.data.length + e.pad.length) % 512 = 0
  padShort : e.pad.length < 512
  nameShort : e.path.length < 100
  name : Spells e.byte tarName e.path
  comps : e.comps ≠ []
  comp : ∀ c ∈ e.comps, c ≠ [] ∧ slash ∉ c ∧ c ≠ [dot]
  trailing : e.trailing = true → e.directory = true
  type : if e.directory then e.byte tarType = 53 else e.byte tarType = 0 ∨ e.byte tarType = 48
  noPrefix : isUstar e.byte = true → e.byte tarNamePrefix = 0
  uid : ∃ v, OctalField e.byte tarUid 8 v
  gid : ∃ v, OctalField e.byte tarGid 8 v
  mtime : ∃ v, OctalField e.byte tarMtime 12 v
  size : OctalField e.byte tarSize 12 e.data.length
  noData : e.directory = true → e.data = []

/-- Each entry is well formed, the paths are distinct, and the parent of each entry is an earlier
directory. -/
structure ArchiveWellFormed (es : List TarEntry) : Prop where
  entry : ∀ e ∈ es, e.WellFormed
  distinct : (es.map TarEntry.comps).Nodup
  parent : ∀ (i : ℕ) e, es[i]? = some e → e.comps.length ≠ 1 →
    ∃ (j : ℕ) (d : TarEntry), j < i ∧ es[j]? = some d ∧ d.directory = true ∧ d.comps = e.comps.dropLast

/-- An entry that is well formed but for components that may be dots. -/
structure TarEntry.Coherent (e : TarEntry) : Prop where
  header : e.header.length = 512
  padded : (e.data.length + e.pad.length) % 512 = 0
  padShort : e.pad.length < 512
  nameShort : e.path.length < 100
  name : Spells e.byte tarName e.path
  comps : e.comps ≠ []
  comp : ∀ c ∈ e.comps, c ≠ [] ∧ slash ∉ c
  type : if e.directory then e.byte tarType = 53 else e.byte tarType = 0 ∨ e.byte tarType = 48
  noPrefix : isUstar e.byte = true → e.byte tarNamePrefix = 0
  uid : ∃ v, OctalField e.byte tarUid 8 v
  gid : ∃ v, OctalField e.byte tarGid 8 v
  mtime : ∃ v, OctalField e.byte tarMtime 12 v
  size : OctalField e.byte tarSize 12 e.data.length

structure ArchiveCoherent (es : List TarEntry) : Prop where
  entry : ∀ e ∈ es, e.Coherent
  distinct : (es.map TarEntry.comps).Nodup
  parent : ∀ (i : ℕ) e, es[i]? = some e → e.comps.length ≠ 1 →
    ∃ (j : ℕ) (d : TarEntry), j < i ∧ es[j]? = some d ∧ d.directory = true ∧ d.comps = e.comps.dropLast

theorem TarEntry.WellFormed.coherent {e : TarEntry} (h : e.WellFormed) : e.Coherent where
  header := h.header
  padded := h.padded
  padShort := h.padShort
  nameShort := h.nameShort
  name := h.name
  comps := h.comps
  comp c hc := ⟨(h.comp c hc).1, (h.comp c hc).2.1⟩
  type := h.type
  noPrefix := h.noPrefix
  uid := h.uid
  gid := h.gid
  mtime := h.mtime
  size := h.size

theorem ArchiveWellFormed.coherent {es : List TarEntry} (h : ArchiveWellFormed es) : ArchiveCoherent es :=
  ⟨fun e he => (h.entry e he).coherent, h.distinct, h.parent⟩

/-- The archive: the entries and a number of zero blocks. -/
def archiveBytes (es : List TarEntry) (zeros : ℕ) : Str :=
  es.flatMap TarEntry.bytes ++ List.replicate (512 * zeros) 0

/-- The bytes stand in memory from `a` on. -/
def Placed (mem : ℕ → UInt8) (a : ℕ) (bytes : Str) : Prop :=
  ∀ (i : ℕ) b, bytes[i]? = some b → mem (a + i) = b

/-! Octal fields. -/

section Numbers

variable {r : ℕ → UInt8} {k width v : ℕ} {digits : Str} {c : UInt8}

theorem octal_cons (v : ℕ) (d : UInt8) (digits : Str) :
    octal v (d :: digits) = octal (v * 8 + (d.toNat - 48)) digits := by
  rw [octal, List.foldl_cons, octal]

theorem le_octal (v : ℕ) (digits : Str) : v ≤ octal v digits := by
  induction digits generalizing v with
  | nil => exact Nat.le_refl v
  | cons d digits ih =>
    have := ih (v * 8 + (d.toNat - 48))
    rw [octal_cons]
    omega

theorem octal_lt (h : ∀ d ∈ digits, 48 ≤ d ∧ d ≤ 55) :
    octal v digits < (v + 1) * 8 ^ digits.length := by
  induction digits generalizing v with
  | nil => simp [octal]
  | cons d digits ih =>
    have hd : d.toNat ≤ 55 := UInt8.le_iff_toNat_le.mp (h d (by simp)).2
    have hrest := ih (v := v * 8 + (d.toNat - 48)) fun c hc => h c (by simp [hc])
    rw [octal_cons]
    refine Nat.lt_of_lt_of_le hrest ?_
    rw [List.length_cons, Nat.pow_succ, Nat.mul_comm (8 ^ digits.length), ← Nat.mul_assoc]
    exact Nat.mul_le_mul_right _ (by omega)

theorem digitOf_octal (h : 48 ≤ c ∧ c ≤ 55) : digitOf c = some (c.toNat - 48) := by
  have h1 : 48 ≤ c.toNat := UInt8.le_iff_toNat_le.mp h.1
  have h2 : c.toNat ≤ 55 := UInt8.le_iff_toNat_le.mp h.2
  have hlow : ¬ (97 ≤ c ∧ c ≤ 122) := by
    simp only [UInt8.le_iff_toNat_le]
    intro hc
    have h97 : 97 ≤ c.toNat := hc.1
    omega
  have hdigit : 48 ≤ c ∧ c ≤ 57 := by
    refine ⟨h.1, UInt8.le_iff_toNat_le.mpr ?_⟩
    change c.toNat ≤ 57
    omega
  unfold digitOf
  rw [if_neg hlow, if_pos hdigit, UInt8.toNat_sub_of_le _ _ h.1]
  rfl

theorem strtoullDigits_octal {n : ℕ} (hs : Spells r k digits) (hn : digits.length < n)
    (hd : ∀ d ∈ digits, 48 ≤ d ∧ d ≤ 55) (hv : octal v digits ≤ uint64Max) :
    strtoullDigits 8 r n k v = some (octal v digits) := by
  induction digits generalizing k v n with
  | nil =>
    cases n with
    | zero => cases hn
    | succ n =>
      unfold strtoullDigits
      exact if_pos hs
  | cons d digits ih =>
    cases n with
    | zero => cases hn
    | succ n =>
      obtain ⟨hr, h0, hs⟩ := hs
      have h1 : 48 ≤ d.toNat := UInt8.le_iff_toNat_le.mp (hd d (by simp)).1
      have h2 : d.toNat ≤ 55 := UInt8.le_iff_toNat_le.mp (hd d (by simp)).2
      rw [octal_cons] at hv ⊢
      have hle := le_octal (v * 8 + (d.toNat - 48)) digits
      have hb : v * 8 + (d.toNat - 48) ≤ uint64Max := Nat.le_trans hle hv
      unfold strtoullDigits
      rw [hr, if_neg h0, digitOf_octal (hd d (by simp))]
      simp only
      rw [if_neg (by omega), if_neg (by unfold uint64Max at hb ⊢; omega), if_neg (by omega)]
      exact ih hs (Nat.lt_of_succ_lt_succ hn) (fun c hc => hd c (by simp [hc])) hv

theorem skipSpaces_eq {n : ℕ} (hn : 0 < n) (h : isSpace (r k) = false) :
    skipSpaces r n k = some k := by
  cases n with
  | zero => cases hn
  | succ n =>
    unfold skipSpaces
    rw [h]
    rfl

theorem OctalField.strtoull (h : OctalField r k width v) (hw : width ≤ 12) :
    strtoull r k 8 = some v := by
  obtain ⟨digits, hlen, hd, hs, rfl⟩ := h
  have hhead := hs.head
  have hfirst : r k = 0 ∨ 48 ≤ r k ∧ r k ≤ 55 := by
    cases digits with
    | nil => exact .inl hhead
    | cons d digits =>
      rw [List.headD_cons] at hhead
      rw [hhead]
      exact .inr (hd d (by simp))
  have hsign : ¬ (r k = 43 ∨ r k = 45) := by
    rintro (h | h) <;> rw [h] at hfirst <;> revert hfirst <;> decide
  have hspace : isSpace (r k) = false := by
    obtain h | h := hfirst
    · rw [h]
      rfl
    · have h1 : 48 ≤ (r k).toNat := UInt8.le_iff_toNat_le.mp h.1
      simp only [isSpace, Bool.or_eq_false_iff, decide_eq_false_iff_not]
      refine ⟨⟨⟨⟨⟨?_, ?_⟩, ?_⟩, ?_⟩, ?_⟩, ?_⟩ <;> intro hc <;> rw [hc] at h1 <;> revert h1 <;> decide
  have hmax : octal 0 digits ≤ uint64Max := by
    have hlt := octal_lt (v := 0) hd
    have hpow : 8 ^ digits.length ≤ 8 ^ 11 := Nat.pow_le_pow_right (by omega) (by omega)
    unfold uint64Max
    omega
  simp only [SysX.strtoull, if_neg hsign]
  rw [skipSpaces_eq (by decide) hspace, Option.bind_some]
  exact strtoullDigits_octal hs (by unfold stringFuel; omega) hd hmax

theorem OctalField.strtoul (h : OctalField r k width v) (hw : width ≤ 12) :
    ∃ u, strtoul r k 8 = some u := by
  unfold SysX.strtoul
  rw [h.strtoull hw]
  exact ⟨_, rfl⟩

theorem OctalField.congr {r' : ℕ → UInt8} (h : OctalField r k width v)
    (hr : ∀ i, k ≤ i → i < k + width → r' i = r i) : OctalField r' k width v := by
  obtain ⟨digits, hlen, hd, hs, hv⟩ := h
  exact ⟨digits, hlen, hd, hs.congr fun i hi hle => hr i hi (by omega), hv⟩

end Numbers

/-! What is read from the header of a coherent entry. -/

namespace TarEntry.Coherent

variable {e : TarEntry} {r : ℕ → UInt8}

theorem components (h : e.Coherent) : components slash e.path = e.comps :=
  components_intercalate h.comp _

theorem path_ne_nil (h : e.Coherent) : e.path ≠ [] := by
  intro hp
  have := h.components
  rw [hp] at this
  exact h.comps this.symm

/-- A header of an entry is not taken for an empty block. -/
theorem name_ne_zero (h : e.Coherent) (hr : ∀ i < 512, r i = e.byte i) : r tarName ≠ 0 := by
  rw [hr _ (by decide), h.name.head]
  have hs := h.name
  cases hp : e.path with
  | nil => exact (h.path_ne_nil hp).elim
  | cons c p =>
    rw [hp] at hs
    exact hs.2.1

theorem tarPath (h : e.Coherent) (hr : ∀ i < 512, r i = e.byte i) : tarPath r = some e.path := by
  have hname : Spells r tarName e.path := h.name.congr fun i _ hi => by
    have := h.nameShort
    unfold tarName at hi
    exact hr i (by omega)
  have hsig : isUstar r = isUstar e.byte := by
    have hmap : (List.range 6).map (fun i => r (tarUstarSig + i)) =
        (List.range 6).map fun i => e.byte (tarUstarSig + i) := by
      apply List.map_congr_left
      intro i hi
      have := List.mem_range.mp hi
      apply hr
      unfold tarUstarSig
      omega
    unfold isUstar
    rw [hmap]
  have hpre : tarPrefix r = some [] := by
    unfold tarPrefix
    split_ifs with hu
    · have hs : Spells r tarNamePrefix [] :=
        (hr _ (by decide)).trans (h.noPrefix (hsig.symm.trans hu))
      exact hs.cstring (by decide)
    · rfl
  have hshort := h.nameShort
  simp only [SysX.tarPath, hpre, Option.bind_eq_bind, Option.bind_some, List.length_nil]
  rw [hname.cstring (by omega)]
  rfl

/-- The node that is loaded from a header. -/
theorem tarLoadNode (h : e.Coherent) (hr : ∀ i < 512, r i = e.byte i) (inode : ℕ) (n : TarNode) :
    ∃ uid gid mtime, tarLoadNode r inode n = some { n with
      inode, uid, gid, mtime
      length := e.data.length
      hooked := true
      flags := if e.directory then vfsDirectory else vfsFile } := by
  have hfield : ∀ {k width v : ℕ}, k + width ≤ 512 → OctalField e.byte k width v →
      OctalField r k width v := fun hk hf => hf.congr fun i _ hi => hr i (by omega)
  obtain ⟨uid, hu⟩ := h.uid
  obtain ⟨gid, hg⟩ := h.gid
  obtain ⟨mtime, hm⟩ := h.mtime
  obtain ⟨uid, hu⟩ := (hfield (by decide) hu).strtoul (by decide)
  obtain ⟨gid, hg⟩ := (hfield (by decide) hg).strtoul (by decide)
  obtain ⟨mtime, hm⟩ := (hfield (by decide) hm).strtoul (by decide)
  have hsize := (hfield (by decide) h.size).strtoull (by decide)
  have hflags : tarFlags (r tarType) = if e.directory then vfsDirectory else vfsFile := by
    rw [hr _ (by decide)]
    have htype := h.type
    split_ifs at htype ⊢ with hd
    · rw [htype]
      rfl
    · obtain h0 | h0 := htype <;> rw [h0] <;> rfl
  refine ⟨uid, gid, mtime, ?_⟩
  simp only [SysX.tarLoadNode, hu, hg, hm, hsize, hflags, Option.bind_eq_bind, Option.bind_some]

end TarEntry.Coherent
end SysX
