import SysX.TarScan

/-! The paths of ustar headers, as the format defines them and as `tar_init` puts them together (`fs/tarfs.c`). -/
namespace SysX

/-- Where a list goes on from itself by one element in front as by one behind, all elements are that one. -/
theorem getD_of_append_eq_cons {l : Str} {c d : UInt8} (h : l ++ [c] = d :: l) {i : ℕ} (hi : i ≤ l.length) :
    (l ++ [c]).getD i 0 = d := by
  induction i with
  | zero =>
    rw [h]
    rfl
  | succ i ih =>
    have hbefore := ih (by omega)
    rw [h, List.getD_cons_succ]
    rwa [List.getD_append _ _ _ _ (by omega)] at hbefore

/-! The archive path that the format defines. -/

def ustarName (r : ℕ → UInt8) : Str := fieldText r 100 tarName
def ustarPrefix (r : ℕ → UInt8) : Str := fieldText r 155 tarNamePrefix

def ustarPath (r : ℕ → UInt8) : Str :=
  if ustarPrefix r = [] then ustarName r else ustarPrefix r ++ slash :: ustarName r

/-- An encoder has split the path: the two parts are stored in their fields, the separator between them is not. -/
def UstarEncodes (r : ℕ → UInt8) (path : Str) : Prop :=
  ∃ pre name, FieldHolds r tarNamePrefix 155 pre ∧ FieldHolds r tarName 100 name ∧
    path = if pre = [] then name else pre ++ slash :: name

/-- The path of the entry is the one that the format defines, and so the one that was encoded. -/
structure UstarFiled (r : ℕ → UInt8) : Prop where
  path : tarPath r = some (ustarPath r)
  undone : ∀ path, UstarEncodes r path → tarPath r = some path

/-- There is no prefix and the name is terminated, or else the bytes behind a full field happen to make up for the
separator: a slash behind the prefix, or a slash behind a name of nothing but slashes. -/
def UstarFits (r : ℕ → UInt8) : Prop :=
  ustarPrefix r = [] ∧ ((ustarName r).length < 100 ∨ r 100 = 0) ∨
  (ustarPrefix r).length = 155 ∧ (ustarName r).length < 100 ∧ Spells r 500 [slash] ∨
  ustarPrefix r ≠ [] ∧ (ustarPrefix r).length < 155 ∧ (∀ i ≤ 100, r i = slash) ∧ r 101 = 0

section Header

variable {r : ℕ → UInt8} {path : Str}

theorem UstarEncodes.ustarPath_eq (h : UstarEncodes r path) : ustarPath r = path := by
  obtain ⟨pre, name, hpre, hname, rfl⟩ := h
  simp only [ustarPath, ustarPrefix, ustarName, hpre.text, hname.text]

/-- `tar_init` copies two strings, whose lengths leave room for the terminator in the 256 bytes of `name`. -/
theorem tarPath_eq_some_iff (hustar : isUstar r = true) :
    tarPath r = some path ↔ ∃ pre name, Spells r tarNamePrefix pre ∧ Spells r tarName name ∧
      pre.length + name.length < 256 ∧ path = pre ++ name := by
  have hcstr : tarPrefix r = cstring r 256 tarNamePrefix := if_pos hustar
  constructor
  · intro h
    unfold tarPath at h
    rw [hcstr] at h
    obtain ⟨pre, hpre, h⟩ := Option.bind_eq_some_iff.mp h
    obtain ⟨name, hname, h⟩ := Option.bind_eq_some_iff.mp h
    obtain ⟨hpre, hroom⟩ := cstring_spells hpre
    obtain ⟨hname, hroom'⟩ := cstring_spells hname
    exact ⟨pre, name, hpre, hname, by omega, (Option.some.inj h).symm⟩
  · rintro ⟨pre, name, hpre, hname, hroom, rfl⟩
    have hfirst := hpre.cstring (n := 256) (by omega)
    have hsecond := hname.cstring (n := 256 - pre.length) (by omega)
    simp [tarPath, hcstr, hfirst, hsecond]

theorem ustar_path_of_fits (hustar : isUstar r = true) (h : UstarFits r) : tarPath r = some (ustarPath r) := by
  have hname : (ustarName r).length ≤ 100 := length_fieldText_le
  rw [tarPath_eq_some_iff hustar]
  rcases h with ⟨hcstr, hend⟩ | ⟨hfull, hshort, hslash⟩ | ⟨hcstr, hshort, hslashes, hend⟩
  · have hpre : Spells r tarNamePrefix (ustarPrefix r) := by
      apply spells_fieldText
      rw [← ustarPrefix, hcstr]
      decide
    have hall : Spells r tarName (ustarName r) := by
      rcases Nat.lt_or_ge (ustarName r).length 100 with hlt | hge
      · exact spells_fieldText hlt
      · have hlen : (ustarName r).length = 100 := Nat.le_antisymm hname hge
        have hzero : Spells r (tarName + (ustarName r).length) [] := by
          rw [hlen]
          exact hend.resolve_left (Nat.not_lt_of_le hge)
        simpa [ustarName] using spells_fieldText_append hzero
    refine ⟨ustarPrefix r, ustarName r, hpre, hall, ?_, ?_⟩
    · rw [hcstr, List.length_nil]
      omega
    · rw [ustarPath, if_pos hcstr, hcstr, List.nil_append]
  · have hpre : Spells r tarNamePrefix (ustarPrefix r ++ [slash]) := by
      apply spells_fieldText_append
      rw [← ustarPrefix, hfull]
      exact hslash
    refine ⟨_, ustarName r, hpre, spells_fieldText hshort, ?_, ?_⟩
    · rw [List.length_append, List.length_singleton]
      omega
    · have hne : ustarPrefix r ≠ [] := by
        intro hnil
        rw [hnil] at hfull
        cases hfull
      rw [ustarPath, if_neg hne, List.append_assoc, List.singleton_append]
  · have hname : ustarName r = List.replicate 100 slash := by
      apply fieldText_eq_replicate (by decide)
      intro i hi
      rw [tarName, Nat.zero_add]
      exact hslashes i hi.le
    have hlen : (ustarName r).length = 100 := by
      rw [hname, List.length_replicate]
    have hbehind : Spells r (tarName + (ustarName r).length) [slash] := by
      rw [hlen]
      exact ⟨hslashes 100 (Nat.le_refl _), by decide, hend⟩
    refine ⟨ustarPrefix r, _, spells_fieldText hshort, spells_fieldText_append hbehind, ?_, ?_⟩
    · rw [← ustarName, List.length_append, hlen, List.length_singleton]
      omega
    · rw [ustarPath, if_neg hcstr, ← ustarName]
      congr 1
      rw [hname, ← List.replicate_succ, List.replicate_succ']

theorem ustar_fits_of_path (hustar : isUstar r = true) (h : tarPath r = some (ustarPath r)) : UstarFits r := by
  obtain ⟨pre, name, hpre, hname, hroom, hpath⟩ := (tarPath_eq_some_iff hustar).mp h
  obtain ⟨rest, rfl, hbehind, hfull⟩ := hpre.fieldText (w := 155)
  obtain ⟨rest', rfl, hbehind', hfull'⟩ := hname.fieldText (w := 100)
  have hcstr : (ustarPrefix r).length ≤ 155 := length_fieldText_le
  have hshort : (ustarName r).length ≤ 100 := length_fieldText_le
  rw [← ustarPrefix] at hpath hbehind hfull hroom
  rw [← ustarName] at hpath hbehind' hfull' hroom
  simp only [List.length_append] at hroom
  by_cases hnil : ustarPrefix r = []
  · left
    have hrest : rest = [] := by
      apply hfull
      rw [hnil]
      decide
    rw [ustarPath, if_pos hnil, hnil, hrest, List.nil_append, List.nil_append, List.self_eq_append_right] at hpath
    refine ⟨hnil, or_iff_not_imp_left.mpr fun hlt => ?_⟩
    have hlen : (ustarName r).length = 100 := by omega
    rw [hpath, hlen] at hbehind'
    exact hbehind'
  · right
    rw [ustarPath, if_neg hnil, List.append_assoc] at hpath
    have hjoin := List.append_cancel_left hpath
    cases rest with
    | nil =>
      right
      have hlen := congrArg List.length hjoin
      rw [List.nil_append, List.length_cons, List.length_append] at hlen
      obtain ⟨c, rfl⟩ := List.length_eq_one_iff.mp (show rest'.length = 1 by omega)
      have hhundred : (ustarName r).length = 100 := by
        by_contra hne
        cases hfull' (by omega)
      have hspelled : Spells r tarName (ustarName r ++ [c]) := hname
      have hslashes : ∀ i ≤ 100, r i = slash := by
        intro i hi
        have hat := hspelled.get (i := i) (by rw [List.length_append]; omega)
        rw [tarName, Nat.zero_add] at hat
        rw [hat]
        exact getD_of_append_eq_cons hjoin.symm (by omega)
      rw [hhundred] at hbehind' hroom
      refine ⟨hnil, ?_, hslashes, hbehind'.2.2⟩
      simp only [List.length_nil, List.length_singleton] at hroom
      omega
    | cons c rest =>
      left
      rw [List.cons_append] at hjoin
      obtain ⟨rfl, hsame⟩ := List.cons.inj hjoin
      have hlen := congrArg List.length hsame
      simp only [List.length_append] at hlen
      have hone : rest = [] := List.length_eq_zero_iff.mp (by omega)
      have hlast : (ustarPrefix r).length = 155 := by
        by_contra hne
        cases hfull (by omega)
      subst hone
      rw [hlast] at hbehind
      rw [List.length_singleton] at hroom
      exact ⟨hlast, by omega, hbehind⟩

end Header

/-- An entry gets the path of the format exactly where the two fields are joined by luck or need no joining. -/
theorem ustar_path_iff (r : ℕ → UInt8) (hustar : isUstar r = true) : UstarFiled r ↔ UstarFits r := by
  constructor
  · intro h
    exact ustar_fits_of_path hustar h.path
  · intro h
    have hpath := ustar_path_of_fits hustar h
    refine ⟨hpath, fun path henc => ?_⟩
    rw [hpath, henc.ustarPath_eq]

/-- The header of the file `b` in the directory `a`. -/
def ustarSample (i : ℕ) : UInt8 :=
  if i = tarName then 98
  else if i = tarNamePrefix then 97
  else if tarUstarSig ≤ i ∧ i < tarUstarSig + 6 then ustarSig.getD (i - tarUstarSig) 0
  else 0

theorem ustar_path_sample : UstarFiled ustarSample ↔ UstarFits ustarSample := ustar_path_iff ustarSample (by decide)

/-- The file is put into the root under the name `ab`. -/
theorem ustar_path_joined : ¬∀ r, isUstar r = true → UstarFiled r := by
  intro h
  have hpath := (h ustarSample (by decide)).path
  have hjoined : tarPath ustarSample = some [97, 98] := by decide +kernel
  have hustar : ustarPath ustarSample = [97, slash, 98] := by decide +kernel
  rw [hjoined, hustar] at hpath
  revert hpath
  decide

end SysX
