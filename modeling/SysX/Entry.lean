import SysX.Paging

/-! What the primitives write into an entry, field by field. -/
namespace SysX
open BitField
namespace Word

theorem trapped_eq (e : Word) : e.trapped = e.getLsbD 9 := by
  rw [trapped, avail, testBit_getField]
  rfl

theorem getLsbD_zero (i : ℕ) : (0#32 : Word).getLsbD i = false := BitVec.getLsbD_zero

theorem ne_zero_of_present {e : Word} (h : e.present = true) : e ≠ 0#32 := by
  rintro rfl
  simp [present] at h

theorem ne_zero_of_pgsz {e : Word} (h : e.pgsz = true) : e ≠ 0#32 := by
  rintro rfl
  simp [pgsz] at h

@[simp] theorem zero_trapped : trapped 0#32 = false := by
  rw [trapped_eq, getLsbD_zero]

@[simp] theorem zero_user : user 0#32 = false := by
  rw [user, getLsbD_zero]

theorem pt_lt (e : Word) : e.pt < 1048576 := getField_lt e 12 20

theorem psePa_lt (e : Word) : e.psePa < 1024 := getField_lt e 22 10

/-- The canonical form of a flag word: bits no entry stores are dropped, and so is write-through
without caching. -/
def canonFlags (flags : Word) : Word :=
  packFlags (flags.getLsbD 0) (flags.getLsbD 1) (flags.getLsbD 2) (flags.getLsbD 3)
    (flags.getLsbD 4) (flags.getLsbD 5) (flags.getLsbD 6)

/-! The bits below the address, as the writers leave them. -/

theorem getLsbD_setFlags (e flags : Word) (i : ℕ) : (setFlags e flags).getLsbD i =
    if i = 3 then flags.getLsbD 5 else if i = 4 then !flags.getLsbD 4
    else if i = 8 then flags.getLsbD 3 else if i = 1 then flags.getLsbD 1
    else if i = 2 then flags.getLsbD 2 else if i = 0 then flags.getLsbD 0 else e.getLsbD i := by
  simp only [setFlags, getLsbD_setBit _ (show 0 < 32 by decide),
    getLsbD_setBit _ (show 1 < 32 by decide), getLsbD_setBit _ (show 2 < 32 by decide),
    getLsbD_setBit _ (show 3 < 32 by decide), getLsbD_setBit _ (show 4 < 32 by decide),
    getLsbD_setBit _ (show 8 < 32 by decide)]

theorem getLsbD_setAvail (e flags : Word) (i : ℕ) : (setAvail e flags).getLsbD i =
    if 9 ≤ i ∧ i < 12 then decide (i = 9) && flags.getLsbD 6 else e.getLsbD i := by
  rw [setAvail, getLsbD_setField _ (by decide)]
  by_cases h : 9 ≤ i ∧ i < 12
  · rw [if_pos h, if_pos h]
    obtain rfl | rfl | rfl : i = 9 ∨ i = 10 ∨ i = 11 := by omega
    all_goals cases flags.getLsbD 6 <;> rfl
  · rw [if_neg h, if_neg h]

theorem getLsbD_setPt (e : Word) (frame i : ℕ) : (setPt e frame).getLsbD i =
    if 12 ≤ i ∧ i < 32 then frame.testBit (i - 12) else e.getLsbD i :=
  getLsbD_setField _ (by decide) _ _

theorem getLsbD_setPsePa (e : Word) (v i : ℕ) : (setPsePa e v).getLsbD i =
    if 22 ≤ i ∧ i < 32 then v.testBit (i - 22) else e.getLsbD i :=
  getLsbD_setField _ (by decide) _ _

theorem getLsbD_fillPte (e flags : Word) (pa i : ℕ) : (fillPte e flags pa).getLsbD i =
    if 9 ≤ i ∧ i < 12 then decide (i = 9) && flags.getLsbD 6
    else if i = 6 then false else if i = 5 then false
    else if 12 ≤ i ∧ i < 32 then (pa / 4096).testBit (i - 12) else (setFlags e flags).getLsbD i := by
  simp only [fillPte, getLsbD_setAvail, getLsbD_setBit _ (show 5 < 32 by decide),
    getLsbD_setBit _ (show 6 < 32 by decide), getLsbD_setPt]

theorem getLsbD_fillPse (flags : Word) (pa i : ℕ) : (fillPse flags pa).getLsbD i =
    if 9 ≤ i ∧ i < 12 then decide (i = 9) && flags.getLsbD 6
    else if i = 6 then false else if i = 5 then false
    else if 22 ≤ i ∧ i < 32 then (pa / 4194304).testBit (i - 22)
    else (setFlags 128#32 flags).getLsbD i := by
  simp only [fillPse, getLsbD_setAvail, getLsbD_setBit _ (show 5 < 32 by decide),
    getLsbD_setBit _ (show 6 < 32 by decide), getLsbD_setPsePa]

theorem getLsbD_splitPte (e orig : Word) (frame i : ℕ) : (splitPte e orig frame).getLsbD i =
    if 12 ≤ i ∧ i < 32 then frame.testBit (i - 12)
    else if 9 ≤ i ∧ i < 12 then orig.getLsbD i
    else if i < 9 ∧ i ≠ 7 then orig.getLsbD i else e.getLsbD i := by
  rw [splitPte, getLsbD_setPt, getLsbD_setField _ (show 9 + 3 ≤ 32 by decide)]
  by_cases h12 : 12 ≤ i ∧ i < 32
  · rw [if_pos h12, if_pos h12]
  rw [if_neg h12, if_neg h12]
  by_cases h9 : 9 ≤ i ∧ i < 12
  · rw [if_pos h9, if_pos h9, avail, testBit_getField, Nat.add_sub_cancel' h9.1,
      decide_eq_true (by omega), Bool.true_and]
  rw [if_neg h9, if_neg h9]
  simp only [getLsbD_setBit _ (show 0 < 32 by decide), getLsbD_setBit _ (show 1 < 32 by decide),
    getLsbD_setBit _ (show 2 < 32 by decide), getLsbD_setBit _ (show 3 < 32 by decide),
    getLsbD_setBit _ (show 4 < 32 by decide), getLsbD_setBit _ (show 5 < 32 by decide),
    getLsbD_setBit _ (show 6 < 32 by decide), getLsbD_setBit _ (show 8 < 32 by decide)]
  by_cases h : i < 9 ∧ i ≠ 7
  · rw [if_pos h]
    obtain rfl | rfl | rfl | rfl | rfl | rfl | rfl | rfl :
      i = 0 ∨ i = 1 ∨ i = 2 ∨ i = 3 ∨ i = 4 ∨ i = 5 ∨ i = 6 ∨ i = 8 := by omega
    all_goals rfl
  · rw [if_neg h]
    repeat rw [if_neg (by omega)]

theorem getLsbD_orFlags (e flags : Word) (i : ℕ) : (orFlags e flags).getLsbD i =
    if i = 2 then e.getLsbD 2 || flags.getLsbD 2 else if i = 1 then e.getLsbD 1 || flags.getLsbD 1
    else if i = 0 then e.getLsbD 0 || flags.getLsbD 0 else e.getLsbD i := by
  simp only [orFlags, present, Word.rw, user, getLsbD_setBit _ (show 0 < 32 by decide),
    getLsbD_setBit _ (show 1 < 32 by decide), getLsbD_setBit _ (show 2 < 32 by decide)]

theorem getLsbD_tableEntry (frame i : ℕ) : (tableEntry frame).getLsbD i =
    (decide (i < 32) && (decide (12 ≤ i) && frame.testBit (i - 12) || decide (i < 2))) := by
  rw [tableEntry, BitVec.getLsbD_ofNat, Nat.testBit_or, show 4096 = 2 ^ 12 from rfl,
    Nat.testBit_mul_two_pow, show 3 = 2 ^ 2 - 1 from rfl, Nat.testBit_two_pow_sub_one]

/-! The canonical flags. -/

private theorem getLsbD_flagIf (b : Bool) {k : ℕ} (hk : k < 32) (i : ℕ) :
    (if b then BitVec.twoPow 32 k else 0#32).getLsbD i = (decide (i = k) && b) := by
  cases b
  · simp
  · by_cases h : i = k
    · simp [h, hk]
    · have h' : k ≠ i := fun hk => h hk.symm
      simp [h, h']

theorem getLsbD_packFlags (p r u g c w t : Bool) (i : ℕ) : (packFlags p r u g c w t).getLsbD i =
    (decide (i = 0) && p || decide (i = 1) && r || decide (i = 2) && u || decide (i = 3) && g ||
      (decide (i = 4) && c || decide (i = 5) && (c && w)) || decide (i = 6) && t) := by
  have hc : (if c then flagCache ||| (if w then flagCacheWthru else 0#32) else 0#32) =
      (if c then flagCache else 0#32) ||| if c && w then flagCacheWthru else 0#32 := by
    cases c <;> cases w <;> rfl
  rw [packFlags, hc]
  simp only [BitVec.getLsbD_or, show flagPresent = BitVec.twoPow 32 0 from rfl,
    show flagRw = BitVec.twoPow 32 1 from rfl, show flagUser = BitVec.twoPow 32 2 from rfl,
    show flagGlobal = BitVec.twoPow 32 3 from rfl, show flagCache = BitVec.twoPow 32 4 from rfl,
    show flagCacheWthru = BitVec.twoPow 32 5 from rfl,
    show flagTrapped = BitVec.twoPow 32 6 from rfl, getLsbD_flagIf _ (show 0 < 32 by decide),
    getLsbD_flagIf _ (show 1 < 32 by decide), getLsbD_flagIf _ (show 2 < 32 by decide),
    getLsbD_flagIf _ (show 3 < 32 by decide), getLsbD_flagIf _ (show 4 < 32 by decide),
    getLsbD_flagIf _ (show 5 < 32 by decide), getLsbD_flagIf _ (show 6 < 32 by decide)]

theorem packFlags_canon (p r u g c w t : Bool) :
    canonFlags (packFlags p r u g c w t) = packFlags p r u g c w t := by
  simp only [canonFlags, getLsbD_packFlags]
  cases c <;> cases w <;> simp [packFlags]

/-- Two words with the same fields have the same flags. -/
theorem getFlags_congr {e e' : Word} (h : ∀ i, i < 5 ∨ i = 8 ∨ i = 9 → e.getLsbD i = e'.getLsbD i) :
    e.getFlags = e'.getFlags := by
  simp only [getFlags, present, Word.rw, user, global, ncache, wthru, trapped_eq]
  rw [h 0 (by omega), h 1 (by omega), h 2 (by omega), h 3 (by omega), h 4 (by omega),
    h 8 (by omega), h 9 (by omega)]

theorem getFlags_of_fields {e flags : Word}
    (h : ∀ i < 4, e.getLsbD ([0, 1, 2, 8].getD i 0) = flags.getLsbD i)
    (hc : e.getLsbD 4 = !flags.getLsbD 4) (hw : e.getLsbD 3 = flags.getLsbD 5)
    (ht : e.getLsbD 9 = flags.getLsbD 6) : e.getFlags = canonFlags flags := by
  simp only [getFlags, canonFlags, present, Word.rw, user, global, ncache, wthru, trapped_eq]
  rw [hc, hw, ht, Bool.not_not, ← h 0 (by decide), ← h 1 (by decide), ← h 2 (by decide),
    ← h 3 (by decide)]
  rfl

/-! A page table entry after `vmm_pgmap_small`. -/

section Fill

variable (e flags : Word) (pa : ℕ)

@[simp] theorem fillPte_present : present (fillPte e flags pa) = flags.getLsbD 0 := by
  rw [present, getLsbD_fillPte, getLsbD_setFlags]
  rfl

@[simp] theorem fillPte_rw : Word.rw (fillPte e flags pa) = flags.getLsbD 1 := by
  rw [Word.rw, getLsbD_fillPte, getLsbD_setFlags]
  rfl

@[simp] theorem fillPte_user : user (fillPte e flags pa) = flags.getLsbD 2 := by
  rw [user, getLsbD_fillPte, getLsbD_setFlags]
  rfl

@[simp] theorem fillPte_trapped : trapped (fillPte e flags pa) = flags.getLsbD 6 := by
  rw [trapped_eq, getLsbD_fillPte, getLsbD_setFlags]
  rfl

@[simp] theorem fillPte_pt : pt (fillPte e flags pa) = pa / 4096 % 1048576 := by
  apply Nat.eq_of_testBit_eq
  intro j
  rw [pt, testBit_getField, getLsbD_fillPte, show 1048576 = 2 ^ 20 from rfl,
    Nat.testBit_mod_two_pow]
  by_cases hj : j < 20
  · rw [if_neg (by omega), if_neg (by omega), if_neg (by omega), if_pos (by omega),
      Nat.add_sub_cancel_left]
  · simp [hj]

theorem getFlags_fillPte : getFlags (fillPte e flags pa) = canonFlags flags := by
  apply getFlags_of_fields
  · intro i hi
    obtain rfl | rfl | rfl | rfl : i = 0 ∨ i = 1 ∨ i = 2 ∨ i = 3 := by omega
    all_goals
      rw [getLsbD_fillPte, getLsbD_setFlags]
      rfl
  all_goals
    rw [getLsbD_fillPte, getLsbD_setFlags]
    rfl

/-! A 4 MiB entry after `vmm_pgmap_huge`. -/

@[simp] theorem fillPse_present : present (fillPse flags pa) = flags.getLsbD 0 := by
  rw [present, getLsbD_fillPse, getLsbD_setFlags]
  rfl

@[simp] theorem fillPse_pgsz : pgsz (fillPse flags pa) = true := by
  rw [pgsz, getLsbD_fillPse, getLsbD_setFlags]
  rfl

@[simp] theorem fillPse_trapped : trapped (fillPse flags pa) = flags.getLsbD 6 := by
  rw [trapped_eq, getLsbD_fillPse, getLsbD_setFlags]
  rfl

@[simp] theorem fillPse_psePa : psePa (fillPse flags pa) = pa / 4194304 % 1024 := by
  apply Nat.eq_of_testBit_eq
  intro j
  rw [psePa, testBit_getField, getLsbD_fillPse, show 1024 = 2 ^ 10 from rfl,
    Nat.testBit_mod_two_pow]
  by_cases hj : j < 10
  · rw [if_neg (by omega), if_neg (by omega), if_neg (by omega), if_pos (by omega),
      Nat.add_sub_cancel_left]
  · simp [hj]

theorem getFlags_fillPse : getFlags (fillPse flags pa) = canonFlags flags := by
  apply getFlags_of_fields
  · intro i hi
    obtain rfl | rfl | rfl | rfl : i = 0 ∨ i = 1 ∨ i = 2 ∨ i = 3 := by omega
    all_goals
      rw [getLsbD_fillPse, getLsbD_setFlags]
      rfl
  all_goals
    rw [getLsbD_fillPse, getLsbD_setFlags]
    rfl

end Fill

/-! A page table entry that took over a 4 MiB page. -/

section Split

variable (e orig : Word) (frame : ℕ)

@[simp] theorem splitPte_present : present (splitPte e orig frame) = orig.present := by
  rw [present, getLsbD_splitPte]
  rfl

@[simp] theorem splitPte_user : user (splitPte e orig frame) = orig.user := by
  rw [user, getLsbD_splitPte]
  rfl

@[simp] theorem splitPte_trapped : trapped (splitPte e orig frame) = orig.trapped := by
  rw [trapped_eq, trapped_eq, getLsbD_splitPte]
  rfl

@[simp] theorem splitPte_pt : pt (splitPte e orig frame) = frame % 1048576 := by
  apply Nat.eq_of_testBit_eq
  intro j
  rw [pt, testBit_getField, getLsbD_splitPte, show 1048576 = 2 ^ 20 from rfl,
    Nat.testBit_mod_two_pow]
  by_cases hj : j < 20
  · rw [if_pos (by omega), Nat.add_sub_cancel_left]
  · simp [hj]

theorem getFlags_splitPte : getFlags (splitPte e orig frame) = getFlags orig := by
  apply getFlags_congr
  intro i hi
  rw [getLsbD_splitPte, if_neg (by omega)]
  split_ifs with h9 h
  · rfl
  · rfl
  · omega

end Split

/-! A directory entry with its page table. -/

@[simp] theorem tableEntry_present (f : ℕ) : present (tableEntry f) = true := by
  rw [present, getLsbD_tableEntry]
  rfl

@[simp] theorem tableEntry_rw (f : ℕ) : Word.rw (tableEntry f) = true := by
  rw [Word.rw, getLsbD_tableEntry]
  rfl

@[simp] theorem tableEntry_user (f : ℕ) : user (tableEntry f) = false := by
  rw [user, getLsbD_tableEntry]
  rfl

@[simp] theorem tableEntry_pgsz (f : ℕ) : pgsz (tableEntry f) = false := by
  rw [pgsz, getLsbD_tableEntry]
  rfl

theorem tableEntry_pt {f : ℕ} (hf : f < 1048576) : pt (tableEntry f) = f := by
  apply Nat.eq_of_testBit_eq
  intro j
  rw [pt, testBit_getField, getLsbD_tableEntry]
  by_cases hj : j < 20
  · rw [Nat.add_sub_cancel_left, decide_eq_true hj, decide_eq_true (show 12 + j < 32 by omega),
      decide_eq_true (Nat.le_add_right 12 j), decide_eq_false (show ¬ 12 + j < 2 by omega)]
    simp
  · have hlt : f < 2 ^ j :=
      Nat.lt_of_lt_of_le hf (Nat.pow_le_pow_right Nat.two_pos (Nat.le_of_not_lt hj))
    rw [Nat.testBit_lt_two_pow hlt, decide_eq_false hj, Bool.false_and]

/-! Flags added to a directory entry. -/

section Or

variable (e flags : Word)

@[simp] theorem orFlags_present : present (orFlags e flags) = (e.present || flags.getLsbD 0) := by
  rw [present, getLsbD_orFlags]
  rfl

@[simp] theorem orFlags_rw : Word.rw (orFlags e flags) = (Word.rw e || flags.getLsbD 1) := by
  rw [Word.rw, getLsbD_orFlags]
  rfl

@[simp] theorem orFlags_user : user (orFlags e flags) = (e.user || flags.getLsbD 2) := by
  rw [user, getLsbD_orFlags]
  rfl

@[simp] theorem orFlags_pgsz : pgsz (orFlags e flags) = e.pgsz := by
  rw [pgsz, getLsbD_orFlags]
  rfl

@[simp] theorem orFlags_pt : pt (orFlags e flags) = e.pt := by
  apply getField_congr
  intro j hlo hhi
  rw [getLsbD_orFlags, if_neg (by omega), if_neg (by omega), if_neg (by omega)]

/-- Adding flags an entry already has changes nothing. -/
theorem orFlags_eq_self {e flags : Word} (hp : flags.getLsbD 0 = true → e.present = true)
    (hr : flags.getLsbD 1 = true → Word.rw e = true)
    (hu : flags.getLsbD 2 = true → e.user = true) : orFlags e flags = e := by
  have or_self : ∀ a b : Bool, (b = true → a = true) → (a || b) = a := by decide
  apply BitVec.eq_of_getLsbD_eq
  intro i _
  rw [getLsbD_orFlags]
  split_ifs with h2 h1 h0
  · rw [h2]
    exact or_self _ _ hu
  · rw [h1]
    exact or_self _ _ hr
  · rw [h0]
    exact or_self _ _ hp
  · rfl

end Or

/-! Fields rewritten in place. -/

@[simp] theorem setPt_pt (e : Word) (f : ℕ) : pt (setPt e f) = f % 1048576 :=
  getField_setField_self e (by decide) f

theorem getFlags_setPt (e : Word) (f : ℕ) : getFlags (setPt e f) = getFlags e := by
  apply getFlags_congr
  intro i hi
  rw [getLsbD_setPt, if_neg (by omega)]

@[simp] theorem setPt_present (e : Word) (f : ℕ) : present (setPt e f) = present e := by
  rw [present, getLsbD_setPt]
  rfl

@[simp] theorem setPt_rw (e : Word) (f : ℕ) : Word.rw (setPt e f) = Word.rw e := by
  rw [Word.rw, getLsbD_setPt]
  rfl

@[simp] theorem setPt_trapped (e : Word) (f : ℕ) : trapped (setPt e f) = trapped e := by
  rw [trapped_eq, getLsbD_setPt, trapped_eq]
  rfl

@[simp] theorem setPsePa_psePa (e : Word) (v : ℕ) : psePa (setPsePa e v) = v % 1024 :=
  getField_setField_self e (by decide) v

theorem getFlags_setPsePa (e : Word) (v : ℕ) : getFlags (setPsePa e v) = getFlags e := by
  apply getFlags_congr
  intro i hi
  rw [getLsbD_setPsePa, if_neg (by omega)]

@[simp] theorem setPsePa_present (e : Word) (v : ℕ) : present (setPsePa e v) = present e := by
  rw [present, getLsbD_setPsePa]
  rfl

@[simp] theorem setPsePa_rw (e : Word) (v : ℕ) : Word.rw (setPsePa e v) = Word.rw e := by
  rw [Word.rw, getLsbD_setPsePa]
  rfl

@[simp] theorem setPsePa_pgsz (e : Word) (v : ℕ) : pgsz (setPsePa e v) = pgsz e := by
  rw [pgsz, getLsbD_setPsePa]
  rfl

@[simp] theorem setPsePa_trapped (e : Word) (v : ℕ) : trapped (setPsePa e v) = trapped e := by
  rw [trapped_eq, getLsbD_setPsePa, trapped_eq]
  rfl

theorem mapFlags_eq {e : Word} (h : e.trapped = false) : mapFlags e = getFlags e := by
  rw [getFlags, h, mapFlags]

theorem canonFlags_mapFlags (e : Word) : canonFlags (mapFlags e) = mapFlags e :=
  packFlags_canon ..

@[simp] theorem mapFlags_bit0 (e : Word) : (mapFlags e).getLsbD 0 = e.present := by
  rw [mapFlags, getLsbD_packFlags]
  simp

@[simp] theorem mapFlags_bit2 (e : Word) : (mapFlags e).getLsbD 2 = e.user := by
  rw [mapFlags, getLsbD_packFlags]
  simp

@[simp] theorem mapFlags_bit6 (e : Word) : (mapFlags e).getLsbD 6 = false := by
  rw [mapFlags, getLsbD_packFlags]
  simp

/-! Flags rewritten in place. -/

@[simp] theorem getFlags_bit0 (e : Word) : (getFlags e).getLsbD 0 = e.present := by
  rw [getFlags, getLsbD_packFlags]
  simp

@[simp] theorem getFlags_bit1 (e : Word) : (getFlags e).getLsbD 1 = Word.rw e := by
  rw [getFlags, getLsbD_packFlags]
  simp

@[simp] theorem getFlags_bit2 (e : Word) : (getFlags e).getLsbD 2 = e.user := by
  rw [getFlags, getLsbD_packFlags]
  simp

@[simp] theorem getFlags_bit6 (e : Word) : (getFlags e).getLsbD 6 = e.trapped := by
  rw [getFlags, getLsbD_packFlags]
  simp

@[simp] theorem canonFlags_bit6 (flags : Word) : (canonFlags flags).getLsbD 6 = flags.getLsbD 6 := by
  rw [canonFlags, getLsbD_packFlags]
  simp

@[simp] theorem canonFlags_bit1 (flags : Word) : (canonFlags flags).getLsbD 1 = flags.getLsbD 1 := by
  rw [canonFlags, getLsbD_packFlags]
  simp

@[simp] theorem canonFlags_bit0 (flags : Word) : (canonFlags flags).getLsbD 0 = flags.getLsbD 0 := by
  rw [canonFlags, getLsbD_packFlags]
  simp

@[simp] theorem setFlags_present (e flags : Word) : present (setFlags e flags) = flags.getLsbD 0 := by
  rw [present, getLsbD_setFlags]
  rfl

@[simp] theorem setFlags_rw (e flags : Word) : Word.rw (setFlags e flags) = flags.getLsbD 1 := by
  rw [Word.rw, getLsbD_setFlags]
  rfl

@[simp] theorem setFlags_user (e flags : Word) : user (setFlags e flags) = flags.getLsbD 2 := by
  rw [user, getLsbD_setFlags]
  rfl

@[simp] theorem setFlags_pgsz (e flags : Word) : pgsz (setFlags e flags) = pgsz e := by
  rw [pgsz, getLsbD_setFlags]
  rfl

@[simp] theorem setFlags_trapped (e flags : Word) : trapped (setFlags e flags) = trapped e := by
  rw [trapped_eq, getLsbD_setFlags, trapped_eq]
  rfl

@[simp] theorem setFlags_pt (e flags : Word) : pt (setFlags e flags) = pt e := by
  apply getField_congr
  intro j hlo hhi
  rw [getLsbD_setFlags]
  repeat rw [if_neg (by omega)]

@[simp] theorem setFlags_psePa (e flags : Word) : psePa (setFlags e flags) = psePa e := by
  apply getField_congr
  intro j hlo hhi
  rw [getLsbD_setFlags]
  repeat rw [if_neg (by omega)]

@[simp] theorem setAvail_present (e flags : Word) : present (setAvail e flags) = present e := by
  rw [present, getLsbD_setAvail]
  rfl

@[simp] theorem setAvail_rw (e flags : Word) : Word.rw (setAvail e flags) = Word.rw e := by
  rw [Word.rw, getLsbD_setAvail]
  rfl

@[simp] theorem setAvail_user (e flags : Word) : user (setAvail e flags) = user e := by
  rw [user, getLsbD_setAvail]
  rfl

@[simp] theorem setAvail_pgsz (e flags : Word) : pgsz (setAvail e flags) = pgsz e := by
  rw [pgsz, getLsbD_setAvail]
  rfl

@[simp] theorem setAvail_trapped (e flags : Word) : trapped (setAvail e flags) = flags.getLsbD 6 := by
  rw [trapped_eq, getLsbD_setAvail]
  rfl

@[simp] theorem setAvail_pt (e flags : Word) : pt (setAvail e flags) = pt e := by
  apply getField_congr
  intro j hlo hhi
  rw [getLsbD_setAvail, if_neg (by omega)]

@[simp] theorem setAvail_psePa (e flags : Word) : psePa (setAvail e flags) = psePa e := by
  apply getField_congr
  intro j hlo hhi
  rw [getLsbD_setAvail, if_neg (by omega)]

/-- The flags come out as they were written where the trap flag is the one asked for. -/
theorem getFlags_setFlags (e flags : Word) :
    getFlags (setFlags e flags) = canonFlags flags ↔ e.trapped = flags.getLsbD 6 := by
  constructor
  · intro h
    have hbit : (getFlags (setFlags e flags)).getLsbD 6 = (canonFlags flags).getLsbD 6 := by rw [h]
    rwa [getFlags_bit6, canonFlags_bit6, setFlags_trapped] at hbit
  · intro h
    apply getFlags_of_fields
    · intro i hi
      obtain rfl | rfl | rfl | rfl : i = 0 ∨ i = 1 ∨ i = 2 ∨ i = 3 := by omega
      all_goals
        rw [getLsbD_setFlags]
        rfl
    · rw [getLsbD_setFlags]
      rfl
    · rw [getLsbD_setFlags]
      rfl
    · rw [← trapped_eq, setFlags_trapped, h]

/-- Only the trap flag depends on the bits that are available to the system. -/
theorem getFlags_setAvail (e flags : Word) :
    getFlags (setAvail e flags) = getFlags e ↔ e.trapped = flags.getLsbD 6 := by
  constructor
  · intro h
    have hbit : (getFlags (setAvail e flags)).getLsbD 6 = (getFlags e).getLsbD 6 := by rw [h]
    rw [getFlags_bit6, getFlags_bit6, setAvail_trapped] at hbit
    exact hbit.symm
  · intro h
    apply getFlags_congr
    intro i hi
    by_cases h9 : i = 9
    · subst h9
      rw [← trapped_eq, setAvail_trapped, ← trapped_eq, h]
    · rw [getLsbD_setAvail, if_neg (by omega)]

theorem getFlags_setAvail_setFlags (e flags : Word) :
    getFlags ((setFlags e flags).setAvail flags) = canonFlags flags := by
  apply getFlags_of_fields
  · intro i hi
    obtain rfl | rfl | rfl | rfl : i = 0 ∨ i = 1 ∨ i = 2 ∨ i = 3 := by omega
    all_goals
      rw [getLsbD_setAvail, getLsbD_setFlags]
      rfl
  all_goals
    rw [getLsbD_setAvail, getLsbD_setFlags]
    rfl

/-- The flags of a cached entry are not 0. -/
theorem getFlags_ne_zero {e : Word} (hn : e.ncache = false) : getFlags e ≠ 0#32 := by
  intro h
  have hbit : (getFlags e).getLsbD 4 = (0#32 : Word).getLsbD 4 := by rw [h]
  rw [getFlags, getLsbD_packFlags, hn] at hbit
  simp at hbit

@[simp] theorem setAvail_ncache (e flags : Word) : ncache (setAvail e flags) = ncache e := by
  rw [ncache, getLsbD_setAvail]
  rfl

end Word
end SysX
