import SysX.Reloc
import SysX.Lib.Assoc

/-! Symbol tables (`exec/syms.c`). -/
namespace SysX

/-- `SYM_ALLOC_MIN` -/
def symAllocMin : ℕ := 4

/-- `memcmp` of a name of the table, in the length that `sym_resolve` uses. -/
def SymEntry.hasName (e : SymEntry) (name : List UInt8) : Bool :=
  (List.range (min name.length symNameMaxlen + 1)).all fun i => e.name.getD i 0 = name.getD i 0

/-- `sym_table_t`, with the `count` entries that are in use. -/
structure SymTable where
  syms : List SymEntry
  maxCount : ℕ
  count_le : syms.length ≤ maxCount

namespace SymTable

/-- `sym_resolve` -/
def resolve (t : SymTable) (name : List UInt8) : Option ℕ := t.syms.findIdx? fun e => e.hasName name

/-- What `sym_add_entry` writes. -/
def entry (name : List UInt8) (addr : ℕ) : SymEntry := ⟨name.take symNameMaxlen, addr⟩

/-- `sym_add_entry`, with the index of the entry. `room n` tells whether memory for `n` entries is found. -/
def addEntry (room : ℕ → Bool) (t : SymTable) (name : List UInt8) (addr : ℕ) : SymTable × Option ℕ :=
  match t.resolve name with
  | some i =>
    ({ t with syms := t.syms.set i (entry name addr), count_le := by rw [List.length_set]; exact t.count_le }, some i)
  | none =>
    if h : t.syms.length = t.maxCount then
      if room (t.maxCount + symAllocMin) then
        (⟨t.syms ++ [entry name addr], t.maxCount + symAllocMin, by
          rw [List.length_append, h]
          exact Nat.add_le_add_left (Nat.le_add_left 1 3) _⟩, some t.syms.length)
      else (t, none)
    else
      (⟨t.syms ++ [entry name addr], t.maxCount, by
        rw [List.length_append]
        exact lt_of_le_of_ne t.count_le h⟩, some t.syms.length)

/-- The loop of `sym_addr2sym` over the entries from entry `i` on, with the best entry so far and its distance. -/
def scan (addr : ℕ) : (best : Option (ℕ × ℕ)) → (i : ℕ) → List SymEntry → Option (ℕ × ℕ)
  | best, _, [] => best
  | best, i, e :: es =>
    if addr < e.addr then best
    else
      let result := best.getD (i, addr - e.addr)
      scan addr (some (if addr - e.addr < result.2 then (i, addr - e.addr) else result)) (i + 1) es

/-- `sym_addr2sym` -/
def addr2sym (t : SymTable) (addr : ℕ) : Option (ℕ × ℕ) := scan addr none 0 t.syms

end SymTable

/-- `sym_new_table` -/
def symNewTable (initialCount : ℕ) : SymTable :=
  ⟨[], if initialCount < symAllocMin then symAllocMin else initialCount, Nat.zero_le _⟩

/-! Names. -/

section Names

variable {t : SymTable} {e : SymEntry} {name : List UInt8} {room : ℕ → Bool} {adds : List (List UInt8 × ℕ)}

/-- A string has no terminator inside of it. -/
def IsStr (name : List UInt8) : Prop := ∀ c ∈ name, c ≠ 0

instance (name : List UInt8) : Decidable (IsStr name) := inferInstanceAs (Decidable (∀ c ∈ name, c ≠ 0))

theorem IsStr.getD_ne_zero (h : IsStr name) {i : ℕ} (hi : i < name.length) : name.getD i 0 ≠ 0 := by
  rw [List.getD_eq_getElem _ _ hi]
  exact h _ (List.getElem_mem hi)

/-- A name that is too long is never found. -/
theorem SymEntry.hasName_of_long (he : e.name.length ≤ symNameMaxlen) (hn : IsStr name) (hlen : symNameMaxlen < name.length) :
    e.hasName name = false := by
  rw [Bool.eq_false_iff]
  intro h
  have hlast := List.all_eq_true.mp h symNameMaxlen (List.mem_range.mpr (by omega))
  rw [decide_eq_true_iff, List.getD_eq_default _ _ he] at hlast
  exact hn.getD_ne_zero hlen hlast.symm

/-- A name that is not is found by comparing all of it. -/
theorem SymEntry.hasName_iff (he : IsStr e.name) (hn : IsStr name) (hlen : name.length ≤ symNameMaxlen) :
    e.hasName name = true ↔ e.name = name := by
  unfold SymEntry.hasName
  rw [List.all_eq_true, min_eq_left hlen]
  refine ⟨fun h => ?_, fun h i _ => by rw [h]; exact decide_eq_true rfl⟩
  have heq : ∀ i ≤ name.length, e.name.getD i 0 = name.getD i 0 := fun i hi =>
    of_decide_eq_true (h i (List.mem_range.mpr (Nat.lt_succ_of_le hi)))
  have hle : e.name.length ≤ name.length := by
    by_contra hgt
    have hend := heq name.length (Nat.le_refl _)
    rw [List.getD_eq_default name _ (Nat.le_refl _)] at hend
    exact he.getD_ne_zero (Nat.not_le.mp hgt) hend
  have hge : name.length ≤ e.name.length := by
    by_contra hgt
    have hend := heq e.name.length hle
    rw [List.getD_eq_default e.name _ (Nat.le_refl _)] at hend
    exact hn.getD_ne_zero (Nat.not_le.mp hgt) hend.symm
  apply List.ext_getElem (Nat.le_antisymm hle hge)
  intro i h1 h2
  rw [← List.getD_eq_getElem _ 0 h1, ← List.getD_eq_getElem _ 0 h2]
  exact heq i (Nat.le_of_lt h2)

namespace SymTable

/-- The names of a table are strings of the length that fits. -/
def Named (t : SymTable) : Prop := ∀ e ∈ t.syms, IsStr e.name ∧ e.name.length ≤ symNameMaxlen

theorem IsStr.take (h : IsStr name) (n : ℕ) : IsStr (name.take n) := fun c hc => h c (List.mem_of_mem_take hc)

theorem entry_named (hn : IsStr name) (addr : ℕ) :
    IsStr (entry name addr).name ∧ (entry name addr).name.length ≤ symNameMaxlen :=
  ⟨IsStr.take hn _, List.length_take_le _ _⟩

/-- What an addition comes to. -/
theorem addEntry_syms (hroom : ∀ n, room n = true) (addr : ℕ) : (t.addEntry room name addr).1.syms =
    match t.resolve name with
    | some i => t.syms.set i (entry name addr)
    | none => t.syms ++ [entry name addr] := by
  unfold addEntry
  cases t.resolve name with
  | some i => rfl
  | none =>
    simp only [hroom, if_true]
    split_ifs <;> rfl

theorem Named.addEntry (h : t.Named) (hroom : ∀ n, room n = true) (hn : IsStr name) (addr : ℕ) :
    (t.addEntry room name addr).1.Named := by
  intro e he
  rw [addEntry_syms hroom] at he
  cases hr : t.resolve name with
  | some i =>
    rw [hr] at he
    obtain hmem | rfl := List.mem_or_eq_of_mem_set he
    · exact h e hmem
    · exact entry_named hn addr
  | none =>
    rw [hr] at he
    obtain hmem | hmem := List.mem_append.mp he
    · exact h e hmem
    · rw [List.mem_singleton.mp hmem]
      exact entry_named hn addr

/-- An addition under a name that fits puts the entry in its place. -/
theorem addEntry_put (h : t.Named) (hroom : ∀ n, room n = true) (hn : IsStr name) (hlen : name.length ≤ symNameMaxlen)
    (addr : ℕ) : (t.addEntry room name addr).1.syms = Assoc.put SymEntry.name ⟨name, addr⟩ t.syms := by
  have hentry : entry name addr = ⟨name, addr⟩ := by
    unfold entry
    rw [List.take_of_length_le hlen]
  have hfind : t.resolve name = t.syms.findIdx? fun e => e.name = name := by
    unfold resolve
    apply Assoc.findIdx_congr
    intro e he
    rw [Bool.eq_iff_iff, SymEntry.hasName_iff (h e he).1 hn hlen, decide_eq_true_iff]
  rw [addEntry_syms hroom, hentry, hfind]
  cases hi : t.syms.findIdx? fun e => decide (e.name = name) with
  | some i => exact (Assoc.put_of_findIdx_some hi).symm
  | none => exact (Assoc.put_of_findIdx_none hi).symm

/-- The entries are added one after the other. -/
def addAll (room : ℕ → Bool) (t : SymTable) (adds : List (List UInt8 × ℕ)) : SymTable :=
  adds.foldl (fun t a => (t.addEntry room a.1 a.2).1) t

/-- The address that a resolved name has. -/
def resolveAddr (t : SymTable) (name : List UInt8) : Option ℕ := (t.resolve name).bind fun i => t.syms[i]?.map SymEntry.addr

/-- The table is the map that the additions make, from names to the addresses that were added last. -/
structure IsMap (t : SymTable) (adds : List (List UInt8 × ℕ)) : Prop where
  resolve : ∀ name, IsStr name → t.resolveAddr name = (adds.reverse.find? fun a => a.1 = name).map Prod.snd
  nodup : (t.syms.map SymEntry.name).Nodup
  names : ∀ name, name ∈ t.syms.map SymEntry.name ↔ name ∈ adds.map Prod.fst

theorem Named.addAll (h : t.Named) (hroom : ∀ n, room n = true) (hn : ∀ a ∈ adds, IsStr a.1) :
    (t.addAll room adds).Named := by
  induction adds generalizing t with
  | nil => exact h
  | cons a adds ih =>
    exact ih (h.addEntry hroom (hn a List.mem_cons_self) a.2) fun b hb => hn b (List.mem_cons_of_mem a hb)

theorem symNewTable_named (n : ℕ) : (symNewTable n).Named := fun _ he => absurd he List.not_mem_nil

/-- The entry for an addition under a name that fits. -/
def ofAdd (a : List UInt8 × ℕ) : SymEntry := ⟨a.1, a.2⟩

/-- Additions under names that fit put their entries in place, one after the other. -/
theorem addAll_put (h : t.Named) (hroom : ∀ n, room n = true) (hn : ∀ a ∈ adds, IsStr a.1)
    (hlen : ∀ a ∈ adds, a.1.length ≤ symNameMaxlen) :
    (t.addAll room adds).syms = (adds.map ofAdd).foldl (fun m e => Assoc.put SymEntry.name e m) t.syms := by
  induction adds generalizing t with
  | nil => rfl
  | cons a adds ih =>
    have ha := hn a List.mem_cons_self
    have hput := addEntry_put h hroom ha (hlen a List.mem_cons_self) a.2
    rw [List.map_cons, List.foldl_cons, show ofAdd a = ⟨a.1, a.2⟩ from rfl, ← hput]
    exact ih (h.addEntry hroom ha a.2) (fun b hb => hn b (List.mem_cons_of_mem a hb)) fun b hb =>
      hlen b (List.mem_cons_of_mem a hb)

theorem resolveAddr_eq : t.resolveAddr name = (t.syms.find? fun e => e.hasName name).map SymEntry.addr := by
  unfold resolveAddr resolve
  rw [List.find?_eq_bind_findIdx?_getElem?, Option.map_bind]
  rfl

/-- A name that is too long does not resolve. -/
theorem resolveAddr_of_long (h : t.Named) (hn : IsStr name) (hlen : symNameMaxlen < name.length) :
    t.resolveAddr name = none := by
  have hnone : (t.syms.find? fun e => e.hasName name) = none := by
    rw [List.find?_eq_none]
    intro e he
    rw [SymEntry.hasName_of_long (h e he).2 hn hlen]
    exact Bool.false_ne_true
  rw [resolveAddr_eq, hnone]
  rfl

theorem resolveAddr_of_short (h : t.Named) (hn : IsStr name) (hlen : name.length ≤ symNameMaxlen) :
    t.resolveAddr name = (t.syms.find? fun e => e.name = name).map SymEntry.addr := by
  rw [resolveAddr_eq]
  congr 1
  apply List.find?_congr
  intro e he
  rw [Bool.eq_iff_iff, SymEntry.hasName_iff (h e he).1 hn hlen, decide_eq_true_iff]

/-- The addition that comes last under a name. -/
theorem find_ofAdd (name : List UInt8) : (((adds.map ofAdd).reverse.find? fun e => e.name = name).map SymEntry.addr) =
    (adds.reverse.find? fun a => a.1 = name).map Prod.snd := by
  rw [← List.map_reverse, List.find?_map, Option.map_map]
  rfl

/-- A table that is filled by additions is their map exactly where no name is longer than `SYM_NAME_MAXLEN`: the entry of a
longer one is never found again. -/
theorem sym_table_isMap_iff (initialCount : ℕ) (hroom : ∀ n, room n = true) (hn : ∀ a ∈ adds, IsStr a.1) :
    ((symNewTable initialCount).addAll room adds).IsMap adds ↔ ∀ a ∈ adds, a.1.length ≤ symNameMaxlen := by
  have hnamed := (symNewTable_named initialCount).addAll hroom hn
  constructor
  · intro h a ha
    by_contra hlong
    have hres := h.resolve a.1 (hn a ha)
    rw [resolveAddr_of_long hnamed (hn a ha) (Nat.not_le.mp hlong), eq_comm, Option.map_eq_none_iff,
      List.find?_eq_none] at hres
    exact hres a (List.mem_reverse.mpr ha) (decide_eq_true rfl)
  · intro hlen
    have hsyms : ((symNewTable initialCount).addAll room adds).syms = Assoc.ofList SymEntry.name (adds.map ofAdd) :=
      addAll_put (symNewTable_named initialCount) hroom hn hlen
    refine ⟨fun name hname => ?_, ?_, fun name => ?_⟩
    · by_cases hshort : name.length ≤ symNameMaxlen
      · rw [resolveAddr_of_short hnamed hname hshort, hsyms, Assoc.find_ofList, find_ofAdd]
      · rw [resolveAddr_of_long hnamed hname (Nat.not_le.mp hshort), eq_comm, Option.map_eq_none_iff, List.find?_eq_none]
        intro a ha heq
        have hle := hlen a (List.mem_reverse.mp ha)
        rw [of_decide_eq_true heq] at hle
        exact hshort hle
    · rw [hsyms]
      exact Assoc.nodup_keys_ofList
    · rw [hsyms, Assoc.mem_keys_ofList, List.map_map]
      rfl

/-- A name of 48 letters. -/
def longName : List UInt8 := List.replicate 48 97

theorem sym_table_isMap_sample : ((symNewTable 0).addAll (fun _ => true) [([97], 1), ([97, 98], 2), ([97], 3)]).IsMap
    [([97], 1), ([97, 98], 2), ([97], 3)] ↔ ∀ a ∈ [(([97] : List UInt8), 1), ([97, 98], 2), ([97], 3)], a.1.length ≤ symNameMaxlen :=
  sym_table_isMap_iff 0 (fun _ => rfl) (by decide +kernel)

/-- A symbol with a name of 48 letters does not resolve after it was added, and adding it again makes another entry. -/
theorem sym_table_loses_long_name : ((symNewTable 0).addAll (fun _ => true) [(longName, 1)]).resolveAddr longName = none ∧
    ((symNewTable 0).addAll (fun _ => true) [(longName, 1), (longName, 2)]).syms.length = 2 := by
  decide +kernel

end SymTable

end Names

/-! Addresses. -/

namespace SymTable

variable {t : SymTable} {addr : ℕ}

/-- The entry with the greatest address that is not above `addr`, and how far it is. -/
def Closest (t : SymTable) (addr : ℕ) : Option (ℕ × ℕ) → Prop
  | none => ∀ e ∈ t.syms, addr < e.addr
  | some (i, delta) => ∃ e, t.syms[i]? = some e ∧ e.addr ≤ addr ∧ delta = addr - e.addr ∧
      ∀ e' ∈ t.syms, e'.addr ≤ addr → e'.addr ≤ e.addr

/-- The entries that `sym_addr2sym` looks at. -/
def scanned (t : SymTable) (addr : ℕ) : List SymEntry := t.syms.takeWhile fun e => e.addr ≤ addr

/-- The best of the entries that have been looked at. -/
def BestOf (addr : ℕ) (done : List SymEntry) : Option (ℕ × ℕ) → Prop
  | none => done = []
  | some (i, delta) => ∃ e, done[i]? = some e ∧ e.addr ≤ addr ∧ delta = addr - e.addr ∧ ∀ e' ∈ done, e'.addr ≤ e.addr

/-- One more entry. -/
theorem BestOf.step {done : List SymEntry} {best : Option (ℕ × ℕ)} (h : BestOf addr done best) {e : SymEntry}
    (he : e.addr ≤ addr) : let result := best.getD (done.length, addr - e.addr)
    BestOf addr (done ++ [e]) (some (if addr - e.addr < result.2 then (done.length, addr - e.addr) else result)) := by
  cases best with
  | none =>
    obtain rfl : done = [] := h
    simp only [Option.getD_none, lt_irrefl, if_false]
    exact ⟨e, rfl, he, rfl, fun e' he' => by rw [List.mem_singleton.mp he']⟩
  | some p =>
    obtain ⟨i, delta⟩ := p
    obtain ⟨b, hb, hle, rfl, hmax⟩ := h
    have hi : i < done.length := (List.getElem?_eq_some_iff.mp hb).1
    simp only [Option.getD_some]
    split_ifs with hlt
    · refine ⟨e, by simp, he, rfl, fun e' he' => ?_⟩
      obtain hmem | hmem := List.mem_append.mp he'
      · exact (hmax e' hmem).trans (by omega)
      · rw [List.mem_singleton.mp hmem]
    · refine ⟨b, by rw [List.getElem?_append_left hi, hb], hle, rfl, fun e' he' => ?_⟩
      obtain hmem | hmem := List.mem_append.mp he'
      · exact hmax e' hmem
      · rw [List.mem_singleton.mp hmem]
        omega

/-- The loop finds the best of the entries up to the first one above the address. -/
theorem scan_best {done es : List SymEntry} {best : Option (ℕ × ℕ)} (h : BestOf addr done best) :
    BestOf addr (done ++ es.takeWhile fun e => e.addr ≤ addr) (scan addr best done.length es) := by
  induction es generalizing done best with
  | nil =>
    rw [List.takeWhile_nil, List.append_nil]
    exact h
  | cons e es ih =>
    rw [scan]
    split_ifs with hlt
    · rw [List.takeWhile_cons_of_neg (by simpa using hlt), List.append_nil]
      exact h
    · have he : e.addr ≤ addr := Nat.not_lt.mp hlt
      rw [List.takeWhile_cons_of_pos (by simpa using he), ← List.singleton_append, ← List.append_assoc]
      have hstep := ih (h.step he)
      rwa [List.length_append, List.length_singleton] at hstep

theorem addr2sym_best (t : SymTable) (addr : ℕ) : BestOf addr (t.scanned addr) (t.addr2sym addr) :=
  scan_best (show BestOf addr [] none from rfl)

theorem scanned_prefix (t : SymTable) (addr : ℕ) : t.scanned addr <+: t.syms := List.takeWhile_prefix _

/-- The best of the entries that the loop looks at is an entry of the table. -/
theorem getElem?_of_scanned {i : ℕ} {b : SymEntry} (h : (t.scanned addr)[i]? = some b) : t.syms[i]? = some b := by
  obtain ⟨rest, hrest⟩ := t.scanned_prefix addr
  rw [← hrest, List.getElem?_append_left (List.getElem?_eq_some_iff.mp h).1]
  exact h

/-- Where no other symbol is closer than those that the loop looks at, it finds the closest one. -/
theorem closest_of_scanned (h : ∀ e ∈ t.syms, e.addr ≤ addr → ∃ p ∈ t.scanned addr, e.addr ≤ p.addr) :
    t.Closest addr (t.addr2sym addr) := by
  have hbest := t.addr2sym_best addr
  cases hr : t.addr2sym addr with
  | none =>
    rw [hr] at hbest
    have hnil : t.scanned addr = [] := hbest
    intro e he
    by_contra hle
    obtain ⟨p, hp, -⟩ := h e he (Nat.not_lt.mp hle)
    rw [hnil] at hp
    cases hp
  | some p =>
    obtain ⟨i, delta⟩ := p
    rw [hr] at hbest
    obtain ⟨b, hb, hle, hdelta, hmax⟩ := hbest
    refine ⟨b, getElem?_of_scanned hb, hle, hdelta, fun e he hea => ?_⟩
    obtain ⟨q, hq, heq⟩ := h e he hea
    exact heq.trans (hmax q hq)

/-- `sym_addr2sym` finds the closest symbol exactly where the symbols that it does not look at, those behind the first one
above the address, have none that is closer. -/
theorem sym_addr2sym_closest_iff (t : SymTable) (addr : ℕ) : t.Closest addr (t.addr2sym addr) ↔
    ∀ e ∈ t.syms, e.addr ≤ addr → ∃ p ∈ t.scanned addr, e.addr ≤ p.addr := by
  refine ⟨fun h e he hle => ?_, closest_of_scanned⟩
  have hbest := t.addr2sym_best addr
  cases hr : t.addr2sym addr with
  | none =>
    rw [hr] at h
    exact absurd hle (Nat.not_le.mpr (h e he))
  | some p =>
    obtain ⟨i, delta⟩ := p
    rw [hr] at h hbest
    obtain ⟨b, hb, -⟩ := hbest
    obtain ⟨c, hc, -, -, hall⟩ := h
    obtain rfl : b = c := Option.some.inj ((getElem?_of_scanned hb).symm.trans hc)
    exact ⟨b, List.mem_of_getElem? hb, hall e he hle⟩

/-- In a list that is in order, what is not above the address comes first. -/
theorem mem_takeWhile_of_sorted {l : List SymEntry} (h : l.Pairwise fun e e' => e.addr ≤ e'.addr) {e : SymEntry} (he : e ∈ l)
    (hle : e.addr ≤ addr) : e ∈ l.takeWhile fun e => e.addr ≤ addr := by
  induction h with
  | nil => cases he
  | @cons a l ha _ ih =>
    have hfirst : a.addr ≤ addr := by
      obtain rfl | hmem := List.mem_cons.mp he
      · exact hle
      · exact (ha e hmem).trans hle
    rw [List.takeWhile_cons_of_pos (by simpa using hfirst)]
    obtain rfl | hmem := List.mem_cons.mp he
    · exact List.mem_cons_self
    · exact List.mem_cons_of_mem a (ih hmem)

/-- In a table that is in the order of the addresses, the closest symbol is found. -/
theorem sorted_closest (h : t.syms.Pairwise fun e e' => e.addr ≤ e'.addr) (addr : ℕ) :
    t.Closest addr (t.addr2sym addr) :=
  closest_of_scanned fun e he hle => ⟨e, mem_takeWhile_of_sorted h he hle, Nat.le_refl _⟩

/-- Of two symbols that are added from the higher address down, the lower one is not found. -/
theorem sym_addr2sym_misses : let t := (symNewTable 0).addAll (fun _ => true) [([97], 8192), ([98], 4096)]
    t.addr2sym 5000 = none ∧ ¬ t.Closest 5000 (t.addr2sym 5000) := by
  have hnone : ((symNewTable 0).addAll (fun _ => true) [([97], 8192), ([98], 4096)]).addr2sym 5000 = none := by
    decide +kernel
  refine ⟨hnone, fun h => ?_⟩
  rw [hnone] at h
  have hlow := h ⟨[98], 4096⟩ (List.mem_of_getElem? (i := 1) rfl)
  exact absurd hlow (by decide)

end SymTable

end SysX
