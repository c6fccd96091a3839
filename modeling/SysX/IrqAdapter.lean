import SysX.IrqRegistry

/-!
The delivery of legacy interrupts through the I/O APIC: the adapters that `apic_init` and `pic_handle`
register, and what an interrupt of a GSI calls through them.
-/
namespace SysX

/-- The calls of an interrupt of GSI `g` are those of the handlers that stand registered for the IRQs
routed to it, each once and for its own IRQ. -/
def Delivers (regs : ℕ → Option (ℕ × Handler)) (g : ℕ) (s : Intr) : Prop :=
  ∃ (l : List IntrEvent) (ids : List ℕ),
    ioapicHandler ((ioapicHandlerVectBase + g) % 256) s = some (l ++ [.apicEoi], s) ∧
    ids.Nodup ∧ (∀ i, i ∈ ids ↔ ∃ q h, regs i = some (q, h) ∧ s.irqGsi q = g) ∧
    (l.map some).Perm (ids.map fun i => (regs i).map fun r => IntrEvent.call r.2 r.1)

/-- A run that registers the handlers `before`, sets up the APIC and registers handlers for the IRQs in
`after`. No table is full when an entry of it is needed. -/
inductive ApicRun : (ℕ → Option (ℕ × Handler)) → List ℕ → (ℕ → Option (ℕ × Handler)) → Intr → Prop
  | init {before : ℕ → Option (ℕ × Handler)} {s t : Intr} {maxGsis : ℕ}
      (run : PicRun (fun s => s.pic.HasRoom) before s)
      (hirq : ∀ id q h, before id = some (q, h) → q < legacyIrqs)
      (hgsi : ∀ q, s.irqGsi q < 256)
      (hroom : ∀ seen : List ℕ, seen.Nodup → (∀ q ∈ seen, ∃ id h, before id = some (q, h)) →
        seen.length ≤ maxGsis)
      (h : apicInit maxGsis s = some (true, t)) : ApicRun before [] before t
  | handle {before regs : ℕ → Option (ℕ × Handler)} {after : List ℕ} {s t : Intr} {irq id : ℕ}
      {handler : Handler} (run : ApicRun before after regs s) (hirq : irq < legacyIrqs)
      (hroom : s.pic.HasRoom) (hroom' : s.ioapic.HasRoom)
      (h : picHandle irq handler s = some (some id, t)) :
      ApicRun before (after ++ [irq]) (Function.update regs id (some (irq, handler))) t

/-- What is registered for the GSI `g` reaches it through one adapter, for the first IRQ of `g`. -/
def Routable (before : ℕ → Option (ℕ × Handler)) (after : List ℕ)
    (regs : ℕ → Option (ℕ × Handler)) (irqGsi : ℕ → ℕ) (g : ℕ) : Prop :=
  (∀ id q h, regs id = some (q, h) → irqGsi q ≠ g) ∨
  (∀ id q h, regs id = some (q, h) → irqGsi q = g → ∀ j < q, irqGsi j ≠ g) ∧
    ((∀ q ∈ after, irqGsi q ≠ g) ∨
      (∀ id q h, before id = some (q, h) → irqGsi q ≠ g) ∧
        after.countP (fun q => irqGsi q = g) = 1)

/-- The table holds adapters only, for the GSIs in `gsis`, in a row. -/
structure Adapters (gsis : List ℕ) (t : HandlerTable) : Prop where
  ok : t.Ok
  len : gsis.length ≤ t.cnt
  reg : ∀ i, t.reg i = gsis[i]?.map fun g => (g, .legacy)

section

variable {t : HandlerTable} {gsis : List ℕ} {g : ℕ}

theorem Adapters.room (inv : Adapters gsis t) (hlen : gsis.length < t.cnt) : t.HasRoom :=
  ⟨gsis.length, hlen, by rw [inv.reg, List.getElem?_eq_none le_rfl]; rfl⟩

/-- A further adapter. -/
theorem Adapters.handle (inv : Adapters gsis t) (hroom : t.HasRoom) (hg : g < 256) :
    ∃ r u, tableHandle (g % 256) .legacy t = some (r, u) ∧ Adapters (gsis ++ [g]) u ∧
      u.cnt = t.cnt := by
  obtain ⟨id, u, hrun, hok, hid, hfree, hmin, hreg, hu⟩ := tableHandle_room inv.ok hroom (g % 256)
    .legacy
  rw [Nat.mod_eq_of_lt hg] at hrun hreg
  rw [Nat.mod_eq_of_lt hg]
  have hcnt : u.cnt = t.cnt := by rw [hu]
  have hlen : id = gsis.length := by
    rcases lt_trichotomy id gsis.length with hlt | heq | hgt
    · rw [inv.reg, List.getElem?_eq_getElem hlt] at hfree
      cases hfree
    · exact heq
    · refine absurd ?_ (hmin gsis.length hgt)
      rw [inv.reg, List.getElem?_eq_none le_rfl]
      rfl
  refine ⟨some id, u, hrun, ⟨hok, ?_, fun i => ?_⟩, hcnt⟩
  · rw [List.length_append, List.length_singleton, hcnt]
    omega
  · rw [hreg]
    by_cases hi : i = id
    · rw [hi, Function.update_self, hlen]
      simp
    · rw [Function.update_of_ne hi, inv.reg]
      rcases lt_or_ge i gsis.length with hlt | hge
      · rw [List.getElem?_append_left hlt]
      · rw [List.getElem?_eq_none hge, List.getElem?_eq_none]
        rw [List.length_append, List.length_singleton]
        omega

theorem countP_getElem (l : List ℕ) (g : ℕ) :
    (List.range l.length).countP (fun i => l[i]? = some g) = l.count g := by
  induction l using List.reverseRecOn with
  | nil => rfl
  | append_singleton l x ih =>
    rw [List.length_append, List.length_singleton, List.range_succ, List.countP_append,
      List.count_append, ← ih]
    congr 1
    · apply List.countP_congr
      intro i hi
      rw [List.getElem?_append_left (List.mem_range.mp hi)]
    · by_cases hx : x = g <;> simp [hx]

/-- An interrupt of GSI `g` calls the adapter once for each of its entries. -/
theorem Adapters.calls (inv : Adapters gsis t) (g : ℕ) :
    tableCalls g t.cnt 0 t = some (List.replicate (gsis.count g) .legacy, t) := by
  obtain ⟨l, hrun, ids, hnodup, hids, hl⟩ := tableCalls_once inv.ok g
  have hmem : ∀ i, i ∈ ids ↔ gsis[i]? = some g := by
    intro i
    rw [hids, inv.reg]
    cases gsis[i]? with
    | none => simp
    | some g' => simp
  have hperm : ids.Perm ((List.range gsis.length).filter fun i => gsis[i]? = some g) := by
    rw [List.perm_ext_iff_of_nodup hnodup (List.nodup_range.filter _)]
    intro i
    rw [hmem, List.mem_filter, List.mem_range, decide_eq_true_eq]
    constructor
    · intro h
      exact ⟨(List.getElem?_eq_some_iff.mp h).1, h⟩
    · exact fun h => h.2
  have hlen : l.length = gsis.count g := by
    rw [← countP_getElem, List.countP_eq_length_filter, ← hperm.length_eq,
      ← List.length_map (f := some), hl, List.length_map]
  have hall : ∀ h ∈ l, h = .legacy := by
    intro h hh
    have hsome : some h ∈ ids.map fun i => (t.reg i).map Prod.snd := by
      rw [← hl]
      exact List.mem_map_of_mem hh
    obtain ⟨i, hi, heq⟩ := List.mem_map.mp hsome
    rw [inv.reg, (hmem i).mp hi] at heq
    exact (Option.some.inj heq).symm
  rw [hrun, List.eq_replicate_iff.mpr ⟨hlen, hall⟩]

variable {s s' : Intr} {before regs : ℕ → Option (ℕ × Handler)} {after : List ℕ}

theorem onIoapic_eq {α : Type} {c : TableOp α} {r : α} {u : HandlerTable}
    (h : c s.ioapic = some (r, u)) : onIoapic c s = some (r, { s with ioapic := u }) := by
  rw [onIoapic, h]
  rfl

theorem irqGsiAt_eq {q : ℕ} (hq : q < legacyIrqs) : irqGsiAt q s = some (s.irqGsi q, s) := by
  rw [irqGsiAt, Comp.readOr_apply, if_pos hq]
  rfl

/-- The bitmask of the handled IRQs has the bits of `seen`. -/
def Bits (handled : ℕ) (seen : List ℕ) : Prop :=
  ∀ q < legacyIrqs, handled.testBit q = true ↔ q ∈ seen

theorem Bits.add {handled : ℕ} {seen : List ℕ} (h : Bits handled seen) {irq : ℕ} :
    Bits ((handled ||| 2 ^ irq) % 65536) (seen ++ [irq]) := by
  intro q hq
  have hq' : q < 16 := hq
  rw [show 65536 = 2 ^ 16 from rfl, Nat.testBit_mod_two_pow, Nat.testBit_or, Nat.testBit_two_pow,
    List.mem_append, List.mem_singleton]
  simp only [hq', decide_true, Bool.true_and, Bool.or_eq_true, h q hq, decide_eq_true_eq]
  rw [eq_comm (a := irq)]

/-- The adapter loop registers one adapter for each IRQ that has a handler. -/
theorem adaptIrqs_eq {n i handled : ℕ} {seen : List ℕ} (s : Intr) (ok : s.pic.Ok)
    (hn : i + n ≤ s.pic.cnt) (hirq : ∀ j q h, s.pic.reg j = some (q, h) → q < legacyIrqs)
    (hgsi : ∀ q, s.irqGsi q < 256) (had : Adapters (seen.map s.irqGsi) s.ioapic)
    (hbits : Bits handled seen) (hnodup : seen.Nodup)
    (hseen : ∀ q, q ∈ seen ↔ ∃ j < i, ∃ h, s.pic.reg j = some (q, h))
    (hroom : ∀ l : List ℕ, l.Nodup → (∀ q ∈ l, ∃ j h, s.pic.reg j = some (q, h)) →
      l.length ≤ s.ioapic.cnt) :
    ∃ (seen' : List ℕ) (u : HandlerTable), adaptIrqs n i handled s = some ((), { s with ioapic := u }) ∧
      Adapters (seen'.map s.irqGsi) u ∧ seen'.Nodup ∧
      ∀ q, q ∈ seen' ↔ ∃ j < i + n, ∃ h, s.pic.reg j = some (q, h) := by
  induction n generalizing i handled seen s with
  | zero => exact ⟨seen, s.ioapic, rfl, had, hnodup, hseen⟩
  | succ n ih =>
    have hcnt := ok.cnt
    have hlt : i < s.pic.mem.length := by omega
    have hreg := reg_of_lt (t := s.pic) (i := i) (by omega) hlt
    rw [adaptIrqs, Comp.bind_of_eq (onPic_eq (handlerAt_eq ok hlt)), Nat.add_comm n,
      ← Nat.add_assoc]
    by_cases hnew : (s.pic.mem[i]).handler ≠ none ∧ handled.testBit (s.pic.mem[i]).irq = false
    · -- the first handler of its IRQ
      rw [if_pos hnew]
      obtain ⟨h, hh⟩ := Option.ne_none_iff_exists'.mp hnew.1
      rw [hh] at hreg
      set q := (s.pic.mem[i]).irq
      have hq : q < legacyIrqs := hirq i q h hreg
      have hout : q ∉ seen := by
        rw [← hbits q hq, hnew.2]
        simp
      have hnodup' : (seen ++ [q]).Nodup := by
        rw [List.nodup_append]
        exact ⟨hnodup, List.nodup_singleton q, by simpa using fun x hx => ne_of_mem_of_not_mem hx hout⟩
      have hseen' : ∀ q', q' ∈ seen ++ [q] ↔ ∃ j < i + 1, ∃ h, s.pic.reg j = some (q', h) := by
        intro q'
        rw [List.mem_append, List.mem_singleton, hseen]
        constructor
        · rintro (⟨j, hj, h', hj'⟩ | rfl)
          · exact ⟨j, by omega, h', hj'⟩
          · exact ⟨i, by omega, h, hreg⟩
        · rintro ⟨j, hj, h', hj'⟩
          by_cases hji : j = i
          · subst hji
            rw [hreg] at hj'
            exact .inr (Prod.mk.inj (Option.some.inj hj')).1.symm
          · exact .inl ⟨j, by omega, h', hj'⟩
      have hlen : (seen ++ [q]).length ≤ s.ioapic.cnt := by
        apply hroom _ hnodup'
        intro q' hq'
        obtain ⟨j, -, h', hj⟩ := (hseen' q').mp hq'
        exact ⟨j, h', hj⟩
      rw [List.length_append, List.length_singleton] at hlen
      obtain ⟨r, u, hrun, had', hcnt'⟩ := had.handle
        (had.room (by rw [List.length_map]; omega)) (hgsi q)
      have hset : ({ s with pic := s.pic } : Intr) = s := rfl
      rw [Comp.bind_of_eq (irqGsiAt_eq hq), ioapicHandle, hset, Comp.bind_of_eq (onIoapic_eq hrun)]
      rw [← List.map_singleton (f := s.irqGsi), ← List.map_append] at had'
      exact ih { s with ioapic := u } ok (by simpa using by omega) hirq hgsi had' hbits.add hnodup'
        hseen' (by rw [hcnt']; exact hroom)
    · rw [if_neg hnew]
      refine ih s ok (by omega) hirq hgsi had hbits hnodup (fun q' => ?_) hroom
      rw [hseen]
      constructor
      · rintro ⟨j, hj, h', hj'⟩
        exact ⟨j, by omega, h', hj'⟩
      · rintro ⟨j, hj, h', hj'⟩
        by_cases hji : j = i
        · -- the handler of entry `i` is not the first of its IRQ
          subst hji
          rw [hreg, Option.map_eq_some_iff] at hj'
          obtain ⟨h, hh, heq⟩ := hj'
          cases heq
          have hmem : (s.pic.mem[j]).irq ∈ seen := by
            rw [← hbits _ (hirq j _ h' (by rw [hreg, hh]; rfl))]
            by_contra hbit
            exact hnew ⟨by simp [hh], by simpa using hbit⟩
          exact (hseen _).mp hmem
        · exact ⟨j, by omega, h', hj'⟩

theorem PicRun.mono {ok ok' : Intr → Prop} (h : ∀ s, ok s → ok' s) (run : PicRun ok regs s) :
    PicRun ok' regs s := by
  induction run with
  | init hapic hinit => exact .init hapic hinit
  | handle _ hok hrun ih => exact .handle ih (h _ hok) hrun
  | failed _ hok hrun ih => exact .failed ih (h _ hok) hrun
  | unhandle _ hrun ih => exact .unhandle ih hrun

/-- The invariant of a run with the APIC: an adapter for each IRQ that had a handler before, and one for
each registration after. -/
structure ApicInv (before : ℕ → Option (ℕ × Handler)) (after : List ℕ)
    (regs : ℕ → Option (ℕ × Handler)) (s : Intr) : Prop where
  ok : s.pic.Ok
  reg : s.pic.reg = regs
  apic : s.apicEnabled = true
  irq : ∀ id q h, regs id = some (q, h) → q < legacyIrqs
  gsi : ∀ q, s.irqGsi q < 256
  old : ∀ id r, before id = some r → regs id = some r
  new : ∀ q ∈ after, ∃ id h, regs id = some (q, h)
  all : ∀ id q h, regs id = some (q, h) → (∃ id' h', before id' = some (q, h')) ∨ q ∈ after
  adapters : ∃ seen : List ℕ, seen.Nodup ∧ (∀ q, q ∈ seen ↔ ∃ id h, before id = some (q, h)) ∧
    Adapters (seen.map s.irqGsi ++ after.map s.irqGsi) s.ioapic

theorem adapters_calloc {t u : HandlerTable} {n : ℕ} (h : handlersCalloc n t = some (true, u)) :
    Adapters [] u ∧ u.cnt = n := by
  rw [handlersCalloc, Comp.read_bind, Comp.modify_bind] at h
  cases hheap : t.heap t.calls with
  | none =>
    rw [hheap] at h
    cases h
  | some p =>
    rw [hheap] at h
    cases h
    refine ⟨⟨⟨rfl, by simp⟩, by simp, fun i => ?_⟩, rfl⟩
    by_cases hi : i < n
    · rw [reg_of_lt hi (by simpa using hi), List.getElem_replicate]
      rfl
    · exact reg_of_le (not_lt.mp hi)

theorem ApicInv.init {maxGsis : ℕ} (inv : PicInv before s)
    (hirq : ∀ id q h, before id = some (q, h) → q < legacyIrqs) (hgsi : ∀ q, s.irqGsi q < 256)
    (hroom : ∀ seen : List ℕ, seen.Nodup → (∀ q ∈ seen, ∃ id h, before id = some (q, h)) →
      seen.length ≤ maxGsis)
    (h : apicInit maxGsis s = some (true, s')) : ApicInv before [] before s' := by
  obtain ⟨b, v, hcalloc, h⟩ := Comp.bind_eq_some.mp h
  cases b with
  | false => cases h
  | true =>
    rw [onIoapic, Option.map_eq_some_iff] at hcalloc
    obtain ⟨⟨b, u⟩, hu, heq⟩ := hcalloc
    cases heq
    obtain ⟨had, hcnt⟩ := adapters_calloc hu
    have hreg := inv.regs
    obtain ⟨seen, w, hrun, had', hnodup, hseen⟩ := @adaptIrqs_eq s.pic.cnt 0 0 []
      { s with ioapic := u } inv.ok (by simp) (by rw [hreg]; exact hirq)
      hgsi had (fun q _ => by simp) .nil (fun q => by simp) (by rw [hreg, hcnt]; exact hroom)
    rw [if_pos rfl, Comp.read_bind] at h
    dsimp only at h
    rw [Comp.bind_of_eq hrun] at h
    cases h
    refine ⟨inv.ok, hreg, rfl, hirq, hgsi, fun _ _ h => h, by simp, fun id q h hid => .inl ⟨id, h, hid⟩,
      seen, hnodup, fun q => ?_, by simpa using had'⟩
    rw [hseen, Nat.zero_add]
    change (∃ j < s.pic.cnt, ∃ h, s.pic.reg j = some (q, h)) ↔ _
    rw [hreg]
    constructor
    · rintro ⟨j, -, h, hj⟩
      exact ⟨j, h, hj⟩
    · rintro ⟨j, h, hj⟩
      refine ⟨j, ?_, h, hj⟩
      by_contra hle
      rw [← hreg, reg_of_le (not_lt.mp hle)] at hj
      cases hj

theorem ApicInv.handle {irq id : ℕ} {handler : Handler} (inv : ApicInv before after regs s)
    (hirq : irq < legacyIrqs) (hroom : s.pic.HasRoom) (hroom' : s.ioapic.HasRoom)
    (h : picHandle irq handler s = some (some id, s')) :
    ApicInv before (after ++ [irq]) (Function.update regs id (some (irq, handler))) s' := by
  obtain ⟨id', u, hrun, hok, -, hfree, -, hreg, -⟩ := tableHandle_room inv.ok hroom irq handler
  obtain ⟨seen, hnodup, hseen, had⟩ := inv.adapters
  obtain ⟨r, w, hrun', had', -⟩ := had.handle hroom' (inv.gsi irq)
  rw [picHandle, Comp.bind_of_eq (onPic_eq hrun)] at h
  dsimp only at h
  rw [Comp.read_bind, Comp.when_true (by exact inv.apic), Comp.bind_assoc,
    Comp.bind_of_eq (irqGsiAt_eq hirq), Comp.bind_assoc, ioapicHandle,
    Comp.bind_of_eq (onIoapic_eq (s := { s with pic := u }) hrun')] at h
  cases h
  rw [inv.reg] at hfree hreg
  have hupd : ∀ i r, Function.update regs id (some (irq, handler)) i = some r →
      r = (irq, handler) ∨ regs i = some r := by
    intro i r hi
    by_cases hid : i = id
    · rw [hid, Function.update_self] at hi
      exact .inl (Option.some.inj hi).symm
    · rw [Function.update_of_ne hid] at hi
      exact .inr hi
  have hkeep : ∀ i r, regs i = some r → Function.update regs id (some (irq, handler)) i = some r := by
    intro i r hi
    rw [Function.update_of_ne, hi]
    rintro rfl
    rw [hfree] at hi
    cases hi
  constructor
  · exact hok
  · exact hreg
  · exact inv.apic
  · intro i q h' hi
    rcases hupd i _ hi with heq | hi
    · cases heq
      exact hirq
    · exact inv.irq i q h' hi
  · exact inv.gsi
  · exact fun i r hi => hkeep i r (inv.old i r hi)
  · intro q hq
    rcases List.mem_append.mp hq with hq | hq
    · obtain ⟨i, h', hi⟩ := inv.new q hq
      exact ⟨i, h', hkeep i _ hi⟩
    · rw [List.mem_singleton.mp hq]
      exact ⟨id, handler, Function.update_self ..⟩
  · intro i q h' hi
    rcases hupd i _ hi with heq | hi
    · cases heq
      exact .inr (by simp)
    · rcases inv.all i q h' hi with hq | hq
      · exact .inl hq
      · exact .inr (by simp [hq])
  · refine ⟨seen, hnodup, hseen, ?_⟩
    rw [List.map_append, ← List.append_assoc]
    exact had'

theorem ApicRun.inv (run : ApicRun before after regs s) : ApicInv before after regs s := by
  induction run with
  | init run hirq hgsi hroom h =>
    exact ApicInv.init (run.mono fun _ => .inl).inv hirq hgsi hroom h
  | handle _ hirq hroom hroom' h ih => exact ih.handle hirq hroom hroom' h

/-- The call of a registration. -/
def callOf (regs : ℕ → Option (ℕ × Handler)) (i : ℕ) : Option IntrEvent :=
  (regs i).map fun r => .call r.2 r.1

theorem firstIrq_some {f : ℕ → ℕ} {n i q : ℕ} (h : firstIrq f g n i = some q) :
    f q = g ∧ ∀ j, i ≤ j → j < q → f j ≠ g := by
  induction n generalizing i with
  | zero => cases h
  | succ n ih =>
    rw [firstIrq] at h
    split_ifs at h with hi
    · cases h
      exact ⟨hi, fun j hj hj' => by omega⟩
    · obtain ⟨hq, hmin⟩ := ih h
      refine ⟨hq, fun j hj hj' => ?_⟩
      by_cases hji : j = i
      · exact hji ▸ hi
      · exact hmin j (by omega) hj'

theorem firstIrq_none {f : ℕ → ℕ} {n i : ℕ} (h : firstIrq f g n i = none) :
    ∀ j, i ≤ j → j < i + n → f j ≠ g := by
  induction n generalizing i with
  | zero => exact fun j hj hj' => by omega
  | succ n ih =>
    rw [firstIrq] at h
    split_ifs at h with hi
    intro j hj hj'
    by_cases hji : j = i
    · exact hji ▸ hi
    · exact ih h j (by omega) (by omega)

/-- The adapter calls what is registered for the first IRQ of its GSI. -/
theorem ApicInv.legacy (inv : ApicInv before after regs s) (g : ℕ) :
    ∃ (events : List IntrEvent) (ids : List ℕ), ioapicLegacyHandler g s = some (events, s) ∧
      ids.Nodup ∧ (∀ i, i ∈ ids ↔ ∃ q h, regs i = some (q, h) ∧ s.irqGsi q = g ∧
        ∀ j < q, s.irqGsi j ≠ g) ∧ events.map some = ids.map (callOf regs) := by
  rw [ioapicLegacyHandler, Comp.read_bind]
  cases hfirst : firstIrq s.irqGsi g legacyIrqs 0 with
  | none =>
    refine ⟨[], [], rfl, .nil, fun i => ?_, rfl⟩
    have hnone := firstIrq_none hfirst
    constructor
    · nofun
    · rintro ⟨q, h, hi, hq, -⟩
      have hlt := inv.irq i q h hi
      exact absurd hq (hnone q (by omega) (by omega))
  | some q =>
    obtain ⟨hq, hmin⟩ := firstIrq_some hfirst
    obtain ⟨l, hrun, ids, hnodup, hids, hl⟩ := tableCalls_once inv.ok q
    rw [inv.reg] at hids hl
    refine ⟨l.map fun h => .call h q, ids, ?_, hnodup, fun i => ?_, ?_⟩
    · dsimp only
      rw [Comp.read_bind, Comp.bind_of_eq (onPic_eq hrun)]
      rfl
    · rw [hids]
      constructor
      · rintro ⟨h, hi⟩
        exact ⟨q, h, hi, hq, fun j hj => hmin j (by omega) hj⟩
      · rintro ⟨q', h, hi, hq', hmin'⟩
        have hqq : q' = q := by
          rcases lt_trichotomy q' q with hlt | heq | hgt
          · exact absurd hq' (hmin q' (by omega) hlt)
          · exact heq
          · exact absurd hq (hmin' q hgt)
        subst hqq
        exact ⟨h, hi⟩
    · have hcall : ids.map (callOf regs) =
          (ids.map fun i => (regs i).map Prod.snd).map (Option.map fun h => .call h q) := by
        rw [List.map_map]
        apply List.map_congr_left
        intro i hi
        obtain ⟨h, hreg⟩ := (hids i).mp hi
        simp [callOf, hreg]
      rw [hcall, ← hl, List.map_map, List.map_map]
      rfl

theorem ioapicCalls_replicate {events : List IntrEvent} (h : ioapicLegacyHandler g s = some (events, s))
    (k : ℕ) : ioapicCalls g (List.replicate k .legacy) s =
      some ((List.replicate k events).flatten, s) := by
  induction k with
  | zero => rfl
  | succ k ih =>
    rw [List.replicate_succ, ioapicCalls, Comp.bind_of_eq h, Comp.bind_of_eq ih,
      List.replicate_succ, List.flatten_cons]
    rfl

/-- An interrupt of GSI `g` goes through every adapter of `g`. -/
theorem ioapicHandler_eq (hg : g < 256) {seen : List ℕ}
    (had : Adapters (seen.map s.irqGsi ++ after.map s.irqGsi) s.ioapic) {events : List IntrEvent}
    (h : ioapicLegacyHandler g s = some (events, s)) :
    ioapicHandler ((ioapicHandlerVectBase + g) % 256) s =
      some ((List.replicate (seen.countP (fun q => s.irqGsi q = g) +
        after.countP fun q => s.irqGsi q = g) events).flatten ++ [.apicEoi], s) := by
  have hvect : ((ioapicHandlerVectBase + g) % 256 + 256 - ioapicHandlerVectBase) % 256 = g := by
    simp only [ioapicHandlerVectBase]
    omega
  have hcount : (seen.map s.irqGsi ++ after.map s.irqGsi).count g =
      seen.countP (fun q => s.irqGsi q = g) + after.countP fun q => s.irqGsi q = g := by
    rw [List.count_append, List.count_eq_countP, List.count_eq_countP, List.countP_map,
      List.countP_map]
    rfl
  rw [ioapicHandler, hvect, Comp.read_bind, Comp.bind_of_eq (onIoapic_eq (had.calls g)), hcount]
  change (ioapicCalls g _ >>= _) s = _
  rw [Comp.bind_of_eq (ioapicCalls_replicate h _)]
  rfl

/-- One adapter is there where what stands for `g` was registered on one side of `apic_init` only. -/
theorem ApicInv.adapter_count (inv : ApicInv before after regs s) {seen : List ℕ}
    (hnodup : seen.Nodup) (hseen : ∀ q, q ∈ seen ↔ ∃ id h, before id = some (q, h)) {id q : ℕ}
    {h : Handler} (hid : regs id = some (q, h)) (hq : s.irqGsi q = g)
    (hfirst : ∀ id q h, regs id = some (q, h) → s.irqGsi q = g → ∀ j < q, s.irqGsi j ≠ g) :
    seen.countP (fun q => s.irqGsi q = g) + after.countP (fun q => s.irqGsi q = g) = 1 ↔
      (∀ q ∈ after, s.irqGsi q ≠ g) ∨ (∀ id q h, before id = some (q, h) → s.irqGsi q ≠ g) ∧
        after.countP (fun q => s.irqGsi q = g) = 1 := by
  have hafter : after.countP (fun q => s.irqGsi q = g) = 0 ↔ ∀ q ∈ after, s.irqGsi q ≠ g := by
    simp [List.countP_eq_zero]
  have hbefore : seen.countP (fun q => s.irqGsi q = g) = 0 ↔
      ∀ id q h, before id = some (q, h) → s.irqGsi q ≠ g := by
    rw [List.countP_eq_zero]
    constructor
    · intro hall i q' h' hi
      simpa using hall q' ((hseen q').mpr ⟨i, h', hi⟩)
    · intro hall q' hq'
      obtain ⟨i, h', hi⟩ := (hseen q').mp hq'
      simpa using hall i q' h' hi
  -- all IRQs of `g` with handlers are the first one, so it is seen at most once
  have hsame : ∀ q' ∈ seen, s.irqGsi q' = g → q' = q := by
    intro q' hq' hg'
    obtain ⟨i, h', hi⟩ := (hseen q').mp hq'
    have hmin := hfirst i q' h' (inv.old i _ hi) hg'
    have hmin' := hfirst id q h hid hq
    rcases lt_trichotomy q' q with hlt | heq | hgt
    · exact absurd hg' (hmin' q' hlt)
    · exact heq
    · exact absurd hq (hmin q hgt)
  have hle : seen.countP (fun q => s.irqGsi q = g) ≤ 1 := by
    calc seen.countP (fun q => s.irqGsi q = g) ≤ seen.count q := by
          apply List.countP_mono_left
          intro q' hq' hg'
          simpa using hsame q' hq' (by simpa using hg')
      _ ≤ 1 := List.nodup_iff_count_le_one.mp hnodup q
  rcases inv.all id q h hid with hq' | hq'
  · have hpos : 0 < seen.countP fun q => s.irqGsi q = g :=
      List.countP_pos_iff.mpr ⟨q, (hseen q).mpr hq', by simpa using hq⟩
    rw [← hafter, ← hbefore]
    omega
  · have hpos : 0 < after.countP fun q => s.irqGsi q = g :=
      List.countP_pos_iff.mpr ⟨q, hq', by simpa using hq⟩
    rw [← hafter, ← hbefore]
    omega

theorem callOf_eq_some {i : ℕ} {q : ℕ} {h : Handler} (hi : regs i = some (q, h)) :
    callOf regs i = some (.call h q) := by
  rw [callOf, hi]
  rfl

theorem ApicInv.delivers_iff (inv : ApicInv before after regs s) (hg : g < 256) :
    Delivers regs g s ↔ Routable before after regs s.irqGsi g := by
  obtain ⟨seen, hnodup, hseen, had⟩ := inv.adapters
  obtain ⟨events, first, hlegacy, hfnodup, hfirst, hevents⟩ := inv.legacy g
  have hrun := ioapicHandler_eq hg had hlegacy
  have hcount (id q : ℕ) (h : Handler) (hid : regs id = some (q, h)) (hq : s.irqGsi q = g) :=
    inv.adapter_count hnodup hseen hid hq
  set k := seen.countP (fun q => s.irqGsi q = g) + after.countP fun q => s.irqGsi q = g with hk
  constructor
  · rintro ⟨l, ids, hrun', hidsnodup, hids, hperm⟩
    rw [hrun] at hrun'
    have hl : (List.replicate k events).flatten = l :=
      List.append_cancel_right (Prod.mk.inj (Option.some.inj hrun')).1
    by_cases hlive : ∀ id q h, regs id = some (q, h) → s.irqGsi q ≠ g
    · exact .inl hlive
    · right
      push Not at hlive
      obtain ⟨id, q, h, hid, hq⟩ := hlive
      -- every call is for the first IRQ of the GSI
      have hall : ∀ id q h, regs id = some (q, h) → s.irqGsi q = g → ∀ j < q, s.irqGsi j ≠ g := by
        intro i q' h' hi hq'
        have hmem : some (IntrEvent.call h' q') ∈ ids.map (callOf regs) :=
          List.mem_map.mpr ⟨i, (hids i).mpr ⟨q', h', hi, hq'⟩, callOf_eq_some hi⟩
        obtain ⟨e, he, heq⟩ := List.mem_map.mp (hperm.mem_iff.mpr hmem)
        cases heq
        rw [← hl, List.mem_flatten] at he
        obtain ⟨m, hm, he⟩ := he
        rw [List.eq_of_mem_replicate hm] at he
        have hsome : some (IntrEvent.call h' q') ∈ first.map (callOf regs) := by
          rw [← hevents]
          exact List.mem_map_of_mem he
        obtain ⟨j, hj, heq⟩ := List.mem_map.mp hsome
        obtain ⟨q'', h'', hj', -, hmin⟩ := (hfirst j).mp hj
        rw [callOf_eq_some hj'] at heq
        cases heq
        exact hmin
      refine ⟨hall, (hcount id q h hid hq hall).mp ?_⟩
      have hsame : ids.Perm first := by
        rw [List.perm_ext_iff_of_nodup hidsnodup hfnodup]
        intro i
        rw [hids, hfirst]
        constructor
        · rintro ⟨q', h', hi, hq'⟩
          exact ⟨q', h', hi, hq', hall i q' h' hi hq'⟩
        · rintro ⟨q', h', hi, hq', -⟩
          exact ⟨q', h', hi, hq'⟩
      have hlen := hperm.length_eq
      have hlen' := congrArg List.length hevents
      rw [← hl, List.length_map, List.length_map, List.length_flatten, List.map_replicate,
        List.sum_replicate_nat, hsame.length_eq] at hlen
      rw [List.length_map, List.length_map] at hlen'
      rw [hlen'] at hlen
      have hpos : 0 < first.length := by
        rw [List.length_pos_iff_exists_mem]
        exact ⟨id, (hfirst id).mpr ⟨q, h, hid, hq, hall id q h hid hq⟩⟩
      exact Nat.eq_of_mul_eq_mul_right hpos (by rw [hlen, Nat.one_mul])
  · intro hroute
    let ids := (List.range s.pic.cnt).filter fun i =>
      match regs i with
      | none => false
      | some r => s.irqGsi r.1 = g
    have hids : ∀ i, i ∈ ids ↔ ∃ q h, regs i = some (q, h) ∧ s.irqGsi q = g := by
      intro i
      rw [List.mem_filter, List.mem_range]
      cases hi : regs i with
      | none => simp
      | some r =>
        obtain ⟨q, h⟩ := r
        have hlt : i < s.pic.cnt := by
          by_contra hle
          rw [← inv.reg, reg_of_le (not_lt.mp hle)] at hi
          cases hi
        simp [hlt]
    have hidsnodup : ids.Nodup := List.nodup_range.filter _
    refine ⟨_, ids, hrun, hidsnodup, hids, ?_⟩
    rcases hroute with hnone | ⟨hall, hone⟩
    · have hempty : ids = [] := by
        apply List.eq_nil_iff_forall_not_mem.mpr
        intro i hi
        obtain ⟨q, h, hi, hq⟩ := (hids i).mp hi
        exact hnone i q h hi hq
      have hfempty : first = [] := by
        apply List.eq_nil_iff_forall_not_mem.mpr
        intro i hi
        obtain ⟨q, h, hi, hq, -⟩ := (hfirst i).mp hi
        exact hnone i q h hi hq
      rw [hfempty] at hevents
      have hevents' : events = [] := List.map_eq_nil_iff.mp hevents
      rw [hevents', hempty]
      simp
    · have hsame : first.Perm ids := by
        rw [List.perm_ext_iff_of_nodup hfnodup hidsnodup]
        intro i
        rw [hids, hfirst]
        constructor
        · rintro ⟨q', h', hi, hq', -⟩
          exact ⟨q', h', hi, hq'⟩
        · rintro ⟨q', h', hi, hq'⟩
          exact ⟨q', h', hi, hq', hall i q' h' hi hq'⟩
      by_cases hlive : ∃ i, i ∈ ids
      · obtain ⟨i, hi⟩ := hlive
        obtain ⟨q, h, hi, hq⟩ := (hids i).mp hi
        rw [(hcount i q h hi hq hall).mpr hone]
        rw [List.replicate_one, List.flatten_singleton, hevents]
        exact hsame.map _
      · have hempty : ids = [] := List.eq_nil_iff_forall_not_mem.mpr (not_exists.mp hlive)
        rw [hempty, List.perm_nil] at hsame
        rw [hsame] at hevents
        have hevents' : events = [] := List.map_eq_nil_iff.mp hevents
        rw [hevents', hempty]
        simp

/-- After `apic_init`, with no handler registered. -/
def apicSample : Intr := Comp.after (apicInit 24) (picHandles 0)

theorem apicSample_run : ApicRun (fun _ => none) [] (fun _ => none) apicSample := by
  apply @ApicRun.init _ _ _ 24
  · exact .init (s := intrSample) rfl (Comp.run_after (by decide +kernel))
  · nofun
  · exact fun q => Nat.mod_lt q (by decide)
  · intro seen _ hseen
    cases seen with
    | nil => simp
    | cons q seen =>
      obtain ⟨id, h, hid⟩ := hseen q (by simp)
      cases hid
  · exact Comp.run_after (by decide +kernel)

end
end SysX
