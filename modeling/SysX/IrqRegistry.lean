import SysX.IrqTable

/-!
The registry of the legacy interrupts over any history of registrations, with the APIC disabled.
-/
namespace SysX

/-- An interrupt that is not spurious calls what is registered for it, each once, and returns. -/
def Dispatches (regs : ℕ → Option (ℕ × Handler)) (s : Intr) : Prop :=
  ∀ irq < legacyIrqs, ∀ isr, ¬ Spurious irq isr → ∃ l,
    picHandlerStub (picVectBase + irq) isr s =
      some (l.map (fun h => .call h irq) ++ picEoiInline irq, s) ∧ CallsOnce regs irq l

/-- A run of `pic_handle` and `pic_unhandle` after `pic_init`, with the registrations that stand.
Handlers are registered in states in `ok` only. -/
inductive PicRun (ok : Intr → Prop) : (ℕ → Option (ℕ × Handler)) → Intr → Prop
  | init {s t : Intr} (hapic : s.apicEnabled = false) (h : picInit s = some (true, t)) :
      PicRun ok (fun _ => none) t
  | handle {regs : ℕ → Option (ℕ × Handler)} {s t : Intr} {irq id : ℕ} {handler : Handler}
      (run : PicRun ok regs s) (hok : ok s) (h : picHandle irq handler s = some (some id, t)) :
      PicRun ok (Function.update regs id (some (irq, handler))) t
  | failed {regs : ℕ → Option (ℕ × Handler)} {s t : Intr} {irq : ℕ} {handler : Handler}
      (run : PicRun ok regs s) (hok : ok s) (h : picHandle irq handler s = some (none, t)) :
      PicRun ok regs t
  | unhandle {regs : ℕ → Option (ℕ × Handler)} {s t : Intr} {id : ℕ} (run : PicRun ok regs s)
      (h : picUnhandle id s = some ((), t)) : PicRun ok (Function.update regs id none) t

/-- The invariant: the table holds the registrations. -/
structure PicInv (regs : ℕ → Option (ℕ × Handler)) (s : Intr) : Prop where
  ok : s.pic.Ok
  regs : s.pic.reg = regs
  apic : s.apicEnabled = false

section

variable {s t : Intr} {regs : ℕ → Option (ℕ × Handler)}

theorem onPic_eq {α : Type} {c : TableOp α} {r : α} {u : HandlerTable} (h : c s.pic = some (r, u)) :
    onPic c s = some (r, { s with pic := u }) := by
  rw [onPic, h]
  rfl

theorem picHandle_eq (hapic : s.apicEnabled = false) (irq : ℕ) (handler : Handler) :
    picHandle irq handler s =
      (tableHandle irq handler s.pic).map fun p => (p.1, { s with pic := p.2 }) := by
  cases hrun : tableHandle irq handler s.pic with
  | none =>
    rw [picHandle, Comp.bind_apply, onPic, hrun]
    rfl
  | some p =>
    obtain ⟨r, u⟩ := p
    rw [picHandle, Comp.bind_of_eq (onPic_eq hrun)]
    cases r with
    | none => rfl
    | some id =>
      dsimp only
      rw [Comp.read_bind, Comp.when_false (by simp [hapic]), Comp.pure_bind_apply]
      rfl

theorem PicInv.init {b : Bool} (hapic : s.apicEnabled = false) (h : picInit s = some (b, t))
    (hb : b = true) : PicInv (fun _ => none) t := by
  subst hb
  rw [picInit, onPic, handlersCalloc, Comp.read_bind, Comp.modify_bind] at h
  cases hheap : s.pic.heap s.pic.calls with
  | none =>
    rw [hheap] at h
    cases h
  | some p =>
    rw [hheap] at h
    cases h
    refine ⟨⟨rfl, by simp⟩, ?_, hapic⟩
    funext i
    by_cases hi : i < 16
    · rw [reg_of_lt hi (by simpa using hi), List.getElem_replicate]
      rfl
    · exact reg_of_le (not_lt.mp hi)

theorem PicInv.handle (inv : PicInv regs s) (irq : ℕ) (handler : Handler) (hplace : s.pic.InPlace) :
    ∃ r t, picHandle irq handler s = some (r, t) ∧
      (∀ id, r = some id → regs id = none ∧
        PicInv (Function.update regs id (some (irq, handler))) t) ∧
      (r = none → PicInv regs t) := by
  obtain ⟨r, u, hrun, hok, hsome, hnone⟩ := tableHandle_total inv.ok irq handler hplace
  refine ⟨r, { s with pic := u }, ?_, ?_, ?_⟩
  · rw [picHandle_eq inv.apic, hrun]
    rfl
  · intro id hr
    obtain ⟨hfree, hreg⟩ := hsome id hr
    rw [inv.regs] at hfree hreg
    exact ⟨hfree, hok, hreg, inv.apic⟩
  · intro hr
    exact ⟨hok, (hnone hr).trans inv.regs, inv.apic⟩

theorem PicInv.unhandle (inv : PicInv regs s) (id : ℕ) :
    ∃ t, picUnhandle id s = some ((), t) ∧ PicInv (Function.update regs id none) t := by
  obtain ⟨u, hrun, hok, hreg⟩ := tableUnhandle_eq inv.ok id
  refine ⟨{ s with pic := u }, ?_, hok, ?_, inv.apic⟩
  · exact onPic_eq hrun
  · rw [← inv.regs]
    exact hreg

theorem PicInv.dispatches (inv : PicInv regs s) : Dispatches regs s := by
  intro irq hirq isr hspur
  obtain ⟨l, hrun, honce⟩ := tableCalls_once inv.ok irq
  have hvect : (picVectBase + irq + 256 - picVectBase) % 256 = irq := by
    simp only [picVectBase, legacyIrqs] at *
    omega
  refine ⟨l, ?_, inv.regs ▸ honce⟩
  rw [picHandlerStub, hvect, if_neg hspur, Comp.read_bind, Comp.bind_of_eq (onPic_eq hrun)]
  rfl

theorem PicRun.inv (run : PicRun (fun s => s.pic.InPlace) regs s) : PicInv regs s := by
  induction run with
  | init hapic h => exact PicInv.init hapic h rfl
  | @handle _ _ _ irq id handler _ hok h ih =>
    obtain ⟨r, t, hrun, hsome, -⟩ := ih.handle irq handler hok
    rw [h] at hrun
    cases hrun
    exact (hsome id rfl).2
  | @failed _ _ _ irq handler _ hok h ih =>
    obtain ⟨r, t, hrun, -, hnone⟩ := ih.handle irq handler hok
    rw [h] at hrun
    cases hrun
    exact hnone rfl
  | @unhandle _ _ _ id _ h ih =>
    obtain ⟨t, hrun, hinv⟩ := ih.unhandle id
    rw [h] at hrun
    cases hrun
    exact hinv

def handlerTableSample : HandlerTable where
  handlers := 0
  cnt := 0
  block := 0
  mem := []
  heap n := some (n + 1)
  junk _ _ := intrHandlerZero
  calls := 0

/-- A machine before `pic_init` whose allocator never returns the same block. -/
def intrSample : Intr where
  pic := handlerTableSample
  ioapic := handlerTableSample
  irqGsi irq := irq % 256
  apicEnabled := false

/-- After `n` registrations for IRQ 1. -/
def picHandles : ℕ → Intr
  | 0 => Comp.after picInit intrSample
  | n + 1 => Comp.after (picHandle 1 (.driver n)) (picHandles n)

theorem picHandles_run {n : ℕ} (hn : n ≤ 16) :
    ∃ regs, PicRun (fun _ => True) regs (picHandles n) := by
  induction n with
  | zero => exact ⟨_, .init rfl (Comp.run_after (by decide +kernel))⟩
  | succ n ih =>
    obtain ⟨regs, run⟩ := ih (by omega)
    have hret : ∀ n < 16, (picHandle 1 (.driver n) (picHandles n)).map Prod.fst = some (some n) := by
      decide +kernel
    exact ⟨_, .handle run trivial (Comp.run_after (hret n (by omega)))⟩

end
end SysX
