import SysX.Lib.Lock
import SysX.Machine
import SysX.Tar

/-!
The output calls of `hal/terminal.c`, made by any number of tasks and by the interrupt handlers that come in between: the mutex
`mutex_out` (`helpers/mutex.c`) and the interrupt state that `term_outguard_start` and `term_outguard_end` save and restore.
-/
namespace SysX

open Lock (applyAll)

/-- `term_hook_t`, as far as output goes. What a hook does is a list of changes of the state of the terminal. -/
structure TermHook (σ : Type) where
  putc : Option (UInt8 → List (σ → σ))
  puts : Option (Str → List (σ → σ))
  clear : Option (List (σ → σ))
  setXy : Option (Word → Word → List (σ → σ))
  outIrq : Bool

inductive TermCall where
  | putc (c : UInt8)
  | puts (s : Str)
  | clear
  | setXy (x y : Word)

section Calls

variable {σ : Type}

/-! What each call does between the two halves of the output guard, if it comes there. -/

def TermHook.termPutc (impl : TermHook σ) (c : UInt8) : Option (List (σ → σ)) := impl.putc.map fun putc => putc c

def TermHook.termPuts (impl : TermHook σ) (s : Str) : Option (List (σ → σ)) :=
  some (match impl.puts, impl.putc with
    | some puts, _ => puts s
    | none, some putc => s.flatMap putc
    | none, none => [])

def TermHook.termClear (impl : TermHook σ) : Option (List (σ → σ)) := impl.clear

def TermHook.termSetXy (impl : TermHook σ) (x y : Word) : Option (List (σ → σ)) := impl.setXy.map fun setXy => setXy x y

/-- With `term_impl` null nothing is done. -/
def TermCall.guarded (impl : Option (TermHook σ)) (call : TermCall) : Option (List (σ → σ)) :=
  impl.bind fun impl =>
    match call with
    | .putc c => TermHook.termPutc impl c
    | .puts s => TermHook.termPuts impl s
    | .clear => TermHook.termClear impl
    | .setXy x y => TermHook.termSetXy impl x y

/-- Where a task or a handler is in a call. -/
inductive GuardPhase (σ : Type) where
  | out
  /-- behind `intr_test()` -/
  | tested (irq : Bool) (call : TermCall)
  /-- in `mutex_acquire` -/
  | acquiring (irq : Bool) (call : TermCall)
  /-- The mutex is held. -/
  | inside (irq : Bool) (call : TermCall) (todo : List (σ → σ))
  /-- behind `mutex_release` -/
  | released (irq : Bool)

/-- What a task or a handler still has to call, and where it is in a call. -/
structure TermFrame (σ : Type) where
  calls : List TermCall
  phase : GuardPhase σ

/-- The interrupt flag of a task, and the task with the handlers above it, the one that runs first. -/
structure TermTask (σ : Type) where
  intr : Bool
  frames : List (TermFrame σ)

/-- `order` says who took the mutex for what: a frame is its task and its number from below. It is no part of the program. -/
structure TermSystem (ι σ : Type) where
  tasks : ι → TermTask σ
  mutexOut : Bool
  screen : σ
  order : List ((ι × ℕ) × TermCall)

/-- What a frame goes on with: the frame, the interrupt flag, the mutex, the terminal, and whether the mutex was taken for a call. -/
structure FrameResult (σ : Type) where
  frame : TermFrame σ
  intr : Bool
  mutexOut : Bool
  screen : σ
  took : Option TermCall := none

/-- `irq = intr_test(); intr_disable();`, unless `out_irq` is set. -/
def termOutguardStart (outIrq intr : Bool) (call : TermCall) : GuardPhase σ :=
  if outIrq then .acquiring false call else .tested intr call

/-- One try of `mutex_acquire`, which yields where the flag was set before. -/
def mutexAcquire (m irq : Bool) (call : TermCall) (todo : List (σ → σ)) : GuardPhase σ × Bool :=
  if m then (.acquiring irq call, true) else (.inside irq call todo, true)

/-- The next step of a frame that runs. -/
def frameStep (impl : Option (TermHook σ)) (intr mutexOut : Bool) (screen : σ) (fr : TermFrame σ) : Option (FrameResult σ) :=
  match fr.phase, fr.calls with
  | .out, [] => none
  | .out, call :: calls =>
    match impl, call.guarded impl with
    | some hook, some _ => some { frame := ⟨calls, termOutguardStart hook.outIrq intr call⟩, intr, mutexOut, screen }
    | _, _ => some { frame := ⟨calls, .out⟩, intr, mutexOut, screen }
  | .tested irq call, calls => some { frame := ⟨calls, .acquiring irq call⟩, intr := false, mutexOut, screen }
  | .acquiring irq call, calls =>
    let (phase, m) := mutexAcquire mutexOut irq call ((call.guarded impl).getD [])
    some { frame := ⟨calls, phase⟩, intr, mutexOut := m, screen, took := if mutexOut then none else some call }
  | .inside irq call (f :: todo), calls => some { frame := ⟨calls, .inside irq call todo⟩, intr, mutexOut, screen := f screen }
  | .inside irq _ [], calls => some { frame := ⟨calls, .released irq⟩, intr, mutexOut := false, screen }
  | .released irq, calls => some { frame := ⟨calls, .out⟩, intr := irq || intr, mutexOut, screen }

end Calls

namespace TermSystem

variable {ι σ : Type} [DecidableEq ι]

/-- A step of task `i`: of its frame that runs, the arrival of an interrupt, whose handler makes any calls, or the return of a
handler. -/
inductive Step (impl : Option (TermHook σ)) (i : ι) : TermSystem ι σ → TermSystem ι σ → Prop
  | run {s : TermSystem ι σ} {intr : Bool} {fr : TermFrame σ} {rest : List (TermFrame σ)} {r : FrameResult σ}
    (h : s.tasks i = ⟨intr, fr :: rest⟩) (hr : frameStep impl intr s.mutexOut s.screen fr = some r) :
    Step impl i s ⟨Function.update s.tasks i ⟨r.intr, r.frame :: rest⟩, r.mutexOut, r.screen,
      s.order ++ (r.took.map fun call => ((i, rest.length), call)).toList⟩
  | interrupt {s : TermSystem ι σ} {frames : List (TermFrame σ)} (h : s.tasks i = ⟨true, frames⟩) (calls : List TermCall) :
    Step impl i s { s with tasks := Function.update s.tasks i ⟨true, ⟨calls, .out⟩ :: frames⟩ }
  | iret {s : TermSystem ι σ} {intr : Bool} {fr : TermFrame σ} {rest : List (TermFrame σ)}
    (h : s.tasks i = ⟨intr, ⟨[], .out⟩ :: fr :: rest⟩) :
    Step impl i s { s with tasks := Function.update s.tasks i ⟨true, fr :: rest⟩ }

/-- The tasks in any order. -/
def Run (impl : Option (TermHook σ)) : TermSystem ι σ → TermSystem ι σ → Prop :=
  Relation.ReflTransGen fun s t => ∃ i, Step impl i s t

/-- Each task with its program, and nobody in a call. -/
def start (intr : ι → Bool) (program : ι → List TermCall) (screen : σ) : TermSystem ι σ :=
  ⟨fun i => ⟨intr i, [⟨program i, .out⟩]⟩, false, screen, []⟩

/-- The frame with number `n` from below. -/
def frameAt (s : TermSystem ι σ) (a : ι × ℕ) : Option (TermFrame σ) := (s.tasks a.1).frames.reverse[a.2]?

end TermSystem

/-! What a frame does to the mutex and to the terminal. -/

/-- What is left to do, in a frame that has the mutex. -/
def TermFrame.held {σ : Type} (fr : TermFrame σ) : Option (List (σ → σ)) :=
  match fr.phase with
  | .inside _ _ todo => some todo
  | _ => none

section Frame

variable {σ : Type} {impl : Option (TermHook σ)} {intr m : Bool} {screen : σ} {fr : TermFrame σ} {r : FrameResult σ}

inductive FrameEffect (impl : Option (TermHook σ)) (m : Bool) (screen : σ) (fr : TermFrame σ) (r : FrameResult σ) : Prop
  | outside (hfr : fr.held = none) (hr : r.frame.held = none) (hm : r.mutexOut = m) (hscreen : r.screen = screen)
    (htook : r.took = none)
  | acquire {irq : Bool} {call : TermCall} (hfr : fr.phase = .acquiring irq call) (hfree : m = false)
    (hr : r.frame = ⟨fr.calls, .inside irq call ((call.guarded impl).getD [])⟩) (hm : r.mutexOut = true)
    (hscreen : r.screen = screen) (htook : r.took = some call)
  | work {f : σ → σ} {todo : List (σ → σ)} (hfr : fr.held = some (f :: todo)) (hr : r.frame.held = some todo)
    (hm : r.mutexOut = m) (hscreen : r.screen = f screen) (htook : r.took = none)
  | release (hfr : fr.held = some []) (hr : r.frame.held = none) (hm : r.mutexOut = false) (hscreen : r.screen = screen)
    (htook : r.took = none)

theorem termOutguardStart_held (outIrq : Bool) (call : TermCall) (calls : List TermCall) :
    (⟨calls, termOutguardStart outIrq intr call⟩ : TermFrame σ).held = none := by
  cases outIrq with
  | false => rfl
  | true => rfl

theorem frameStep_effect (h : frameStep impl intr m screen fr = some r) : FrameEffect impl m screen fr r := by
  obtain ⟨calls, phase⟩ := fr
  cases phase with
  | out =>
    cases calls with
    | nil => cases h
    | cons call calls =>
      simp only [frameStep] at h
      split at h
      · obtain rfl := Option.some.inj h
        exact .outside rfl (termOutguardStart_held _ call calls) rfl rfl rfl
      · obtain rfl := Option.some.inj h
        exact .outside rfl rfl rfl rfl rfl
  | tested irq call =>
    obtain rfl := Option.some.inj h
    exact .outside rfl rfl rfl rfl rfl
  | acquiring irq call =>
    obtain rfl := Option.some.inj h
    cases m with
    | false => exact .acquire rfl rfl rfl rfl rfl rfl
    | true => exact .outside rfl rfl rfl rfl rfl
  | inside irq call todo =>
    cases todo with
    | nil =>
      obtain rfl := Option.some.inj h
      exact .release rfl rfl rfl rfl rfl
    | cons f todo =>
      obtain rfl := Option.some.inj h
      exact .work rfl rfl rfl rfl rfl
  | released irq =>
    obtain rfl := Option.some.inj h
    exact .outside rfl rfl rfl rfl rfl

end Frame

/-- A list seen from its end. -/
theorem getElem?_reverse_cons {β : Type} (x : β) (xs : List β) (n : ℕ) :
    (x :: xs).reverse[n]? = if n = xs.length then some x else xs.reverse[n]? := by
  rw [List.reverse_cons, List.getElem?_append, List.length_reverse]
  split_ifs with hlt heq heq
  · omega
  · rfl
  · rw [heq, Nat.sub_self]
    rfl
  · rw [List.getElem?_eq_none (show [x].length ≤ n - xs.length by rw [List.length_singleton]; omega),
      List.getElem?_eq_none (show xs.reverse.length ≤ n by rw [List.length_reverse]; omega)]

namespace TermSystem

section Frames

variable {ι σ : Type} {i : ι} {s : TermSystem ι σ} {intr : Bool} {fr : TermFrame σ} {rest : List (TermFrame σ)}

theorem frameAt_cons (h : s.tasks i = ⟨intr, fr :: rest⟩) (n : ℕ) :
    s.frameAt (i, n) = if n = rest.length then some fr else rest.reverse[n]? := by
  rw [frameAt, h]
  exact getElem?_reverse_cons fr rest n

theorem frameAt_top (h : s.tasks i = ⟨intr, fr :: rest⟩) : s.frameAt (i, rest.length) = some fr := by
  rw [frameAt_cons h, if_pos rfl]

end Frames

variable {ι σ : Type} [DecidableEq ι] {impl : Option (TermHook σ)} {i : ι} {s t : TermSystem ι σ} {intr intr' : Bool}
  {fr fr' : TermFrame σ} {rest : List (TermFrame σ)}

/-- The frames after a change of one. -/
def FrameSet (x : ι × ℕ) (new : Option (TermFrame σ)) (s t : TermSystem ι σ) : Prop :=
  ∀ y, t.frameAt y = if y = x then new else s.frameAt y

/-- Frames of one task that differ in one place. -/
theorem FrameSet.of_task {frames : List (TermFrame σ)} {n : ℕ} {new : Option (TermFrame σ)}
    (ht : t.tasks = Function.update s.tasks i ⟨intr', frames⟩)
    (h : ∀ m, frames.reverse[m]? = if m = n then new else (s.tasks i).frames.reverse[m]?) : FrameSet (i, n) new s t := by
  rintro ⟨j, m⟩
  unfold frameAt
  rw [ht]
  by_cases hj : j = i
  · subst hj
    rw [Function.update_self, h m]
    simp only [Prod.mk.injEq, true_and]
  · rw [Function.update_of_ne hj, if_neg fun heq => hj (Prod.mk.inj heq).1]

theorem FrameSet.top (h : s.tasks i = ⟨intr, fr :: rest⟩)
    (ht : t.tasks = Function.update s.tasks i ⟨intr', fr' :: rest⟩) : FrameSet (i, rest.length) (some fr') s t := by
  refine .of_task ht fun m => ?_
  rw [h, getElem?_reverse_cons, getElem?_reverse_cons]
  split_ifs <;> rfl

theorem FrameSet.push {frames : List (TermFrame σ)} (h : s.tasks i = ⟨intr, frames⟩)
    (ht : t.tasks = Function.update s.tasks i ⟨intr', fr :: frames⟩) : FrameSet (i, frames.length) (some fr) s t := by
  refine .of_task ht fun m => ?_
  rw [h, getElem?_reverse_cons]

theorem FrameSet.pop (h : s.tasks i = ⟨intr, fr :: rest⟩)
    (ht : t.tasks = Function.update s.tasks i ⟨intr', rest⟩) : FrameSet (i, rest.length) none s t := by
  refine .of_task ht fun m => ?_
  rw [h, getElem?_reverse_cons]
  split_ifs with hm
  · rw [hm]
    exact List.getElem?_eq_none (by rw [List.length_reverse])
  · rfl

/-! The steps of the frames are steps of agents that share a lock. -/

/-- The state of the lock behind the state of the terminal. -/
structure Simulates (impl : Option (TermHook σ)) (s : TermSystem ι σ) (a : Lock.State (ι × ℕ) (List (σ → σ)) σ) : Prop where
  screen : a.data = s.screen
  mutex : s.mutexOut = a.holder.isSome
  holder : ∀ x todo, a.holder = some (x, todo) ↔ (s.frameAt x).bind TermFrame.held = some todo
  order : a.log = s.order.map fun e => (e.1, (e.2.guarded impl).getD [])

omit [DecidableEq ι] in
theorem Simulates.start (intr : ι → Bool) (program : ι → List TermCall) (screen : σ) :
    Simulates impl (start intr program screen) ⟨none, screen, []⟩ := by
  refine ⟨rfl, rfl, fun x todo => iff_of_false (by simp) ?_, rfl⟩
  obtain ⟨i, n⟩ := x
  rw [frameAt_cons (s := TermSystem.start intr program screen) rfl]
  split_ifs with hn
  · simp [TermFrame.held]
  · simp

variable {a : Lock.State (ι × ℕ) (List (σ → σ)) σ}

/-- A frame that has nothing to do with the mutex changes. -/
theorem Simulates.outside (h : Simulates impl s a) {x : ι × ℕ} {new : Option (TermFrame σ)} (hset : FrameSet x new s t)
    (hold : (s.frameAt x).bind TermFrame.held = none) (hnew : new.bind TermFrame.held = none)
    (hm : t.mutexOut = s.mutexOut) (hscreen : t.screen = s.screen) (horder : t.order = s.order) : Simulates impl t a := by
  refine ⟨h.screen.trans hscreen.symm, hm.trans h.mutex, fun y todo => (h.holder y todo).trans ?_, by rw [h.order, horder]⟩
  rw [hset y]
  split_ifs with hy
  · rw [hy, hold, hnew]
  · rfl

theorem Simulates.step (h : Simulates impl s a) (hst : Step impl i s t) :
    ∃ b, Lock.Step Lock.changes a b ∧ Simulates impl t b := by
  cases hst with
  | @run intr fr rest r htask hr =>
    set x : ι × ℕ := (i, rest.length) with hx
    have hold : (s.frameAt x).bind TermFrame.held = fr.held := by rw [hx, frameAt_top htask]; rfl
    have hset := FrameSet.top (t := ⟨Function.update s.tasks i ⟨r.intr, r.frame :: rest⟩, r.mutexOut, r.screen,
      s.order ++ (r.took.map fun call => (x, call)).toList⟩) htask rfl
    cases frameStep_effect hr with
    | outside hfr hr' hm hscreen htook =>
      refine ⟨a, .wait a, h.outside hset (hold.trans hfr) hr' hm hscreen ?_⟩
      rw [htook]
      exact List.append_nil _
    | @acquire irq call hfr hfree hr' hm hscreen htook =>
      have hnone : a.holder = none := by
        rw [← Option.not_isSome_iff_eq_none, ← h.mutex, hfree]
        exact Bool.false_ne_true
      refine ⟨_, .acquire x ((call.guarded impl).getD []) hnone, h.screen.trans hscreen.symm, hm, fun y todo => ?_, ?_⟩
      · rw [hset y]
        by_cases hy : y = x
        · subst hy
          rw [if_pos rfl, hr']
          simp [TermFrame.held]
        · have hno : ¬ a.holder = some (y, todo) := by rw [hnone]; exact (Option.some_ne_none _).symm
          rw [if_neg hy, ← h.holder y todo]
          exact iff_of_false (fun heq => hy (Prod.mk.inj (Option.some.inj heq)).1.symm) hno
      · rw [htook, h.order]
        simp
    | @work f todo hfr hr' hm hscreen htook =>
      have hheld : a.holder = some (x, f :: todo) := (h.holder x _).mpr (hold.trans hfr)
      refine ⟨_, .work hheld rfl, ?_, ?_, fun y todo' => ?_, ?_⟩
      · show f a.data = r.screen
        rw [hscreen, h.screen]
      · show r.mutexOut = true
        rw [hm, h.mutex, hheld]
        rfl
      · rw [hset y]
        by_cases hy : y = x
        · subst hy
          rw [if_pos rfl, Option.bind_some, hr']
          simp
        · have hno : ¬ a.holder = some (y, todo') := by
            rw [hheld]
            exact fun heq => hy (Prod.mk.inj (Option.some.inj heq)).1.symm
          rw [if_neg hy, ← h.holder y todo']
          exact iff_of_false (fun heq => hy (Prod.mk.inj (Option.some.inj heq)).1.symm) hno
      · rw [htook, h.order]
        simp
    | release hfr hr' hm hscreen htook =>
      have hheld : a.holder = some (x, []) := (h.holder x _).mpr (hold.trans hfr)
      refine ⟨_, .release hheld rfl, h.screen.trans hscreen.symm, hm, fun y todo' => ?_, ?_⟩
      · rw [hset y]
        refine iff_of_false (Option.some_ne_none _).symm ?_
        by_cases hy : y = x
        · rw [if_pos hy, Option.bind_some, hr']
          exact (Option.some_ne_none _).symm
        · rw [if_neg hy, ← h.holder y todo', hheld]
          exact fun heq => hy (Prod.mk.inj (Option.some.inj heq)).1.symm
      · rw [htook, h.order]
        simp
  | @interrupt frames htask calls =>
    have hset := FrameSet.push (t := { s with tasks := Function.update s.tasks i ⟨true, ⟨calls, .out⟩ :: frames⟩ }) htask rfl
    refine ⟨a, .wait a, h.outside hset ?_ rfl rfl rfl rfl⟩
    rw [frameAt, htask, List.getElem?_eq_none (by rw [List.length_reverse])]
    rfl
  | @iret intr fr rest htask =>
    have hset := FrameSet.pop (t := { s with tasks := Function.update s.tasks i ⟨true, fr :: rest⟩ }) htask rfl
    refine ⟨a, .wait a, h.outside hset ?_ rfl rfl rfl rfl⟩
    rw [frameAt_top htask]
    rfl

/-- The state of the lock behind every state that is reached. -/
theorem run_simulates {program : ι → List TermCall} {intr : ι → Bool} {screen : σ}
    (h : Run impl (start intr program screen) s) :
    ∃ a : Lock.State (ι × ℕ) (List (σ → σ)) σ, Lock.Consistent Lock.changes screen a ∧ Simulates impl s a := by
  induction h with
  | refl => exact ⟨_, .start _ _, .start intr program screen⟩
  | tail _ hlast ih =>
    obtain ⟨i, hstep⟩ := hlast
    obtain ⟨a, hcons, hsim⟩ := ih
    obtain ⟨b, hb, hsim'⟩ := hsim.step hstep
    exact ⟨b, hcons.step hb, hsim'⟩

end TermSystem

/-! The interrupt flag. -/

section Interrupts

variable {σ : Type} {impl : Option (TermHook σ)} {b b₀ intr m : Bool} {screen : σ} {fr : TermFrame σ} {r : FrameResult σ}
  {frames rest : List (TermFrame σ)} {call : TermCall}

/-- `term_outguard_start` disables interrupts. -/
def masks (impl : Option (TermHook σ)) : Bool := impl.all fun hook => !hook.outIrq

/-- What `term_outguard_start` returns, and the interrupt flag behind it, in a frame that began with the flag `b`. -/
def Masked (impl : Option (TermHook σ)) (b intr irq : Bool) : Prop :=
  if masks impl then irq = b ∧ intr = false else irq = false ∧ intr = b

/-- The interrupt flag in a frame that began with `b`. -/
def FrameOk (impl : Option (TermHook σ)) (b intr : Bool) (fr : TermFrame σ) : Prop :=
  match fr.phase with
  | .out => intr = b
  | .tested irq call => masks impl = true ∧ irq = b ∧ intr = b ∧ (call.guarded impl).isSome
  | .acquiring irq call => Masked impl b intr irq ∧ (call.guarded impl).isSome
  | .inside irq call _ => Masked impl b intr irq ∧ (call.guarded impl).isSome
  | .released irq => Masked impl b intr irq

/-- A frame below another one was left with interrupts enabled, and goes on with them. -/
def TaskOk (impl : Option (TermHook σ)) (b₀ : Bool) : (intr : Bool) → List (TermFrame σ) → Prop
  | _, [] => True
  | intr, fr :: rest => FrameOk impl (if rest.isEmpty then b₀ else true) intr fr ∧ TaskOk impl b₀ true rest

theorem Masked.enable {irq : Bool} (h : Masked impl b intr irq) : (irq || intr) = b := by
  unfold Masked at h
  split_ifs at h
  · rw [h.1, h.2, Bool.or_false]
  · rw [h.1, h.2, Bool.false_or]

theorem frameStep_call (hook : TermHook σ) (calls : List TermCall) (h : (call.guarded (some hook)).isSome) :
    frameStep (some hook) intr m screen ⟨call :: calls, .out⟩ =
      some { frame := ⟨calls, termOutguardStart hook.outIrq intr call⟩, intr, mutexOut := m, screen } := by
  obtain ⟨todo, htodo⟩ := Option.isSome_iff_exists.mp h
  simp only [frameStep, htodo]

theorem frameStep_skip (calls : List TermCall) (h : call.guarded impl = none) :
    frameStep impl intr m screen ⟨call :: calls, .out⟩ = some { frame := ⟨calls, .out⟩, intr, mutexOut := m, screen } := by
  cases impl with
  | none => rfl
  | some hook => simp only [frameStep, h]

theorem frameStep_ok (h : FrameOk impl b intr fr) (hr : frameStep impl intr m screen fr = some r) :
    FrameOk impl b r.intr r.frame := by
  obtain ⟨calls, phase⟩ := fr
  cases phase with
  | out =>
    cases calls with
    | nil => cases hr
    | cons call calls =>
      cases hcall : call.guarded impl with
      | none =>
        rw [frameStep_skip calls hcall] at hr
        obtain rfl := Option.some.inj hr
        exact h
      | some todo =>
        cases impl with
        | none => cases hcall
        | some hook =>
          have hsome : (call.guarded (some hook)).isSome := by rw [hcall]; rfl
          rw [frameStep_call hook calls hsome] at hr
          obtain rfl := Option.some.inj hr
          have hintr : intr = b := h
          cases hirq : hook.outIrq with
          | false => exact ⟨by simp [masks, hirq], hintr, hintr, hsome⟩
          | true => exact ⟨by simp [Masked, masks, hirq, hintr], hsome⟩
  | tested irq call =>
    obtain rfl := Option.some.inj hr
    obtain ⟨hmasks, hirq, -, hcall⟩ := h
    exact ⟨by simp [Masked, hmasks, hirq], hcall⟩
  | acquiring irq call =>
    obtain rfl := Option.some.inj hr
    cases m with
    | false => exact h
    | true => exact h
  | inside irq call todo =>
    cases todo with
    | nil =>
      obtain rfl := Option.some.inj hr
      exact h.1
    | cons f todo =>
      obtain rfl := Option.some.inj hr
      exact h
  | released irq =>
    obtain rfl := Option.some.inj hr
    exact Masked.enable h

/-- No frame that was interrupted has the mutex, where `term_outguard_start` disables interrupts. -/
theorem FrameOk.held_eq_none (h : FrameOk impl b true fr) (hmasks : masks impl = true) : fr.held = none := by
  obtain ⟨calls, phase⟩ := fr
  cases phase with
  | inside irq call todo =>
    have hmasked := h.1
    rw [Masked, if_pos hmasks] at hmasked
    exact absurd hmasked.2 (by decide)
  | out => rfl
  | tested irq call => rfl
  | acquiring irq call => rfl
  | released irq => rfl

theorem TaskOk.mem (h : TaskOk impl b₀ true frames) (hfr : fr ∈ frames) : ∃ b, FrameOk impl b true fr := by
  induction frames with
  | nil => cases hfr
  | cons fr' rest ih =>
    rcases List.mem_cons.mp hfr with rfl | hfr
    · exact ⟨_, h.1⟩
    · exact ih h.2 hfr

/-- The frame that has the mutex is the one that runs. -/
theorem TaskOk.held_top (h : TaskOk impl b₀ intr frames) (hmasks : masks impl = true) {n : ℕ} {todo : List (σ → σ)}
    (hn : frames.reverse[n]? = some fr) (hheld : fr.held = some todo) : ∃ rest, frames = fr :: rest := by
  cases frames with
  | nil => cases hn
  | cons fr' rest =>
    rw [getElem?_reverse_cons] at hn
    split_ifs at hn with hlast
    · obtain rfl := Option.some.inj hn
      exact ⟨rest, rfl⟩
    · obtain ⟨b, hb⟩ := h.2.mem (List.mem_reverse.mp (List.mem_of_getElem? hn))
      rw [hb.held_eq_none hmasks] at hheld
      cases hheld

end Interrupts

namespace TermSystem

variable {ι σ : Type} [DecidableEq ι] {impl : Option (TermHook σ)} {i : ι} {s t : TermSystem ι σ} {intr : ι → Bool}
  {program : ι → List TermCall} {screen : σ}

/-- What holds of task `i`, whose program began with the interrupt flag `b₀`. -/
structure Guarded (impl : Option (TermHook σ)) (b₀ : Bool) (task : TermTask σ) : Prop where
  based : task.frames ≠ []
  ok : TaskOk impl b₀ task.intr task.frames

theorem Guarded.step (h : ∀ j, Guarded impl (intr j) (s.tasks j)) (hst : Step impl i s t) (j : ι) :
    Guarded impl (intr j) (t.tasks j) := by
  have hchange : ∀ task, t.tasks = Function.update s.tasks i task → Guarded impl (intr i) task →
      Guarded impl (intr j) (t.tasks j) := by
    intro task ht hok
    rw [ht]
    by_cases hj : j = i
    · subst hj
      rwa [Function.update_self]
    · rw [Function.update_of_ne hj]
      exact h j
  obtain ⟨hbased, hok⟩ := h i
  cases hst with
  | run htask hr =>
    rw [htask] at hok
    exact hchange _ rfl ⟨List.cons_ne_nil _ _, frameStep_ok hok.1 hr, hok.2⟩
  | interrupt htask calls =>
    rw [htask] at hbased hok
    refine hchange _ rfl ⟨List.cons_ne_nil _ _, ?_, hok⟩
    rw [if_neg (by rwa [List.isEmpty_iff])]
    rfl
  | iret htask =>
    rw [htask] at hok
    exact hchange _ rfl ⟨List.cons_ne_nil _ _, hok.2⟩

theorem run_guarded (h : Run impl (start intr program screen) s) (j : ι) : Guarded impl (intr j) (s.tasks j) := by
  induction h generalizing j with
  | refl => exact ⟨List.cons_ne_nil _ _, rfl, trivial⟩
  | tail _ hlast ih =>
    obtain ⟨i, hstep⟩ := hlast
    exact Guarded.step ih hstep j

/-! The calls of one task. -/

end TermSystem

/-- The calls that are still to take the mutex. -/
def TermFrame.pending {σ : Type} (fr : TermFrame σ) : List TermCall :=
  match fr.phase with
  | .tested _ call => call :: fr.calls
  | .acquiring _ call => call :: fr.calls
  | _ => fr.calls

/-- The calls that come to the terminal at all. -/
def printed {σ : Type} (impl : Option (TermHook σ)) (calls : List TermCall) : List TermCall :=
  calls.filter fun call => (call.guarded impl).isSome

theorem frameStep_pending {σ : Type} {impl : Option (TermHook σ)} {b intr m : Bool} {screen : σ} {fr : TermFrame σ}
    {r : FrameResult σ} (h : FrameOk impl b intr fr) (hr : frameStep impl intr m screen fr = some r) :
    r.took.toList ++ printed impl r.frame.pending = printed impl fr.pending := by
  obtain ⟨calls, phase⟩ := fr
  cases phase with
  | out =>
    cases calls with
    | nil => cases hr
    | cons call calls =>
      cases hcall : call.guarded impl with
      | none =>
        rw [frameStep_skip calls hcall] at hr
        obtain rfl := Option.some.inj hr
        simp [printed, TermFrame.pending, hcall]
      | some todo =>
        cases impl with
        | none => cases hcall
        | some hook =>
          rw [frameStep_call hook calls (by rw [hcall]; rfl)] at hr
          obtain rfl := Option.some.inj hr
          cases hook.outIrq with
          | false => rfl
          | true => rfl
  | tested irq call =>
    obtain rfl := Option.some.inj hr
    rfl
  | acquiring irq call =>
    obtain rfl := Option.some.inj hr
    have hcall : (call.guarded impl).isSome = true := h.2
    cases m with
    | false => exact (List.filter_cons_of_pos (p := fun call : TermCall => (call.guarded impl).isSome) hcall).symm
    | true => rfl
  | inside irq call todo =>
    cases todo with
    | nil =>
      obtain rfl := Option.some.inj hr
      rfl
    | cons f todo =>
      obtain rfl := Option.some.inj hr
      rfl
  | released irq =>
    obtain rfl := Option.some.inj hr
    rfl

namespace TermSystem

variable {ι σ : Type} [DecidableEq ι] {impl : Option (TermHook σ)} {i : ι} {s t : TermSystem ι σ} {intr : ι → Bool}
  {program : ι → List TermCall} {screen : σ}

/-- The calls of frame `x` that took the mutex, in their order. -/
def tookBy (s : TermSystem ι σ) (x : ι × ℕ) : List TermCall := (s.order.filter fun e => e.1 = x).map Prod.snd

/-- The program of task `i` is what it has called and what it has still to call. -/
def Progress (impl : Option (TermHook σ)) (program : List TermCall) (i : ι) (s : TermSystem ι σ) : Prop :=
  ∃ fr, s.frameAt (i, 0) = some fr ∧ s.tookBy (i, 0) ++ printed impl fr.pending = printed impl program

theorem tookBy_append (x : ι × ℕ) (took : Option TermCall) (y : ι × ℕ)
    (ht : t.order = s.order ++ (took.map fun call => (y, call)).toList) :
    t.tookBy x = s.tookBy x ++ (if y = x then took.toList else []) := by
  unfold tookBy
  rw [ht, List.filter_append, List.map_append]
  cases took with
  | none => simp
  | some call =>
    by_cases hyx : y = x
    · simp [hyx]
    · simp [hyx]

theorem Progress.step {j : ι} {calls : List TermCall} (h : Progress impl calls j s) (hg : ∀ j, Guarded impl (intr j) (s.tasks j))
    (hst : Step impl i s t) : Progress impl calls j t := by
  obtain ⟨fr₀, hfr₀, hcalls⟩ := h
  cases hst with
  | @run b fr rest r htask hr =>
    have hset := FrameSet.top (t := ⟨Function.update s.tasks i ⟨r.intr, r.frame :: rest⟩, r.mutexOut, r.screen,
      s.order ++ (r.took.map fun call => ((i, rest.length), call)).toList⟩) htask rfl
    have hok := (hg i).ok
    rw [htask] at hok
    unfold Progress
    rw [hset (j, 0), tookBy_append (j, 0) r.took (i, rest.length) rfl]
    by_cases hx : (i, rest.length) = (j, 0)
    · rw [if_pos hx.symm, if_pos hx]
      refine ⟨r.frame, rfl, ?_⟩
      rw [List.append_assoc, frameStep_pending hok.1 hr, ← hcalls]
      rw [← hx, frameAt_top htask] at hfr₀
      rw [Option.some.inj hfr₀]
    · rw [if_neg fun heq => hx heq.symm, if_neg hx, List.append_nil]
      exact ⟨fr₀, hfr₀, hcalls⟩
  | @interrupt frames htask calls' =>
    have hset := FrameSet.push (t := { s with tasks := Function.update s.tasks i ⟨true, ⟨calls', .out⟩ :: frames⟩ }) htask rfl
    refine ⟨fr₀, ?_, hcalls⟩
    rw [hset (j, 0), if_neg, hfr₀]
    intro hx
    have hlen : 0 < frames.length := by
      have hbased := (hg i).based
      rw [htask] at hbased
      exact List.length_pos_of_ne_nil hbased
    exact absurd (Prod.mk.inj hx).2 (by omega)
  | @iret b fr rest htask =>
    have hset := FrameSet.pop (t := { s with tasks := Function.update s.tasks i ⟨true, fr :: rest⟩ }) htask rfl
    refine ⟨fr₀, ?_, hcalls⟩
    rw [hset (j, 0), if_neg, hfr₀]
    exact fun hx => absurd (Prod.mk.inj hx).2 (by simp)

theorem run_progress (h : Run impl (start intr program screen) s) (j : ι) : Progress impl (program j) j s := by
  induction h with
  | refl => exact ⟨⟨program j, .out⟩, rfl, rfl⟩
  | tail hrun hlast ih =>
    obtain ⟨i, hstep⟩ := hlast
    exact ih.step (run_guarded hrun) hstep

/-- In every order of their steps, the terminal sees whole calls, one after the other, and those of each task once each and in their
order. -/
theorem term_output_serial (h : Run impl (start intr program screen) s) :
    (∃ todo, (s.mutexOut = false → todo = []) ∧
      applyAll todo s.screen = applyAll (s.order.flatMap fun e => (e.2.guarded impl).getD []) screen) ∧
    ∀ i, s.tookBy (i, 0) <+: printed impl (program i) ∧
      ((s.tasks i).frames = [⟨[], .out⟩] → s.tookBy (i, 0) = printed impl (program i)) := by
  refine ⟨?_, fun i => ?_⟩
  · obtain ⟨a, hcons, hsim⟩ := run_simulates h
    refine ⟨(a.holder.map Prod.snd).getD [], fun hfree => ?_, ?_⟩
    · rw [hsim.mutex, Option.isSome_eq_false_iff, Option.isNone_iff_eq_none] at hfree
      rw [hfree]
      rfl
    · rw [← hsim.screen, hcons.changes_data, hsim.order, List.map_map, List.flatMap]
      rfl
  · obtain ⟨fr, hfr, hcalls⟩ := run_progress h i
    refine ⟨⟨_, hcalls⟩, fun hdone => ?_⟩
    rw [frameAt, hdone] at hfr
    obtain rfl := Option.some.inj hfr
    simpa [TermFrame.pending, printed] using hcalls

/-- Outside of the calls, the interrupts of each task are as its program began. -/
theorem term_interrupts_restored (h : Run impl (start intr program screen) s) {calls : List TermCall}
    (hout : (s.tasks i).frames = [⟨calls, .out⟩]) : (s.tasks i).intr = intr i := by
  have hok := (run_guarded h i).ok
  rw [hout] at hok
  exact hok.1

/-! Whether the mutex can be released again. -/

theorem exists_run (impl : Option (TermHook σ)) {b : Bool} {fr : TermFrame σ} {rest : List (TermFrame σ)}
    {r : FrameResult σ} (htask : s.tasks i = ⟨b, fr :: rest⟩)
    (hr : frameStep impl b s.mutexOut s.screen fr = some r) :
    ∃ t, Step impl i s t ∧ t.tasks i = ⟨r.intr, r.frame :: rest⟩ ∧ t.mutexOut = r.mutexOut :=
  ⟨_, .run htask hr, Function.update_self i _ _, rfl⟩

theorem exists_interrupt (impl : Option (TermHook σ)) {frames : List (TermFrame σ)} (htask : s.tasks i = ⟨true, frames⟩)
    (calls : List TermCall) :
    ∃ t, Step impl i s t ∧ t.tasks i = ⟨true, ⟨calls, .out⟩ :: frames⟩ ∧ t.mutexOut = s.mutexOut :=
  ⟨_, .interrupt htask calls, Function.update_self i _ _, rfl⟩

/-- A frame that runs and has the mutex comes to release it. -/
theorem exists_release {b : Bool} {calls : List TermCall} {irq : Bool} {call : TermCall} {rest : List (TermFrame σ)}
    (todo : List (σ → σ)) (htask : s.tasks i = ⟨b, ⟨calls, .inside irq call todo⟩ :: rest⟩) :
    ∃ t, Relation.ReflTransGen (Step impl i) s t ∧ t.mutexOut = false := by
  induction todo generalizing s with
  | nil =>
    obtain ⟨t, hst, -, hm⟩ := exists_run impl htask rfl
    exact ⟨t, .single hst, hm⟩
  | cons f todo ih =>
    obtain ⟨t, hst, ht, -⟩ := exists_run impl htask rfl
    obtain ⟨u, htu, hu⟩ := ih ht
    exact ⟨u, .head hst htu, hu⟩

/-- A frame that has the mutex has been interrupted, by a handler that waits for the mutex. -/
structure Deadlocked (i : ι) (s : TermSystem ι σ) : Prop where
  mutex : s.mutexOut = true
  only : ∀ x fr, s.frameAt x = some fr → fr.held ≠ none → x = (i, 1)
  below : (s.frameAt (i, 1)).isSome
  waiting : ∃ fr irq call, s.frameAt (i, 2) = some fr ∧ fr.phase = .acquiring irq call

/-- Nobody gets out of it. -/
theorem Deadlocked.step {j : ι} (h : Deadlocked i s) (hst : Step impl j s t) : Deadlocked i t := by
  obtain ⟨fr₂, irq₂, call₂, hfr₂, hphase₂⟩ := h.waiting
  -- the frame that runs is not the one below the handler
  have hrun : ∀ {b : Bool} {fr : TermFrame σ} {rest : List (TermFrame σ)}, s.tasks j = ⟨b, fr :: rest⟩ →
      (j, rest.length) ≠ (i, 1) := by
    intro b fr rest htask hx
    obtain ⟨rfl, hlen⟩ := Prod.mk.inj hx
    rw [frameAt_cons htask, if_neg (by omega), List.getElem?_eq_none (by rw [List.length_reverse]; omega)] at hfr₂
    cases hfr₂
  have hkeep : ∀ {x : ι × ℕ} {new : Option (TermFrame σ)}, FrameSet x new s t → x ≠ (i, 1) → (x = (i, 2) → new = some fr₂) →
      (∀ fr, new = some fr → fr.held = none) → t.mutexOut = true → Deadlocked i t := by
    intro x new hset hx hx₂ hnew hm
    refine ⟨hm, fun y fr hy hheld => ?_, ?_, fr₂, irq₂, call₂, ?_, hphase₂⟩
    · rw [hset y] at hy
      split_ifs at hy
      · exact absurd (hnew fr hy) hheld
      · exact h.only y fr hy hheld
    · rw [hset, if_neg fun heq => hx heq.symm]
      exact h.below
    · rw [hset]
      split_ifs with heq
      · exact hx₂ heq.symm
      · exact hfr₂
  cases hst with
  | @run b fr rest r htask hr =>
    have hset := FrameSet.top (t := ⟨Function.update s.tasks j ⟨r.intr, r.frame :: rest⟩, r.mutexOut, r.screen,
      s.order ++ (r.took.map fun call => ((j, rest.length), call)).toList⟩) htask rfl
    have hheld : fr.held = none := by
      by_contra hno
      exact hrun htask (h.only _ fr (frameAt_top htask) hno)
    cases frameStep_effect hr with
    | outside _ hr' hm _ _ =>
      refine hkeep hset (hrun htask) (fun hx => ?_) (fun fr' hfr' => by rw [← Option.some.inj hfr']; exact hr') (hm.trans h.mutex)
      rw [← hx, frameAt_top htask] at hfr₂
      obtain rfl := Option.some.inj hfr₂
      obtain ⟨calls, phase⟩ := fr
      obtain rfl : phase = .acquiring irq₂ call₂ := hphase₂
      rw [h.mutex] at hr
      obtain rfl := Option.some.inj hr
      rfl
    | acquire _ hfree _ _ _ _ =>
      rw [h.mutex] at hfree
      cases hfree
    | work hfr _ _ _ _ =>
      rw [hheld] at hfr
      cases hfr
    | release hfr _ _ _ _ =>
      rw [hheld] at hfr
      cases hfr
  | @interrupt frames htask calls =>
    have hset := FrameSet.push (t := { s with tasks := Function.update s.tasks j ⟨true, ⟨calls, .out⟩ :: frames⟩ }) htask rfl
    have hnew : s.frameAt (j, frames.length) = none := by
      rw [frameAt, htask]
      exact List.getElem?_eq_none (by rw [List.length_reverse])
    refine hkeep hset (fun hx => ?_) (fun hx => ?_) (fun fr' hfr' => by rw [← Option.some.inj hfr']; rfl) h.mutex
    · have hbelow := h.below
      rw [← hx, hnew] at hbelow
      cases hbelow
    · rw [← hx, hnew] at hfr₂
      cases hfr₂
  | @iret b fr rest htask =>
    have hset := FrameSet.pop (t := { s with tasks := Function.update s.tasks j ⟨true, fr :: rest⟩ }) htask rfl
    refine hkeep hset (hrun htask) (fun hx => ?_) (fun fr' hfr' => by cases hfr') h.mutex
    rw [← hx, frameAt_top htask] at hfr₂
    obtain rfl := Option.some.inj hfr₂
    cases hphase₂

/-- An interrupt handler that prints is interrupted by another one. -/
theorem exists_deadlock (program : ι → List TermCall) (screen : σ) (hook : TermHook σ)
    (hirq : hook.outIrq = true) (hintr : intr i = true) :
    ∃ s, Run (some hook) (start intr program screen) s ∧ Deadlocked i s := by
  have hcall : ((TermCall.puts []).guarded (some hook)).isSome := rfl
  have hstart : (start intr program screen).tasks i = ⟨true, [⟨program i, .out⟩]⟩ := by rw [← hintr]; rfl
  obtain ⟨s₁, h₁, ht₁, hm₁⟩ := exists_interrupt (some hook) hstart [.puts []]
  obtain ⟨s₂, h₂, ht₂, hm₂⟩ := exists_run (some hook) ht₁ (frameStep_call hook [] hcall)
  rw [hirq] at ht₂
  have hfree : s₂.mutexOut = false := hm₂.trans hm₁
  obtain ⟨s₃, h₃, ht₃, hm₃⟩ := exists_run (some hook) ht₂ rfl
  rw [hfree] at ht₃
  obtain ⟨s₄, h₄, ht₄, hm₄⟩ := exists_interrupt (some hook) ht₃ [.puts []]
  obtain ⟨s₅, h₅, ht₅, hm₅⟩ := exists_run (some hook) ht₄ (frameStep_call hook [] hcall)
  rw [hirq] at ht₅
  have hrun : Run (some hook) (start intr program screen) s₅ :=
    .tail (.tail (.tail (.tail (.tail .refl ⟨i, h₁⟩) ⟨i, h₂⟩) ⟨i, h₃⟩) ⟨i, h₄⟩) ⟨i, h₅⟩
  have htrue : s₅.mutexOut = true := by
    rw [hm₅, hm₄, hm₃, hfree]
    rfl
  have hbelow : (s₅.frameAt (i, 1)).bind TermFrame.held ≠ none := by
    rw [frameAt_cons ht₅]
    exact Option.some_ne_none _
  refine ⟨s₅, hrun, htrue, fun x fr hx hheld => ?_, ?_, _, _, _, frameAt_top ht₅, rfl⟩
  · obtain ⟨a, -, hsim⟩ := run_simulates hrun
    obtain ⟨todo₁, htodo₁⟩ := Option.ne_none_iff_exists'.mp hbelow
    obtain ⟨todo, htodo⟩ := Option.ne_none_iff_exists'.mp hheld
    have h₁ := (hsim.holder _ _).mpr htodo₁
    have hx := (hsim.holder x todo).mpr (by rw [hx]; exact htodo)
    exact (Prod.mk.inj (Option.some.inj (hx.symm.trans h₁))).1
  · rw [frameAt_cons ht₅]
    rfl

/-- Whoever has the mutex can release it by itself exactly where calls disable interrupts. -/
theorem term_mutex_released_iff (hook : TermHook σ) (hintr : intr i = true) :
    (∀ s, Run (some hook) (start intr program screen) s →
      ∃ j t, Relation.ReflTransGen (Step (some hook) j) s t ∧ t.mutexOut = false) ↔ hook.outIrq = false := by
  constructor
  · intro h
    by_contra hirq
    obtain ⟨s, hrun, hdead⟩ := exists_deadlock program screen hook (by simpa using hirq) hintr
    obtain ⟨j, t, hst, hfree⟩ := h s hrun
    have ht : Deadlocked i t := by
      clear hfree
      induction hst with
      | refl => exact hdead
      | tail _ hlast ih => exact ih.step hlast
    rw [ht.mutex] at hfree
    cases hfree
  · intro hirq s hrun
    by_cases hfree : s.mutexOut = false
    · exact ⟨i, s, .refl, hfree⟩
    · obtain ⟨a, -, hsim⟩ := run_simulates hrun
      have hheld : a.holder.isSome = true := by
        rw [← hsim.mutex]
        simpa using hfree
      obtain ⟨⟨⟨j, n⟩, todo⟩, hholder⟩ := Option.isSome_iff_exists.mp hheld
      obtain ⟨fr, hfr, htodo⟩ := Option.bind_eq_some_iff.mp ((hsim.holder _ _).mp hholder)
      obtain ⟨rest, hframes⟩ := (run_guarded hrun j).ok.held_top (by simp [masks, hirq]) hfr htodo
      obtain ⟨calls, phase⟩ := fr
      cases phase with
      | inside irq call todo' =>
        exact ⟨j, exists_release (b := (s.tasks j).intr) todo' (by rw [← hframes])⟩
      | out => cases htodo
      | tested irq call => cases htodo
      | acquiring irq call => cases htodo
      | released irq => cases htodo

/-! A run of two tasks. -/

/-- Task `i` goes on, where it can. -/
def advance (impl : Option (TermHook σ)) (s : TermSystem ι σ) (i : ι) : TermSystem ι σ :=
  match (s.tasks i).frames with
  | [] => s
  | fr :: rest =>
    match frameStep impl (s.tasks i).intr s.mutexOut s.screen fr with
    | none => s
    | some r => ⟨Function.update s.tasks i ⟨r.intr, r.frame :: rest⟩, r.mutexOut, r.screen,
        s.order ++ (r.took.map fun call => ((i, rest.length), call)).toList⟩

theorem advance_run (s : TermSystem ι σ) (is : List ι) : Run impl s (is.foldl (advance impl) s) := by
  induction is generalizing s with
  | nil => exact .refl
  | cons i is ih =>
    refine .trans ?_ (ih (advance impl s i))
    unfold advance
    split
    · exact .refl
    · rename_i fr rest hframes
      split
      · exact .refl
      · rename_i r hr
        exact .single ⟨i, .run (by rw [← hframes]) hr⟩

end TermSystem

/-- A terminal without `puts`, whose state is what it shows. -/
def termSampleHook : TermHook Str := ⟨some fun c => [fun shown => shown ++ [c]], none, none, none, false⟩

def termSampleProgram (i : Bool) : List TermCall := if i then [.puts [97, 98]] else [.putc 99]

/-- The second task waits while the first one is in its call. -/
def termSampleEnd : TermSystem Bool Str :=
  [true, true, true, false, false, true, false, true, false, true, true, false, false, false, false].foldl
    (TermSystem.advance (some termSampleHook)) (.start (fun _ => true) termSampleProgram [])

theorem termSample_run : TermSystem.Run (some termSampleHook) (.start (fun _ => true) termSampleProgram []) termSampleEnd :=
  TermSystem.advance_run _ _

theorem TermSystem.term_output_serial_sample : termSampleEnd.screen = [97, 98, 99] ∧
    termSampleEnd.tookBy (true, 0) = printed (some termSampleHook) (termSampleProgram true) :=
  ⟨by decide, ((term_output_serial termSample_run).2 true).2 rfl⟩

theorem TermSystem.term_interrupts_restored_sample : (termSampleEnd.tasks false).intr = true :=
  term_interrupts_restored termSample_run rfl

/-- The first task is in its call, and the second one waits. -/
def termSampleHeld : TermSystem Bool Str :=
  [true, true, true, false, false].foldl (TermSystem.advance (some termSampleHook)) (.start (fun _ => true) termSampleProgram [])

theorem TermSystem.term_mutex_released_sample : termSampleHeld.mutexOut = true ∧
    ∃ j t, Relation.ReflTransGen (Step (some termSampleHook) j) termSampleHeld t ∧ t.mutexOut = false :=
  ⟨by decide, (term_mutex_released_iff (i := true) termSampleHook rfl).mpr rfl termSampleHeld (advance_run _ _)⟩

end SysX
