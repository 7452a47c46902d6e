import Koro.Fiber
import Koro.Machine.Basic
import Mathlib.Logic.Function.Basic

/-!
This module contains how the fibers of one thread hand control to each other: `resume`, `hold`,
`yield`, `setSchedulerFiber` and the end of `mainFunc`, each with its `swapcontext`.

Fiber 0 is the one that `runningFiber` creates for the thread, the others are all there from the start.
`exec` is the fiber on whose stack the thread executes, and `running` is the local `running_fiber` of
`mainFunc` on the stack of a fiber. `control` is where the last `swapcontext` has gone on, `resumer` the
fiber that has last resumed a fiber with the point right after this `resume`, and `pending` says that a
context has been saved and not been switched to since; `overwritten` becomes true when such a context is
saved again.
-/

namespace Koro
namespace Switch

open Function (update)

-- `created` is the point of `getcontext` in the default constructor, `after k` follows the `k`-th
-- `swapcontext` of the thread
inductive Point where
  | entry
  | created
  | after (k : Nat)
  deriving DecidableEq, Repr

structure Context where
  stack : FiberId
  point : Point
  deriving DecidableEq, Repr

structure Thread where
  fiber : FiberId → Fiber
  runInScheduler : FiberId → Bool
  ctx : FiberId → Context
  tFiber : FiberId
  tSchedulerFiber : FiberId
  tThreadFiber : FiberId
  exec : FiberId
  running : FiberId → Option FiberId
  switches : Nat
  control : Context
  resumer : FiberId → Option Context
  pending : FiberId → Bool
  overwritten : Bool

namespace Thread

-- The thread has called `runningFiber`
def start (runInScheduler : FiberId → Bool) (cb : FiberId → Option CallbackId) : Thread where
  fiber := update (fun f => Fiber.new (cb f)) 0 { Fiber.new none with state := .kRunning, started := true }
  runInScheduler := update runInScheduler 0 false
  ctx := update (fun f => ⟨f, .entry⟩) 0 ⟨0, .created⟩
  tFiber := 0
  tSchedulerFiber := 0
  tThreadFiber := 0
  exec := 0
  running := fun _ => none
  switches := 0
  control := ⟨0, .created⟩
  resumer := fun _ => none
  pending := update (fun _ => true) 0 false
  overwritten := false

-- At its entry `mainFunc` reads `t_fiber`
def swapcontext (s : Thread) (save load : FiberId) : Thread :=
  let ctx := update s.ctx save ⟨s.exec, .after s.switches⟩
  let control := ctx load
  { s with
    ctx
    exec := control.stack
    running :=
      if control.point = .entry then
        update s.running control.stack (some s.tFiber)
      else
        s.running
    switches := s.switches + 1
    control
    pending := update (update s.pending save true) load false
    overwritten := s.overwritten || s.pending save
  }

-- The fiber whose context `f` is resumed from and goes back to
def partner (s : Thread) (f : FiberId) : FiberId :=
  if s.runInScheduler f then s.tSchedulerFiber else s.tThreadFiber

def resume (s : Thread) (f : FiberId) : Option Thread :=
  (s.fiber f).resume.map fun fb =>
    let s := { s with
      fiber := update s.fiber f fb
      resumer := update s.resumer f (some ⟨s.exec, .after s.switches⟩)
      tFiber := f
    }
    s.swapcontext (s.partner f) f

-- `hold`, `yield` and the end of `mainFunc` differ in what they do to the state of the fiber
def leave (s : Thread) (f : FiberId) (change : Fiber → Option Fiber) : Option Thread :=
  (change (s.fiber f)).map fun fb =>
    let s := { s with
      fiber := update s.fiber f fb
      tFiber := s.partner f
    }
    s.swapcontext f (s.partner f)

end Thread

inductive Action where
  | resume (f : FiberId)
  | setSchedulerFiber
  | yield
  | hold
  | terminate
  deriving DecidableEq, Repr

def Action.leaves : Action → Bool
  | .resume _ => false
  | .setSchedulerFiber => false
  | .yield => true
  | .hold => true
  | .terminate => true

-- `resume` is left to the main fiber or, for a fiber that runs in the scheduler, to the scheduler fiber
def step (s : Thread) : Action → Option Thread
  | .resume f => if s.exec = s.partner f then s.resume f else none
  | .setSchedulerFiber =>
    if s.runInScheduler s.exec = false then
      some { s with tSchedulerFiber := s.tFiber }
    else
      none
  | .yield => if s.exec ≠ s.tThreadFiber then s.leave s.tFiber Fiber.yield else none
  | .hold => if s.exec ≠ s.tThreadFiber then s.leave s.tFiber Fiber.hold else none
  | .terminate =>
    if s.exec ≠ s.tThreadFiber then
      (s.running s.exec).bind fun f => s.leave f Fiber.mainFuncEnd
    else
      none

def machine : Machine Thread Action where
  init s := ∃ runInScheduler cb, s = Thread.start runInScheduler cb
  step := step

/--
`t_fiber` is the executing fiber, which if it leaves goes back to where it has been resumed, and no
context has been lost.
-/
structure Disciplined (s : Thread) : Prop where
  names : s.tFiber = s.exec
  returns : ∀ a, a.leaves = true → s.exec ≠ s.tThreadFiber →
    ∃ t, step s a = some t ∧ s.resumer s.exec = some t.control ∧ t.exec = t.control.stack
  kept : s.overwritten = false

/--
The fibers that have been resumed and not left since are the executing one, the main fiber, and in
between the scheduler fiber while a fiber of it executes; each has been resumed at the context that it
goes back to.
-/
structure Stack (s : Thread) : Prop where
  names : s.tFiber = s.exec
  main : s.runInScheduler s.tThreadFiber = false
  scheduler : s.runInScheduler s.tSchedulerFiber = false
  active : ∀ f, (s.fiber f).state = .kRunning
    ↔ f = s.exec ∨ f = s.tThreadFiber ∨ f = s.partner s.exec
  ctx : ∀ f, (s.ctx f).stack = f
  resumed : ∀ f, (s.fiber f).state = .kRunning → f ≠ s.tThreadFiber →
    s.resumer f = some (s.ctx (s.partner f))
  running : ∀ f, f ≠ s.tThreadFiber → s.running f = some f ∨ f ≠ s.exec ∧ (s.ctx f).point = .entry
  free : s.pending s.exec = false
  kept : s.overwritten = false

namespace Stack

variable {s t : Thread} {f : FiberId} {fb : Fiber} {change : Fiber → Option Fiber}

theorem not_scheduled_partner (h : Stack s) (f : FiberId) : s.runInScheduler (s.partner f) = false := by
  unfold Thread.partner
  split
  . exact h.scheduler
  . exact h.main

theorem partner_partner (h : Stack s) (f : FiberId) : s.partner (s.partner f) = s.tThreadFiber := by
  rw [Thread.partner, h.not_scheduled_partner]
  rfl

theorem partner_ne (h : Stack s) (hf : f ≠ s.tThreadFiber) : s.partner f ≠ f := by
  intro heq
  have hsched := h.not_scheduled_partner f
  rw [heq] at hsched
  rw [Thread.partner, hsched] at heq
  exact hf heq.symm

theorem running_exec (h : Stack s) (hne : s.exec ≠ s.tThreadFiber) : s.running s.exec = some s.exec := by
  rcases h.running s.exec hne with hrunning | hentry
  . exact hrunning
  . exact absurd rfl hentry.left

-- After a switch to `f`, where `mainFunc` reads `f` from `t_fiber` if this is its entry
theorem running_switch (h : Stack s) (hg : g ≠ s.tThreadFiber) (k : Point)
    : (if (s.ctx f).point = .entry then update s.running f (some f) else s.running) g = some g
        ∨
      g ≠ f ∧ (update s.ctx s.exec ⟨s.exec, k⟩ g).point = .entry := by
  by_cases hgf : g = f
  . subst hgf
    left
    split
    . rw [Function.update_self]
    . next hpoint =>
      rcases h.running g hg with hrunning | hentry
      . exact hrunning
      . exact absurd hentry.right hpoint
  . have hkeep : (if (s.ctx f).point = .entry then update s.running f (some f) else s.running) g
        = s.running g := by
      split
      . rw [Function.update_of_ne hgf]
      . rfl
    rw [hkeep]
    rcases h.running g hg with hrunning | hentry
    . exact .inl hrunning
    . rw [Function.update_of_ne hentry.left]
      exact .inr ⟨hgf, hentry.right⟩

theorem resume_eq_some (hfb : (s.fiber f).resume = some fb)
    : (s.fiber f).state ≠ .kRunning ∧ fb.state = .kRunning := by
  unfold Fiber.resume at hfb
  split at hfb
  . next h =>
    cases hfb
    refine ⟨?_, rfl⟩
    rcases h with h | h <;> simp [h]
  . cases hfb

-- What a switch to `f` leaves, however the fibers and their resumers have been changed before it
theorem stack_swapcontext (h : Stack s) (hne : f ≠ s.exec) {fiber : FiberId → Fiber}
    {resumer : FiberId → Option Context}
    (hactive : ∀ g, (fiber g).state = .kRunning ↔ g = f ∨ g = s.tThreadFiber ∨ g = s.partner f)
    (hresumed : ∀ g, (fiber g).state = .kRunning → g ≠ s.tThreadFiber →
      resumer g = some (update s.ctx s.exec ⟨s.exec, .after s.switches⟩ (s.partner g)))
    : Stack (Thread.swapcontext { s with fiber, resumer, tFiber := f } s.exec f) := by
  have hload : update s.ctx s.exec ⟨s.exec, .after s.switches⟩ f = s.ctx f :=
    Function.update_of_ne hne _ _
  have hstack : (s.ctx f).stack = f := h.ctx f
  constructor
  . simp only [Thread.swapcontext, hload, hstack]
  . exact h.main
  . exact h.scheduler
  . simp only [Thread.swapcontext, hload, hstack]
    exact hactive
  . intro g
    simp only [Thread.swapcontext, Function.update_apply]
    split
    . next hg => exact hg.symm
    . exact h.ctx g
  . exact hresumed
  . intro g hgmain
    simp only [Thread.swapcontext, hload, hstack]
    exact h.running_switch hgmain (.after s.switches)
  . simp only [Thread.swapcontext, hload, hstack, Function.update_self]
  . simp only [Thread.swapcontext, h.kept, h.free, Bool.or_false]

theorem stack_resume (h : Stack s) (hexec : s.exec = s.partner f) (hs : s.resume f = some t) : Stack t := by
  simp only [Thread.resume, Option.map_eq_some_iff] at hs
  rcases hs with ⟨fb, hfb, rfl⟩
  rcases resume_eq_some hfb with ⟨hnot, hrunning⟩
  have hne : f ≠ s.exec := by
    rintro rfl
    exact hnot ((h.active _).mpr (.inl rfl))
  have hpartner : s.partner s.exec = s.tThreadFiber := by
    rw [hexec]
    exact h.partner_partner f
  rw [show Thread.partner { s with fiber := _, resumer := _, tFiber := f } f = s.exec from hexec.symm]
  have hactive : ∀ g, (update s.fiber f fb g).state = .kRunning
      ↔ g = f ∨ g = s.tThreadFiber ∨ g = s.partner f := by
    intro g
    rw [← hexec]
    by_cases hgf : g = f
    . subst hgf
      rw [Function.update_self]
      exact iff_of_true hrunning (.inl rfl)
    . rw [Function.update_of_ne hgf, h.active, hpartner]
      grind
  apply h.stack_swapcontext hne hactive
  intro g hg hgmain
  rcases (hactive g).mp hg with rfl | hmain | hgexec
  . rw [Function.update_self, ← hexec, Function.update_self]
  . exact absurd hmain hgmain
  . rw [← hexec] at hgexec
    subst hgexec
    rw [Function.update_of_ne hne.symm, hpartner, Function.update_of_ne hgmain.symm, ← hpartner]
    exact h.resumed _ ((h.active _).mpr (.inl rfl)) hgmain

theorem stack_leave (h : Stack s) (hne : s.exec ≠ s.tThreadFiber)
    (hchange : ∀ fb, change (s.fiber s.exec) = some fb → fb.state ≠ .kRunning)
    (hs : s.leave s.exec change = some t)
    : Stack t ∧ s.resumer s.exec = some t.control ∧ t.exec = t.control.stack := by
  simp only [Thread.leave, Option.map_eq_some_iff] at hs
  rcases hs with ⟨fb, hfb, rfl⟩
  have hnot := hchange fb hfb
  have hpartner : s.partner s.exec ≠ s.exec := h.partner_ne hne
  have hmain := h.partner_partner s.exec
  rw [show Thread.partner { s with fiber := _, tFiber := s.partner s.exec } s.exec
    = s.partner s.exec from rfl]
  have hactive : ∀ g, (update s.fiber s.exec fb g).state = .kRunning
      ↔ g = s.partner s.exec ∨ g = s.tThreadFiber ∨ g = s.partner (s.partner s.exec) := by
    intro g
    rw [hmain]
    by_cases hg : g = s.exec
    . subst hg
      rw [Function.update_self]
      exact iff_of_false hnot (by grind)
    . rw [Function.update_of_ne hg, h.active]
      grind
  constructor
  . apply h.stack_swapcontext hpartner hactive
    intro g hg hgmain
    have hgexec : g ≠ s.exec := by
      rintro rfl
      rw [Function.update_self] at hg
      exact hnot hg
    rw [Function.update_of_ne hgexec] at hg
    rcases (h.active g).mp hg with heq | heq | heq
    . exact absurd heq hgexec
    . exact absurd heq hgmain
    . have hback : s.partner g = s.tThreadFiber := by rw [heq, hmain]
      rw [hback, Function.update_of_ne hne.symm, ← hback]
      exact h.resumed g hg hgmain
  . have hload : update s.ctx s.exec ⟨s.exec, .after s.switches⟩ (s.partner s.exec)
        = s.ctx (s.partner s.exec) :=
      Function.update_of_ne hpartner _ _
    simp only [Thread.swapcontext, hload]
    exact ⟨h.resumed s.exec ((h.active _).mpr (.inl rfl)) hne, trivial⟩

theorem stack_setSchedulerFiber (h : Stack s) (hexec : s.runInScheduler s.exec = false)
    : Stack { s with tSchedulerFiber := s.tFiber } := by
  -- No fiber that runs in the scheduler has been resumed and not left
  have hpartner : ∀ f, (s.fiber f).state = .kRunning →
      Thread.partner { s with tSchedulerFiber := s.tFiber } f = s.partner f := by
    intro f hf
    have hsched : s.runInScheduler f = false := by
      rcases (h.active f).mp hf with rfl | rfl | rfl
      . exact hexec
      . exact h.main
      . exact h.not_scheduled_partner _
    simp only [Thread.partner, hsched, Bool.false_eq_true, ↓reduceIte]
  constructor
  . exact h.names
  . exact h.main
  . rw [h.names]
    exact hexec
  . intro f
    rw [hpartner s.exec ((h.active _).mpr (.inl rfl))]
    exact h.active f
  . exact h.ctx
  . intro f hf hmain
    rw [hpartner f hf]
    exact h.resumed f hf hmain
  . exact h.running
  . exact h.free
  . exact h.kept

end Stack

variable {s t : Thread} {a : Action} {fb fb' : Fiber}

theorem yield_state (h : fb.yield = some fb') : fb'.state ≠ .kRunning := by
  unfold Fiber.yield at h
  split at h
  . split at h
    . cases h
      exact nofun
    . next hterm =>
      cases h
      simp_all
  . cases h

theorem hold_state (h : fb.hold = some fb') : fb'.state ≠ .kRunning := by
  unfold Fiber.hold at h
  split at h
  . cases h
    exact nofun
  . cases h

theorem mainFuncEnd_state (h : fb.mainFuncEnd = some fb') : fb'.state ≠ .kRunning :=
  yield_state h

-- What the executing fiber does to its state when it leaves
def Action.change : Action → Fiber → Option Fiber
  | .hold => Fiber.hold
  | .terminate => Fiber.mainFuncEnd
  | _ => Fiber.yield

theorem step_leave (h : Stack s) (ha : a.leaves = true)
    : step s a = if s.exec ≠ s.tThreadFiber then s.leave s.exec a.change else none := by
  cases a with
  | yield => simp only [step, h.names, Action.change]
  | hold => simp only [step, h.names, Action.change]
  | terminate =>
    simp only [step, Action.change]
    split
    . next hne => rw [h.running_exec hne, Option.bind_some]
    . rfl
  | resume f => cases ha
  | setSchedulerFiber => cases ha

theorem change_state (ha : a.leaves = true) (h : a.change fb = some fb') : fb'.state ≠ .kRunning := by
  cases a with
  | yield => exact yield_state h
  | hold => exact hold_state h
  | terminate => exact mainFuncEnd_state h
  | resume f => cases ha
  | setSchedulerFiber => cases ha

theorem stack_step (h : Stack s) (hs : step s a = some t) : Stack t := by
  by_cases ha : a.leaves = true
  . rw [step_leave h ha, Option.ite_none_right_eq_some] at hs
    exact (h.stack_leave hs.left (fun _ => change_state ha) hs.right).left
  . cases a with
    | resume f =>
      simp only [step, Option.ite_none_right_eq_some] at hs
      exact h.stack_resume hs.left hs.right
    | setSchedulerFiber =>
      simp only [step, Option.ite_none_right_eq_some, Option.some.injEq] at hs
      rcases hs with ⟨hexec, rfl⟩
      exact h.stack_setSchedulerFiber hexec
    | _ => exact absurd rfl ha

theorem stack_start (runInScheduler : FiberId → Bool) (cb : FiberId → Option CallbackId)
    : Stack (Thread.start runInScheduler cb) := by
  have hnew : ∀ f, f ≠ 0 → ((Thread.start runInScheduler cb).fiber f).state = .kReady := by
    intro f hf
    simp only [Thread.start, Function.update_of_ne hf]
    rfl
  constructor
  . rfl
  . rfl
  . rfl
  . intro f
    by_cases hf : f = 0
    . subst hf
      exact iff_of_true rfl (.inl rfl)
    . rw [hnew f hf]
      simp [Thread.start, Thread.partner, hf]
  . intro f
    by_cases hf : f = 0
    . subst hf
      rfl
    . simp only [Thread.start, Function.update_of_ne hf]
  . intro f hf hmain
    rw [hnew f hmain] at hf
    cases hf
  . intro f hf
    change f ≠ 0 at hf
    refine .inr ⟨hf, ?_⟩
    simp only [Thread.start, Function.update_of_ne hf]
  . rfl
  . rfl

-- The assertions of `hold` and `yield` hold for the executing fiber
theorem change_isSome (ha : a.leaves = true) (h : fb.state = .kRunning) : (a.change fb).isSome := by
  cases a with
  | yield => simp [Action.change, Fiber.yield, h]
  | hold => simp [Action.change, Fiber.hold, h]
  | terminate => simp [Action.change, Fiber.mainFuncEnd, Fiber.yield]
  | resume f => cases ha
  | setSchedulerFiber => cases ha

theorem disciplined_of_stack (h : Stack s) : Disciplined s := by
  constructor
  . exact h.names
  . intro a ha hne
    have hrunning : (s.fiber s.exec).state = .kRunning := (h.active _).mpr (.inl rfl)
    have hleave : (s.leave s.exec a.change).isSome := by
      rw [Thread.leave, Option.isSome_map]
      exact change_isSome ha hrunning
    rcases Option.isSome_iff_exists.mp hleave with ⟨t, ht⟩
    rw [step_leave h ha, if_pos hne]
    exact ⟨t, ht, (h.stack_leave hne (fun _ => change_state ha) ht).right⟩
  . exact h.kept

/--
In every state of every run of a thread its fibers keep the discipline of a stack.
-/
theorem disciplined (h : machine.Reachable s) : Disciplined s := by
  apply disciplined_of_stack
  apply Machine.Reach.invariant h
  . intro s hinit
    rcases hinit with ⟨runInScheduler, cb, rfl⟩
    exact stack_start runInScheduler cb
  . intro s a t hstack _ hs
    exact stack_step hstack hs

-- The fiber 1 becomes the scheduler fiber and resumes fiber 2
def nested : List Action :=
  [.resume 1, .setSchedulerFiber, .resume 2, .yield, .hold, .resume 1, .resume 2]

theorem disciplined_nested
    : ∃ s, machine.exec (Thread.start (fun f => f = 2) fun _ => none) nested = some s
        ∧ s.exec = 2 ∧ Disciplined s := by
  have hexec : (machine.exec (Thread.start (fun f => f = 2) fun _ => none) nested).any
      (fun s => s.exec = 2) = true := by
    decide +kernel
  simp only [Option.any_eq_true, decide_eq_true_eq] at hexec
  rcases hexec with ⟨s, hs, hexec⟩
  exact ⟨s, hs, hexec, disciplined (Machine.Reachable.of_exec nested ⟨_, _, rfl⟩ hs)⟩

end Switch
end Koro
