import Koro.Scheduler.Run
import Mathlib.Data.List.Basic

/-!
This module says once, case by case, what a step of `Run.machine` can do: `Step s a t` lists for
each action the place its worker was at, what it read there, and the state it leaves.
-/

namespace Koro
namespace Run

open Function (update)

variable {n : Nat}

inductive Step (s : State n) : Action n → State n → Prop where
  | create
    : Step s .create
        { s with
          fiber := update s.fiber s.fibers (Fiber.new none)
          fibers := s.fibers + 1 }
  | submit (q : Fin n)
    : Step s (.submit q)
        { s with
          tasks := update s.tasks q (s.tasks q ++ [.cb s.callbacks])
          callbacks := s.callbacks + 1 }
  | submitFiber (q : Fin n) (f : FiberId) (hf : f < s.fibers)
    : Step s (.submitFiber q f)
        { s with tasks := update s.tasks q (s.tasks q ++ [.fiber f]) }
  | popNone (i : Fin n) (hi : s.worker i = .pop) (hq : s.tasks i = [])
    : Step s (.pop i) { s with worker := update s.worker i (.steal 1) }
  | pop (i : Fin n) (task : ScheduledTask) (rest : List ScheduledTask) (hi : s.worker i = .pop)
      (hq : s.tasks i = task :: rest)
    : Step s (.pop i)
        { s with
          worker := update s.worker i (.popped task)
          tasks := update s.tasks i rest }
  | stealMiss (i : Fin n) (ownsLock : Bool) (k : Nat) (hi : s.worker i = .steal k) (hk : k < n)
      (hmiss : ownsLock = true → s.tasks (State.victim i k) = [])
    : Step s (.steal i ownsLock) { s with worker := update s.worker i (.steal (k + 1)) }
  | steal (i q : Fin n) (task : ScheduledTask) (rest : List ScheduledTask) (k : Nat)
      (hi : s.worker i = .steal k) (hk : k < n) (hv : q = State.victim i k)
      (hq : s.tasks q = rest ++ [task])
    : Step s (.steal i true)
        { s with
          worker := update s.worker i (.popped task)
          tasks := update s.tasks q rest }
  | stealNone (i : Fin n) (ownsLock : Bool) (k : Nat) (hi : s.worker i = .steal k) (hk : ¬k < n)
    : Step s (.steal i ownsLock) { s with worker := update s.worker i .noTask }
  | exit (i : Fin n) (hi : s.worker i = .noTask) (hterm : s.idleTerm i = true)
    : Step s (.idle i) { s with worker := update s.worker i .exited }
  | idle (i : Fin n) (hi : s.worker i = .noTask) (hterm : s.idleTerm i = false)
    : Step s (.idle i) { s with worker := update s.worker i .idle }
  | idleReturn (i : Fin n) (term : Bool) (hi : s.worker i = .idle)
    : Step s (.idleReturn i term)
        { s with
          worker := update s.worker i .pop
          idleTerm := update s.idleTerm i term }
  | count (i : Fin n) (task : ScheduledTask) (hi : s.worker i = .popped task)
    : Step s (.count i)
        { s with
          worker := update s.worker i (.counted task)
          activeThreadCount := s.activeThreadCount + 1 }
  | lockFail (i : Fin n) (f : FiberId) (hi : s.worker i = .counted (.fiber f))
      (hf : (s.fiber f).execute = true)
    : Step s (.tryLock i) { s with worker := update s.worker i (.lockFailed f) }
  | lock (i : Fin n) (f : FiberId) (hi : s.worker i = .counted (.fiber f))
      (hf : (s.fiber f).execute = false)
    : Step s (.tryLock i)
        { s with
          worker := update s.worker i (.locked f)
          fiber := update s.fiber f { s.fiber f with execute := true } }
  | wrap (i : Fin n) (c : CallbackId) (hi : s.worker i = .counted (.cb c))
    : Step s (.tryLock i)
        { s with
          worker := update s.worker i (.resuming s.fibers true)
          fiber := update s.fiber s.fibers { Fiber.new (some c) with execute := true }
          fibers := s.fibers + 1
          wraps := update s.wraps s.fibers (some c) }
  | putBack (i : Fin n) (f : FiberId) (hi : s.worker i = .lockFailed f)
    : Step s (.putBack i)
        { s with
          worker := update s.worker i .uncount
          tasks := update s.tasks i (s.tasks i ++ [.fiber f]) }
  | readTerm (i : Fin n) (f : FiberId) (hi : s.worker i = .locked f)
      (hf : (s.fiber f).state = .kTerm)
    : Step s (.readState i) { s with worker := update s.worker i (.unlocking f) }
  | readState (i : Fin n) (f : FiberId) (hi : s.worker i = .locked f)
      (hf : (s.fiber f).state ≠ .kTerm)
    : Step s (.readState i) { s with worker := update s.worker i (.resuming f false) }
  | resumeFail (i : Fin n) (f : FiberId) (wrapper : Bool) (hi : s.worker i = .resuming f wrapper)
      (hf : ¬((s.fiber f).state = .kReady ∨ (s.fiber f).state = .kHold))
    : Step s (.resume i) { s with worker := update s.worker i .aborted }
  | resume (i : Fin n) (f : FiberId) (wrapper : Bool) (hi : s.worker i = .resuming f wrapper)
      (hf : (s.fiber f).state = .kReady ∨ (s.fiber f).state = .kHold)
    : Step s (.resume i)
        { s with
          worker := update s.worker i (.running f wrapper)
          fiber := update s.fiber f { s.fiber f with state := .kRunning, started := true }
          entered :=
            if (s.fiber f).started then s.entered else s.entered ++ (s.fiber f).cb.toList }
  | yieldFail (i : Fin n) (f : FiberId) (wrapper : Bool) (hi : s.worker i = .running f wrapper)
      (hf : ¬((s.fiber f).state = .kRunning ∨ (s.fiber f).state = .kTerm))
    : Step s (.yield i) { s with worker := update s.worker i .aborted }
  | yieldTerm (i : Fin n) (f : FiberId) (wrapper : Bool) (hi : s.worker i = .running f wrapper)
      (hf : (s.fiber f).state = .kTerm)
    : Step s (.yield i) { s with worker := update s.worker i (.resumed f wrapper) }
  | yield (i : Fin n) (f : FiberId) (wrapper : Bool) (hi : s.worker i = .running f wrapper)
      (hf : (s.fiber f).state = .kRunning)
    : Step s (.yield i)
        { s with
          worker := update s.worker i (.resumed f wrapper)
          fiber := update s.fiber f { s.fiber f with state := .kReady } }
  | holdFail (i : Fin n) (f : FiberId) (wrapper : Bool) (hi : s.worker i = .running f wrapper)
      (hf : (s.fiber f).state ≠ .kRunning)
    : Step s (.hold i) { s with worker := update s.worker i .aborted }
  | hold (i : Fin n) (f : FiberId) (wrapper : Bool) (hi : s.worker i = .running f wrapper)
      (hf : (s.fiber f).state = .kRunning)
    : Step s (.hold i)
        { s with
          worker := update s.worker i (.resumed f wrapper)
          fiber := update s.fiber f { s.fiber f with state := .kHold } }
  | finish (i : Fin n) (f : FiberId) (wrapper : Bool) (hi : s.worker i = .running f wrapper)
    : Step s (.finish i)
        { s with
          worker := update s.worker i (.resumed f wrapper)
          fiber := update s.fiber f { s.fiber f with state := .kTerm, cb := none }
          finished := s.finished ++ (s.fiber f).cb.toList }
  | checkFail (i : Fin n) (f : FiberId) (hi : s.worker i = .resumed f false)
      (hf : (s.fiber f).state = .kRunning)
    : Step s (.checkState i) { s with worker := update s.worker i .aborted }
  | checkReady (i : Fin n) (f : FiberId) (wrapper : Bool) (hi : s.worker i = .resumed f wrapper)
      (hf : (s.fiber f).state = .kReady)
    : Step s (.checkState i) { s with worker := update s.worker i (.requeue f) }
  | checkOther (i : Fin n) (f : FiberId) (wrapper : Bool) (hi : s.worker i = .resumed f wrapper)
      (hf : (s.fiber f).state ≠ .kReady)
    : Step s (.checkState i) { s with worker := update s.worker i (.unlocking f) }
  | requeue (i : Fin n) (f : FiberId) (hi : s.worker i = .requeue f)
    : Step s (.requeue i)
        { s with
          worker := update s.worker i (.unlocking f)
          tasks := update s.tasks i (s.tasks i ++ [.fiber f]) }
  | unlock (i : Fin n) (f : FiberId) (hi : s.worker i = .unlocking f)
    : Step s (.unlock i)
        { s with
          worker := update s.worker i .uncount
          fiber := update s.fiber f { s.fiber f with execute := false } }
  | uncount (i : Fin n) (hi : s.worker i = .uncount)
    : Step s (.uncount i)
        { s with
          worker := update s.worker i .pop
          activeThreadCount := s.activeThreadCount - 1 }

theorem Step.of_pop {s t : State n} (h : s.pop i = some t) : Step s (.pop i) t := by
  unfold State.pop at h
  split at h
  . next hi =>
    split at h
    . next hq => cases h; exact .popNone i hi hq
    . next task rest hq => cases h; exact .pop i task rest hi hq
  . cases h

theorem Step.of_steal {s t : State n} (h : s.steal i ownsLock = some t)
    : Step s (.steal i ownsLock) t := by
  unfold State.steal at h
  split at h
  . next k hi =>
    split at h
    . next hk =>
      split at h
      . next task hq =>
        cases h
        exact .steal i _ task _ k hi hk rfl (List.dropLast_append_getLast? task hq).symm
      . next hmiss =>
        cases h
        apply Step.stealMiss i _ k hi hk
        intro howns
        cases hlast : (s.tasks (State.victim i k)).getLast? with
        | none => exact List.getLast?_eq_none_iff.mp hlast
        | some task => exact absurd hlast (hmiss task howns)
    . next hk => cases h; exact .stealNone i _ k hi hk
  . cases h

theorem Step.of_idle {s t : State n} (h : s.idle i = some t) : Step s (.idle i) t := by
  unfold State.idle at h
  split at h
  . next hi =>
    split at h
    . next hterm => cases h; exact .exit i hi hterm
    . next hterm => cases h; exact .idle i hi (by simpa using hterm)
  . cases h

theorem Step.of_tryLock {s t : State n} (h : s.tryLock i = some t) : Step s (.tryLock i) t := by
  unfold State.tryLock at h
  split at h
  . next f hi =>
    cases hf : (s.fiber f).execute with
    | true =>
      simp only [Fiber.tryLock, hf, Bool.true_eq_false, ↓reduceIte] at h
      cases h
      exact .lockFail i f hi hf
    | false =>
      simp only [Fiber.tryLock, hf, ↓reduceIte] at h
      cases h
      exact .lock i f hi hf
  . next c hi => cases h; exact .wrap i c hi
  . cases h

theorem Step.of_readState {s t : State n} (h : s.readState i = some t)
    : Step s (.readState i) t := by
  unfold State.readState at h
  split at h
  . next f hi =>
    split at h
    . next hf => cases h; exact .readTerm i f hi hf
    . next hf => cases h; exact .readState i f hi hf
  . cases h

theorem Step.of_resume {s t : State n} (h : s.resume i = some t) : Step s (.resume i) t := by
  unfold State.resume at h
  split at h
  . next f wrapper hi =>
    by_cases hf : (s.fiber f).state = .kReady ∨ (s.fiber f).state = .kHold
    . simp only [Fiber.resume, hf, ↓reduceIte] at h
      cases h
      exact .resume i f wrapper hi hf
    . simp only [Fiber.resume, hf, ↓reduceIte] at h
      cases h
      exact .resumeFail i f wrapper hi hf
  . cases h

theorem Step.of_yield {s t : State n} (h : s.yield i = some t) : Step s (.yield i) t := by
  unfold State.yield State.switch at h
  split at h
  . next f wrapper hi =>
    by_cases hrun : (s.fiber f).state = .kRunning
    . simp only [Fiber.yield, hrun, true_or, ↓reduceIte, ne_eq, reduceCtorEq, not_false_eq_true,
        List.append_nil] at h
      cases h
      exact .yield i f wrapper hi hrun
    . by_cases hterm : (s.fiber f).state = .kTerm
      . simp only [Fiber.yield, hterm, or_true, ↓reduceIte, ne_eq, not_true_eq_false,
          List.append_nil, Function.update_eq_self] at h
        cases h
        exact .yieldTerm i f wrapper hi hterm
      . simp only [Fiber.yield, hrun, hterm, or_self, ↓reduceIte] at h
        cases h
        exact .yieldFail i f wrapper hi (by simp [hrun, hterm])
  . cases h

theorem Step.of_hold {s t : State n} (h : s.hold i = some t) : Step s (.hold i) t := by
  unfold State.hold State.switch at h
  split at h
  . next f wrapper hi =>
    by_cases hrun : (s.fiber f).state = .kRunning
    . simp only [Fiber.hold, hrun, ↓reduceIte, List.append_nil] at h
      cases h
      exact .hold i f wrapper hi hrun
    . simp only [Fiber.hold, hrun, ↓reduceIte] at h
      cases h
      exact .holdFail i f wrapper hi hrun
  . cases h

theorem Step.of_finish {s t : State n} (h : s.finish i = some t) : Step s (.finish i) t := by
  unfold State.finish State.switch at h
  split at h
  . next f wrapper hi =>
    simp only [Fiber.mainFuncEnd, Fiber.yield, or_true, ↓reduceIte, ne_eq,
      not_true_eq_false] at h
    cases h
    exact .finish i f wrapper hi
  . cases h

theorem Step.of_checkState {s t : State n} (h : s.checkState i = some t)
    : Step s (.checkState i) t := by
  unfold State.checkState at h
  split at h
  . next f wrapper hi =>
    split at h
    . next hf =>
      cases h
      exact .checkFail i f (hf.left ▸ hi) hf.right
    . split at h
      . next hf => cases h; exact .checkReady i f wrapper hi hf
      . next hf => cases h; exact .checkOther i f wrapper hi hf
  . cases h

theorem Step.of_step {s t : State n} {a : Action n} (h : step s a = some t) : Step s a t := by
  cases a with
  | create => cases h; exact .create
  | submit q => cases h; exact .submit q
  | submitFiber q f =>
    simp only [step, State.submitFiber, Option.ite_none_right_eq_some] at h
    cases h.right
    exact .submitFiber q f h.left
  | pop i => exact .of_pop h
  | steal i ownsLock => exact .of_steal h
  | idle i => exact .of_idle h
  | idleReturn i term =>
    simp only [step, State.idleReturn] at h
    split at h
    . next hi => cases h; exact .idleReturn i term hi
    . cases h
  | count i =>
    simp only [step, State.count] at h
    split at h
    . next task hi => cases h; exact .count i task hi
    . cases h
  | tryLock i => exact .of_tryLock h
  | putBack i =>
    simp only [step, State.putBack] at h
    split at h
    . next f hi => cases h; exact .putBack i f hi
    . cases h
  | readState i => exact .of_readState h
  | resume i => exact .of_resume h
  | yield i => exact .of_yield h
  | hold i => exact .of_hold h
  | finish i => exact .of_finish h
  | checkState i => exact .of_checkState h
  | requeue i =>
    simp only [step, State.requeue] at h
    split at h
    . next f hi => cases h; exact .requeue i f hi
    . cases h
  | unlock i =>
    simp only [step, State.unlock] at h
    split at h
    . next f hi => cases h; exact .unlock i f hi
    . cases h
  | uncount i =>
    simp only [step, State.uncount] at h
    split at h
    . next hi => cases h; exact .uncount i hi
    . cases h

end Run
end Koro
