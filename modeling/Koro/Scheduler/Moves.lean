import Koro.Scheduler.Threads
import Koro.Scheduler.Step

/-!
This module says once, case by case, what a step of `Scheduler.machine` can do, and that every such
step is at most one step of `Run.machine`.
-/

namespace Koro
namespace Scheduler

open Function (update)

variable {n : Nat} {kind : Kind}

-- The step of `run` that an action is, and the worker that takes it
def Action.onRun : Action n → Option (Fin n × Run.Action n)
  | .pop i => some (i, .pop i)
  | .steal i ownsLock => some (i, .steal i ownsLock)
  | .enterIdle i => some (i, .idle i)
  | .count i => some (i, .count i)
  | .tryLock i => some (i, .tryLock i)
  | .putBack i => some (i, .putBack i)
  | .readState i => some (i, .readState i)
  | .resume i => some (i, .resume i)
  | .yield i => some (i, .yield i)
  | .hold i => some (i, .hold i)
  | .finish i => some (i, .finish i)
  | .checkState i => some (i, .checkState i)
  | .requeue i => some (i, .requeue i)
  | .unlock i => some (i, .unlock i)
  | .uncount i => some (i, .uncount i)
  | _ => none

def submitAction (idx : Fin n) : Option FiberId → Run.Action n
  | none => .submit idx
  | some f => .submitFiber idx f

inductive Step (kind : Kind) (s : State n) : Action n → State n → Prop where
  | run (act : Action n) (i : Fin n) (a : Run.Action n) (core : Run.State n)
      (hact : act.onRun = some (i, a)) (hframe : s.frame (.worker i) = none)
      (hcore : Run.step s.core a = some core)
    : Step kind s act { s with core }
  | create (core : Run.State n) (hcore : Run.step s.core .create = some core)
    : Step kind s .create { s with core }
  | submit (t : Thread n) (idx : Fin n) (fiber : Option FiberId) (huser : s.user t = true)
    : Step kind s (.submit t fiber)
        { s with
          frame := update s.frame t (some (.push idx fiber))
          threadToPostIndex := s.threadToPostIndex + 1 }
  | pushEmpty (t : Thread n) (idx : Fin n) (fiber : Option FiberId) (core : Run.State n)
      (hframe : s.frame t = some (.push idx fiber)) (hempty : s.core.tasks idx = [])
      (hcore : Run.step s.core (submitAction idx fiber) = some core)
    : Step kind s (.push t) { s with core, frame := update s.frame t (some (.tickle idx)) }
  | push (t : Thread n) (idx : Fin n) (fiber : Option FiberId) (core : Run.State n)
      (hframe : s.frame t = some (.push idx fiber)) (hempty : s.core.tasks idx ≠ [])
      (hcore : Run.step s.core (submitAction idx fiber) = some core)
    : Step kind s (.push t) { s with core, frame := update s.frame t none }
  | tickle (t : Thread n) (idx : Fin n) (hframe : s.frame t = some (.tickle idx))
      (hidling : s.idling idx = true)
    : Step kind s (.tickle t) { s with frame := update s.frame t (some (.notify idx)) }
  | tickleNone (t : Thread n) (idx : Fin n) (hframe : s.frame t = some (.tickle idx))
      (hidling : s.idling idx = false)
    : Step kind s (.tickle t) { s with frame := update s.frame t none }
  | notifyOne (t : Thread n) (idx : Fin n) (hkind : kind = .scheduler)
      (hframe : s.frame t = some (.notify idx)) (hpc : s.idlePc idx = .waiting)
    : Step kind s (.notify t)
        { s with frame := update s.frame t none, idlePc := update s.idlePc idx .woken }
  | notifyNone (t : Thread n) (idx : Fin n) (hkind : kind = .scheduler)
      (hframe : s.frame t = some (.notify idx)) (hpc : s.idlePc idx ≠ .waiting)
    : Step kind s (.notify t) { s with frame := update s.frame t none }
  | notifyFd (t : Thread n) (idx : Fin n) (hkind : kind = .ioManager)
      (hframe : s.frame t = some (.notify idx))
    : Step kind s (.notify t)
        { s with
          frame := update s.frame t none
          eventFd := update s.eventFd idx (s.eventFd idx + 1) }
  | wake (i : Fin n) (f : FiberId) (core : Run.State n) (huser : s.user (.worker i) = true)
      (hcore : Run.step s.core (.submitFiber i f) = some core)
    : Step kind s (.wake i f) { s with core }
  | deliver (i : Fin n) (wakeup : Bool) (core : Run.State n) (hpc : s.idlePc i = .dispatch wakeup)
      (hcore : Run.step s.core (.submit i) = some core)
    : Step kind s (.deliver i) { s with core }
  | setPending (i : Fin n) (count : UInt64) (huser : s.user (.worker i) = true)
    : Step kind s (.setPending i count) { s with pendingEventCount := count }
  | stopping (t : Thread n) (pc pc' : StoppingPc) (hframe : s.frame t = some (.stopping pc))
      (hread : s.stoppingRead pc = some pc')
    : Step kind s (.stopping t) { s with frame := update s.frame t (some (.stopping pc')) }
  | setIdlingCv (i : Fin n) (hkind : kind = .scheduler) (hi : s.core.worker i = .idle)
      (hpc : s.idlePc i = .setIdling)
    : Step kind s (.idle i)
        { s with idling := update s.idling i true, idlePc := update s.idlePc i .wait }
  | setIdlingFd (i : Fin n) (hkind : kind = .ioManager) (hi : s.core.worker i = .idle)
      (hpc : s.idlePc i = .setIdling)
    : Step kind s (.idle i)
        { s with
          idling := update s.idling i true
          idlePc := update s.idlePc i .entering
          frame := update s.frame (.worker i) (some (.stopping .stop)) }
  | wait (i : Fin n) (hi : s.core.worker i = .idle) (hpc : s.idlePc i = .wait)
    : Step kind s (.idle i) { s with idlePc := update s.idlePc i .waiting }
  | woken (i : Fin n) (hi : s.core.worker i = .idle) (hpc : s.idlePc i = .woken)
    : Step kind s (.idle i)
        { s with
          idling := update s.idling i false
          idlePc := update s.idlePc i .leaving
          frame := update s.frame (.worker i) (some (.stopping .stop)) }
  | entered (i : Fin n) (b : Bool) (hi : s.core.worker i = .idle) (hpc : s.idlePc i = .entering)
      (hframe : s.frame (.worker i) = some (.stopping (.ret b)))
    : Step kind s (.idle i)
        { s with
          idlePc := update s.idlePc i (if b then .quit else .check)
          frame := update s.frame (.worker i) none
          answered :=
            if b = false ∧ s.finalTickled i then update s.answered i true else s.answered }
  | quit (i : Fin n) (hi : s.core.worker i = .idle) (hpc : s.idlePc i = .quit)
    : Step kind s (.idle i)
        { s with idling := update s.idling i false, idlePc := update s.idlePc i .leave }
  | checkBusy (i : Fin n) (hi : s.core.worker i = .idle) (hpc : s.idlePc i = .check)
      (htasks : s.core.tasks i ≠ [])
    : Step kind s (.idle i) { s with idlePc := update s.idlePc i .busy }
  | checkEmpty (i : Fin n) (hi : s.core.worker i = .idle) (hpc : s.idlePc i = .check)
      (htasks : s.core.tasks i = [])
    : Step kind s (.idle i) { s with idlePc := update s.idlePc i .poll }
  | busy (i : Fin n) (hi : s.core.worker i = .idle) (hpc : s.idlePc i = .busy)
    : Step kind s (.idle i)
        { s with idling := update s.idling i false, idlePc := update s.idlePc i .yield }
  | polled (i : Fin n) (wakeup : Bool) (hi : s.core.worker i = .idle)
      (hpc : s.idlePc i = .polled wakeup)
    : Step kind s (.idle i)
        { s with
          idling := update s.idling i false
          idlePc := update s.idlePc i (.dispatch wakeup) }
  | readFd (i : Fin n) (hi : s.core.worker i = .idle) (hpc : s.idlePc i = .dispatch true)
    : Step kind s (.idle i)
        { s with
          eventFd := update s.eventFd i 0
          idlePc := update s.idlePc i (.dispatch false) }
  | dispatched (i : Fin n) (hi : s.core.worker i = .idle) (hpc : s.idlePc i = .dispatch false)
    : Step kind s (.idle i)
        { s with
          idlePc := update s.idlePc i .leaving
          frame := update s.frame (.worker i) (some (.stopping .stop)) }
  | left (i : Fin n) (b : Bool) (hi : s.core.worker i = .idle) (hpc : s.idlePc i = .leaving)
      (hframe : s.frame (.worker i) = some (.stopping (.ret b)))
    : Step kind s (.idle i)
        { s with
          idlePc := update s.idlePc i (if b then .leave else .yield)
          frame := update s.frame (.worker i) none
          answered :=
            if b = false ∧ s.finalTickled i then update s.answered i true else s.answered }
  | idleReturn (i : Fin n) (term : Bool) (core : Run.State n)
      (hpc : s.idlePc i = if term then .leave else .yield)
      (hcore : Run.step s.core (.idleReturn i term) = some core)
    : Step kind s (.idle i) { s with core, idlePc := update s.idlePc i .setIdling }
  | spurious (i : Fin n) (hpc : s.idlePc i = .waiting)
    : Step kind s (.spurious i) { s with idlePc := update s.idlePc i .woken }
  | poll (i : Fin n) (wakeup : Bool) (hpc : s.idlePc i = .poll)
      (hfd : wakeup = true → 0 < s.eventFd i)
    : Step kind s (.poll i wakeup) { s with idlePc := update s.idlePc i (.polled wakeup) }
  | stopAgain (hpc : s.stopPc = .notCalled) (hframe : s.frame .stopper = none)
      (hstop : s.stop = true)
    : Step kind s .stop { s with stopPc := .returned }
  | stop (hpc : s.stopPc = .notCalled) (hframe : s.frame .stopper = none) (hstop : s.stop = false)
    : Step kind s .stop { s with stop := true, stopPc := .tickle 0 }
  | stopTickle (k : Nat) (hk : k < n) (hpc : s.stopPc = .tickle k)
      (hframe : s.frame .stopper = none)
    : Step kind s .stop
        { s with
          frame := update s.frame .stopper (some (.tickle ⟨k, hk⟩))
          stopPc := .tickle (k + 1) }
  | stopTickled (k : Nat) (hk : ¬k < n) (hpc : s.stopPc = .tickle k)
      (hframe : s.frame .stopper = none)
    : Step kind s .stop { s with stopPc := .sleep }
  | stopSleep (hpc : s.stopPc = .sleep) (hframe : s.frame .stopper = none)
    : Step kind s .stop
        { s with
          frame := update s.frame .stopper (some (.stopping .stop))
          stopPc := .check }
  | stopCheck (b : Bool) (hpc : s.stopPc = .check)
      (hframe : s.frame .stopper = some (.stopping (.ret b)))
    : Step kind s .stop
        { s with
          frame := update s.frame .stopper none
          stopPc := if b then .final 0 else .tickle 0 }
  | stopFinal (k : Nat) (hk : k < n) (hpc : s.stopPc = .final k)
      (hframe : s.frame .stopper = none)
    : Step kind s .stop
        { s with
          frame := update s.frame .stopper (some (.tickle ⟨k, hk⟩))
          stopPc := .final (k + 1) }
  | stopFinished (k : Nat) (hk : ¬k < n) (hpc : s.stopPc = .final k)
      (hframe : s.frame .stopper = none)
    : Step kind s .stop { s with stopPc := .join }
  | stopJoined (hpc : s.stopPc = .join) (hframe : s.frame .stopper = none)
    : Step kind s .stop { s with stopPc := .returned }

theorem Step.of_run {s t : State n} {act : Action n} (hact : act.onRun = some (i, a))
    (h : s.run i a = some t)
    : Step kind s act t := by
  simp only [State.run, Option.isNone_iff_eq_none, Option.ite_none_right_eq_some,
    Option.map_eq_some_iff] at h
  rcases h with ⟨hframe, core, hcore, rfl⟩
  exact .run act i a core hact hframe hcore

theorem Step.of_submit {s t : State n} (h : s.submit th fiber = some t)
    : Step kind s (.submit th fiber) t := by
  unfold State.submit at h
  split at h
  . split at h
    . next huser => cases h; exact .submit th _ fiber huser
    . cases h
  . cases h

theorem Step.of_push {s t : State n} (h : s.push th = some t) : Step kind s (.push th) t := by
  unfold State.push at h
  split at h
  . next idx fiber hframe =>
    simp only [Option.map_eq_some_iff] at h
    rcases h with ⟨core, hcore, rfl⟩
    have hstep : Run.step s.core (submitAction idx fiber) = some core := by
      cases fiber with
      | none => exact hcore
      | some f => exact hcore
    cases hempty : s.core.tasks idx with
    | nil => exact .pushEmpty th idx fiber core hframe hempty hstep
    | cons task rest => exact .push th idx fiber core hframe (by simp [hempty]) hstep
  . cases h

theorem Step.of_tickle {s t : State n} (h : s.tickle th = some t) : Step kind s (.tickle th) t := by
  unfold State.tickle at h
  split at h
  . next idx hframe =>
    split at h
    . next hidling => cases h; exact .tickle th idx hframe hidling
    . next hidling => cases h; exact .tickleNone th idx hframe (by simpa using hidling)
  . cases h

theorem Step.of_notify {s t : State n} (h : s.notify kind th = some t)
    : Step kind s (.notify th) t := by
  unfold State.notify at h
  split at h
  . next idx hframe =>
    cases kind with
    | scheduler =>
      simp only [Option.some.injEq] at h
      subst h
      by_cases hpc : s.idlePc idx = .waiting
      . simp only [hpc, ↓reduceIte]
        exact .notifyOne th idx rfl hframe hpc
      . simp only [hpc, ↓reduceIte]
        exact .notifyNone th idx rfl hframe hpc
    | ioManager => cases h; exact .notifyFd th idx rfl hframe
  . cases h

theorem returnStopping_eq_some {s t : State n} (h : s.returnStopping i pc = some t)
    : ∃ b,
        s.frame (.worker i) = some (.stopping (.ret b))
          ∧
        t = { s with
          idlePc := update s.idlePc i (pc b)
          frame := update s.frame (.worker i) none
          answered :=
            if b = false ∧ s.finalTickled i then update s.answered i true else s.answered } := by
  unfold State.returnStopping at h
  split at h
  . next b hframe => cases h; exact ⟨b, hframe, rfl⟩
  . cases h

theorem Step.of_idle {s t : State n} (h : s.idle kind i = some t) : Step kind s (.idle i) t := by
  unfold State.idle at h
  split at h
  . next hi =>
    cases hpc : s.idlePc i with
    | setIdling =>
      simp only [hpc] at h
      cases kind with
      | scheduler => cases h; exact .setIdlingCv i rfl hi hpc
      | ioManager => cases h; exact .setIdlingFd i rfl hi hpc
    | wait => simp only [hpc] at h; cases h; exact .wait i hi hpc
    | waiting => simp only [hpc] at h; cases h
    | woken => simp only [hpc] at h; cases h; exact .woken i hi hpc
    | entering =>
      simp only [hpc] at h
      rcases returnStopping_eq_some h with ⟨b, hframe, rfl⟩
      exact .entered i b hi hpc hframe
    | quit => simp only [hpc] at h; cases h; exact .quit i hi hpc
    | check =>
      simp only [hpc] at h
      cases htasks : s.core.tasks i with
      | nil =>
        simp only [htasks, List.isEmpty_nil, Bool.not_true, Bool.false_eq_true, ↓reduceIte] at h
        cases h
        exact .checkEmpty i hi hpc htasks
      | cons task rest =>
        simp only [htasks, List.isEmpty_cons, Bool.not_false, ↓reduceIte] at h
        cases h
        exact .checkBusy i hi hpc (by simp [htasks])
    | busy => simp only [hpc] at h; cases h; exact .busy i hi hpc
    | poll => simp only [hpc] at h; cases h
    | polled wakeup => simp only [hpc] at h; cases h; exact .polled i wakeup hi hpc
    | dispatch wakeup =>
      simp only [hpc] at h
      cases wakeup with
      | true => cases h; exact .readFd i hi hpc
      | false => cases h; exact .dispatched i hi hpc
    | leaving =>
      simp only [hpc] at h
      rcases returnStopping_eq_some h with ⟨b, hframe, rfl⟩
      exact .left i b hi hpc hframe
    | yield =>
      simp only [hpc, Option.map_eq_some_iff] at h
      rcases h with ⟨core, hcore, rfl⟩
      exact .idleReturn i false core hpc hcore
    | leave =>
      simp only [hpc, Option.map_eq_some_iff] at h
      rcases h with ⟨core, hcore, rfl⟩
      exact .idleReturn i true core hpc hcore
  . cases h

theorem Step.of_callStop {s t : State n} (h : s.callStop = some t) : Step kind s .stop t := by
  unfold State.callStop at h
  split at h
  . next hpc hframe =>
    split at h
    . next hstop => cases h; exact .stopAgain hpc hframe hstop
    . next hstop => cases h; exact .stop hpc hframe (by simpa using hstop)
  . next k hpc hframe =>
    unfold State.callTickle at h
    split at h
    . next hk => cases h; exact .stopTickle k hk hpc hframe
    . next hk => cases h; exact .stopTickled k hk hpc hframe
  . next hpc hframe => cases h; exact .stopSleep hpc hframe
  . next b hpc hframe => cases h; exact .stopCheck b hpc hframe
  . next k hpc hframe =>
    unfold State.callTickle at h
    split at h
    . next hk => cases h; exact .stopFinal k hk hpc hframe
    . next hk => cases h; exact .stopFinished k hk hpc hframe
  . next hpc hframe =>
    split at h
    . cases h; exact .stopJoined hpc hframe
    . cases h
  . cases h

theorem Step.of_step {s t : State n} {act : Action n} (h : step kind s act = some t)
    : Step kind s act t := by
  cases act with
  | create =>
    simp only [step, State.create, Option.map_eq_some_iff] at h
    rcases h with ⟨core, hcore, rfl⟩
    exact .create core hcore
  | submit th fiber => exact .of_submit h
  | push th => exact .of_push h
  | tickle th => exact .of_tickle h
  | notify th => exact .of_notify h
  | wake i f =>
    simp only [step, State.wake, Option.ite_none_right_eq_some, Option.map_eq_some_iff] at h
    rcases h with ⟨huser, core, hcore, rfl⟩
    exact .wake i f core huser hcore
  | deliver i =>
    simp only [step, State.deliver] at h
    split at h
    . next wakeup hpc =>
      simp only [Option.map_eq_some_iff] at h
      rcases h with ⟨core, hcore, rfl⟩
      exact .deliver i wakeup core hpc hcore
    . cases h
  | setPending i count =>
    simp only [step, State.setPending, Option.ite_none_right_eq_some, Option.some.injEq] at h
    rcases h with ⟨huser, rfl⟩
    exact .setPending i count huser
  | stopping th =>
    simp only [step, State.stopping] at h
    split at h
    . next pc hframe =>
      simp only [Option.map_eq_some_iff] at h
      rcases h with ⟨pc', hread, rfl⟩
      exact .stopping th pc pc' hframe hread
    . cases h
  | idle i => exact .of_idle h
  | spurious i =>
    simp only [step, State.spurious] at h
    split at h
    . next hpc => cases h; exact .spurious i hpc
    . cases h
  | poll i wakeup =>
    simp only [step, State.poll] at h
    split at h
    . next hpc =>
      split at h
      . next hfd => cases h; exact .poll i wakeup hpc hfd
      . cases h
    . cases h
  | stop => exact .of_callStop h
  | _ => exact .of_run rfl h

theorem core_steps {s t : State n} {act : Action n} (h : Step kind s act t)
    : (Run.machine n).Steps Machine.free s.core t.core := by
  have hone : ∀ {a core}, Run.step s.core a = some core →
      (Run.machine n).Steps Machine.free s.core core := by
    intro a core hcore
    exact (Machine.Steps.refl _).tail trivial hcore
  cases h with
  | run act i a core hact hframe hcore => exact hone hcore
  | create core hcore => exact hone hcore
  | pushEmpty th idx fiber core hframe hempty hcore => exact hone hcore
  | push th idx fiber core hframe hempty hcore => exact hone hcore
  | wake i f core huser hcore => exact hone hcore
  | deliver i wakeup core hpc hcore => exact hone hcore
  | idleReturn i term core hpc hcore => exact hone hcore
  | _ => exact Machine.Steps.refl _

/--
Whatever the threads of a scheduler do, its queues, workers and fibers go through a run of the
workers alone.
-/
theorem reachable_core {s : State n} (h : (machine kind n).Reach ok s)
    : (Run.machine n).Reachable s.core := by
  apply h.project State.core
  . intro s hs
    rw [hs]
    rfl
  . intro s a t _ hat
    exact core_steps (Step.of_step hat)

end Scheduler
end Koro
