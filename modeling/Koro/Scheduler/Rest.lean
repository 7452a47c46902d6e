import Koro.Scheduler.Kept
import Koro.Scheduler.Stopping
import Koro.Scheduler.Wakeup
import Koro.Scheduler.Waiting
import Koro.Machine.Rest

/-!
This module contains the proof that a scheduler only comes to rest when there is nothing left to do. At
rest no thread can take a step of its own: what may still happen is that somebody calls `submit` or
`stop`, that a wait ends without a notification, or that `epoll_wait` reports another descriptor.
-/

namespace Koro

namespace Run

variable {n : Nat} {s t : State n} {a : Action n}

theorem exited_step (h : ∀ i, s.worker i = .exited → s.idleTerm i = true) (hs : Step s a t)
    : ∀ i, t.worker i = .exited → t.idleTerm i = true := by
  intro i
  have := h i
  cases hs <;> grind [Function.update_apply]

theorem reachable_exited (h : (machine n).Reach ok s)
    : ∀ i, s.worker i = .exited → s.idleTerm i = true := by
  apply h.invariant
  . intro s hs
    rw [hs]
    simp [State.start]
  . intro s a t hs _ hat
    exact exited_step hs (Step.of_step hat)

theorem fibers_step (hs : Step s a t) : s.fibers ≤ t.fibers := by
  cases hs <;> first | exact Nat.le_refl _ | exact Nat.le_succ _

end Run

namespace Scheduler

open Function (update)

variable {n : Nat} {kind : Kind} {s t : State n} {act : Action n}

-- The step is the thread's own: neither what user code or an event brings, nor a wakeup out of nothing
def Internal (s : State n) : Action n → Prop
  | .create => False
  | .submit _ _ => False
  | .wake _ _ => False
  | .deliver _ => False
  | .setPending _ _ => False
  | .spurious _ => False
  | .poll _ wakeup => wakeup = true
  | .stop => s.stopPc ≠ .notCalled
  | _ => True

-- A fiber that is submitted exists
def Existing (s : State n) (act : Action n) : Prop :=
  ∀ th f, act = .submit th (some f) → f < s.core.fibers

def IdlePc.asks : IdlePc → Bool
  | .entering => true
  | .leaving => true
  | _ => false

def inStopping : Option (Frame n) → Bool
  | some (.stopping _) => true
  | _ => false

-- Who is inside of a call is at its place, and who is at its place is inside of the call
structure State.Proceeds (s : State n) : Prop where
  pushes : ∀ th idx f, s.frame th = some (.push idx (some f)) → f < s.core.fibers
  asks : ∀ i, (s.idlePc i).asks = inStopping (s.frame (.worker i))
  checks : s.stopPc = .check ↔ inStopping (s.frame .stopper) = true
  tickles : ∀ f, s.frame .stopper = some f → s.stopPc ≠ .notCalled

theorem proceeds_start : (State.start n).Proceeds := by
  constructor <;> simp [State.start, IdlePc.asks, inStopping]

theorem fibers_step (hs : Step kind s act t) : s.core.fibers ≤ t.core.fibers := by
  cases hs with
  | run act i a core hact hframe hcore => exact Run.fibers_step (Run.Step.of_step hcore)
  | create core hcore => exact Run.fibers_step (Run.Step.of_step hcore)
  | pushEmpty th idx fiber core hframe hempty hcore => exact Run.fibers_step (Run.Step.of_step hcore)
  | push th idx fiber core hframe hempty hcore => exact Run.fibers_step (Run.Step.of_step hcore)
  | wake i f core huser hcore => exact Run.fibers_step (Run.Step.of_step hcore)
  | deliver i wakeup core hpc hcore => exact Run.fibers_step (Run.Step.of_step hcore)
  | idleReturn i term core hpc hcore => exact Run.fibers_step (Run.Step.of_step hcore)
  | _ => exact Nat.le_refl _

theorem pushes_step (h : s.Proceeds) (hok : Existing s act) (hs : Step kind s act t)
    : ∀ th idx f, t.frame th = some (.push idx (some f)) → f < t.core.fibers := by
  intro th idx f hth
  apply Nat.lt_of_lt_of_le _ (fibers_step hs)
  have hbefore := h.pushes th idx f
  have hnew := hok th f
  cases hs <;> grind [Function.update_apply]

theorem asks_step (hc : s.Calls) (h : s.Proceeds) (hs : Step kind s act t)
    : ∀ i, (t.idlePc i).asks = inStopping (t.frame (.worker i)) := by
  intro i
  have hasks := h.asks i
  have hsubmit := hc.submit i
  have hidle := hc.idle i
  cases hs <;> grind [Function.update_apply, user_frame, Frame.inSubmit, IdlePc.asks, inStopping]

theorem checks_step (hc : s.Calls) (h : s.Proceeds) (hs : Step kind s act t)
    : t.stopPc = .check ↔ inStopping (t.frame .stopper) = true := by
  have hchecks := h.checks
  have hstopper := hc.stopper
  cases hs <;> grind [Function.update_apply, State.user, inStopping]

theorem called_step (h : s.Proceeds) (hs : Step kind s act t)
    : ∀ f, t.frame .stopper = some f → t.stopPc ≠ .notCalled := by
  intro f
  have htickles := h.tickles
  cases hs <;> grind [Function.update_apply, State.user]

theorem proceeds_step (hc : s.Calls) (h : s.Proceeds) (hok : Existing s act)
    (hs : Step kind s act t)
    : t.Proceeds where
  pushes := pushes_step h hok hs
  asks := asks_step hc h hs
  checks := checks_step hc h hs
  tickles := called_step h hs

theorem reachable_proceeds (h : (machine kind n).Reach Existing s) : s.Proceeds := by
  apply h.invariant_with (J := State.Calls)
  . intro s hs
    exact reachable_calls hs
  . intro s hs
    rw [hs]
    exact proceeds_start
  . intro s a t hc hs hok hat
    exact proceeds_step hc hs hok (Step.of_step hat)

-- Nobody leaves before `stop` has been called
structure State.Stays (s : State n) : Prop where
  stop : ∀ th pc, s.frame th = some (.stopping pc) → pc ≠ .stop → pc ≠ .ret false → s.stop = true
  quits : ∀ i, s.idlePc i = .quit ∨ s.idlePc i = .leave → s.stop = true
  term : ∀ i, s.core.idleTerm i = true → s.stop = true

theorem stays_start : (State.start n).Stays := by
  constructor <;> simp [State.start, Run.State.start]

theorem asked_step (h : s.Stays) (hs : Step kind s act t)
    : ∀ th pc, t.frame th = some (.stopping pc) → pc ≠ .stop → pc ≠ .ret false →
        t.stop = true := by
  intro th pc hth hstop hret
  rcases frame_step hs hth with hbefore | hpc | ⟨pc', _, hframe, hread, _, hstops, _⟩
  . exact stays_stop hs (h.stop th pc hbefore hstop hret)
  . exact absurd hpc hstop
  . have hasked := h.stop th pc' hframe
    rw [hstops]
    cases hread <;> simp_all

theorem quits_step (h : s.Stays) (hs : Step kind s act t)
    : ∀ i, t.idlePc i = .quit ∨ t.idlePc i = .leave → t.stop = true := by
  intro i hi
  apply stays_stop hs
  have hquits := h.quits i
  have hstop := h.stop (.worker i) (.ret true)
  cases hs <;> grind [Function.update_apply]

theorem idleTerm_only {a : Run.Action n} {r t : Run.State n} (hs : Run.Step r a t)
    (hi : t.idleTerm i = true)
    : r.idleTerm i = true ∨ a = .idleReturn i true := by
  cases hs <;> grind [Function.update_apply]

theorem term_step (h : s.Stays) (hs : Step kind s act t)
    : ∀ i, t.core.idleTerm i = true → t.stop = true := by
  intro i hi
  have hterm := h.term i
  have hquits := h.quits i
  apply stays_stop hs
  have hother : ∀ {a core}, Run.step s.core a = some core → a ≠ .idleReturn i true →
      core.idleTerm i = true → s.stop = true := by
    intro a core hcore ha hcoreterm
    rcases idleTerm_only (Run.Step.of_step hcore) hcoreterm with hbefore | hreturn
    . exact hterm hbefore
    . exact absurd hreturn ha
  cases hs with
  | run act j a core hact hframe hcore =>
    exact hother hcore ((onRun_actor hact).right i true) hi
  | create core hcore => exact hother hcore (by simp) hi
  | pushEmpty th idx fiber core hframe hempty hcore =>
    exact hother hcore (by cases fiber <;> simp [submitAction]) hi
  | push th idx fiber core hframe hempty hcore =>
    exact hother hcore (by cases fiber <;> simp [submitAction]) hi
  | wake j f core huser hcore => exact hother hcore (by simp) hi
  | deliver j wakeup core hpc hcore => exact hother hcore (by simp) hi
  | idleReturn j term core hpc hcore =>
    by_cases hreturn : j = i ∧ term = true
    . rcases hreturn with ⟨rfl, rfl⟩
      exact hquits (.inr hpc)
    . exact hother hcore (by simpa using hreturn) hi
  | _ => exact hterm hi

theorem reachable_stays (h : (machine kind n).Reach ok s) : s.Stays := by
  apply h.invariant
  . intro s hs
    rw [hs]
    exact stays_start
  . intro s a t hs _ hat
    have hstep := Step.of_step hat
    exact ⟨asked_step hs hstep, quits_step hs hstep, term_step hs hstep⟩

-- The places of `Scheduler::idle` and those of `IOManager::idle`
def IdlePc.belongs : IdlePc → Kind → Bool
  | .wait, kind => kind = .scheduler
  | .waiting, kind => kind = .scheduler
  | .woken, kind => kind = .scheduler
  | .entering, kind => kind = .ioManager
  | .quit, kind => kind = .ioManager
  | .check, kind => kind = .ioManager
  | .busy, kind => kind = .ioManager
  | .poll, kind => kind = .ioManager
  | .polled _, kind => kind = .ioManager
  | .dispatch _, kind => kind = .ioManager
  | _, _ => true

theorem belongs_step (h : ∀ i, (s.idlePc i).belongs kind = true) (hs : Step kind s act t)
    : ∀ i, (t.idlePc i).belongs kind = true := by
  intro i
  have := h i
  cases hs <;> grind [Function.update_apply, IdlePc.belongs]

theorem reachable_belongs (h : (machine kind n).Reach ok s) : ∀ i, (s.idlePc i).belongs kind = true := by
  apply h.invariant
  . intro s hs
    rw [hs]
    simp [State.start, IdlePc.belongs]
  . intro s a t hs _ hat
    exact belongs_step hs (Step.of_step hat)

theorem step_onRun (hact : act.onRun = some (i, a)) : step kind s act = s.run i a := by
  cases act <;> cases hact <;> rfl

theorem internal_onRun (hact : act.onRun = some (i, a)) : Internal s act := by
  cases act <;> cases hact <;> trivial

section AtRest

variable (hrest : (machine kind n).Rests Internal s) (hc : s.Calls) (hp : s.Proceeds)
include hrest hc hp

theorem rest_frame (th : Thread n) : s.frame th = none := by
  cases hth : s.frame th with
  | none => rfl
  | some f =>
    cases f with
    | push idx fiber =>
      have hpush := hrest (.push th) trivial
      cases fiber with
      | none => simp [machine, step, State.push, hth, Run.State.submit] at hpush
      | some f =>
        have hf := hp.pushes th idx f hth
        simp [machine, step, State.push, hth, Run.State.submitFiber, hf] at hpush
    | tickle idx =>
      have htickle := hrest (.tickle th) trivial
      simp only [machine, step, State.tickle, hth] at htickle
      split at htickle <;> cases htickle
    | notify idx =>
      have hnotify := hrest (.notify th) trivial
      simp only [machine, step, State.notify, hth] at hnotify
      cases kind <;> cases hnotify
    | stopping pc =>
      have hstopping := hrest (.stopping th) trivial
      cases pc with
      | ret b =>
        cases th with
        | client k => exact absurd hth (hc.client k _)
        | stopper =>
          have hpc := hp.checks.mpr (by rw [hth]; rfl)
          have hstop := hrest .stop (by simp [Internal, hpc])
          simp [machine, step, State.callStop, hpc, hth] at hstop
        | worker i =>
          have hasks := hp.asks i
          have hidle := hrest (.idle i) trivial
          rw [hth] at hasks
          have hworker : s.core.worker i = .idle := by
            apply hc.idle i
            intro hpc
            simp [hpc, IdlePc.asks, inStopping] at hasks
          simp only [machine, step, State.idle, hworker, ↓reduceIte, State.returnStopping,
            hth] at hidle
          cases hpc : s.idlePc i <;> simp_all [IdlePc.asks, inStopping]
      | queue k =>
        simp only [machine, step, State.stopping, hth, State.stoppingRead] at hstopping
        split at hstopping <;> cases hstopping
      | _ => simp [machine, step, State.stopping, hth, State.stoppingRead] at hstopping

theorem rest_worker (hasserted : ∀ i, s.core.worker i ≠ .aborted) (i : Fin n)
    : s.core.worker i = .exited ∨ s.core.worker i = .idle := by
  have hframe := rest_frame hrest hc hp (.worker i)
  have hstuck : ∀ (act : Action n) {a}, act.onRun = some (i, a) → Run.step s.core a = none := by
    intro act a hact
    have hstep : s.run i a = none := by
      rw [← step_onRun hact]
      exact hrest act (internal_onRun hact)
    simpa [State.run, hframe] using hstep
  cases hi : s.core.worker i with
  | pop =>
    have := hstuck (.pop i) rfl
    simp only [Run.step, Run.State.pop, hi] at this
    grind
  | steal k =>
    have := hstuck (.steal i false) rfl
    simp only [Run.step, Run.State.steal, hi] at this
    grind
  | noTask =>
    have := hstuck (.enterIdle i) rfl
    simp only [Run.step, Run.State.idle, hi] at this
    grind
  | idle => exact .inr rfl
  | popped task =>
    have := hstuck (.count i) rfl
    simp [Run.step, Run.State.count, hi] at this
  | counted task =>
    have := hstuck (.tryLock i) rfl
    cases task <;> simp only [Run.step, Run.State.tryLock, hi] at this
    . split at this <;> cases this
    . cases this
  | lockFailed f =>
    have := hstuck (.putBack i) rfl
    simp [Run.step, Run.State.putBack, hi] at this
  | locked f =>
    have := hstuck (.readState i) rfl
    simp only [Run.step, Run.State.readState, hi] at this
    grind
  | resuming f wrapper =>
    have := hstuck (.resume i) rfl
    simp only [Run.step, Run.State.resume, hi] at this
    split at this <;> cases this
  | running f wrapper =>
    have := hstuck (.yield i) rfl
    simp only [Run.step, Run.State.yield, Run.State.switch, hi] at this
    split at this <;> cases this
  | resumed f wrapper =>
    have := hstuck (.checkState i) rfl
    simp only [Run.step, Run.State.checkState, hi] at this
    grind
  | requeue f =>
    have := hstuck (.requeue i) rfl
    simp [Run.step, Run.State.requeue, hi] at this
  | unlocking f =>
    have := hstuck (.unlock i) rfl
    simp [Run.step, Run.State.unlock, hi] at this
  | uncount =>
    have := hstuck (.uncount i) rfl
    simp [Run.step, Run.State.uncount, hi] at this
  | exited => exact .inl rfl
  | aborted => exact absurd hi (hasserted i)

theorem rest_idle (hi : s.core.worker i = .idle)
    : s.idlePc i = .waiting ∨ (s.idlePc i = .poll ∧ s.eventFd i = 0) := by
  have hidle := hrest (.idle i) trivial
  have hframe := rest_frame hrest hc hp (.worker i)
  have hasks := hp.asks i
  simp only [machine, step, State.idle, hi, ↓reduceIte] at hidle
  rw [hframe] at hasks
  cases hpc : s.idlePc i with
  | waiting => exact .inl rfl
  | poll =>
    have hpoll := hrest (.poll i true) rfl
    simp only [machine, step, State.poll, hpc] at hpoll
    simp only [forall_const, ite_eq_right_iff] at hpoll
    refine .inr ⟨rfl, ?_⟩
    by_contra hfd
    cases hpoll (Nat.pos_of_ne_zero hfd)
  | entering => simp [hpc, IdlePc.asks, inStopping] at hasks
  | leaving => simp [hpc, IdlePc.asks, inStopping] at hasks
  | setIdling =>
    rw [hpc] at hidle
    cases kind <;> cases hidle
  | dispatch wakeup =>
    rw [hpc] at hidle
    cases wakeup <;> simp at hidle
  | yield => simp [hpc, Run.State.idleReturn, hi] at hidle
  | leave => simp [hpc, Run.State.idleReturn, hi] at hidle
  | _ => simp [hpc] at hidle

theorem rest_stop
    : s.stopPc = .notCalled
        ∨
      (s.stopPc = .join ∧ ∃ i, s.core.worker i ≠ .exited)
        ∨
      s.stopPc = .returned := by
  have hframe := rest_frame hrest hc hp .stopper
  have hchecks := hp.checks
  have hstuck : s.stopPc ≠ .notCalled → s.callStop = none := by
    intro hpc
    exact hrest .stop hpc
  rw [hframe] at hchecks
  cases hpc : s.stopPc with
  | notCalled => exact .inl rfl
  | returned => exact .inr (.inr rfl)
  | check => simp [hpc, inStopping] at hchecks
  | join =>
    refine .inr (.inl ⟨rfl, ?_⟩)
    simpa [State.callStop, hpc, hframe] using hstuck
  | _ => simp [State.callStop, hpc, hframe] at hstuck

-- Before `stop` has been called nobody leaves
theorem rest_staying (hasserted : ∀ i, s.core.worker i ≠ .aborted)
    (hexited : ∀ i, s.core.worker i = .exited → s.core.idleTerm i = true) (hf : s.Finals)
    (hstays : s.Stays) (hstop : s.stopPc = .notCalled) (i : Fin n)
    : s.core.worker i = .idle := by
  apply (rest_worker hrest hc hp hasserted i).resolve_left
  intro hi
  have := hstays.term i (hexited i hi)
  simp [hf.called hstop] at this

end AtRest

-- What is left of the callbacks when all workers wait and all queues are empty
theorem callbacks_at_rest (h : (Run.machine n).Reachable s.core)
    (hworker : ∀ i, s.core.worker i = .idle) (htasks : ∀ i, s.core.tasks i = [])
    (hcb : c < s.core.callbacks)
    : c ∈ s.core.finished
        ∨
      ∃ f < s.core.fibers, s.core.wraps f = some c ∧ (s.core.fiber f).state = .kHold := by
  rcases (Run.reachable_kept h).somewhere c hcb with
    ⟨q, task, htask, _⟩ | ⟨i, hi⟩ | ⟨f, hf, hheld⟩ | hfinished
  . simp [htasks q] at htask
  . simp [hworker i, Run.Pc.carries] at hi
  . simp only [Run.heldFor, Bool.and_eq_true, beq_iff_eq, decide_eq_true_eq] at hheld
    exact .inr ⟨f, hf, hheld⟩
  . exact .inl hfinished

/--
An `IOManager` at rest has nobody inside of `submit`, `tickle` or `stopping`. If `stop` has not been
called, all workers are blocked in `epoll_wait` over empty queues, and every callback submitted has come
to its end or its fiber is on hold. If it has been, it has returned or is joining the workers, each of
which has exited, or is blocked over an empty queue and has been told by `stopping` to stay after the
last `tickle`.
-/
theorem ioManager_at_rest (h : (machine .ioManager n).Reach Existing s)
    (hrest : (machine .ioManager n).Rests Internal s)
    : (∀ th, s.frame th = none)
        ∧
      (s.stopPc = .notCalled →
        (∀ i, s.idlePc i = .poll ∧ s.eventFd i = 0 ∧ s.core.tasks i = [])
          ∧
        ∀ c < s.core.callbacks, c ∈ s.core.finished
          ∨ ∃ f < s.core.fibers, s.core.wraps f = some c ∧ (s.core.fiber f).state = .kHold)
        ∧
      (s.stopPc ≠ .notCalled →
        (s.stopPc = .join ∨ s.stopPc = .returned)
          ∧
        ∀ i, s.core.worker i = .exited
          ∨ s.idlePc i = .poll ∧ s.core.tasks i = [] ∧ s.answered i = true) := by
  have hfree : (machine .ioManager n).Reachable s := h.mono fun _ _ _ => trivial
  have hc := reachable_calls h
  have hp := reachable_proceeds h
  have hcore := reachable_core h
  have hasserted := (Run.reachable_exclusive hcore).asserted
  have hpolls : ∀ i, s.core.worker i = .idle → s.idlePc i = .poll ∧ s.eventFd i = 0
      ∧ s.core.tasks i = [] ∧ (s.finalTickled i = true → s.answered i = true) := by
    intro i hi
    rcases rest_idle hrest hc hp hi with hpc | ⟨hpc, hfd⟩
    . have := reachable_belongs h i
      simp [hpc, IdlePc.belongs] at this
    . rcases no_lost_wakeup hfree hpc hfd with ⟨htasks | ⟨th, _, hth⟩, hfinal⟩
      . exact ⟨hpc, hfd, htasks, hfinal⟩
      . simp [rest_frame hrest hc hp th] at hth
  refine ⟨rest_frame hrest hc hp, ?_, ?_⟩
  . intro hstop
    have hidle := rest_staying hrest hc hp hasserted (Run.reachable_exited hcore)
      (reachable_finals h) (reachable_stays h) hstop
    refine ⟨?_, ?_⟩
    . intro i
      rcases hpolls i (hidle i) with ⟨hpc, hfd, htasks, _⟩
      exact ⟨hpc, hfd, htasks⟩
    . intro c hcb
      exact callbacks_at_rest hcore hidle (fun i => (hpolls i (hidle i)).right.right.left) hcb
  . intro hstop
    have hend : s.stopPc = .join ∨ s.stopPc = .returned := by
      rcases rest_stop hrest hc hp with hpc | ⟨hpc, _⟩ | hpc
      . exact absurd hpc hstop
      . exact .inl hpc
      . exact .inr hpc
    refine ⟨hend, ?_⟩
    intro i
    rcases rest_worker hrest hc hp hasserted i with hi | hi
    . exact .inl hi
    . rcases hpolls i hi with ⟨hpc, _, htasks, hfinal⟩
      refine .inr ⟨hpc, htasks, hfinal ?_⟩
      rw [finalTickled_iff]
      exact .inr hend

-- The converse: with all workers blocked nothing goes on by itself
theorem rests_of_blocked (hframe : ∀ th, s.frame th = none) (hidle : ∀ i, s.core.worker i = .idle)
    (hpc : ∀ i, s.idlePc i = .waiting ∨ (s.idlePc i = .poll ∧ s.eventFd i = 0))
    (hstop : s.stopPc = .notCalled)
    : (machine kind n).Rests Internal s := by
  intro act hin
  cases act with
  | poll i wakeup =>
    rcases hpc i with hi | ⟨hi, hfd⟩
    . simp [machine, step, State.poll, hi]
    . simp_all [machine, step, State.poll, Internal]
  | idle i => rcases hpc i with hi | ⟨hi, _⟩ <;> simp [machine, step, State.idle, hidle, hi]
  | stop => exact absurd hstop hin
  | push th => simp [machine, step, State.push, hframe]
  | tickle th => simp [machine, step, State.tickle, hframe]
  | notify th => simp [machine, step, State.notify, hframe]
  | stopping th => simp [machine, step, State.stopping, hframe]
  | create => cases hin
  | submit th fiber => cases hin
  | wake i f => cases hin
  | deliver i => cases hin
  | setPending i count => cases hin
  | spurious i => cases hin
  | _ =>
    simp [machine, step, State.run, hframe, Run.step, Run.State.pop, Run.State.steal, Run.State.idle,
      Run.State.count, Run.State.tryLock, Run.State.putBack, Run.State.readState, Run.State.resume,
      Run.State.yield, Run.State.hold, Run.State.finish, Run.State.switch, Run.State.checkState,
      Run.State.requeue, Run.State.unlock, Run.State.uncount, hidle]

-- The callback submitted is on hold, and the worker polls
def holding : List (Action 1) :=
  [.submit (.client 0) none, .push (.client 0), .tickle (.client 0), .pop 0, .count 0, .tryLock 0,
    .resume 0, .hold 0, .checkState 0, .unlock 0, .uncount 0, .pop 0, .steal 0 true, .enterIdle 0,
    .idle 0, .stopping (.worker 0), .idle 0, .idle 0]

theorem ioManager_at_rest_holding
    : ∃ s,
        (machine .ioManager 1).exec (State.start 1) holding = some s
          ∧
        s.core.callbacks = 1 ∧ s.stopPc = .notCalled
          ∧
        (∀ th, s.frame th = none)
          ∧
        (s.stopPc = .notCalled →
          (∀ i, s.idlePc i = .poll ∧ s.eventFd i = 0 ∧ s.core.tasks i = [])
            ∧
          ∀ c < s.core.callbacks, c ∈ s.core.finished
            ∨ ∃ f < s.core.fibers, s.core.wraps f = some c ∧ (s.core.fiber f).state = .kHold)
          ∧
        (s.stopPc ≠ .notCalled →
          (s.stopPc = .join ∨ s.stopPc = .returned)
            ∧
          ∀ i, s.core.worker i = .exited
            ∨ s.idlePc i = .poll ∧ s.core.tasks i = [] ∧ s.answered i = true) := by
  have hexec : (machine .ioManager 1).exec (State.start 1) holding = some _ := rfl
  refine ⟨_, hexec, rfl, rfl, ?_⟩
  apply ioManager_at_rest
  . apply Machine.Reach.of_exec holding rfl hexec
    apply Machine.Meets.of_forall
    simp [holding, Existing]
  . apply rests_of_blocked
    . intro th
      cases th with
      | worker i =>
        rw [Fin.fin_one_eq_zero i]
        rfl
      | client k => cases k <;> rfl
      | stopper => rfl
    . intro i
      rw [Fin.fin_one_eq_zero i]
      rfl
    . intro i
      rw [Fin.fin_one_eq_zero i]
      exact .inr ⟨rfl, rfl⟩
    . rfl

def Cared (s : State n) (act : Action n) : Prop :=
  Existing s act ∧ Attended s act

/--
A `Scheduler` whose every `tickle` that wakes nobody leaves nobody behind has nobody inside of a call at
rest. If `stop` has not been called, all workers sleep over empty queues, and every callback submitted has
come to its end or its fiber is on hold. If it has been, it has returned and all workers have exited.
-/
theorem scheduler_at_rest (h : (machine .scheduler n).Reach Cared s)
    (hrest : (machine .scheduler n).Rests Internal s)
    : (∀ th, s.frame th = none)
        ∧
      (s.stopPc = .notCalled →
        (∀ i, s.idlePc i = .waiting ∧ s.core.tasks i = [])
          ∧
        ∀ c < s.core.callbacks, c ∈ s.core.finished
          ∨ ∃ f < s.core.fibers, s.core.wraps f = some c ∧ (s.core.fiber f).state = .kHold)
        ∧
      (s.stopPc ≠ .notCalled → s.stopPc = .returned ∧ ∀ i, s.core.worker i = .exited) := by
  have hawake := awake_of_attended (h.mono fun _ _ hok => hok.right)
  have hc := reachable_calls h
  have hp := reachable_proceeds (h.mono fun _ _ hok => hok.left)
  have hcore := reachable_core h
  have hasserted := (Run.reachable_exclusive hcore).asserted
  have hwaits : ∀ i, s.core.worker i = .idle → s.idlePc i = .waiting ∧ s.core.tasks i = [] := by
    intro i hi
    rcases rest_idle hrest hc hp hi with hpc | ⟨hpc, _⟩
    . refine ⟨hpc, ?_⟩
      by_contra htasks
      rcases hawake.tasks i hpc htasks with ⟨th, _, hth⟩
      simp [rest_frame hrest hc hp th] at hth
    . have := reachable_belongs h i
      simp [hpc, IdlePc.belongs] at this
  refine ⟨rest_frame hrest hc hp, ?_, ?_⟩
  . intro hstop
    have hidle := rest_staying hrest hc hp hasserted (Run.reachable_exited hcore)
      (reachable_finals h) (reachable_stays h) hstop
    refine ⟨fun i => hwaits i (hidle i), ?_⟩
    intro c hcb
    exact callbacks_at_rest hcore hidle (fun i => (hwaits i (hidle i)).right) hcb
  . intro hstop
    have hend := (rest_stop hrest hc hp).resolve_left hstop
    have hexited : ∀ i, s.core.worker i = .exited := by
      intro i
      apply (rest_worker hrest hc hp hasserted i).resolve_right
      intro hi
      apply hawake.stopped i _ (hwaits i hi).left
      rw [finalTickled_iff]
      right
      rcases hend with ⟨hpc, _⟩ | hpc
      . exact .inl hpc
      . exact .inr hpc
    refine ⟨?_, hexited⟩
    rcases hend with ⟨_, i, hi⟩ | hpc
    . exact absurd (hexited i) hi
    . exact hpc

-- The callback wakes the worker, and is on hold when the worker sleeps again
def wokenOnce : List (Action 1) :=
  [.pop 0, .steal 0 true, .enterIdle 0, .idle 0, .idle 0, .submit (.client 0) none, .push (.client 0),
    .tickle (.client 0), .notify (.client 0), .idle 0, .stopping (.worker 0), .idle 0, .idle 0, .pop 0,
    .count 0, .tryLock 0, .resume 0, .hold 0, .checkState 0, .unlock 0, .uncount 0, .pop 0,
    .steal 0 true, .enterIdle 0, .idle 0, .idle 0]

def Action.submitsFiber : Action n → Bool
  | .submit _ (some _) => true
  | _ => false

theorem attended_of_unstopped (hfails : s.fails act = none) (hfinal : ∀ i, s.finalTickled i = false)
    : Attended s act := by
  constructor <;> simp [hfails, hfinal]

theorem scheduler_at_rest_wokenOnce
    : ∃ s,
        (machine .scheduler 1).exec (State.start 1) wokenOnce = some s
          ∧
        s.core.callbacks = 1 ∧ s.stopPc = .notCalled
          ∧
        (∀ th, s.frame th = none)
          ∧
        (s.stopPc = .notCalled →
          (∀ i, s.idlePc i = .waiting ∧ s.core.tasks i = [])
            ∧
          ∀ c < s.core.callbacks, c ∈ s.core.finished
            ∨ ∃ f < s.core.fibers, s.core.wraps f = some c ∧ (s.core.fiber f).state = .kHold)
          ∧
        (s.stopPc ≠ .notCalled → s.stopPc = .returned ∧ ∀ i, s.core.worker i = .exited) := by
  have hexec : (machine .scheduler 1).exec (State.start 1) wokenOnce = some _ := rfl
  have hmeets : (machine .scheduler 1).Meets
      (fun s act => act.submitsFiber = false ∧ s.fails act = none ∧ ∀ i, s.finalTickled i = false)
      (State.start 1) wokenOnce := by
    decide +kernel
  refine ⟨_, hexec, rfl, rfl, ?_⟩
  apply scheduler_at_rest
  . apply Machine.Reach.mono (Machine.Reach.of_exec wokenOnce rfl hexec hmeets)
    rintro s act ⟨hfiber, hfails, hfinal⟩
    refine ⟨?_, attended_of_unstopped hfails hfinal⟩
    rintro th f rfl
    cases hfiber
  . apply rests_of_blocked
    . intro th
      cases th with
      | worker i =>
        rw [Fin.fin_one_eq_zero i]
        rfl
      | client k => cases k <;> rfl
      | stopper => rfl
    . intro i
      rw [Fin.fin_one_eq_zero i]
      rfl
    . intro i
      rw [Fin.fin_one_eq_zero i]
      exact .inl rfl
    . rfl

end Scheduler
end Koro
