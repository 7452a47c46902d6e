import Koro.Scheduler.Run

/-!
This module contains a `Scheduler` with all of its threads: the workers with their idle fibers, any
number of clients that call `submit` from outside, and the thread that calls `stop`. Steps are one
mutex section, atomic operation or system call at a time.

The calls a thread may be inside of, `submit`, `tickle` and `stopping`, are its `Frame`: in `push` it
is before the mutex section of `submit`, in `tickle` before the read of `idling`, in `notify` before
`notify_one` or the write to the eventfd, and in `stopping` before the next read of that function.

`IdlePc` is the place of an idle fiber in `Scheduler::idle` or `IOManager::idle`. `wait` is before
`cv.wait` and `waiting` inside of it, `woken` after it. `entering` and `leaving` are the first and the
last call of `stopping`, `check` is before the test for an empty queue, `busy` where it has failed,
`poll` inside `epoll_wait`, `polled` after it, and in `dispatch` the events are handled; the flag tells
whether the wakeup channel is among those still to be handled. `answered i` says that `stopping` has
returned false to worker `i` after the last `tickle` that `stop` does for it: the code does not keep
it.
-/

namespace Koro

inductive Kind where
  | scheduler
  | ioManager
  deriving DecidableEq, Repr

namespace Scheduler

open Function (update)

inductive Thread (n : Nat) where
  | worker (i : Fin n)
  | client (k : Nat)
  | stopper
  deriving DecidableEq, Repr

inductive StoppingPc where
  | stop
  | active
  | pending
  | queue (k : Nat)
  | ret (b : Bool)
  deriving DecidableEq, Repr

inductive Frame (n : Nat) where
  | push (idx : Fin n) (fiber : Option FiberId)
  | tickle (idx : Fin n)
  | notify (idx : Fin n)
  | stopping (pc : StoppingPc)
  deriving DecidableEq, Repr

inductive IdlePc where
  | setIdling
  | wait
  | waiting
  | woken
  | entering
  | quit
  | check
  | busy
  | poll
  | polled (wakeup : Bool)
  | dispatch (wakeup : Bool)
  | leaving
  | yield
  | leave
  deriving DecidableEq, Repr

inductive StopPc where
  | notCalled
  | tickle (k : Nat)
  | sleep
  | check
  | final (k : Nat)
  | join
  | returned
  deriving DecidableEq, Repr

structure State (n : Nat) where
  core : Run.State n
  stop : Bool
  pendingEventCount : UInt64
  threadToPostIndex : Nat
  idling : Fin n → Bool
  eventFd : Fin n → Nat
  idlePc : Fin n → IdlePc
  frame : Thread n → Option (Frame n)
  stopPc : StopPc
  answered : Fin n → Bool

def State.start (n : Nat) : State n where
  core := Run.State.start n
  stop := false
  pendingEventCount := 0
  threadToPostIndex := 0
  idling := fun _ => false
  eventFd := fun _ => 0
  idlePc := fun _ => .setIdling
  frame := fun _ => none
  stopPc := .notCalled
  answered := fun _ => false

namespace State

variable {n : Nat}

-- The thread runs user code: a client always does, a worker inside of a fiber
def user (s : State n) : Thread n → Bool
  | .worker i =>
    match s.core.worker i with
    | .running _ _ => (s.frame (.worker i)).isNone
    | _ => false
  | .client k => (s.frame (.client k)).isNone
  | .stopper => false

-- `stop` has done the last `tickle` for worker `i`
def finalTickled (s : State n) (i : Fin n) : Bool :=
  match s.stopPc with
  | .final k => decide (i < k) && (decide (i.val + 1 < k) || (s.frame .stopper).isNone)
  | .join => true
  | .returned => true
  | _ => false

-- A step of `run`, where the worker is not inside of a call
def run (s : State n) (i : Fin n) (a : Run.Action n) : Option (State n) :=
  if (s.frame (.worker i)).isNone then
    (Run.step s.core a).map fun core => { s with core }
  else
    none

def create (s : State n) : Option (State n) :=
  s.core.create.map fun core => { s with core }

-- Up to the `fetch_add` of `submit`
def submit (s : State n) (t : Thread n) (fiber : Option FiberId) : Option (State n) :=
  if h : 0 < n then
    if s.user t then
      some { s with
        frame := update s.frame t
          (some (.push ⟨s.threadToPostIndex % n, Nat.mod_lt _ h⟩ fiber))
        threadToPostIndex := s.threadToPostIndex + 1
      }
    else
      none
  else
    none

def push (s : State n) (t : Thread n) : Option (State n) :=
  match s.frame t with
  | some (.push idx fiber) =>
    let needTickle := (s.core.tasks idx).isEmpty
    let core :=
      match fiber with
      | none => s.core.submit idx
      | some f => s.core.submitFiber idx f
    core.map fun core =>
      { s with
        core
        frame := update s.frame t (if needTickle then some (.tickle idx) else none)
      }
  | _ => none

def tickle (s : State n) (t : Thread n) : Option (State n) :=
  match s.frame t with
  | some (.tickle idx) =>
    if s.idling idx then
      some { s with frame := update s.frame t (some (.notify idx)) }
    else
      some { s with frame := update s.frame t none }
  | _ => none

def notify (kind : Kind) (s : State n) (t : Thread n) : Option (State n) :=
  match s.frame t with
  | some (.notify idx) =>
    match kind with
    | .scheduler =>
      some { s with
        frame := update s.frame t none
        idlePc :=
          if s.idlePc idx = .waiting then
            update s.idlePc idx .woken
          else
            s.idlePc
      }
    | .ioManager =>
      some { s with
        frame := update s.frame t none
        eventFd := update s.eventFd idx (s.eventFd idx + 1)
      }
  | _ => none

-- The callback of a waiting fiber, run by worker `i`, pushes the fiber into its own queue
def wake (s : State n) (i : Fin n) (f : FiberId) : Option (State n) :=
  if s.user (.worker i) then
    (s.core.submitFiber i f).map fun core => { s with core }
  else
    none

-- An event or a timer that worker `i` handles pushes a callback into its queue
def deliver (s : State n) (i : Fin n) : Option (State n) :=
  match s.idlePc i with
  | .dispatch _ => (s.core.submit i).map fun core => { s with core }
  | _ => none

-- What a running fiber does with channels and timers comes to changing the counter
def setPending (s : State n) (i : Fin n) (count : UInt64) : Option (State n) :=
  if s.user (.worker i) then
    some { s with pendingEventCount := count }
  else
    none

-- The next read of `stopping`, and where it leads
def stoppingRead (s : State n) : StoppingPc → Option StoppingPc
  | .stop => some (if s.stop then .active else .ret false)
  | .active => some (if s.core.activeThreadCount ≠ 0 then .ret false else .pending)
  | .pending => some (if s.pendingEventCount ≠ 0 then .ret false else .queue 0)
  | .queue k =>
    if h : k < n then
      some (if (s.core.tasks ⟨k, h⟩).isEmpty then .queue (k + 1) else .ret false)
    else
      some (.ret true)
  | .ret _ => none

def stopping (s : State n) (t : Thread n) : Option (State n) :=
  match s.frame t with
  | some (.stopping pc) =>
    (s.stoppingRead pc).map fun pc =>
      { s with frame := update s.frame t (some (.stopping pc)) }
  | _ => none

def callStopping (s : State n) (i : Fin n) (pc : IdlePc) : State n :=
  { s with
    idlePc := update s.idlePc i pc
    frame := update s.frame (.worker i) (some (.stopping .stop))
  }

def returnStopping (s : State n) (i : Fin n) (pc : Bool → IdlePc) : Option (State n) :=
  match s.frame (.worker i) with
  | some (.stopping (.ret b)) =>
    some { s with
      idlePc := update s.idlePc i (pc b)
      frame := update s.frame (.worker i) none
      answered :=
        if b = false ∧ s.finalTickled i then
          update s.answered i true
        else
          s.answered
    }
  | _ => none

-- The steps of an idle fiber but those inside of `cv.wait` and `epoll_wait`
def idle (kind : Kind) (s : State n) (i : Fin n) : Option (State n) :=
  if s.core.worker i = .idle then
    match s.idlePc i with
    | .setIdling =>
      let s := { s with idling := update s.idling i true }
      match kind with
      | .scheduler => some { s with idlePc := update s.idlePc i .wait }
      | .ioManager => some (s.callStopping i .entering)
    | .wait => some { s with idlePc := update s.idlePc i .waiting }
    | .waiting => none
    | .woken =>
      let s := { s with idling := update s.idling i false }
      some (s.callStopping i .leaving)
    | .entering => s.returnStopping i fun b => if b then .quit else .check
    | .quit =>
      some { s with
        idling := update s.idling i false
        idlePc := update s.idlePc i .leave
      }
    | .check =>
      let hasTask := !(s.core.tasks i).isEmpty
      some { s with idlePc := update s.idlePc i (if hasTask then .busy else .poll) }
    | .busy =>
      some { s with
        idling := update s.idling i false
        idlePc := update s.idlePc i .yield
      }
    | .poll => none
    | .polled wakeup =>
      some { s with
        idling := update s.idling i false
        idlePc := update s.idlePc i (.dispatch wakeup)
      }
    | .dispatch wakeup =>
      if wakeup then
        some { s with
          eventFd := update s.eventFd i 0
          idlePc := update s.idlePc i (.dispatch false)
        }
      else
        some (s.callStopping i .leaving)
    | .leaving => s.returnStopping i fun b => if b then .leave else .yield
    | .yield =>
      (s.core.idleReturn i false).map fun core =>
        { s with core, idlePc := update s.idlePc i .setIdling }
    | .leave =>
      (s.core.idleReturn i true).map fun core =>
        { s with core, idlePc := update s.idlePc i .setIdling }
  else
    none

-- `cv.wait` may return without a `notify_one`
def spurious (s : State n) (i : Fin n) : Option (State n) :=
  match s.idlePc i with
  | .waiting => some { s with idlePc := update s.idlePc i .woken }
  | _ => none

-- `epoll_wait` returns at any time, for other descriptors, but reports the eventfd only if it is
-- readable
def poll (s : State n) (i : Fin n) (wakeup : Bool) : Option (State n) :=
  match s.idlePc i with
  | .poll =>
    if wakeup = true → 0 < s.eventFd i then
      some { s with idlePc := update s.idlePc i (.polled wakeup) }
    else
      none
  | _ => none

def callTickle (s : State n) (k : Nat) (pc : Nat → StopPc) (after : StopPc) : State n :=
  if h : k < n then
    { s with
      frame := update s.frame .stopper (some (.tickle ⟨k, h⟩))
      stopPc := pc (k + 1)
    }
  else
    { s with stopPc := after }

def callStop (s : State n) : Option (State n) :=
  match s.stopPc, s.frame .stopper with
  | .notCalled, none =>
    if s.stop then
      some { s with stopPc := .returned }
    else
      some { s with stop := true, stopPc := .tickle 0 }
  | .tickle k, none => some (s.callTickle k .tickle .sleep)
  | .sleep, none =>
    some { s with
      frame := update s.frame .stopper (some (.stopping .stop))
      stopPc := .check
    }
  | .check, some (.stopping (.ret b)) =>
    some { s with
      frame := update s.frame .stopper none
      stopPc := if b then .final 0 else .tickle 0
    }
  | .final k, none => some (s.callTickle k .final .join)
  | .join, none =>
    if ∀ i, s.core.worker i = .exited then
      some { s with stopPc := .returned }
    else
      none
  | _, _ => none

end State

inductive Action (n : Nat) where
  | pop (i : Fin n)
  | steal (i : Fin n) (ownsLock : Bool)
  | enterIdle (i : Fin n)
  | count (i : Fin n)
  | tryLock (i : Fin n)
  | putBack (i : Fin n)
  | readState (i : Fin n)
  | resume (i : Fin n)
  | yield (i : Fin n)
  | hold (i : Fin n)
  | finish (i : Fin n)
  | checkState (i : Fin n)
  | requeue (i : Fin n)
  | unlock (i : Fin n)
  | uncount (i : Fin n)
  | create
  | submit (t : Thread n) (fiber : Option FiberId)
  | push (t : Thread n)
  | tickle (t : Thread n)
  | notify (t : Thread n)
  | wake (i : Fin n) (f : FiberId)
  | deliver (i : Fin n)
  | setPending (i : Fin n) (count : UInt64)
  | stopping (t : Thread n)
  | idle (i : Fin n)
  | spurious (i : Fin n)
  | poll (i : Fin n) (wakeup : Bool)
  | stop
  deriving DecidableEq, Repr

def step (kind : Kind) (s : State n) : Action n → Option (State n)
  | .pop i => s.run i (.pop i)
  | .steal i ownsLock => s.run i (.steal i ownsLock)
  | .enterIdle i => s.run i (.idle i)
  | .count i => s.run i (.count i)
  | .tryLock i => s.run i (.tryLock i)
  | .putBack i => s.run i (.putBack i)
  | .readState i => s.run i (.readState i)
  | .resume i => s.run i (.resume i)
  | .yield i => s.run i (.yield i)
  | .hold i => s.run i (.hold i)
  | .finish i => s.run i (.finish i)
  | .checkState i => s.run i (.checkState i)
  | .requeue i => s.run i (.requeue i)
  | .unlock i => s.run i (.unlock i)
  | .uncount i => s.run i (.uncount i)
  | .create => s.create
  | .submit t fiber => s.submit t fiber
  | .push t => s.push t
  | .tickle t => s.tickle t
  | .notify t => s.notify kind t
  | .wake i f => s.wake i f
  | .deliver i => s.deliver i
  | .setPending i count => s.setPending i count
  | .stopping t => s.stopping t
  | .idle i => s.idle kind i
  | .spurious i => s.spurious i
  | .poll i wakeup => s.poll i wakeup
  | .stop => s.callStop

def machine (kind : Kind) (n : Nat) : Machine (State n) (Action n) where
  init s := s = State.start n
  step := step kind

end Scheduler
end Koro
