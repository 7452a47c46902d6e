import Koro.Fiber
import Koro.Machine.Basic
import Mathlib.Logic.Function.Basic

/-!
This module contains `Scheduler::run` and `Scheduler::stealTask` as the steps of `n` workers that
share their task queues, one mutex section, atomic operation or fiber switch at a time.

`Pc` is the place of a worker in the loop of `run`, named by what the worker does next:
`pop` locks its own queue, `steal k` tries the queue `k` places further on, `noTask` looks at
`idle_fiber`, `popped` increments `active_thread_count_`, `counted` calls `tryLock` or makes the
wrapper fiber of a callback, `lockFailed` puts the entry back, `locked` compares the state with
`kTerm`, `resuming` calls `resume`, `resumed` compares the state with `kReady`, `requeue` puts the
fiber into its own queue, `unlocking` calls `unlock`, `uncount` decrements `active_thread_count_`.
In `idle` and `running` the worker is inside `idle_fiber` or the fiber named; the flag tells the
branch that made a `fiber_wrapper`, which lacks the assertion after `resume`. `exited` is past the
loop, and `aborted` is where an assertion has failed.

Of the fields of the state `tasks i` is `task_queues_[i]->tasks` and `idleTerm i` says that the
`idle_fiber` of worker `i` is `kTerm`. `fibers` and `callbacks` count the fibers constructed and the
callbacks pushed so far. `wraps f` is the callback that `run` made fiber `f` for, and `entered` and
`finished` list the callbacks whose body was entered and has returned: the code keeps none of these
three.
-/

namespace Koro
namespace Run

open Function (update)

inductive Pc where
  | pop
  | steal (k : Nat)
  | noTask
  | idle
  | popped (task : ScheduledTask)
  | counted (task : ScheduledTask)
  | lockFailed (f : FiberId)
  | locked (f : FiberId)
  | resuming (f : FiberId) (wrapper : Bool)
  | running (f : FiberId) (wrapper : Bool)
  | resumed (f : FiberId) (wrapper : Bool)
  | requeue (f : FiberId)
  | unlocking (f : FiberId)
  | uncount
  | exited
  | aborted
  deriving DecidableEq, Repr

structure State (n : Nat) where
  tasks : Fin n → List ScheduledTask
  worker : Fin n → Pc
  idleTerm : Fin n → Bool
  activeThreadCount : Nat
  fiber : FiberId → Fiber
  fibers : Nat
  callbacks : Nat
  wraps : FiberId → Option CallbackId
  entered : List CallbackId
  finished : List CallbackId

-- After `Scheduler::init`
def State.start (n : Nat) : State n where
  tasks := fun _ => []
  worker := fun _ => .pop
  idleTerm := fun _ => false
  activeThreadCount := 0
  fiber := fun _ => Fiber.new none
  fibers := 0
  callbacks := 0
  wraps := fun _ => none
  entered := []
  finished := []

namespace State

variable {n : Nat}

def create (s : State n) : Option (State n) :=
  some { s with
    fiber := update s.fiber s.fibers (Fiber.new none)
    fibers := s.fibers + 1
  }

-- The mutex section of `submit`, or of whatever else queues a callback
def submit (s : State n) (q : Fin n) : Option (State n) :=
  some { s with
    tasks := update s.tasks q (s.tasks q ++ [.cb s.callbacks])
    callbacks := s.callbacks + 1
  }

def submitFiber (s : State n) (q : Fin n) (f : FiberId) : Option (State n) :=
  if f < s.fibers then
    some { s with tasks := update s.tasks q (s.tasks q ++ [.fiber f]) }
  else
    none

def pop (s : State n) (i : Fin n) : Option (State n) :=
  match s.worker i with
  | .pop =>
    match s.tasks i with
    | [] => some { s with worker := update s.worker i (.steal 1) }
    | task :: rest =>
      some { s with
        worker := update s.worker i (.popped task)
        tasks := update s.tasks i rest
      }
  | _ => none

def victim (thief : Fin n) (k : Nat) : Fin n :=
  ⟨(thief + k) % n, Nat.mod_lt _ thief.pos⟩

-- One iteration of the loop of `stealTask`: `ownsLock` is what `std::try_to_lock` came to
def steal (s : State n) (i : Fin n) (ownsLock : Bool) : Option (State n) :=
  match s.worker i with
  | .steal k =>
    if k < n then
      match ownsLock, (s.tasks (victim i k)).getLast? with
      | true, some task =>
        some { s with
          worker := update s.worker i (.popped task)
          tasks := update s.tasks (victim i k) (s.tasks (victim i k)).dropLast
        }
      | _, _ => some { s with worker := update s.worker i (.steal (k + 1)) }
    else
      some { s with worker := update s.worker i .noTask }
  | _ => none

def idle (s : State n) (i : Fin n) : Option (State n) :=
  match s.worker i with
  | .noTask =>
    if s.idleTerm i then
      some { s with worker := update s.worker i .exited }
    else
      some { s with worker := update s.worker i .idle }
  | _ => none

-- `idle` yields, or breaks out of its loop so that `idle_fiber` terminates
def idleReturn (s : State n) (i : Fin n) (term : Bool) : Option (State n) :=
  match s.worker i with
  | .idle =>
    some { s with
      worker := update s.worker i .pop
      idleTerm := update s.idleTerm i term
    }
  | _ => none

def count (s : State n) (i : Fin n) : Option (State n) :=
  match s.worker i with
  | .popped task =>
    some { s with
      worker := update s.worker i (.counted task)
      activeThreadCount := s.activeThreadCount + 1
    }
  | _ => none

def tryLock (s : State n) (i : Fin n) : Option (State n) :=
  match s.worker i with
  | .counted (.fiber f) =>
    match (s.fiber f).tryLock with
    | (false, _) => some { s with worker := update s.worker i (.lockFailed f) }
    | (true, fb) =>
      some { s with
        worker := update s.worker i (.locked f)
        fiber := update s.fiber f fb
      }
  | .counted (.cb c) =>
    some { s with
      worker := update s.worker i (.resuming s.fibers true)
      fiber := update s.fiber s.fibers (Fiber.new (some c)).tryLock.2
      fibers := s.fibers + 1
      wraps := update s.wraps s.fibers (some c)
    }
  | _ => none

def putBack (s : State n) (i : Fin n) : Option (State n) :=
  match s.worker i with
  | .lockFailed f =>
    some { s with
      worker := update s.worker i .uncount
      tasks := update s.tasks i (s.tasks i ++ [.fiber f])
    }
  | _ => none

def readState (s : State n) (i : Fin n) : Option (State n) :=
  match s.worker i with
  | .locked f =>
    if (s.fiber f).state = .kTerm then
      some { s with worker := update s.worker i (.unlocking f) }
    else
      some { s with worker := update s.worker i (.resuming f false) }
  | _ => none

def resume (s : State n) (i : Fin n) : Option (State n) :=
  match s.worker i with
  | .resuming f wrapper =>
    match (s.fiber f).resume with
    | none => some { s with worker := update s.worker i .aborted }
    | some fb =>
      -- The first time the context is at the entry of `mainFunc`, which calls `cb_`
      some { s with
        worker := update s.worker i (.running f wrapper)
        fiber := update s.fiber f { fb with started := true }
        entered := if fb.started then s.entered else s.entered ++ fb.cb.toList
      }
  | _ => none

def switch (s : State n) (i : Fin n) (out : Fiber → Option Fiber)
    (finished : Fiber → List CallbackId)
    : Option (State n) :=
  match s.worker i with
  | .running f wrapper =>
    match out (s.fiber f) with
    | none => some { s with worker := update s.worker i .aborted }
    | some fb =>
      some { s with
        worker := update s.worker i (.resumed f wrapper)
        fiber := update s.fiber f fb
        finished := s.finished ++ finished (s.fiber f)
      }
  | _ => none

def yield (s : State n) (i : Fin n) : Option (State n) :=
  s.switch i Fiber.yield fun _ => []

def hold (s : State n) (i : Fin n) : Option (State n) :=
  s.switch i Fiber.hold fun _ => []

def finish (s : State n) (i : Fin n) : Option (State n) :=
  s.switch i Fiber.mainFuncEnd fun fb => fb.cb.toList

def checkState (s : State n) (i : Fin n) : Option (State n) :=
  match s.worker i with
  | .resumed f wrapper =>
    if wrapper = false ∧ (s.fiber f).state = .kRunning then
      some { s with worker := update s.worker i .aborted }
    else if (s.fiber f).state = .kReady then
      some { s with worker := update s.worker i (.requeue f) }
    else
      some { s with worker := update s.worker i (.unlocking f) }
  | _ => none

def requeue (s : State n) (i : Fin n) : Option (State n) :=
  match s.worker i with
  | .requeue f =>
    some { s with
      worker := update s.worker i (.unlocking f)
      tasks := update s.tasks i (s.tasks i ++ [.fiber f])
    }
  | _ => none

def unlock (s : State n) (i : Fin n) : Option (State n) :=
  match s.worker i with
  | .unlocking f =>
    some { s with
      worker := update s.worker i .uncount
      fiber := update s.fiber f (s.fiber f).unlock
    }
  | _ => none

def uncount (s : State n) (i : Fin n) : Option (State n) :=
  match s.worker i with
  | .uncount =>
    some { s with
      worker := update s.worker i .pop
      activeThreadCount := s.activeThreadCount - 1
    }
  | _ => none

end State

inductive Action (n : Nat) where
  | create
  | submit (q : Fin n)
  | submitFiber (q : Fin n) (f : FiberId)
  | pop (i : Fin n)
  | steal (i : Fin n) (ownsLock : Bool)
  | idle (i : Fin n)
  | idleReturn (i : Fin n) (term : Bool)
  | count (i : Fin n)
  | tryLock (i : Fin n)
  | putBack (i : Fin n)
  | readState (i : Fin n)
  | resume (i : Fin n)
  | yield (i : Fin n)
  | hold (i : Fin n)
  | finish (i : Fin n)
  | checkState (i : Fin n)
  | requeue (i : Fin n)
  | unlock (i : Fin n)
  | uncount (i : Fin n)
  deriving DecidableEq, Repr

def step (s : State n) : Action n → Option (State n)
  | .create => s.create
  | .submit q => s.submit q
  | .submitFiber q f => s.submitFiber q f
  | .pop i => s.pop i
  | .steal i ownsLock => s.steal i ownsLock
  | .idle i => s.idle i
  | .idleReturn i term => s.idleReturn i term
  | .count i => s.count i
  | .tryLock i => s.tryLock i
  | .putBack i => s.putBack i
  | .readState i => s.readState i
  | .resume i => s.resume i
  | .yield i => s.yield i
  | .hold i => s.hold i
  | .finish i => s.finish i
  | .checkState i => s.checkState i
  | .requeue i => s.requeue i
  | .unlock i => s.unlock i
  | .uncount i => s.uncount i

def machine (n : Nat) : Machine (State n) (Action n) where
  init s := s = State.start n
  step := step

end Run
end Koro
