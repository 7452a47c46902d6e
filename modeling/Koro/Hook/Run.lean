import Koro.IOManager.Sections
import Koro.Scheduler.Run

/-!
This module contains fibers that call the hooked `read`, `write`, `accept` (`do_io`) and `close`, with
the workers that run them, dispatch events and execute callbacks. Steps are one mutex section, atomic
operation, system call or fiber switch at a time.

`ctl f` is the place of fiber `f`. In `user` it runs what it was made for, and has executed nothing of
it yet where that is the callback of a wait. `bind` and `io` are in `do_io`, before what the name says,
`close` is in `close` and `removeChannel`. `push` and `done` are in the callback of a wait, after it has
set `triggered` and after its end.

A wait is named by the number of waits before it: its callback holds the fiber (`weak_fiber`) and the
flag `triggered`. `pushes` counts the entries its callback has pushed; the code keeps no such number.
`body c` is what callback `c` calls, and `dispatch i` is how far the idle fiber of worker `i` is with
the events that `epoll_wait` has returned, where `push` is in `triggerEvent` with a copy made.

`file fd` is what the kernel has under a descriptor: nothing, or a file and whether it is in
`O_NONBLOCK` mode. `owner i fd` is the channel for which the `epoll_ctl` was that made the entry for `fd`
in the epoller of worker `i` what it is; an event keeps the `source` that its entry had when it was
returned. The code knows of neither.
-/

namespace Koro
namespace Hook

open Function (update)
open IOManager (Channels.State)

abbrev WaitId := Nat

structure Wait where
  fiber : FiberId
  triggered : Bool
  pushes : Nat
  deriving DecidableEq, Repr

inductive Body where
  | user
  | wake (w : WaitId)
  | error (ch : ChannelId)
  deriving DecidableEq, Repr

inductive IoPc where
  | sysNonBlock
  | setNonBlocking
  | call
  | userNonBlock
  | register
  | count (w : WaitId)
  | hold (w : WaitId)
  | unregister (w : WaitId)
  | uncount
  deriving DecidableEq, Repr

inductive ClosePc where
  | lookup
  | check (ch : ChannelId)
  | reset (ch : ChannelId)
  | clear (ch : ChannelId)
  | remove (ch : ChannelId)
  | sysClose
  deriving DecidableEq, Repr

inductive Ctl where
  | user
  | bind (fd : Nat) (e : Event)
  | io (ch : ChannelId) (e : Event) (pc : IoPc)
  | close (fd : Nat) (pc : ClosePc)
  | push (w : WaitId)
  | done
  deriving DecidableEq, Repr

structure Ready where
  fd : Nat
  events : UInt32
  source : Option ChannelId
  deriving DecidableEq, Repr

inductive Dispatch where
  | none
  | events (evs : List Ready)
  | handle (ch : ChannelId) (ev : Ready) (triggers : List Trigger) (evs : List Ready)
  | push (ch : ChannelId) (ev : Ready) (cb : Body) (triggers : List Trigger) (evs : List Ready)
  deriving DecidableEq, Repr

structure State (n : Nat) where
  core : Run.State n
  io : IOManager.Channels.State n WaitId
  ctl : FiberId → Ctl
  body : CallbackId → Body
  wait : WaitId → Wait
  waits : Nat
  dispatch : Fin n → Dispatch
  file : Nat → Option Bool
  owner : Fin n → Nat → Option ChannelId

def State.start (n : Nat) : State n where
  core := Run.State.start n
  io := IOManager.Channels.State.start n WaitId
  ctl := fun _ => .user
  body := fun _ => .user
  wait := fun _ => { fiber := 0, triggered := false, pushes := 0 }
  waits := 0
  dispatch := fun _ => .none
  file := fun _ => none
  owner := fun _ _ => none

-- The copy that `triggerEvent` makes
def copied (c : Channel n WaitId) : Trigger → Option Body
  | .err => c.errorCallback.map .error
  | .event e => (c.callback e).map .wake

namespace State

variable {n : Nat}

-- The fiber that worker `i` runs, and its place
def running (s : State n) (i : Fin n) : Option (FiberId × Ctl) :=
  match s.core.worker i with
  | .running f _ => some (f, s.ctl f)
  | _ => none

-- What a fiber calls that `run` has made for a callback
def calls (s : State n) (f : FiberId) : Body :=
  match s.core.wraps f with
  | some c => s.body c
  | none => .user

def goto (s : State n) (f : FiberId) (c : Ctl) : State n :=
  { s with ctl := update s.ctl f c }

def run (s : State n) (a : Run.Action n) : Option (State n) :=
  (Run.step s.core a).map fun core => { s with core }

def post (s : State n) (q : Fin n) (cb : Body) : Option (State n) :=
  (s.core.submit q).map fun core =>
    { s with
      core
      body := update s.body s.core.callbacks cb
    }

-- User code switches out of its fiber
def userSwitch (s : State n) (i : Fin n) (a : Run.Action n) : Option (State n) :=
  match s.running i with
  | some (f, .user) => if s.calls f = .user then s.run a else none
  | _ => none

def callDoIo (s : State n) (i : Fin n) (fd : Nat) (e : Event) : Option (State n) :=
  match s.running i with
  | some (f, .user) => if s.calls f = .user then some (s.goto f (.bind fd e)) else none
  | _ => none

def bindTaskQueue (s : State n) (i : Fin n) : Option (State n) :=
  match s.running i with
  | some (f, .bind fd e) =>
    (s.io.bindTaskQueue (some i) fd).map fun (io, ch) =>
      { s.goto f (.io ch e .sysNonBlock) with io }
  | _ => none

def sysNonBlock (s : State n) (i : Fin n) : Option (State n) :=
  match s.running i with
  | some (f, .io ch e .sysNonBlock) =>
    let c := { s.io.channel ch with sysNonBlock := true }
    let pc := if (s.io.channel ch).sysNonBlock then .call else .setNonBlocking
    some { s.goto f (.io ch e pc) with
      io := { s.io with channel := update s.io.channel ch c }
    }
  | _ => none

-- `fcntl`, which fails on a descriptor that is not open only
def setNonBlocking (s : State n) (i : Fin n) : Option (State n) :=
  match s.running i with
  | some (f, .io ch e .setNonBlocking) =>
    let fd := (s.io.channel ch).fd
    some { s.goto f (.io ch e .call) with
      file := update s.file fd ((s.file fd).map fun _ => true)
    }
  | _ => none

-- `again` says that `sys_func` has failed with `EAGAIN` or `EWOULDBLOCK`
def call (s : State n) (i : Fin n) (again : Bool) : Option (State n) :=
  match s.running i with
  | some (f, .io ch e .call) =>
    some (s.goto f (if again then .io ch e .userNonBlock else .user))
  | _ => none

def userNonBlock (s : State n) (i : Fin n) : Option (State n) :=
  match s.running i with
  | some (f, .io ch e .userNonBlock) =>
    some (s.goto f (if (s.io.channel ch).userNonBlock then .user else .io ch e .register))
  | _ => none

-- Who owns the entry of `ch` after an `epoll_ctl`
def own (s : State n) (ch : ChannelId) (source : Option ChannelId) (ok : Bool)
    : Fin n → Nat → Option ChannelId :=
  match (s.io.channel ch).taskQueue with
  | some q => if ok then update s.owner q (update (s.owner q) (s.io.channel ch).fd source) else s.owner
  | none => s.owner

-- The callback is made and `registerEvent` called, up to the end of its mutex section
def registerEvent (s : State n) (i : Fin n) (ok : Bool) : Option (State n) :=
  match s.running i with
  | some (f, .io ch e .register) =>
    (s.io.registerLocked ch e (some s.waits) true ok).map fun io =>
      { s.goto f (.io ch e (.count s.waits)) with
        io
        wait := update s.wait s.waits { fiber := f, triggered := false, pushes := 0 }
        waits := s.waits + 1
        owner := s.own ch (some ch) ok
      }
  | _ => none

def addPending (s : State n) (i : Fin n) : Option (State n) :=
  match s.running i with
  | some (f, .io ch e (.count w)) =>
    some { s.goto f (.io ch e (.hold w)) with io := s.io.addPending }
  | _ => none

def hold (s : State n) (i : Fin n) : Option (State n) :=
  match s.running i with
  | some (f, .io ch e (.hold w)) => (s.goto f (.io ch e (.unregister w))).run (.hold i)
  | _ => s.userSwitch i (.hold i)

def unregisterEvent (s : State n) (i : Fin n) (ok : Bool) : Option (State n) :=
  match s.running i with
  | some (f, .io ch e (.unregister _)) =>
    (s.io.unregisterLocked ch e ok).map fun io =>
      { s.goto f (.io ch e .uncount) with
        io
        owner := s.own ch (some ch) ok
      }
  | _ => none

def subPending (s : State n) (i : Fin n) : Option (State n) :=
  match s.running i with
  | some (f, .io ch e .uncount) =>
    some { s.goto f (.io ch e .call) with io := s.io.subPending }
  | _ => none

def callClose (s : State n) (i : Fin n) (fd : Nat) : Option (State n) :=
  match s.running i with
  | some (f, .user) => if s.calls f = .user then some (s.goto f (.close fd .lookup)) else none
  | _ => none

-- The next step of `close`
def close (s : State n) (i : Fin n) (ok : Bool) : Option (State n) :=
  match s.running i with
  | some (f, .close fd .lookup) =>
    match s.io.chs[fd]? with
    | some (some ch) => some (s.goto f (.close fd (.check ch)))
    | _ => some (s.goto f (.close fd .sysClose))
  | some (f, .close fd (.check ch)) =>
    if (s.io.channel ch).taskQueue = none then
      some (s.goto f (.close fd .sysClose))
    else
      some (s.goto f (.close fd (.reset ch)))
  | some (f, .close fd (.reset ch)) =>
    some { s.goto f (.close fd (.clear ch)) with io := s.io.resetEntry ch }
  | some (f, .close fd (.clear ch)) =>
    some { s.goto f (.close fd (.remove ch)) with io := s.io.clearCallbacks ch }
  | some (f, .close fd (.remove ch)) =>
    (s.io.removeFromEpoll ch ok).map fun io =>
      { s.goto f (.close fd .sysClose) with
        io
        owner := if (s.io.channel ch).inEpoll then s.own ch none ok else s.owner
      }
  | some (f, .close fd .sysClose) =>
    some { s.goto f .user with
      io := s.io.sysClose fd
      file := update s.file fd none
      owner := fun q => update (s.owner q) fd none
    }
  | _ => none

-- The callback of a wait, from its `exchange`
def exchange (s : State n) (i : Fin n) : Option (State n) :=
  match s.running i with
  | some (f, .user) =>
    match s.calls f with
    | .wake w =>
      if (s.wait w).triggered then
        some (s.goto f .done)
      else
        some { s.goto f (.push w) with
          wait := update s.wait w { s.wait w with triggered := true }
        }
    | _ => none
  | _ => none

-- A fiber inside of `do_io` owns itself
def owned (s : State n) (f : FiberId) : Bool :=
  match s.ctl f with
  | .bind _ _ => true
  | .io _ _ _ => true
  | _ => false

-- `lock` says that `weak_fiber.lock` has found the fiber
def pushFiber (s : State n) (i : Fin n) (lock : Bool) : Option (State n) :=
  match s.running i with
  | some (f, .push w) =>
    if lock then
      (s.core.submitFiber i (s.wait w).fiber).map fun core =>
        { s.goto f .done with
          core
          wait := update s.wait w { s.wait w with pushes := (s.wait w).pushes + 1 }
        }
    else if s.owned (s.wait w).fiber then
      none
    else
      some (s.goto f .done)
  | _ => none

def handleError (s : State n) (i : Fin n) : Option (State n) :=
  match s.running i with
  | some (f, .user) =>
    match s.calls f with
    | .error _ => some (s.goto f .done)
    | _ => none
  | _ => none

def finish (s : State n) (i : Fin n) : Option (State n) :=
  match s.running i with
  | some (_, .done) => s.run (.finish i)
  | _ => s.userSwitch i (.finish i)

def idleReturn (s : State n) (i : Fin n) (term : Bool) : Option (State n) :=
  if s.dispatch i = .none then
    s.run (.idleReturn i term)
  else
    none

-- `open`, `socket` or the like, by anybody
def openFile (s : State n) (fd : Nat) (nonBlock : Bool) : Option (State n) :=
  if s.file fd = none then
    some { s with file := update s.file fd (some nonBlock) }
  else
    none

-- `epoll_wait` reports descriptors of the epoller
def poll (s : State n) (i : Fin n) (evs : List (Nat × UInt32)) : Option (State n) :=
  if s.core.worker i = .idle ∧ s.dispatch i = .none
      ∧ ∀ ev ∈ evs, (s.io.interest i ev.1).isSome then
    let ready := evs.map fun (fd, events) => { fd, events, source := s.owner i fd }
    some { s with dispatch := update s.dispatch i (.events ready) }
  else
    none

-- The next step of the loop over the events
def dispatchNext (s : State n) (i : Fin n) : Option (State n) :=
  match s.dispatch i with
  | .none => none
  | .events [] => some { s with dispatch := update s.dispatch i .none }
  | .events (ev :: evs) =>
    match s.io.chs[ev.fd]? with
    | some (some ch) =>
      let triggers := Channel.handleEvent ev.events
      some { s with dispatch := update s.dispatch i (.handle ch ev triggers evs) }
    | _ => some { s with dispatch := update s.dispatch i (.events evs) }
  | .handle _ _ [] evs => some { s with dispatch := update s.dispatch i (.events evs) }
  | .handle ch ev (trigger :: triggers) evs =>
    match copied (s.io.channel ch) trigger with
    | some cb => some { s with dispatch := update s.dispatch i (.push ch ev cb triggers evs) }
    | none => some { s with dispatch := update s.dispatch i (.handle ch ev triggers evs) }
  | .push ch ev cb triggers evs =>
    match (s.io.channel ch).taskQueue with
    | some q =>
      (s.post q cb).map fun s =>
        { s with dispatch := update s.dispatch i (.handle ch ev triggers evs) }
    | none => none

end State

inductive Action (n : Nat) where
  | run (a : Run.Action n)
  | create
  | submit (q : Fin n)
  | submitFiber (q : Fin n) (f : FiberId)
  | yield (i : Fin n)
  | hold (i : Fin n)
  | finish (i : Fin n)
  | callDoIo (i : Fin n) (fd : Nat) (e : Event)
  | bindTaskQueue (i : Fin n)
  | sysNonBlock (i : Fin n)
  | setNonBlocking (i : Fin n)
  | call (i : Fin n) (again : Bool)
  | userNonBlock (i : Fin n)
  | registerEvent (i : Fin n) (ok : Bool)
  | addPending (i : Fin n)
  | unregisterEvent (i : Fin n) (ok : Bool)
  | subPending (i : Fin n)
  | callClose (i : Fin n) (fd : Nat)
  | close (i : Fin n) (ok : Bool)
  | exchange (i : Fin n)
  | pushFiber (i : Fin n) (lock : Bool)
  | handleError (i : Fin n)
  | idleReturn (i : Fin n) (term : Bool)
  | openFile (fd : Nat) (nonBlock : Bool)
  | poll (i : Fin n) (evs : List (Nat × UInt32))
  | dispatchNext (i : Fin n)
  deriving DecidableEq, Repr

-- The steps that a worker takes in `run` itself
def inRun : Run.Action n → Bool
  | .pop _ => true
  | .steal _ _ => true
  | .idle _ => true
  | .count _ => true
  | .tryLock _ => true
  | .putBack _ => true
  | .readState _ => true
  | .resume _ => true
  | .checkState _ => true
  | .requeue _ => true
  | .unlock _ => true
  | .uncount _ => true
  | _ => false

def step (s : State n) : Action n → Option (State n)
  | .run a => if inRun a then s.run a else none
  | .create => s.run .create
  | .submit q => s.post q .user
  | .submitFiber q f => s.run (.submitFiber q f)
  | .yield i => s.userSwitch i (.yield i)
  | .hold i => s.hold i
  | .finish i => s.finish i
  | .callDoIo i fd e => s.callDoIo i fd e
  | .bindTaskQueue i => s.bindTaskQueue i
  | .sysNonBlock i => s.sysNonBlock i
  | .setNonBlocking i => s.setNonBlocking i
  | .call i again => s.call i again
  | .userNonBlock i => s.userNonBlock i
  | .registerEvent i ok => s.registerEvent i ok
  | .addPending i => s.addPending i
  | .unregisterEvent i ok => s.unregisterEvent i ok
  | .subPending i => s.subPending i
  | .callClose i fd => s.callClose i fd
  | .close i ok => s.close i ok
  | .exchange i => s.exchange i
  | .pushFiber i lock => s.pushFiber i lock
  | .handleError i => s.handleError i
  | .idleReturn i term => s.idleReturn i term
  | .openFile fd nonBlock => s.openFile fd nonBlock
  | .poll i evs => s.poll i evs
  | .dispatchNext i => s.dispatchNext i

def machine (n : Nat) : Machine (State n) (Action n) where
  init s := s = State.start n
  step := step

end Hook
end Koro
