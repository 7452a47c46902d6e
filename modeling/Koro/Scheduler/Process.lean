import Koro.Machine.Basic
import Koro.Task
import Mathlib.Logic.Function.Basic

/-!
This module contains the `Scheduler` and `IOManager` objects of one process, with what they share:
the function-local static of `Scheduler::init` and the channel table.

An object is named by the number of objects constructed before it. In an `Instance` a member of
`taskQueues` is `none` where the `unique_ptr` is null, a member of `threads` says whether the
`std::jthread` has been started, and `inited` whether a call of `init()` has returned: the code does
not keep the last one. The proofs it carries are the assertion of the constructor and that both
vectors are resized to the same count.

Of the state `initialized` is the object whose lambda the static was made with, and `chs fd` the
queue the channel of `fd` points to. A null dereference sets `crashed`, after which nothing happens.
-/

namespace Koro
namespace Process

open Function (update)

abbrev InstanceId := Nat

-- `wakeupCh` says that `onInit` has set `epoller_`, `wakeup_ch_`, `timer_ch_` and `tm_`
structure TaskQueue where
  tasks : List ScheduledTask
  idling : Bool
  wakeupCh : Bool
  deriving DecidableEq, Repr

def TaskQueue.new : TaskQueue where
  tasks := []
  idling := false
  wakeupCh := false

inductive Kind where
  | scheduler
  | ioManager
  deriving DecidableEq, Repr

structure Instance where
  kind : Kind
  stop : Bool
  taskQueues : List (Option TaskQueue)
  threads : List Bool
  threadToPostIndex : Nat
  inited : Bool
  sizes : taskQueues.length = threads.length
  pos : 0 < threads.length
  deriving DecidableEq

namespace Instance

def new (kind : Kind) (threadCount : Nat) (h : 0 < threadCount) : Instance where
  kind := kind
  stop := true
  taskQueues := List.replicate threadCount none
  threads := List.replicate threadCount false
  threadToPostIndex := 0
  inited := false
  sizes := by simp
  pos := by simpa using h

def queue (x : Instance) (idx : Nat) : Option TaskQueue :=
  x.taskQueues[idx]?.join

def setQueue (x : Instance) (idx : Nat) (q : TaskQueue) : Instance :=
  { x with
    taskQueues := x.taskQueues.set idx (some q)
    sizes := by simp [x.sizes]
  }

def onInit (x : Instance) : Instance :=
  match x.kind with
  | .scheduler => x
  | .ioManager =>
    { x with
      taskQueues := x.taskQueues.map (Option.map fun q => { q with wakeupCh := true })
      sizes := by simp [x.sizes]
    }

def makeQueues (x : Instance) : Instance :=
  { x with
    stop := false
    taskQueues := x.taskQueues.map fun _ => some TaskQueue.new
    sizes := by simp [x.sizes]
  }

def startThreads (x : Instance) : Instance :=
  { x with
    threads := x.threads.map fun _ => true
    sizes := by simp [x.sizes]
    pos := by simpa using x.pos
  }

-- The lambda that makes the static of `init`
def initLambda (x : Instance) : Instance :=
  x.makeQueues.onInit.startThreads

def post (x : Instance) : Nat × Instance :=
  (x.threadToPostIndex % x.threads.length, { x with threadToPostIndex := x.threadToPostIndex + 1 })

-- Whether a thread is woken, `none` for a null dereference
def tickle (x : Instance) (idx : Nat) : Option Bool :=
  (x.queue idx).bind fun q =>
    if q.idling then
      match x.kind with
      | .scheduler => some true
      | .ioManager => if q.wakeupCh then some true else none
    else
      some false

def stopping.go (skipIdx : Nat) : Nat → List (Option TaskQueue) → Option Bool
  | _, [] => some true
  | i, q :: qs =>
    if i = skipIdx then
      go skipIdx (i + 1) qs
    else
      q.bind fun q => if q.tasks = [] then go skipIdx (i + 1) qs else some false

-- `busy` is whether one of `active_thread_count_` and `pending_event_count_` is read as not zero
def stopping (x : Instance) (skipIdx : Nat) (busy : Bool) : Option Bool :=
  if !x.stop || busy then
    some false
  else
    stopping.go skipIdx 0 x.taskQueues

end Instance

structure State where
  initialized : Option InstanceId
  instances : List Instance
  chs : Nat → Option (Option (InstanceId × Nat))
  crashed : Bool

def State.start : State where
  initialized := none
  instances := []
  chs := fun _ => none
  crashed := false

namespace State

def set (s : State) (i : InstanceId) (x : Instance) : State :=
  { s with instances := s.instances.set i x }

def deref (s : State) (r : Option Bool) : State :=
  { s with crashed := s.crashed || r.isNone }

def construct (s : State) (kind : Kind) (threadCount : Nat) : Option State :=
  if h : 0 < threadCount then
    some { s with instances := s.instances ++ [Instance.new kind threadCount h] }
  else
    none

def init (s : State) (i : InstanceId) : Option State :=
  s.instances[i]?.map fun x =>
    match s.initialized with
    | none => { s.set i { x.initLambda with inited := true } with initialized := some i }
    | some _ => s.set i { x with inited := true }

-- `submit` after its `init()`
def push (s : State) (i : InstanceId) (task : ScheduledTask) : Option State :=
  s.instances[i]?.map fun x =>
    match x.post with
    | (idx, x) =>
      match x.queue idx with
      | none => { s.set i x with crashed := true }
      | some q =>
        let x := x.setQueue idx { q with tasks := q.tasks ++ [task] }
        if q.tasks = [] then
          (s.set i x).deref (x.tickle idx)
        else
          s.set i x

def submit (s : State) (i : InstanceId) (task : ScheduledTask) : Option State :=
  (s.init i).bind fun s => s.push i task

-- The thread is worker `idx` of object `j`
def isWorker (s : State) (j : InstanceId) (idx : Nat) : Bool :=
  s.instances[j]?.any fun x => x.threads[idx]? = some true

-- `bindTaskQueue` after its `init()`, where `tTaskQueue` is that of the calling thread
def bind (s : State) (i : InstanceId) (fd : Nat) (tTaskQueue : Option (InstanceId × Nat))
    : Option State :=
  s.instances[i]?.map fun x =>
    match s.chs fd, tTaskQueue with
    | some _, _ => s
    | none, none =>
      match x.post with
      | (idx, x) =>
        { s.set i x with chs := update s.chs fd (some ((x.queue idx).map fun _ => (i, idx))) }
    | none, some q => { s with chs := update s.chs fd (some (some q)) }

def bindTaskQueue (s : State) (i : InstanceId) (fd : Nat) (tTaskQueue : Option (InstanceId × Nat))
    : Option State :=
  if (s.instances[i]?.any fun x => x.kind = .ioManager) ∧
      tTaskQueue.all (fun q => s.isWorker q.1 q.2) then
    (s.init i).bind fun s => s.bind i fd tTaskQueue
  else
    none

def tickle (s : State) (i : InstanceId) (idx : Nat) : Option State :=
  s.instances[i]?.bind fun x =>
    if x.inited ∧ idx < x.threads.length then
      some (s.deref (x.tickle idx))
    else
      none

def stopping (s : State) (i : InstanceId) (skipIdx : Nat) (busy : Bool) : Option State :=
  s.instances[i]?.bind fun x =>
    if x.inited then
      some (s.deref (x.stopping skipIdx busy))
    else
      none

-- The `exchange` in `stop`, whose loop goes on with `tickle` and `stopping`
def stop (s : State) (i : InstanceId) : Option State :=
  s.instances[i]?.map fun x => s.set i { x with stop := true }

-- What the workers do to a queue
def work (s : State) (i : InstanceId) (idx : Nat) (tasks : List ScheduledTask) (idling : Bool)
    : Option State :=
  s.instances[i]?.bind fun x =>
    (x.queue idx).map fun q => s.set i (x.setQueue idx { q with tasks := tasks, idling := idling })

end State

inductive Action where
  | construct (kind : Kind) (threadCount : Nat)
  | init (i : InstanceId)
  | submit (i : InstanceId) (task : ScheduledTask)
  | bindTaskQueue (i : InstanceId) (fd : Nat) (tTaskQueue : Option (InstanceId × Nat))
  | tickle (i : InstanceId) (idx : Nat)
  | stopping (i : InstanceId) (skipIdx : Nat) (busy : Bool)
  | stop (i : InstanceId)
  | work (i : InstanceId) (idx : Nat) (tasks : List ScheduledTask) (idling : Bool)
  deriving DecidableEq, Repr

def perform (s : State) : Action → Option State
  | .construct kind threadCount => s.construct kind threadCount
  | .init i => s.init i
  | .submit i task => s.submit i task
  | .bindTaskQueue i fd tTaskQueue => s.bindTaskQueue i fd tTaskQueue
  | .tickle i idx => s.tickle i idx
  | .stopping i skipIdx busy => s.stopping i skipIdx busy
  | .stop i => s.stop i
  | .work i idx tasks idling => s.work i idx tasks idling

def step (s : State) (act : Action) : Option State :=
  if s.crashed then none else perform s act

def machine : Machine State Action where
  init s := s = State.start
  step := step

end Process
end Koro
