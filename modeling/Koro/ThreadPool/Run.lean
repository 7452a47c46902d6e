import Koro.Machine.Basic
import Mathlib.Logic.Function.Basic
import Mathlib.Data.List.Basic

/-!
This module contains `ThreadPool` with its workers, any number of clients that call `submit` from
outside, and the thread that runs the destructor. Steps are one mutex section, atomic operation or
notification at a time.

`Pc` is the place of a worker in its loop. `lock` is before the first mutex section of an iteration,
`steal k` before the attempt `k` places further on, `relock` before `lock.lock()`. In `waiting` the
worker is blocked inside of `cv.wait`, and in `woken` it is about to take the lock again and test the
predicate. `holding` is before `task()`, `running` inside of it, and `returned` is past the loop.

The call of `submit` a thread may be inside of is its `Frame`: in `push` it is before the mutex
section, in `notify` before `notify_one`. A task is named by the number of tasks pushed before it.
`entered` and `finished` list the tasks that have been called and that have returned: the code keeps
neither.
-/

namespace Koro
namespace ThreadPool

open Function (update)

abbrev TaskId := Nat

inductive Thread (n : Nat) where
  | worker (i : Fin n)
  | client (k : Nat)
  deriving DecidableEq, Repr

inductive Pc where
  | lock
  | steal (k : Nat)
  | relock
  | waiting
  | woken
  | holding (task : TaskId)
  | running (task : TaskId)
  | returned
  deriving DecidableEq, Repr

inductive Frame (n : Nat) where
  | push (idx : Fin n)
  | notify (idx : Fin n)
  deriving DecidableEq, Repr

-- The place of the destructor
inductive DtorPc where
  | notCalled
  | lock (k : Nat)
  | notify (k : Nat)
  | join
  | destroyed
  deriving DecidableEq, Repr

structure State (n : Nat) where
  queue : Fin n → List TaskId
  stop : Fin n → Bool
  curId : UInt64
  worker : Fin n → Pc
  frame : Thread n → Option (Frame n)
  dtor : DtorPc
  submitted : Nat
  entered : List TaskId
  finished : List TaskId

def State.start (n : Nat) : State n where
  queue := fun _ => []
  stop := fun _ => false
  curId := 0
  worker := fun _ => .lock
  frame := fun _ => none
  dtor := .notCalled
  submitted := 0
  entered := []
  finished := []

namespace State

variable {n : Nat}

-- The thread runs user code: a client always does, a worker inside of a task
def user (s : State n) : Thread n → Bool
  | .worker i =>
    match s.worker i with
    | .running _ => (s.frame (.worker i)).isNone
    | _ => false
  | .client k => (s.frame (.client k)).isNone

-- Up to the `fetch_add`
def submit (s : State n) (t : Thread n) : Option (State n) :=
  if h : 0 < n then
    if s.user t then
      some { s with
        curId := s.curId + 1
        frame := update s.frame t (some (.push ⟨s.curId.toNat % n, Nat.mod_lt _ h⟩))
      }
    else
      none
  else
    none

def push (s : State n) (t : Thread n) : Option (State n) :=
  match s.frame t with
  | some (.push idx) =>
    some { s with
      queue := update s.queue idx (s.queue idx ++ [s.submitted])
      frame := update s.frame t (some (.notify idx))
      submitted := s.submitted + 1
    }
  | _ => none

def notifyOne (s : State n) (idx : Fin n) : State n :=
  { s with
    worker :=
      if s.worker idx = .waiting then
        update s.worker idx .woken
      else
        s.worker
  }

def notify (s : State n) (t : Thread n) : Option (State n) :=
  match s.frame t with
  | some (.notify idx) =>
    some { s.notifyOne idx with frame := update s.frame t none }
  | _ => none

def lock (s : State n) (i : Fin n) : Option (State n) :=
  match s.worker i with
  | .lock =>
    match s.queue i with
    | task :: rest =>
      some { s with
        worker := update s.worker i (.holding task)
        queue := update s.queue i rest
      }
    | [] =>
      if s.stop i then
        some { s with worker := update s.worker i .returned }
      else
        some { s with worker := update s.worker i (.steal 1) }
  | _ => none

theorem victim_lt (thief : Fin n) (k : Nat) : (thief + k) % n < n :=
  Nat.mod_lt _ thief.pos

def victim (thief : Fin n) (k : Nat) : Fin n :=
  ⟨(thief + k) % n, victim_lt thief k⟩

-- One iteration of the loop of `stealTask`: `ownsLock` is what `std::try_to_lock` came to
def steal (s : State n) (i : Fin n) (ownsLock : Bool) : Option (State n) :=
  match s.worker i with
  | .steal k =>
    if k < n then
      match ownsLock, (s.queue (victim i k)).getLast? with
      | true, some task =>
        some { s with
          worker := update s.worker i (.holding task)
          queue := update s.queue (victim i k) (s.queue (victim i k)).dropLast
        }
      | _, _ => some { s with worker := update s.worker i (.steal (k + 1)) }
    else
      some { s with worker := update s.worker i .relock }
  | _ => none

-- The section that ends in `continue`, up to where `cv.wait` blocks
def relock (s : State n) (i : Fin n) : Option (State n) :=
  match s.worker i with
  | .relock =>
    if (s.queue i).isEmpty && !s.stop i then
      some { s with worker := update s.worker i .waiting }
    else
      some { s with worker := update s.worker i .lock }
  | _ => none

-- `cv.wait` may go on without a `notify_one`
def spurious (s : State n) (i : Fin n) : Option (State n) :=
  match s.worker i with
  | .waiting => some { s with worker := update s.worker i .woken }
  | _ => none

def test (s : State n) (i : Fin n) : Option (State n) :=
  match s.worker i with
  | .woken =>
    if !(s.queue i).isEmpty || s.stop i then
      some { s with worker := update s.worker i .lock }
    else
      some { s with worker := update s.worker i .waiting }
  | _ => none

def call (s : State n) (i : Fin n) : Option (State n) :=
  match s.worker i with
  | .holding task =>
    some { s with
      worker := update s.worker i (.running task)
      entered := s.entered ++ [task]
    }
  | _ => none

def finish (s : State n) (i : Fin n) : Option (State n) :=
  match s.worker i with
  | .running task =>
    if (s.frame (.worker i)).isNone then
      some { s with
        worker := update s.worker i .lock
        finished := s.finished ++ [task]
      }
    else
      none
  | _ => none

def destroy (s : State n) : Option (State n) :=
  match s.dtor with
  | .notCalled => some { s with dtor := .lock 0 }
  | .lock k =>
    if h : k < n then
      some { s with
        stop := update s.stop ⟨k, h⟩ true
        dtor := .notify k
      }
    else
      some { s with dtor := .join }
  | .notify k =>
    if h : k < n then
      some { s.notifyOne ⟨k, h⟩ with dtor := .lock (k + 1) }
    else
      none
  | .join =>
    if ∀ i, s.worker i = .returned then
      some { s with dtor := .destroyed }
    else
      none
  | .destroyed => none

end State

inductive Action (n : Nat) where
  | submit (t : Thread n)
  | push (t : Thread n)
  | notify (t : Thread n)
  | lock (i : Fin n)
  | steal (i : Fin n) (ownsLock : Bool)
  | relock (i : Fin n)
  | spurious (i : Fin n)
  | test (i : Fin n)
  | call (i : Fin n)
  | finish (i : Fin n)
  | destroy
  deriving DecidableEq, Repr

def step (s : State n) : Action n → Option (State n)
  | .submit t => s.submit t
  | .push t => s.push t
  | .notify t => s.notify t
  | .lock i => s.lock i
  | .steal i ownsLock => s.steal i ownsLock
  | .relock i => s.relock i
  | .spurious i => s.spurious i
  | .test i => s.test i
  | .call i => s.call i
  | .finish i => s.finish i
  | .destroy => s.destroy

def machine (n : Nat) : Machine (State n) (Action n) where
  init s := s = State.start n
  step := step

variable {n : Nat}

/-- What a step can do, case by case. -/
inductive Step (s : State n) : Action n → State n → Prop where
  | submit (t : Thread n) (idx : Fin n) (huser : s.user t = true)
    : Step s (.submit t)
        { s with
          curId := s.curId + 1
          frame := update s.frame t (some (.push idx)) }
  | push (t : Thread n) (idx : Fin n) (hframe : s.frame t = some (.push idx))
    : Step s (.push t)
        { s with
          queue := update s.queue idx (s.queue idx ++ [s.submitted])
          frame := update s.frame t (some (.notify idx))
          submitted := s.submitted + 1 }
  | notify (t : Thread n) (idx : Fin n) (hframe : s.frame t = some (.notify idx))
      (hi : s.worker idx = .waiting)
    : Step s (.notify t)
        { s with worker := update s.worker idx .woken, frame := update s.frame t none }
  | notifyNone (t : Thread n) (idx : Fin n) (hframe : s.frame t = some (.notify idx))
      (hi : s.worker idx ≠ .waiting)
    : Step s (.notify t) { s with frame := update s.frame t none }
  | pop (i : Fin n) (task : TaskId) (rest : List TaskId) (hi : s.worker i = .lock)
      (hq : s.queue i = task :: rest)
    : Step s (.lock i)
        { s with
          worker := update s.worker i (.holding task)
          queue := update s.queue i rest }
  | ret (i : Fin n) (hi : s.worker i = .lock) (hq : s.queue i = []) (hstop : s.stop i = true)
    : Step s (.lock i) { s with worker := update s.worker i .returned }
  | look (i : Fin n) (hi : s.worker i = .lock) (hq : s.queue i = []) (hstop : s.stop i = false)
    : Step s (.lock i) { s with worker := update s.worker i (.steal 1) }
  | steal (i q : Fin n) (task : TaskId) (rest : List TaskId) (k : Nat) (hi : s.worker i = .steal k)
      (hk : k < n) (hv : q = State.victim i k) (hq : s.queue q = rest ++ [task])
    : Step s (.steal i true)
        { s with
          worker := update s.worker i (.holding task)
          queue := update s.queue q rest }
  | stealMiss (i : Fin n) (ownsLock : Bool) (k : Nat) (hi : s.worker i = .steal k) (hk : k < n)
      (hmiss : ownsLock = true → s.queue (State.victim i k) = [])
    : Step s (.steal i ownsLock) { s with worker := update s.worker i (.steal (k + 1)) }
  | stealNone (i : Fin n) (ownsLock : Bool) (k : Nat) (hi : s.worker i = .steal k) (hk : n ≤ k)
    : Step s (.steal i ownsLock) { s with worker := update s.worker i .relock }
  | wait (i : Fin n) (hi : s.worker i = .relock) (hq : s.queue i = []) (hstop : s.stop i = false)
    : Step s (.relock i) { s with worker := update s.worker i .waiting }
  | relock (i : Fin n) (hi : s.worker i = .relock) (hany : s.queue i ≠ [] ∨ s.stop i = true)
    : Step s (.relock i) { s with worker := update s.worker i .lock }
  | spurious (i : Fin n) (hi : s.worker i = .waiting)
    : Step s (.spurious i) { s with worker := update s.worker i .woken }
  | test (i : Fin n) (hi : s.worker i = .woken) (hany : s.queue i ≠ [] ∨ s.stop i = true)
    : Step s (.test i) { s with worker := update s.worker i .lock }
  | testFail (i : Fin n) (hi : s.worker i = .woken) (hq : s.queue i = [])
      (hstop : s.stop i = false)
    : Step s (.test i) { s with worker := update s.worker i .waiting }
  | call (i : Fin n) (task : TaskId) (hi : s.worker i = .holding task)
    : Step s (.call i)
        { s with
          worker := update s.worker i (.running task)
          entered := s.entered ++ [task] }
  | finish (i : Fin n) (task : TaskId) (hi : s.worker i = .running task)
      (hframe : s.frame (.worker i) = none)
    : Step s (.finish i)
        { s with
          worker := update s.worker i .lock
          finished := s.finished ++ [task] }
  | dtor (hd : s.dtor = .notCalled)
    : Step s .destroy { s with dtor := .lock 0 }
  | dtorStop (i : Fin n) (hd : s.dtor = .lock i)
    : Step s .destroy { s with stop := update s.stop i true, dtor := .notify i }
  | dtorLast (k : Nat) (hd : s.dtor = .lock k) (hk : n ≤ k)
    : Step s .destroy { s with dtor := .join }
  | dtorNotify (i : Fin n) (hd : s.dtor = .notify i) (hi : s.worker i = .waiting)
    : Step s .destroy { s with worker := update s.worker i .woken, dtor := .lock (i + 1) }
  | dtorNotifyNone (i : Fin n) (hd : s.dtor = .notify i) (hi : s.worker i ≠ .waiting)
    : Step s .destroy { s with dtor := .lock (i + 1) }
  | join (hd : s.dtor = .join) (hall : ∀ i, s.worker i = .returned)
    : Step s .destroy { s with dtor := .destroyed }

theorem Step.of_submit {s t : State n} (h : s.submit th = some t) : Step s (.submit th) t := by
  unfold State.submit at h
  split at h
  . split at h
    . next huser => cases h; exact .submit th _ huser
    . cases h
  . cases h

theorem Step.of_push {s t : State n} (h : s.push th = some t) : Step s (.push th) t := by
  unfold State.push at h
  split at h
  . next idx hframe => cases h; exact .push th idx hframe
  . cases h

theorem Step.of_notify {s t : State n} (h : s.notify th = some t) : Step s (.notify th) t := by
  unfold State.notify at h
  split at h
  . next idx hframe =>
    cases h
    by_cases hi : s.worker idx = .waiting
    . simp only [State.notifyOne, hi, ↓reduceIte]
      exact .notify th idx hframe hi
    . simp only [State.notifyOne, hi, ↓reduceIte]
      exact .notifyNone th idx hframe hi
  . cases h

theorem Step.of_lock {s t : State n} (h : s.lock i = some t) : Step s (.lock i) t := by
  unfold State.lock at h
  split at h
  . next hi =>
    split at h
    . next task rest hq => cases h; exact .pop i task rest hi hq
    . next hq =>
      split at h
      . next hstop => cases h; exact .ret i hi hq hstop
      . next hstop => cases h; exact .look i hi hq (by simpa using hstop)
  . cases h

theorem Step.of_steal {s t : State n} (h : s.steal i ownsLock = some t)
    : Step s (.steal i ownsLock) t := by
  unfold State.steal at h
  split at h
  . next k hi =>
    split at h
    . next hk =>
      split at h
      . next task hlast =>
        cases h
        exact .steal i _ task _ k hi hk rfl (List.dropLast_append_getLast? task hlast).symm
      . next hmiss =>
        cases h
        apply Step.stealMiss i _ k hi hk
        intro howns
        cases hlast : (s.queue (State.victim i k)).getLast? with
        | none => exact List.getLast?_eq_none_iff.mp hlast
        | some task => exact absurd hlast (hmiss task howns)
    . next hk => cases h; exact .stealNone i _ k hi (Nat.le_of_not_lt hk)
  . cases h

theorem any_iff {s : State n}
    : (!(s.queue i).isEmpty || s.stop i) = true ↔ s.queue i ≠ [] ∨ s.stop i = true := by
  simp

theorem Step.of_relock {s t : State n} (h : s.relock i = some t) : Step s (.relock i) t := by
  unfold State.relock at h
  split at h
  . next hi =>
    split at h
    . next hnone =>
      cases h
      simp only [Bool.and_eq_true, List.isEmpty_iff, Bool.not_eq_true'] at hnone
      exact .wait i hi hnone.left hnone.right
    . next hany =>
      cases h
      apply Step.relock i hi
      rw [← any_iff, ← Bool.not_eq_false]
      intro hnone
      apply hany
      simpa using hnone
  . cases h

theorem Step.of_test {s t : State n} (h : s.test i = some t) : Step s (.test i) t := by
  unfold State.test at h
  split at h
  . next hi =>
    split at h
    . next hany => cases h; exact .test i hi (any_iff.mp hany)
    . next hnone =>
      cases h
      simp only [any_iff, not_or, ne_eq, Decidable.not_not, Bool.not_eq_true] at hnone
      exact .testFail i hi hnone.left hnone.right
  . cases h

theorem Step.of_destroy {s t : State n} (h : s.destroy = some t) : Step s .destroy t := by
  unfold State.destroy at h
  split at h
  . next hd => cases h; exact .dtor hd
  . next k hd =>
    split at h
    . next hk => cases h; exact .dtorStop ⟨k, hk⟩ hd
    . next hk => cases h; exact .dtorLast k hd (Nat.le_of_not_lt hk)
  . next k hd =>
    split at h
    . next hk =>
      cases h
      by_cases hi : s.worker ⟨k, hk⟩ = .waiting
      . simp only [State.notifyOne, hi, ↓reduceIte]
        exact .dtorNotify ⟨k, hk⟩ hd hi
      . simp only [State.notifyOne, hi, ↓reduceIte]
        exact .dtorNotifyNone ⟨k, hk⟩ hd hi
    . cases h
  . next hd =>
    split at h
    . next hall => cases h; exact .join hd hall
    . cases h
  . cases h

theorem Step.of_step {s t : State n} {act : Action n} (h : step s act = some t) : Step s act t := by
  cases act with
  | submit th => exact .of_submit h
  | push th => exact .of_push h
  | notify th => exact .of_notify h
  | lock i => exact .of_lock h
  | steal i ownsLock => exact .of_steal h
  | relock i => exact .of_relock h
  | spurious i =>
    simp only [step, State.spurious] at h
    split at h
    . next hi => cases h; exact .spurious i hi
    . cases h
  | test i => exact .of_test h
  | call i =>
    simp only [step, State.call] at h
    split at h
    . next task hi => cases h; exact .call i task hi
    . cases h
  | finish i =>
    simp only [step, State.finish, Option.isNone_iff_eq_none] at h
    split at h
    . next task hi =>
      split at h
      . next hframe => cases h; exact .finish i task hi hframe
      . cases h
    . cases h
  | destroy => exact .of_destroy h

end ThreadPool
end Koro
