import Koro.Machine.Basic
import Koro.Elog.FixedBuffer
import Mathlib.Data.List.Basic

/-!
This module contains `AsyncLogging`: any number of threads that call `pushMessage`, the worker, and
one thread that calls `wait4Done` or the destructor. Steps are one mutex section, atomic operation,
notification or record written at a time.

`Pc` is the place of the worker. `test` is before the test of `done_`, `lock` before the lock is taken,
`wait` inside of the section where the latch has been counted down, `waiting` inside of `cv_.wait_for`,
`woken` before the lock is taken again, and `taken` after the section. `write b k` is before record `k`
of buffer `b` of the batch, `recycle` after the last one, `flush` after the loop.

A message is named by the number of messages accepted before it. `frame k` says that thread `k` has
found `done_` clear and is about to take the lock. Of the fields of the state `file` is what has been
appended to the log file, `calledAt` the number of messages accepted before `wait4Done` was called, and
`discarded` lists the messages in the buffers erased: the code keeps neither of the last two. In
`aborted` an assertion has failed.
-/

namespace Koro
namespace Elog
namespace AsyncLogging

open Function (update)

def kLargeBuffer : Nat := 65536

inductive Entry where
  | message (m : Nat)
  | notice (dropped : Nat)
  deriving DecidableEq, Repr

inductive Pc where
  | test
  | lock
  | wait
  | waiting
  | woken
  | taken
  | write (b k : Nat)
  | recycle
  | flush
  | returned
  deriving DecidableEq, Repr

-- The place of `wait4Done`, or of the destructor
inductive DonePc where
  | notCalled
  | store
  | notify
  | join
  | returned
  deriving DecidableEq, Repr

structure State where
  heap : Heap Nat
  curBuf : FixedBuffer
  nextBuf : FixedBuffer
  newBuf1 : FixedBuffer
  newBuf2 : FixedBuffer
  bufs : List FixedBuffer
  buf2write : List FixedBuffer
  done : Bool
  latch : Bool
  worker : Pc
  frame : Nat → Bool
  doDone : DonePc
  accepted : Nat
  file : List Entry
  discarded : List Nat
  calledAt : Nat
  aborted : Bool

-- The members and the locals of the worker have their arrays
def State.start : State where
  heap := { cells := fun _ _ => default, arrays := 4, freed := [] }
  curBuf := { ctxs := some 0, index := 0 }
  nextBuf := { ctxs := some 1, index := 0 }
  newBuf1 := { ctxs := some 2, index := 0 }
  newBuf2 := { ctxs := some 3, index := 0 }
  bufs := []
  buf2write := []
  done := false
  latch := false
  worker := .test
  frame := fun _ => false
  doDone := .notCalled
  accepted := 0
  file := []
  discarded := []
  calledAt := 0
  aborted := false

namespace State

-- Up to the lock; the constructor has waited for the latch
def pushMessage (s : State) (k : Nat) : Option State :=
  if s.latch && !s.frame k then
    if s.done then
      some s
    else
      some { s with frame := update s.frame k true }
  else
    none

def notifyOne (s : State) : State :=
  { s with worker := if s.worker = .waiting then .woken else s.worker }

def pushCur (N : Nat) (s : State) : State :=
  match s.heap.push N s.curBuf s.accepted with
  | none => { s with aborted := true }
  | some (curBuf, heap) => { s with curBuf, heap, accepted := s.accepted + 1 }

-- A full `cur_buf_` gives way to `next_buf_` or to a new buffer
def rotate (s : State) : State :=
  let s := { s with bufs := s.bufs ++ [s.curBuf], curBuf := .null }
  if s.nextBuf.check then
    { s with curBuf := s.nextBuf, nextBuf := .null }
  else
    let (curBuf, heap) := s.heap.new
    { s with curBuf, heap }

-- The mutex section of `pushMessage`
def lockPush (N : Nat) (s : State) (k : Nat) : Option State :=
  if s.frame k && s.worker ≠ .wait then
    let s := { s with frame := update s.frame k false }
    if !s.curBuf.full N then
      some (s.pushCur N)
    else
      some ((s.rotate.pushCur N).notifyOne)
  else
    none

-- The rest of the section of the worker
def take (s : State) : State :=
  let s :=
    if s.curBuf.empty then
      s
    else
      { s with bufs := s.bufs ++ [s.curBuf], curBuf := s.newBuf1, newBuf1 := .null }
  let s := { s with buf2write := s.bufs, bufs := s.buf2write }
  let s :=
    if s.nextBuf.check then
      s
    else
      { s with nextBuf := s.newBuf2, newBuf2 := .null }
  { s with worker := .taken }

-- From the test for an empty batch up to the first record
def drop (s : State) : State :=
  if s.buf2write.isEmpty then
    { s with worker := .test }
  else if 100 < s.buf2write.length then
    { s with
      file := s.file ++ [.notice (s.buf2write.length - 2)]
      heap := s.heap.destroy (s.buf2write.drop 2)
      buf2write := s.buf2write.take 2
      discarded := s.discarded ++ (s.buf2write.drop 2).flatMap s.heap.contents
      worker := .write 0 0
    }
  else
    { s with worker := .write 0 0 }

def write (s : State) (b k : Nat) : State :=
  match s.buf2write[b]? with
  | none => { s with worker := .recycle }
  | some buffer =>
    match (s.heap.contents buffer)[k]? with
    | none => { s with worker := .write (b + 1) 0 }
    | some m => { s with file := s.file ++ [.message m], worker := .write b (k + 1) }

-- `buf2write.resize(2)` where it has fewer
def resize (s : State) : State :=
  match s.buf2write with
  | [] =>
    let (b0, heap) := s.heap.new
    let (b1, heap) := heap.new
    { s with buf2write := [b0, b1], heap }
  | [b0] =>
    let (b1, heap) := s.heap.new
    { s with buf2write := [b0, b1], heap }
  | _ => s

def recycle (s : State) : State :=
  let s := s.resize
  match s.buf2write with
  | b0 :: b1 :: rest =>
    let (newBuf1, b0) := if s.newBuf1.check then (s.newBuf1, b0) else (b0.reset, .null)
    let (newBuf2, b1) := if s.newBuf2.check then (s.newBuf2, b1) else (b1.reset, .null)
    { s with
      newBuf1, newBuf2
      heap := s.heap.destroy (b0 :: b1 :: rest)
      buf2write := []
      worker := .test
    }
  | _ => s

-- The locals of the worker are destroyed
def exit (s : State) : State :=
  { s with
    heap := s.heap.destroy (s.buf2write ++ [s.newBuf2, s.newBuf1])
    newBuf1 := .null
    newBuf2 := .null
    buf2write := []
    worker := .returned
  }

-- The steps of the worker but those inside of `cv_.wait_for`
def work (s : State) : Option State :=
  match s.worker with
  | .test => some { s with worker := if s.done then .flush else .lock }
  | .lock =>
    if s.bufs.isEmpty then
      some { s with latch := true, worker := .wait }
    else
      some s.take
  | .wait => some { s with worker := .waiting }
  | .waiting => none
  | .woken => some s.take
  | .taken => some s.drop
  | .write b k => some (s.write b k)
  | .recycle => some s.recycle
  | .flush => some s.exit
  | .returned => none

-- The time is up, or `cv_.wait_for` goes on for no reason
def timeout (s : State) : Option State :=
  match s.worker with
  | .waiting => some { s with worker := .woken }
  | _ => none

def callDone (s : State) : Option State :=
  match s.doDone with
  | .notCalled =>
    if s.latch then
      if s.done then
        some { s with doDone := .returned }
      else
        some { s with doDone := .store, calledAt := s.accepted }
    else
      none
  | .store => some { s with done := true, doDone := .notify }
  | .notify => some { s.notifyOne with doDone := .join }
  | .join =>
    if s.worker = .returned then
      some { s with doDone := .returned }
    else
      none
  | .returned => none

-- The members are destroyed
def destruct (s : State) : Heap Nat :=
  s.heap.destroy (s.bufs ++ [s.nextBuf, s.curBuf])

end State

inductive Action where
  | pushMessage (k : Nat)
  | lockPush (k : Nat)
  | work
  | timeout
  | callDone
  deriving DecidableEq, Repr

-- Nothing comes after a failed assertion
def step (N : Nat) (s : State) (act : Action) : Option State :=
  if s.aborted then
    none
  else
    match act with
    | .pushMessage k => s.pushMessage k
    | .lockPush k => s.lockPush N k
    | .work => s.work
    | .timeout => s.timeout
    | .callDone => s.callDone

def machine (N : Nat) : Machine State Action where
  init s := s = State.start
  step := step N

/-- What a step can do, case by case. -/
inductive Step (N : Nat) (s : State) : Action → State → Prop where
  | pushDone (k : Nat) (hdone : s.done = true)
    : Step N s (.pushMessage k) s
  | pushMessage (k : Nat) (hlatch : s.latch = true) (hdone : s.done = false)
    : Step N s (.pushMessage k) { s with frame := update s.frame k true }
  | push (k : Nat) (hw : s.worker ≠ .wait) (hfull : s.curBuf.full N = false)
    : Step N s (.lockPush k) (State.pushCur N { s with frame := update s.frame k false })
  | rotate (k : Nat) (hw : s.worker ≠ .wait) (hfull : s.curBuf.full N = true)
    : Step N s (.lockPush k)
        (State.pushCur N { s with frame := update s.frame k false }.rotate).notifyOne
  | test (hw : s.worker = .test)
    : Step N s .work { s with worker := if s.done then .flush else .lock }
  | lockEmpty (hw : s.worker = .lock) (hbufs : s.bufs = [])
    : Step N s .work { s with latch := true, worker := .wait }
  | wait (hw : s.worker = .wait)
    : Step N s .work { s with worker := .waiting }
  | take (hw : s.worker = .lock ∨ s.worker = .woken)
    : Step N s .work s.take
  | drop (hw : s.worker = .taken)
    : Step N s .work s.drop
  | write (b k : Nat) (hw : s.worker = .write b k)
    : Step N s .work (s.write b k)
  | recycle (hw : s.worker = .recycle)
    : Step N s .work s.recycle
  | flush (hw : s.worker = .flush)
    : Step N s .work s.exit
  | timeout (hw : s.worker = .waiting)
    : Step N s .timeout { s with worker := .woken }
  | callAgain (hd : s.doDone = .notCalled) (hdone : s.done = true)
    : Step N s .callDone { s with doDone := .returned }
  | callDone (hd : s.doDone = .notCalled) (hlatch : s.latch = true) (hdone : s.done = false)
    : Step N s .callDone { s with doDone := .store, calledAt := s.accepted }
  | store (hd : s.doDone = .store)
    : Step N s .callDone { s with done := true, doDone := .notify }
  | notify (hd : s.doDone = .notify)
    : Step N s .callDone { s.notifyOne with doDone := .join }
  | join (hd : s.doDone = .join) (hw : s.worker = .returned)
    : Step N s .callDone { s with doDone := .returned }

variable {N : Nat} {s t : State}

theorem Step.of_pushMessage (h : s.pushMessage k = some t) : Step N s (.pushMessage k) t := by
  unfold State.pushMessage at h
  split at h
  . next hlatch =>
    rw [Bool.and_eq_true] at hlatch
    split at h
    . next hdone => cases h; exact .pushDone k hdone
    . next hdone => cases h; exact .pushMessage k hlatch.left (by simpa using hdone)
  . cases h

theorem Step.of_lockPush (h : s.lockPush N k = some t) : Step N s (.lockPush k) t := by
  unfold State.lockPush at h
  split at h
  . next hw =>
    rw [Bool.and_eq_true, decide_eq_true_eq] at hw
    dsimp only at h
    split at h
    . next hfull => cases h; exact .push k hw.right (by simpa using hfull)
    . next hfull => cases h; exact .rotate k hw.right (by simpa using hfull)
  . cases h

theorem Step.of_work (h : s.work = some t) : Step N s .work t := by
  unfold State.work at h
  cases hw : s.worker with
  | test =>
    simp only [hw] at h
    cases h
    exact .test hw
  | lock =>
    simp only [hw] at h
    split at h
    . next hbufs => cases h; exact .lockEmpty hw (List.isEmpty_iff.mp hbufs)
    . cases h; exact .take (.inl hw)
  | wait => simp only [hw] at h; cases h; exact .wait hw
  | waiting => simp only [hw] at h; cases h
  | woken => simp only [hw] at h; cases h; exact .take (.inr hw)
  | taken => simp only [hw] at h; cases h; exact .drop hw
  | write b k => simp only [hw] at h; cases h; exact .write b k hw
  | recycle => simp only [hw] at h; cases h; exact .recycle hw
  | flush => simp only [hw] at h; cases h; exact .flush hw
  | returned => simp only [hw] at h; cases h

theorem Step.of_callDone (h : s.callDone = some t) : Step N s .callDone t := by
  unfold State.callDone at h
  cases hd : s.doDone with
  | notCalled =>
    simp only [hd] at h
    split at h
    . next hlatch =>
      split at h
      . next hdone => cases h; exact .callAgain hd hdone
      . next hdone => cases h; exact .callDone hd hlatch (by simpa using hdone)
    . cases h
  | store => simp only [hd] at h; cases h; exact .store hd
  | notify => simp only [hd] at h; cases h; exact .notify hd
  | join =>
    simp only [hd] at h
    split at h
    . next hw => cases h; exact .join hd hw
    . cases h
  | returned => simp only [hd] at h; cases h

theorem Step.of_step {act : Action} (h : step N s act = some t) : Step N s act t := by
  unfold step at h
  split at h
  . cases h
  . cases act with
    | pushMessage k => exact .of_pushMessage h
    | lockPush k => exact .of_lockPush h
    | work => exact .of_work h
    | timeout =>
      simp only [State.timeout] at h
      split at h
      . next hw => cases h; exact .timeout hw
      . cases h
    | callDone => exact .of_callDone h

end AsyncLogging
end Elog
end Koro
