import Koro.Task

/-!
This module contains the parts of `Fiber` that `Scheduler::run` and the fiber's own function work on.

`started` stands for `ctx_`: it says whether the saved context is past the entry of `mainFunc`. `cb`
is `cb_`, as far as it is a callback that came out of a task queue. `resume`, `hold` and `yield` are
taken up to their `swapcontext`, with `none` where their assertion fails; `mainFuncEnd` is what
`mainFunc` does once `cb_` has returned.
-/

namespace Koro

inductive Fiber.State where
  | kReady
  | kRunning
  | kHold
  | kTerm
  deriving DecidableEq, Repr

structure Fiber where
  state : Fiber.State
  cb : Option CallbackId
  started : Bool
  execute : Bool
  deriving DecidableEq, Repr

namespace Fiber

def new (cb : Option CallbackId) : Fiber :=
  { state := .kReady, cb, started := false, execute := false }

def tryLock (fb : Fiber) : Bool × Fiber :=
  if fb.execute = false then
    (true, { fb with execute := true })
  else
    (false, fb)

def unlock (fb : Fiber) : Fiber :=
  { fb with execute := false }

def resume (fb : Fiber) : Option Fiber :=
  if fb.state = .kReady ∨ fb.state = .kHold then
    some { fb with state := .kRunning }
  else
    none

def hold (fb : Fiber) : Option Fiber :=
  if fb.state = .kRunning then
    some { fb with state := .kHold }
  else
    none

def yield (fb : Fiber) : Option Fiber :=
  if fb.state = .kRunning ∨ fb.state = .kTerm then
    if fb.state ≠ .kTerm then
      some { fb with state := .kReady }
    else
      some fb
  else
    none

def mainFuncEnd (fb : Fiber) : Option Fiber :=
  let fb := { fb with cb := none }
  let fb := { fb with state := .kTerm }
  fb.yield

end Fiber

end Koro
