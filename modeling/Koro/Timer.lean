import Mathlib.Algebra.Group.Nat.Defs

/-!
This module contains `Timestamp`, `Timer`, `TimerId` and the timer fd of a `TimerManager`.

A `Timestamp` is an `Int`, the nanoseconds of `steady_clock`, and an interval is taken in nanoseconds
too, so that `operator+` is the exact sum. A `std::shared_ptr<Timer>` is the address it compares by together with
the number of timers constructed before it, since the address of a destroyed timer may be used
again.
-/

namespace Koro

structure Itimerspec where
  sec : Int
  nsec : Int
  deriving DecidableEq, Repr

def Timestamp.toRelativeItimerspec (tp now : Int) : Itimerspec :=
  let diff := tp - now
  if diff ≤ 0 then
    { sec := 0, nsec := 0 }
  else
    { sec := diff / 1000000000, nsec := diff % 1000000000 }

inductive TimerFd where
  | disarmed
  | armed (deadline : Int)
  | readable
  deriving DecidableEq, Repr

namespace TimerFd

-- What the kernel makes of a relative `it_value` at the time `now`
def settime (value : Itimerspec) (now : Int) : TimerFd :=
  if value.sec = 0 ∧ value.nsec = 0 then
    .disarmed
  else
    .armed (now + value.sec * 1000000000 + value.nsec)

-- `FD::readEventFd`, on a timer fd that does not block
def read : TimerFd → TimerFd
  | .readable => .disarmed
  | fd => fd

theorem settime_toRelativeItimerspec (tp now now' : Int)
    : settime (Timestamp.toRelativeItimerspec tp now) now'
        =
      if tp ≤ now then .disarmed else .armed (now' + (tp - now)) := by
  unfold settime Timestamp.toRelativeItimerspec
  by_cases h : tp ≤ now
  . have : tp - now ≤ 0 := by omega
    simp [h, this]
  . have hdiff : ¬tp - now ≤ 0 := by omega
    have hvalue : ¬((tp - now) / 1000000000 = 0 ∧ (tp - now) % 1000000000 = 0) := by omega
    simp only [h, hdiff, hvalue, ↓reduceIte, armed.injEq]
    omega

end TimerFd

structure TimerPtr where
  addr : Nat
  serial : Nat
  deriving DecidableEq, Repr

def uintptrMax : Nat := 2 ^ 64 - 1

structure Timer (κ : Type u) where
  expiration : Int
  interval : Int
  repeats : Bool
  on : Bool
  onTimeCallback : κ
  deriving DecidableEq, Repr

namespace Timer

def new (expiration : Int) (cb : κ) (interval : Int) : Timer κ :=
  { expiration, interval, repeats := decide (interval > 0), on := false, onTimeCallback := cb }

def enable (timer : Timer κ) (on : Bool) : Timer κ :=
  { timer with on }

-- The timer after `repeat()`
def repeated (timer : Timer κ) : Timer κ :=
  { timer with expiration := timer.expiration + timer.interval }

end Timer

structure TimerId where
  timer : Option TimerPtr
  id : Nat
  deriving DecidableEq, Repr

namespace TimerId

def default : TimerId :=
  { timer := none, id := 0 }

-- `id_creator_` starts at 1 and counts the timers registered
def new (p : TimerPtr) : TimerId :=
  { timer := some p, id := p.serial + 1 }

end TimerId

end Koro
