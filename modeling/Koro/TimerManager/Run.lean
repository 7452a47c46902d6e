import Koro.Timer
import Koro.Data.OrderedSet
import Koro.Machine.Basic
import Mathlib.Data.Fintype.Basic
import Mathlib.Data.Prod.Lex
import Mathlib.Logic.Function.Basic

/-!
This module contains `TimerManager`, one for each of `n` workers, whose timers may be disabled by
any of them.

`triggerTimer` is taken in two parts, its own loop and the call of `resetTimer`, and `triggering`
says that the worker is between the two. The two clock readings of an operation are the one of
`toRelativeItimerspec` and the time of `timerfd_settime`; they are given by the action, and so is the
address of a new timer, which is not the one of a timer still owned by an entry.

`tasks w` are the callbacks pushed into the task queue of worker `w`. The lists `registered`, `fired`
and `cancelled` of the timers constructed, enqueued and passed to `unregisterEvent` so far are not
kept by the code.
-/

namespace Koro

structure Entry where
  expiration : Int
  timer : TimerPtr
  deriving DecidableEq, Repr

def Entry.key (e : Entry) : Int ×ₗ Nat :=
  toLex (e.expiration, e.timer.addr)

structure TimerManager where
  timers : OrderedSet Entry.key
  activeTimers : List Entry
  triggering : Bool
  fd : TimerFd

namespace TimerManager

open Function (update)

def new : TimerManager where
  timers := OrderedSet.empty
  activeTimers := []
  triggering := false
  fd := .disarmed

-- The entries that own a timer
def entries (tm : TimerManager) : List Entry :=
  tm.timers.toList ++ tm.activeTimers

variable {κ : Type u}

def insert (timer : TimerPtr → Timer κ) (timers : OrderedSet Entry.key) (p : TimerPtr)
    : Bool × OrderedSet Entry.key :=
  let resetInstantly :=
    match timers.first with
    | none => true
    | some e => decide ((timer p).expiration < e.expiration)
  (resetInstantly, timers.insert { expiration := (timer p).expiration, timer := p })

def resetTimerFd (timer : TimerPtr → Timer κ) (p : TimerPtr) (now settime : Int) : TimerFd :=
  TimerFd.settime (Timestamp.toRelativeItimerspec (timer p).expiration now) settime

-- The loop of `resetTimer`
def rearm (timer : TimerPtr → Timer κ) (timers : OrderedSet Entry.key)
    : List Entry → (TimerPtr → Timer κ) × OrderedSet Entry.key
  | [] => (timer, timers)
  | e :: active =>
    if (timer e.timer).on ∧ (timer e.timer).repeats then
      let timer := update timer e.timer (timer e.timer).repeated
      rearm timer (insert timer timers e.timer).2 active
    else
      rearm timer timers active

structure State (n : Nat) (κ : Type u) where
  tm : Fin n → TimerManager
  timer : TimerPtr → Timer κ
  tasks : Fin n → List κ
  registered : List TimerPtr
  fired : List TimerPtr
  cancelled : List TimerPtr

def State.start (n : Nat) (κ : Type u) [Inhabited κ] : State n κ where
  tm := fun _ => TimerManager.new
  timer := fun _ => Timer.new 0 default (-1)
  tasks := fun _ => []
  registered := []
  fired := []
  cancelled := []

namespace State

variable {n : Nat}

def alive (s : State n κ) (p : TimerPtr) : Bool :=
  decide (∃ w, ∃ e ∈ (s.tm w).entries, e.timer = p)

def fresh (s : State n κ) (addr : Nat) : Bool :=
  decide (addr < uintptrMax ∧ ∀ w, ∀ e ∈ (s.tm w).entries, e.timer.addr ≠ addr)

def registerTimer (s : State n κ) (w : Fin n) (addr : Nat) (timestamp : Int) (cb : κ)
    (interval : Int) (now settime : Int)
    : Option (State n κ) :=
  if (s.tm w).triggering = false ∧ s.fresh addr then
    let p := { addr, serial := s.registered.length }
    let timer := update s.timer p (Timer.new timestamp cb interval)
    let (resetInstantly, timers) := insert timer (s.tm w).timers p
    let fd :=
      if resetInstantly then
        resetTimerFd timer p now settime
      else
        (s.tm w).fd
    some { s with
      tm := update s.tm w { s.tm w with timers, fd }
      timer := update timer p ((timer p).enable true)
      registered := s.registered ++ [p]
    }
  else
    none

def unregisterEvent (s : State n κ) (timerId : TimerId) : Option (State n κ) :=
  if timerId = TimerId.default ∨ ∃ p ∈ s.registered, timerId = TimerId.new p then
    let timer := timerId.timer.filter s.alive
    let cancelled := s.cancelled ++ timerId.timer.toList
    if timerId.id = 0 then
      some { s with cancelled }
    else
      match timer with
      | none => some { s with cancelled }
      | some p => some { s with timer := update s.timer p ((s.timer p).enable false), cancelled }
  else
    none

def triggerTimer (s : State n κ) (w : Fin n) (now : Int) : Option (State n κ) :=
  if (s.tm w).triggering = false then
    let last := toLex (now, uintptrMax)
    let active := (s.tm w).activeTimers ++ (s.tm w).timers.upTo last
    let on := active.filter fun e => (s.timer e.timer).on
    some { s with
      tm := update s.tm w {
        timers := (s.tm w).timers.eraseUpTo last
        activeTimers := active
        triggering := true
        fd := (s.tm w).fd.read
      }
      tasks := update s.tasks w (s.tasks w ++ on.map fun e => (s.timer e.timer).onTimeCallback)
      fired := s.fired ++ on.map Entry.timer
    }
  else
    none

def resetTimer (s : State n κ) (w : Fin n) (now settime : Int) : Option (State n κ) :=
  if (s.tm w).triggering = true then
    let (timer, timers) := rearm s.timer (s.tm w).timers (s.tm w).activeTimers
    let fd :=
      match timers.first with
      | none => (s.tm w).fd
      | some e => resetTimerFd timer e.timer now settime
    some { s with
      tm := update s.tm w { timers, activeTimers := [], triggering := false, fd }
      timer
    }
  else
    none

-- The kernel's doing, once the clock has come to the deadline
def expire (s : State n κ) (w : Fin n) (now : Int) : Option (State n κ) :=
  match (s.tm w).fd with
  | .armed deadline =>
    if deadline ≤ now then
      some { s with tm := update s.tm w { s.tm w with fd := .readable } }
    else
      none
  | _ => none

end State

inductive Action (n : Nat) (κ : Type u) where
  | registerTimer (w : Fin n) (addr : Nat) (timestamp : Int) (cb : κ) (interval : Int)
    (now settime : Int)
  | unregisterEvent (timerId : TimerId)
  | triggerTimer (w : Fin n) (now : Int)
  | resetTimer (w : Fin n) (now settime : Int)
  | expire (w : Fin n) (now : Int)
  deriving DecidableEq, Repr

def step (s : State n κ) : Action n κ → Option (State n κ)
  | .registerTimer w addr timestamp cb interval now settime =>
    s.registerTimer w addr timestamp cb interval now settime
  | .unregisterEvent timerId => s.unregisterEvent timerId
  | .triggerTimer w now => s.triggerTimer w now
  | .resetTimer w now settime => s.resetTimer w now settime
  | .expire w now => s.expire w now

def machine (n : Nat) (κ : Type u) [Inhabited κ] : Machine (State n κ) (Action n κ) where
  init s := s = State.start n κ
  step := step

end TimerManager
end Koro
