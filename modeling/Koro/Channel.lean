import Mathlib.Data.UInt
import Mathlib.Logic.Function.Basic

/-!
This module contains `Channel` and what `EpollPoller` does for it.

A channel is named by the number of channels constructed before it, its task queue by the worker it
belongs to. The read and write callbacks are of any type `κ`; `error_callback_` is only ever the
closure that calls `handleError` on the channel given. What the kernel holds for an epoller, its
interest list, maps descriptors to event masks, and whether an `epoll_ctl` succeeds is given by `ok`.
-/

namespace Koro

open Function (update)

abbrev ChannelId := Nat

def EPOLLIN : UInt32 := 0x001

def EPOLLOUT : UInt32 := 0x004

def EPOLLERR : UInt32 := 0x008

def EPOLLHUP : UInt32 := 0x010

def EPOLLET : UInt32 := 0x80000000

inductive Event where
  | kRead
  | kWrite
  deriving DecidableEq, Repr

def Event.value : Event → UInt32
  | .kRead => 0x001
  | .kWrite => 0x004

-- What `triggerEvent` is called for
inductive Trigger where
  | err
  | event (e : Event)
  deriving DecidableEq, Repr

structure Channel (n : Nat) (κ : Type u) where
  fd : Nat
  taskQueue : Option (Fin n)
  events : UInt32
  inEpoll : Bool
  readCallback : Option κ
  writeCallback : Option κ
  errorCallback : Option ChannelId
  userNonBlock : Bool
  sysNonBlock : Bool
  deriving DecidableEq, Repr

namespace Channel

variable {n : Nat} {κ : Type u}

def new (fd : Nat) (taskQueue : Option (Fin n)) : Channel n κ where
  fd
  taskQueue
  events := 0
  inEpoll := false
  readCallback := none
  writeCallback := none
  errorCallback := none
  userNonBlock := false
  sysNonBlock := false

def useET (ch : Channel n κ) : Channel n κ :=
  { ch with events := ch.events ||| EPOLLET }

-- The callback that `triggerEvent` copies for an event
def callback (ch : Channel n κ) : Event → Option κ
  | .kRead => ch.readCallback
  | .kWrite => ch.writeCallback

-- The calls of `triggerEvent` that `handleEvent` makes
def handleEvent (revents : UInt32) : List Trigger :=
  let revents :=
    if revents &&& (EPOLLERR ||| EPOLLHUP) ≠ 0 then
      revents ||| (EPOLLIN ||| EPOLLOUT)
    else
      revents
  let err := if revents &&& EPOLLERR ≠ 0 then [.err] else []
  let read := if revents &&& EPOLLIN ≠ 0 then [.event .kRead] else []
  let write := if revents &&& EPOLLOUT ≠ 0 then [.event .kWrite] else []
  err ++ read ++ write

-- What `registerEvent` does to the channel before its `update`, `none` where it returns false
def register (ch : Channel n κ) (this : ChannelId) (e : Event) (cb : Option κ) (useET : Bool)
    : Option (Channel n κ) :=
  let event := e.value
  let withCallback :=
    if event = 0x001 then
      some { ch with readCallback := cb }
    else if event = 0x004 then
      some { ch with writeCallback := cb }
    else
      none
  withCallback.map fun ch =>
    let ch := { ch with errorCallback := some this }
    let ch := { ch with events := ch.events ||| event }
    if useET then ch.useET else ch

-- What `unregisterEvent` does to the channel before its `update`, and its `ban_event_count`
def unregister (ch : Channel n κ) (e : Event) : Channel n κ × Nat :=
  let event := e.value
  let (ch, banEventCount) :=
    if event &&& 0x001 ≠ 0 then
      ({ ch with events := ch.events &&& ~~~0x001, readCallback := none }, 1)
    else
      (ch, 0)
  if event &&& 0x004 ≠ 0 then
    ({ ch with events := ch.events &&& ~~~0x004, writeCallback := none }, banEventCount + 1)
  else
    (ch, banEventCount)

def armed (ch : Channel n κ) (e : Event) : Bool :=
  decide (ch.events &&& e.value ≠ 0)

def setCallback (ch : Channel n κ) (e : Event) (cb : Option κ) : Channel n κ :=
  match e with
  | .kRead => { ch with readCallback := cb }
  | .kWrite => { ch with writeCallback := cb }

section Lemmas

variable {ch ch' : Channel n κ} {this : ChannelId} {e e' : Event} {cb : Option κ} {et : Bool}

theorem register_eq
    : ch.register this e cb et
        =
      some { ch.setCallback e cb with
        errorCallback := some this
        events := if et then ch.events ||| e.value ||| EPOLLET else ch.events ||| e.value } := by
  cases e <;> cases et <;> rfl

theorem unregister_eq
    : ch.unregister e
        =
      ({ ch.setCallback e none with events := ch.events &&& ~~~e.value }, 1) := by
  cases e <;> rfl

theorem callback_setCallback
    : (ch.setCallback e cb).callback e' = if e' = e then cb else ch.callback e' := by
  cases e <;> cases e' <;> rfl

theorem or_and (x y z : UInt32) : (x ||| y) &&& z = (x &&& z) ||| (y &&& z) := by
  apply UInt32.toBitVec_inj.mp
  apply BitVec.and_or_distrib_right

theorem value_and : e.value &&& e'.value = if e' = e then e'.value else 0 := by
  cases e <;> cases e' <;> rfl

theorem not_value_and : ~~~e.value &&& e'.value = if e' = e then 0 else e'.value := by
  cases e <;> cases e' <;> rfl

theorem EPOLLET_and : EPOLLET &&& e.value = 0 := by
  cases e <;> rfl

theorem value_ne_zero : e.value ≠ 0 := by
  cases e <;> decide

theorem armed_register (h : ch.register this e cb et = some ch')
    : ch'.armed e' = (decide (e' = e) || ch.armed e') := by
  have hevents : ch'.events &&& e'.value = (ch.events ||| e.value) &&& e'.value := by
    rw [register_eq, Option.some.injEq] at h
    subst h
    cases et with
    | true => simp only [↓reduceIte, or_and, EPOLLET_and, UInt32.or_zero]
    | false => rfl
  unfold armed
  rw [hevents, or_and, value_and]
  by_cases he : e' = e
  . simp [he, value_ne_zero]
  . simp [he]

theorem armed_unregister : (ch.unregister e).1.armed e' = (decide (e' ≠ e) && ch.armed e') := by
  unfold armed
  rw [unregister_eq, UInt32.and_assoc, not_value_and]
  by_cases he : e' = e
  . simp [he]
  . simp [he]

theorem callback_register (h : ch.register this e cb et = some ch')
    : ch'.callback e' = if e' = e then cb else ch.callback e' := by
  rw [register_eq, Option.some.injEq] at h
  subst h
  rw [← callback_setCallback]
  cases e' <;> rfl

theorem callback_unregister
    : (ch.unregister e).1.callback e' = if e' = e then none else ch.callback e' := by
  rw [unregister_eq, ← callback_setCallback]
  cases e' <;> rfl

end Lemmas

end Channel

namespace EpollPoller

variable {n : Nat} {κ : Type u}

def updateChannel (interest : Nat → Option UInt32) (ch : Channel n κ) (ok : Bool)
    : (Nat → Option UInt32) × Channel n κ :=
  if ch.inEpoll then
    if ok then
      (update interest ch.fd (some ch.events), ch)
    else
      (interest, ch)
  else if ok then
    (update interest ch.fd (some ch.events), { ch with inEpoll := true })
  else
    (interest, ch)

def removeChannel (interest : Nat → Option UInt32) (ch : Channel n κ) (ok : Bool)
    : Option ((Nat → Option UInt32) × Channel n κ) :=
  if ch.inEpoll then
    if ok then
      some (update interest ch.fd none, { ch with inEpoll := false })
    else
      some (interest, ch)
  else
    none

section Lemmas

variable {interest interest' : Nat → Option UInt32} {ch ch' : Channel n κ} {ok : Bool} {e : Event}

theorem updateChannel_eq
    : (updateChannel interest ch ok).2 = { ch with inEpoll := ch.inEpoll || ok } := by
  cases ch
  unfold updateChannel
  split
  . next h => cases ok <;> simp_all
  . next h => cases ok <;> simp_all

theorem interest_updateChannel
    : (updateChannel interest ch ok).1 = if ok then update interest ch.fd (some ch.events) else interest := by
  unfold updateChannel
  split
  . split <;> rfl
  . split <;> rfl

theorem callback_updateChannel : (updateChannel interest ch ok).2.callback e = ch.callback e := by
  rw [updateChannel_eq]
  cases e <;> rfl

theorem callback_removeChannel (h : removeChannel interest ch ok = some (interest', ch'))
    : ch'.callback e = ch.callback e := by
  unfold removeChannel at h
  split at h
  . split at h
    . cases h; cases e <;> rfl
    . cases h; rfl
  . cases h

theorem fd_removeChannel (h : removeChannel interest ch ok = some (interest', ch')) : ch'.fd = ch.fd := by
  unfold removeChannel at h
  split at h
  . split at h
    . cases h; rfl
    . cases h; rfl
  . cases h

end Lemmas

end EpollPoller

end Koro
