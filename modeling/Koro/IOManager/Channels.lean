import Koro.Channel
import Koro.Machine.Basic

/-!
This module contains the channels of an `IOManager`: `bindTaskQueue`, `registerEvent`,
`unregisterEvent` and `removeChannel`, called one after the other, over the channel table `ctable` and
the interest lists of the epollers of `n` workers. An operation is `none` where an assertion fails.
-/

namespace Koro
namespace IOManager
namespace Channels

open Function (update)

structure State (n : Nat) (κ : Type u) where
  channel : ChannelId → Channel n κ
  channels : Nat
  chs : List (Option ChannelId)
  interest : Fin n → Nat → Option UInt32
  pendingEventCount : UInt64
  threadToPostIndex : Nat

variable {n : Nat} {κ : Type u}

def State.start (n : Nat) (κ : Type u) : State n κ where
  channel := fun _ => Channel.new 0 none
  channels := 0
  chs := []
  interest := fun _ _ => none
  pendingEventCount := 0
  threadToPostIndex := 0

-- The growth loop of `bindTaskQueue`, which for a descriptor ends after its first iteration
def grow (chs : List (Option ChannelId)) (fd : Nat) : List (Option ChannelId) :=
  if fd ≥ chs.length then
    chs ++ List.replicate (max (fd * 3 / 2) (fd + 16) - chs.length) none
  else
    chs

namespace State

def bindTaskQueue (s : State n κ) (taskQueue : Option (Fin n)) (fd : Nat)
    : Option (State n κ × ChannelId) :=
  let chs := grow s.chs fd
  match chs[fd]? with
  | some (some ch) => some ({ s with chs }, ch)
  | _ =>
    match taskQueue with
    | some q =>
      some ({ s with
        channel := update s.channel s.channels (Channel.new fd (some q))
        channels := s.channels + 1
        chs := chs.set fd (some s.channels)
      }, s.channels)
    | none =>
      if h : 0 < n then
        let idx : Fin n := ⟨s.threadToPostIndex % n, Nat.mod_lt _ h⟩
        some ({ s with
          channel := update s.channel s.channels (Channel.new fd (some idx))
          channels := s.channels + 1
          chs := chs.set fd (some s.channels)
          threadToPostIndex := s.threadToPostIndex + 1
        }, s.channels)
      else
        none

def registerEvent (s : State n κ) (ch : ChannelId) (e : Event) (cb : Option κ) (useET ok : Bool)
    : Option (State n κ × Bool) :=
  match (s.channel ch).taskQueue with
  | none => none
  | some q =>
    match (s.channel ch).register ch e cb useET with
    | none => some (s, false)
    | some c =>
      let (interest, c) := EpollPoller.updateChannel (s.interest q) c ok
      some ({ s with
        channel := update s.channel ch c
        interest := update s.interest q interest
        pendingEventCount := s.pendingEventCount + 1
      }, true)

def unregisterEvent (s : State n κ) (ch : ChannelId) (e : Event) (ok : Bool)
    : Option (State n κ) :=
  match (s.channel ch).taskQueue with
  | none => none
  | some q =>
    let (c, banEventCount) := (s.channel ch).unregister e
    let (interest, c) := EpollPoller.updateChannel (s.interest q) c ok
    let pendingEventCount :=
      if banEventCount > 0 then
        s.pendingEventCount - UInt64.ofNat banEventCount
      else
        s.pendingEventCount
    some { s with
      channel := update s.channel ch c
      interest := update s.interest q interest
      pendingEventCount
    }

def removeChannel (s : State n κ) (ch : ChannelId) (ok : Bool) : Option (State n κ) :=
  match (s.channel ch).taskQueue with
  | none => some s
  | some q =>
    let fd := (s.channel ch).fd
    let chs :=
      if fd < s.chs.length then
        s.chs.set fd none
      else
        s.chs
    let c :=
      { s.channel ch with readCallback := none, writeCallback := none, errorCallback := none }
    if c.inEpoll then
      let c := { c with events := 0 }
      -- `Channel::remove`
      match EpollPoller.removeChannel (s.interest q) c ok with
      | none => none
      | some (interest, c) =>
        some { s with
          channel := update s.channel ch { c with taskQueue := none }
          chs
          interest := update s.interest q interest
        }
    else
      some { s with channel := update s.channel ch c, chs }

end State

-- An operation is called on a channel that `bindTaskQueue` has returned
inductive Action (n : Nat) (κ : Type u) where
  | bindTaskQueue (taskQueue : Option (Fin n)) (fd : Nat)
  | registerEvent (ch : ChannelId) (e : Event) (cb : Option κ) (useET ok : Bool)
  | unregisterEvent (ch : ChannelId) (e : Event) (ok : Bool)
  | removeChannel (ch : ChannelId) (ok : Bool)
  deriving DecidableEq, Repr

def step (s : State n κ) : Action n κ → Option (State n κ)
  | .bindTaskQueue taskQueue fd => (s.bindTaskQueue taskQueue fd).map Prod.fst
  | .registerEvent ch e cb useET ok =>
    if ch < s.channels then
      (s.registerEvent ch e cb useET ok).map Prod.fst
    else
      none
  | .unregisterEvent ch e ok => if ch < s.channels then s.unregisterEvent ch e ok else none
  | .removeChannel ch ok => if ch < s.channels then s.removeChannel ch ok else none

def machine (n : Nat) (κ : Type u) : Machine (State n κ) (Action n κ) where
  init s := s = State.start n κ
  step := step

end Channels
end IOManager
end Koro
