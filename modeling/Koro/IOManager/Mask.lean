import Koro.IOManager.Interest

/-!
This module contains how the event mask of a channel follows the registrations made on it, over any
sequence of `registerEvent` and `unregisterEvent` on one channel for which every `epoll_ctl` succeeds.

`last` is the trigger mode of the last call about an event, `true` for edge-triggered, where this call
is a registration.
-/

namespace Koro

open Function (update)

namespace Channel

variable {n : Nat} {κ : Type u} {ch ch' : Channel n κ} {this : ChannelId} {e : Event} {cb : Option κ}
  {et : Bool}

def edgeTriggered (ch : Channel n κ) : Bool :=
  decide (ch.events &&& EPOLLET ≠ 0)

theorem edgeTriggered_register (h : ch.register this e cb et = some ch')
    : ch'.edgeTriggered = (et || ch.edgeTriggered) := by
  rw [register_eq, Option.some.injEq] at h
  subst h
  have hvalue : e.value &&& EPOLLET = 0 := by cases e <;> rfl
  unfold edgeTriggered
  cases et with
  | true =>
    have hne : EPOLLET ≠ 0 := by decide
    simp [or_and, hvalue, hne]
  | false => simp [or_and, hvalue]

theorem edgeTriggered_unregister : (ch.unregister e).1.edgeTriggered = ch.edgeTriggered := by
  have hvalue : ~~~e.value &&& EPOLLET = EPOLLET := by cases e <;> rfl
  unfold edgeTriggered
  rw [unregister_eq, UInt32.and_assoc, hvalue]

end Channel

namespace IOManager
namespace Channels
namespace Mask

variable {n : Nat} {κ : Type u} {ch : ChannelId} {q : Fin n} {fd : Nat}

structure State (n : Nat) (κ : Type u) where
  io : Channels.State n κ
  last : Event → Option Bool
  called : Bool

-- The callback of a registration is not empty
inductive Action (κ : Type u) where
  | registerEvent (e : Event) (cb : κ) (useET : Bool)
  | unregisterEvent (e : Event)
  deriving DecidableEq, Repr

def Action.event : Action κ → Event
  | .registerEvent e _ _ => e
  | .unregisterEvent e => e

def Action.registers : Action κ → Bool
  | .registerEvent .. => true
  | .unregisterEvent _ => false

def Action.asksEdge : Action κ → Bool
  | .registerEvent _ _ useET => useET
  | .unregisterEvent _ => false

def record (last : Event → Option Bool) : Action κ → Event → Option Bool
  | .registerEvent e _ useET => update last e (some useET)
  | .unregisterEvent e => update last e none

def step (ch : ChannelId) (s : State n κ) (a : Action κ) : Option (State n κ) :=
  let io :=
    match a with
    | .registerEvent e cb useET => (s.io.registerEvent ch e (some cb) useET true).map Prod.fst
    | .unregisterEvent e => s.io.unregisterEvent ch e true
  io.map fun io => { io, last := record s.last a, called := true }

-- Channel `ch` is new, other channels are as they may be
def machine (κ : Type u) (ch : ChannelId) (q : Fin n) (fd : Nat) : Machine (State n κ) (Action κ) where
  init s := s.io.channel ch = Channel.new fd (some q) ∧ s.last = (fun _ => none) ∧ s.called = false
  step := step ch

/--
The channel and the kernel have the mask of what is registered, which asks for edge triggering where
some event registered does.
-/
structure Exact (ch : ChannelId) (q : Fin n) (fd : Nat) (s : State n κ) : Prop where
  kernel : s.called = true → s.io.interest q fd = some (s.io.channel ch).events
  armed : ∀ e, (s.io.channel ch).armed e = true ↔ (s.io.channel ch).callback e ≠ none
  registered : ∀ e, (s.io.channel ch).callback e ≠ none ↔ s.last e ≠ none
  edge : (s.io.channel ch).edgeTriggered = true ↔ ∃ e, s.last e = some true

/--
Where some event is registered edge-triggered, one still is after the call.
-/
def Keeps (s : State n κ) (a : Action κ) : Prop :=
  (∃ e, s.last e = some true) → ∃ e, record s.last a e = some true

structure Attached (ch : ChannelId) (q : Fin n) (fd : Nat) (s : State n κ) : Prop where
  taskQueue : (s.io.channel ch).taskQueue = some q
  fd : (s.io.channel ch).fd = fd

theorem channel_registerEvent {io io' : Channels.State n κ} (hq : (io.channel ch).taskQueue = some q)
    (h : (io.registerEvent ch e cb et true).map Prod.fst = some io')
    : ∃ c, (io.channel ch).register ch e cb et = some c
        ∧ io'.channel ch = { c with inEpoll := true } ∧ io'.interest q c.fd = some c.events := by
  rcases registerEvent_of_taskQueue hq e cb et true with ⟨c, hc, _, heq⟩
  rw [heq, Option.map_some, Option.some.injEq] at h
  subst h
  refine ⟨c, hc, ?_, interest_updateChannel ch c⟩
  simp [State.addPending, State.updateChannel, EpollPoller.updateChannel_eq]

theorem channel_unregisterEvent {io io' : Channels.State n κ} (hq : (io.channel ch).taskQueue = some q)
    (h : io.unregisterEvent ch e true = some io')
    : io'.channel ch = { ((io.channel ch).unregister e).1 with inEpoll := true }
        ∧ io'.interest q (io.channel ch).fd = some ((io.channel ch).unregister e).1.events := by
  rw [unregisterEvent_eq] at h
  unfold State.unregisterLocked at h
  rw [hq, Option.map_some, Option.some.injEq] at h
  subst h
  constructor
  . simp [State.subPending, State.updateChannel, EpollPoller.updateChannel_eq]
  . have hfd : ((io.channel ch).unregister e).1.fd = (io.channel ch).fd := by cases e <;> rfl
    rw [← hfd]
    exact interest_updateChannel ch _

-- What a call does to the channel and to the kernel's mask of it
structure Moves (ch : ChannelId) (q : Fin n) (fd : Nat) (s : State n κ) (a : Action κ) (t : State n κ)
    : Prop where
  last : t.last = record s.last a
  attached : Attached ch q fd t
  kernel : t.io.interest q fd = some (t.io.channel ch).events
  armed : ∀ e, (t.io.channel ch).armed e
    = if e = a.event then a.registers else (s.io.channel ch).armed e
  callback : ∀ e, ((t.io.channel ch).callback e).isSome
    = if e = a.event then a.registers else ((s.io.channel ch).callback e).isSome
  edge : (t.io.channel ch).edgeTriggered = (a.asksEdge || (s.io.channel ch).edgeTriggered)

variable {s t : State n κ} {a : Action κ}

theorem moves_of_step (h : Attached ch q fd s) (hs : step ch s a = some t) : Moves ch q fd s a t := by
  simp only [step, Option.map_eq_some_iff] at hs
  rcases hs with ⟨io, hio, rfl⟩
  cases a with
  | registerEvent e cb et =>
    rcases channel_registerEvent h.taskQueue hio with ⟨c, hc, hch, hinterest⟩
    have hkeep : c.taskQueue = some q ∧ c.fd = fd := by
      rw [Channel.register_eq, Option.some.injEq] at hc
      subst hc
      rw [← h.taskQueue, ← h.fd]
      cases e <;> exact ⟨rfl, rfl⟩
    have hcallback : ∀ e', ((io.channel ch).callback e').isSome
        = if e' = e then true else ((s.io.channel ch).callback e').isSome := by
      intro e'
      have hcb : (io.channel ch).callback e' = c.callback e' := by rw [hch]; cases e' <;> rfl
      rw [hcb, Channel.callback_register hc]
      split <;> rfl
    constructor
    . rfl
    . exact ⟨by rw [hch]; exact hkeep.left, by rw [hch]; exact hkeep.right⟩
    . rw [hch, ← hkeep.right]
      exact hinterest
    . intro e'
      have harmed : (io.channel ch).armed e' = c.armed e' := by rw [hch]; rfl
      rw [harmed, Channel.armed_register hc]
      by_cases he : e' = e <;> simp [he, Action.event, Action.registers]
    . exact hcallback
    . have hedge : (io.channel ch).edgeTriggered = c.edgeTriggered := by rw [hch]; rfl
      rw [hedge]
      exact Channel.edgeTriggered_register hc
  | unregisterEvent e =>
    rcases channel_unregisterEvent h.taskQueue hio with ⟨hch, hinterest⟩
    have hkeep : ((s.io.channel ch).unregister e).1.taskQueue = some q
        ∧ ((s.io.channel ch).unregister e).1.fd = fd := by
      rw [← h.taskQueue, ← h.fd]
      cases e <;> exact ⟨rfl, rfl⟩
    have hcallback : ∀ e', ((io.channel ch).callback e').isSome
        = if e' = e then false else ((s.io.channel ch).callback e').isSome := by
      intro e'
      have hcb : (io.channel ch).callback e' = ((s.io.channel ch).unregister e).1.callback e' := by
        rw [hch]
        cases e' <;> rfl
      rw [hcb, Channel.callback_unregister]
      split <;> rfl
    constructor
    . rfl
    . exact ⟨by rw [hch]; exact hkeep.left, by rw [hch]; exact hkeep.right⟩
    . rw [hch, ← h.fd]
      exact hinterest
    . intro e'
      have harmed : (io.channel ch).armed e' = ((s.io.channel ch).unregister e).1.armed e' := by
        rw [hch]
        rfl
      rw [harmed, Channel.armed_unregister]
      by_cases he : e' = e <;> simp [he, Action.event, Action.registers]
    . exact hcallback
    . have hedge : (io.channel ch).edgeTriggered = ((s.io.channel ch).unregister e).1.edgeTriggered := by
        rw [hch]
        rfl
      rw [hedge, Channel.edgeTriggered_unregister]
      rfl

theorem record_isSome (last : Event → Option Bool) (a : Action κ) (e : Event)
    : (record last a e).isSome = if e = a.event then a.registers else (last e).isSome := by
  cases a with
  | registerEvent e' cb et => by_cases he : e = e' <;> simp [record, Action.event, Action.registers, he]
  | unregisterEvent e' => by_cases he : e = e' <;> simp [record, Action.event, Action.registers, he]

-- After a call an event asks for edge triggering where the call did, or another event does
theorem record_edge (last : Event → Option Bool) (a : Action κ)
    : (∃ e, record last a e = some true)
        ↔
      a.asksEdge = true ∨ ∃ e, e ≠ a.event ∧ last e = some true := by
  cases a with
  | registerEvent e cb et =>
    simp only [record, Action.asksEdge, Action.event]
    constructor
    . intro h
      rcases h with ⟨e', he'⟩
      rw [Function.update_apply] at he'
      split at he'
      . exact .inl (Option.some.inj he')
      . next hne => exact .inr ⟨e', hne, he'⟩
    . intro h
      rcases h with rfl | ⟨e', hne, he'⟩
      . exact ⟨e, Function.update_self _ _ _⟩
      . exact ⟨e', by rw [Function.update_of_ne hne, he']⟩
  | unregisterEvent e =>
    simp only [record, Action.asksEdge, Action.event]
    constructor
    . intro h
      rcases h with ⟨e', he'⟩
      rw [Function.update_apply] at he'
      split at he'
      . cases he'
      . next hne => exact .inr ⟨e', hne, he'⟩
    . intro h
      rcases h with h | ⟨e', hne, he'⟩
      . cases h
      . exact ⟨e', by rw [Function.update_of_ne hne, he']⟩

theorem exact_step (h : Attached ch q fd s) (hexact : Exact ch q fd s) (hs : step ch s a = some t)
    : Exact ch q fd t ↔ Keeps s a := by
  have hmoves := moves_of_step h hs
  have hedge : ((t.io.channel ch).edgeTriggered = true ↔ ∃ e, t.last e = some true) ↔ Keeps s a := by
    rw [hmoves.edge, hmoves.last, Bool.or_eq_true, hexact.edge]
    unfold Keeps
    constructor
    . intro hiff hex
      exact hiff.mp (.inr hex)
    . intro hkeeps
      constructor
      . intro hor
        rcases hor with hasks | hex
        . exact (record_edge s.last a).mpr (.inl hasks)
        . exact hkeeps hex
      . intro hex
        rcases (record_edge s.last a).mp hex with hasks | ⟨e, _, he⟩
        . exact .inl hasks
        . exact .inr ⟨e, he⟩
  constructor
  . intro hexact
    exact hedge.mp hexact.edge
  . intro hkeeps
    constructor
    . intro _
      exact hmoves.kernel
    . intro e
      rw [hmoves.armed, ← Option.isSome_iff_ne_none, hmoves.callback]
      split
      . rfl
      . rw [hexact.armed, ← Option.isSome_iff_ne_none]
    . intro e
      rw [← Option.isSome_iff_ne_none, ← Option.isSome_iff_ne_none, hmoves.callback, hmoves.last,
        record_isSome]
      split
      . rfl
      . rw [Option.isSome_iff_ne_none, Option.isSome_iff_ne_none]
        exact hexact.registered e
    . exact hedge.mpr hkeeps

/--
The mask is exact after each call just as long as no call takes back the last request for edge
triggering.
-/
theorem exact_iff_keeps (h : (machine κ ch q fd).init s) (as : List (Action κ))
    : (machine κ ch q fd).Always (Exact ch q fd) s as ↔ (machine κ ch q fd).Meets Keeps s as := by
  rcases h with ⟨hnew, hlast, hcalled⟩
  apply Machine.always_iff_meets (I := Attached ch q fd)
  . intro s a t hI hP hat
    exact ⟨(moves_of_step hI hat).attached, exact_step hI hP hat⟩
  . constructor
    . rw [hnew]
      rfl
    . rw [hnew]
      rfl
  . constructor
    . simp [hcalled]
    . intro e
      rw [hnew]
      cases e <;> simp [Channel.armed, Channel.new, Channel.callback]
    . intro e
      rw [hnew, hlast]
      cases e <;> simp [Channel.new, Channel.callback]
    . rw [hnew, hlast]
      simp [Channel.edgeTriggered, Channel.new]

def fresh : State 1 Nat where
  io := opened
  last := fun _ => none
  called := false

theorem exact_iff_keeps_fresh
    : (machine Nat 0 (0 : Fin 1) 3).Always (Exact 0 0 3) fresh [.registerEvent .kRead 7 true]
        ↔
      (machine Nat 0 (0 : Fin 1) 3).Meets Keeps fresh [.registerEvent .kRead 7 true] :=
  exact_iff_keeps ⟨rfl, rfl, rfl⟩ _

-- What `do_io` does, and then a level-triggered registration
def level : List (Action Nat) :=
  [.registerEvent .kRead 7 true, .unregisterEvent .kRead, .registerEvent .kWrite 8 false]

theorem not_exact_level
    : ¬∀ s, (machine Nat 0 (0 : Fin 1) 3).Reachable s → Exact 0 0 3 s := by
  intro h
  have hexec : (machine Nat 0 (0 : Fin 1) 3).exec fresh level = some _ := rfl
  have hedge := (h _ (Machine.Reachable.of_exec level ⟨rfl, rfl, rfl⟩ hexec)).edge.mp (by decide)
  rcases hedge with ⟨e, he⟩
  cases e <;> cases he

end Mask
end Channels
end IOManager
end Koro
