import Koro.TimerManager.Live
import Koro.Data.Counter

/-!
This module contains the timers of an `IOManager`: `runAt`, `runAfter`, `runEvery` and `cancellTimer`,
which count in `pending_event_count_`, over the `TimerManager`s of its workers. The worker that calls
an operation is the one whose task queue `t_task_queue` is, `none` outside of the workers, where the
assertion fails.

A timer is live from its registration until it is first cancelled or, if it is a one-shot timer, until
it has fired. The counter tells the number of live timers as long as only live timers are cancelled
and no one-shot timer fires.
-/

namespace Koro
namespace IOManager
namespace Timers

open Function (update)

structure State (n : Nat) (κ : Type u) where
  timers : TimerManager.State n κ
  pendingEventCount : UInt64

variable {n : Nat} {κ : Type u}

def State.start (n : Nat) (κ : Type u) [Inhabited κ] : State n κ where
  timers := TimerManager.State.start n κ
  pendingEventCount := 0

namespace State

def registerTimer (s : State n κ) (taskQueue : Option (Fin n)) (addr : Nat) (timestamp : Int)
    (cb : κ) (interval : Int) (now settime : Int)
    : Option (State n κ) :=
  match taskQueue with
  | none => none
  | some w =>
    let pendingEventCount := s.pendingEventCount + 1
    (s.timers.registerTimer w addr timestamp cb interval now settime).map fun timers =>
      { timers, pendingEventCount }

def runAt (s : State n κ) (taskQueue : Option (Fin n)) (addr : Nat) (timestamp : Int) (cb : κ)
    (now settime : Int)
    : Option (State n κ) :=
  s.registerTimer taskQueue addr timestamp cb (-1000000000) now settime

def runAfter (s : State n κ) (taskQueue : Option (Fin n)) (addr : Nat) (clock delay : Int) (cb : κ)
    (now settime : Int)
    : Option (State n κ) :=
  s.registerTimer taskQueue addr (clock + delay) cb (-1000000000) now settime

def runEvery (s : State n κ) (taskQueue : Option (Fin n)) (addr : Nat) (clock interval : Int)
    (cb : κ) (now settime : Int)
    : Option (State n κ) :=
  s.registerTimer taskQueue addr (clock + interval) cb interval now settime

def cancellTimer (s : State n κ) (taskQueue : Option (Fin n)) (timerId : TimerId)
    : Option (State n κ) :=
  match taskQueue with
  | none => none
  | some _ =>
    let pendingEventCount := s.pendingEventCount - 1
    (s.timers.unregisterEvent timerId).map fun timers => { timers, pendingEventCount }

end State

inductive Action (n : Nat) (κ : Type u) where
  | runAt (taskQueue : Option (Fin n)) (addr : Nat) (timestamp : Int) (cb : κ) (now settime : Int)
  | runAfter (taskQueue : Option (Fin n)) (addr : Nat) (clock delay : Int) (cb : κ)
    (now settime : Int)
  | runEvery (taskQueue : Option (Fin n)) (addr : Nat) (clock interval : Int) (cb : κ)
    (now settime : Int)
  | cancellTimer (taskQueue : Option (Fin n)) (timerId : TimerId)
  | triggerTimer (w : Fin n) (now : Int)
  | resetTimer (w : Fin n) (now settime : Int)
  | expire (w : Fin n) (now : Int)
  deriving DecidableEq, Repr

def step (s : State n κ) : Action n κ → Option (State n κ)
  | .runAt taskQueue addr timestamp cb now settime =>
    s.runAt taskQueue addr timestamp cb now settime
  | .runAfter taskQueue addr clock delay cb now settime =>
    s.runAfter taskQueue addr clock delay cb now settime
  | .runEvery taskQueue addr clock interval cb now settime =>
    s.runEvery taskQueue addr clock interval cb now settime
  | .cancellTimer taskQueue timerId => s.cancellTimer taskQueue timerId
  | .triggerTimer w now => (s.timers.triggerTimer w now).map fun timers => { s with timers }
  | .resetTimer w now settime =>
    (s.timers.resetTimer w now settime).map fun timers => { s with timers }
  | .expire w now => (s.timers.expire w now).map fun timers => { s with timers }

def machine (n : Nat) (κ : Type u) [Inhabited κ] : Machine (State n κ) (Action n κ) where
  init s := s = State.start n κ
  step := step

variable {s t : State n κ}

-- What a step does: to the counter, and to the timers
inductive Step (s : State n κ) : Action n κ → State n κ → Prop where
  | register (a : Action n κ) (w : Fin n) (addr : Nat) (timestamp : Int) (cb : κ) (interval : Int)
      (now settime : Int) (timers : TimerManager.State n κ)
      (ha : (∃ q, a = .runAt q addr timestamp cb now settime)
        ∨ (∃ q clock delay, a = .runAfter q addr clock delay cb now settime)
        ∨ ∃ q clock delay, a = .runEvery q addr clock delay cb now settime)
      (htimers : TimerManager.Step s.timers
        (.registerTimer w addr timestamp cb interval now settime) timers)
    : Step s a { timers, pendingEventCount := s.pendingEventCount + 1 }
  | cancel (q : Option (Fin n)) (timerId : TimerId) (timers : TimerManager.State n κ)
      (htimers : TimerManager.Step s.timers (.unregisterEvent timerId) timers)
    : Step s (.cancellTimer q timerId) { timers, pendingEventCount := s.pendingEventCount - 1 }
  | trigger (w : Fin n) (now : Int) (timers : TimerManager.State n κ)
      (htimers : TimerManager.Step s.timers (.triggerTimer w now) timers)
    : Step s (.triggerTimer w now) { s with timers }
  | reset (w : Fin n) (now settime : Int) (timers : TimerManager.State n κ)
      (htimers : TimerManager.Step s.timers (.resetTimer w now settime) timers)
    : Step s (.resetTimer w now settime) { s with timers }
  | expire (w : Fin n) (now : Int) (timers : TimerManager.State n κ)
      (htimers : TimerManager.Step s.timers (.expire w now) timers)
    : Step s (.expire w now) { s with timers }

theorem registerTimer_eq_some
    (h : s.registerTimer taskQueue addr timestamp cb interval now settime = some t)
    : ∃ w timers,
        TimerManager.Step s.timers (.registerTimer w addr timestamp cb interval now settime) timers
          ∧
        t = { timers, pendingEventCount := s.pendingEventCount + 1 } := by
  cases taskQueue with
  | none => cases h
  | some w =>
    simp only [State.registerTimer, Option.map_eq_some_iff] at h
    rcases h with ⟨timers, htimers, rfl⟩
    exact ⟨w, timers, TimerManager.Step.of_registerTimer htimers, rfl⟩

theorem Step.of_step {a : Action n κ} (h : step s a = some t) : Step s a t := by
  cases a with
  | runAt q addr timestamp cb now settime =>
    rcases registerTimer_eq_some h with ⟨w, timers, htimers, rfl⟩
    exact .register _ w addr _ cb _ now settime timers (.inl ⟨q, rfl⟩) htimers
  | runAfter q addr clock delay cb now settime =>
    rcases registerTimer_eq_some h with ⟨w, timers, htimers, rfl⟩
    exact .register _ w addr _ cb _ now settime timers (.inr (.inl ⟨q, clock, delay, rfl⟩)) htimers
  | runEvery q addr clock interval cb now settime =>
    rcases registerTimer_eq_some h with ⟨w, timers, htimers, rfl⟩
    exact .register _ w addr _ cb _ now settime timers (.inr (.inr ⟨q, clock, interval, rfl⟩))
      htimers
  | cancellTimer q timerId =>
    cases q with
    | none => cases h
    | some w =>
      simp only [step, State.cancellTimer, Option.map_eq_some_iff] at h
      rcases h with ⟨timers, htimers, rfl⟩
      exact .cancel (some w) timerId timers (TimerManager.Step.of_unregisterEvent htimers)
  | triggerTimer w now =>
    simp only [step, Option.map_eq_some_iff] at h
    rcases h with ⟨timers, htimers, rfl⟩
    exact .trigger w now timers (TimerManager.Step.of_step htimers)
  | resetTimer w now settime =>
    simp only [step, Option.map_eq_some_iff] at h
    rcases h with ⟨timers, htimers, rfl⟩
    exact .reset w now settime timers (TimerManager.Step.of_step htimers)
  | expire w now =>
    simp only [step, Option.map_eq_some_iff] at h
    rcases h with ⟨timers, htimers, rfl⟩
    exact .expire w now timers (TimerManager.Step.of_step htimers)

def State.Counted (s : State n κ) : Prop :=
  s.pendingEventCount.toNat = s.timers.liveCount

instance (s : State n κ) : Decidable s.Counted :=
  inferInstanceAs (Decidable (_ = _))

-- Only live timers are cancelled, and no one-shot timer fires
def Matched (s : State n κ) : Action n κ → Prop
  | .runAt .. => s.timers.liveCount + 1 < 2 ^ 64
  | .runAfter .. => s.timers.liveCount + 1 < 2 ^ 64
  | .runEvery .. => s.timers.liveCount + 1 < 2 ^ 64
  | .cancellTimer _ timerId =>
    ∃ p ∈ s.timers.registered, timerId = TimerId.new p ∧ s.timers.live p = true
  | .triggerTimer w now => ∀ e ∈ (s.timers.tm w).timers, e.expiration ≤ now →
    (s.timers.timer e.timer).on = true → (s.timers.timer e.timer).repeats = true
  | _ => True

theorem liveCount_registerTimer {timers : TimerManager.State n κ} (h : s.timers.History)
    (hs : TimerManager.Step s.timers (.registerTimer w addr timestamp cb interval now settime)
      timers)
    : timers.liveCount = s.timers.liveCount + 1 := by
  cases hs with
  | registerFirst => exact TimerManager.liveCount_register h
  | registerLater => exact TimerManager.liveCount_register h

theorem counted_register {timers : TimerManager.State n κ} (h : s.Counted)
    (hlive : timers.liveCount = s.timers.liveCount + 1)
    : State.Counted { timers, pendingEventCount := s.pendingEventCount + 1 }
        ↔
      s.timers.liveCount + 1 < 2 ^ 64 := by
  unfold State.Counted
  rw [hlive]
  exact Counter.add_one h

theorem counted_cancel {timers : TimerManager.State n κ} (hh : s.timers.History) (h : s.Counted)
    (hs : TimerManager.Step s.timers (.unregisterEvent timerId) timers)
    : State.Counted { timers, pendingEventCount := s.pendingEventCount - 1 }
        ↔
      ∃ p ∈ s.timers.registered, timerId = TimerId.new p ∧ s.timers.live p = true := by
  -- Whether or not the timer is still alive, cancelling `p` ends its being live
  have hcancel : ∀ p ∈ s.timers.registered, timerId = TimerId.new p →
      timers.liveCount + (s.timers.live p).toNat = s.timers.liveCount →
      (State.Counted { timers, pendingEventCount := s.pendingEventCount - 1 }
        ↔ ∃ p ∈ s.timers.registered, timerId = TimerId.new p ∧ s.timers.live p = true) := by
    intro p hp hid hcount
    unfold State.Counted at h ⊢
    have hsame : ∀ q, timerId = TimerId.new q → q = p := by
      intro q hq
      rw [hid] at hq
      simp only [TimerId.new, TimerId.mk.injEq, Option.some.injEq] at hq
      exact hq.left.symm
    cases hlive : s.timers.live p with
    | true =>
      rw [hlive, Bool.toNat_true] at hcount
      rw [← hcount] at h
      simp only [Counter.sub_one h, true_iff]
      exact ⟨p, hp, hid, hlive⟩
    | false =>
      rw [hlive, Bool.toNat_false, Nat.add_zero] at hcount
      rw [← hcount] at h
      simp only [Counter.sub_one_ne h, false_iff]
      rintro ⟨q, _, hq, hlive'⟩
      rw [hsame q hq, hlive] at hlive'
      contradiction
  cases hs with
  | cancelNone =>
    unfold State.Counted at h ⊢
    simp only [Counter.sub_one_ne h, false_iff]
    rintro ⟨p, _, hp, _⟩
    simp [TimerId.default, TimerId.new] at hp
  | cancelDead p hp hdead =>
    apply hcancel p hp rfl
    exact TimerManager.liveCount_cancel hh hp (fun _ => rfl)
  | cancel p hp =>
    apply hcancel p hp rfl
    apply TimerManager.liveCount_cancel hh hp
    intro q
    rw [Function.update_apply]
    split
    . next hq => rw [hq]; rfl
    . rfl

theorem counted_trigger {timers : TimerManager.State n κ} (hwf : s.timers.Wellformed)
    (hh : s.timers.History) (h : s.Counted)
    (hs : TimerManager.Step s.timers (.triggerTimer w now) timers)
    : State.Counted { s with timers } ↔ Matched s (.triggerTimer w now) := by
  have hentry : ∀ e ∈ (s.timers.tm w).timers, e ∈ (s.timers.tm w).entries := by
    intro e he
    rw [TimerManager.mem_entries]
    exact .inl he
  have hmax : ∀ e ∈ (s.timers.tm w).timers, e.timer.addr < uintptrMax := by
    intro e he
    exact hh.small _ (hwf.known w e (hentry e he))
  cases hs with
  | triggerTimer _ _ hw active on hactive hon =>
    have hdue : on = TimerManager.due s.timers w now := by
      rw [hon, hactive, hwf.idle w hw]
      rfl
    unfold State.Counted at h ⊢
    rw [h, hdue, eq_comm, TimerManager.liveCount_fire]
    . simp only [List.forall_mem_map, TimerManager.mem_due hmax, Matched]
      constructor
      . intro hall e he hle hon
        exact hall e ⟨he, hle, hon⟩
      . intro hall e he
        exact hall e he.left he.right.left he.right.right
    . intro p hp
      rcases List.mem_map.mp hp with ⟨e, he, rfl⟩
      rw [TimerManager.mem_due hmax] at he
      refine ⟨hwf.known w e (hentry e he.left), ?_⟩
      intro hcancelled
      rw [hh.disabled w e (hentry e he.left) hcancelled] at he
      exact absurd he.right.right (by simp)
    . intro p hp hrepeats
      rcases List.mem_map.mp hp with ⟨e, he, rfl⟩
      exact hh.waiting w e (TimerManager.due_subset he) hrepeats

theorem counted_keep {timers : TimerManager.State n κ} (h : s.Counted)
    (hregistered : timers.registered = s.timers.registered)
    (hlive : ∀ p ∈ s.timers.registered, timers.live p = s.timers.live p)
    : State.Counted { s with timers } := by
  unfold State.Counted at h ⊢
  rw [h, TimerManager.liveCount_congr hregistered hlive]

theorem counted_step (hwf : s.timers.Wellformed) (hh : s.timers.History) (h : s.Counted)
    (hs : Step s a t)
    : t.Counted ↔ Matched s a := by
  cases hs with
  | register _ w addr timestamp cb interval now settime timers ha htimers =>
    rw [counted_register h (liveCount_registerTimer hh htimers)]
    rcases ha with ⟨q, rfl⟩ | ⟨q, clock, delay, rfl⟩ | ⟨q, clock, delay, rfl⟩ <;> rfl
  | cancel q timerId timers htimers => exact counted_cancel hh h htimers
  | trigger w now timers htimers => exact counted_trigger hwf hh h htimers
  | reset w now settime timers htimers =>
    simp only [Matched, iff_true]
    cases htimers with
    | resetTimer _ _ _ hw timer tms fd hrearm hnone hsome =>
      refine counted_keep h rfl ?_
      intro p _
      simp [TimerManager.State.live,
        (TimerManager.rearm_keeps (hwf.ready w) hrearm p).right.left]
  | expire w now timers htimers =>
    simp only [Matched, iff_true]
    cases htimers with
    | expire _ _ deadline hfd hle =>
      refine counted_keep h rfl ?_
      intro p _
      rfl

theorem history_step (hwf : s.timers.Wellformed) (hh : s.timers.History) (hs : Step s a t)
    : t.timers.Wellformed ∧ t.timers.History := by
  have hkeep : ∀ {a timers}, TimerManager.Step s.timers a timers →
      timers.Wellformed ∧ timers.History := by
    intro a timers htimers
    exact ⟨TimerManager.wellformed_step hwf htimers, TimerManager.history_step hh hwf htimers⟩
  cases hs with
  | register _ w addr timestamp cb interval now settime timers ha htimers => exact hkeep htimers
  | cancel q timerId timers htimers => exact hkeep htimers
  | trigger w now timers htimers => exact hkeep htimers
  | reset w now settime timers htimers => exact hkeep htimers
  | expire w now timers htimers => exact hkeep htimers

variable [Inhabited κ]

/--
The counter tells the number of live timers in every state of a run just as long as only live timers
are cancelled and no one-shot timer fires.
-/
theorem counted_iff_matched (as : List (Action n κ))
    : (machine n κ).Always State.Counted (State.start n κ) as
        ↔
      (machine n κ).Meets Matched (State.start n κ) as := by
  apply Machine.always_iff_meets (I := fun s => s.timers.Wellformed ∧ s.timers.History)
  . intro s a t hI h hat
    have hs : Step s a t := Step.of_step hat
    exact ⟨history_step hI.left hI.right hs, counted_step hI.left hI.right h hs⟩
  . exact ⟨TimerManager.wellformed_start, TimerManager.history_start⟩
  . rfl

-- A timer set with `runAfter` fires, and stays counted
def fired : List (Action 1 Nat) :=
  [.runAfter (some 0) 8 0 10 1 0 0, .expire 0 10, .triggerTimer 0 10]

theorem not_counted_fired : ¬∀ s, (machine 1 Nat).Reachable s → s.Counted := by
  intro h
  have hexec : (machine 1 Nat).exec (State.start 1 Nat) fired = some _ := rfl
  have := h _ (Machine.Reachable.of_exec fired rfl hexec)
  exact absurd this (by decide)

end Timers
end IOManager
end Koro
