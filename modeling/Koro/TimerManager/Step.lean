import Koro.TimerManager.Run

/-!
This module says once, case by case, what a step of `TimerManager.machine` can do, and what the loop
of `resetTimer` leaves in the set of timers.
-/

namespace Koro
namespace TimerManager

open Function (update)

variable {n : Nat} {κ : Type u}

def State.next (s : State n κ) (addr : Nat) : TimerPtr :=
  { addr, serial := s.registered.length }

inductive Step (s : State n κ) : Action n κ → State n κ → Prop where
  | registerFirst (w : Fin n) (addr : Nat) (timestamp : Int) (cb : κ) (interval now settime : Int)
      (hw : (s.tm w).triggering = false) (hmax : addr < uintptrMax)
      (hfresh : ∀ w, ∀ e ∈ (s.tm w).entries, e.timer.addr ≠ addr)
      (hfirst : ∀ e ∈ (s.tm w).timers, timestamp < e.expiration)
    : Step s (.registerTimer w addr timestamp cb interval now settime)
        { s with
          tm := update s.tm w { s.tm w with
            timers := (s.tm w).timers.insert ⟨timestamp, s.next addr⟩
            fd := TimerFd.settime (Timestamp.toRelativeItimerspec timestamp now) settime }
          timer := update s.timer (s.next addr) ((Timer.new timestamp cb interval).enable true)
          registered := s.registered ++ [s.next addr] }
  | registerLater (w : Fin n) (addr : Nat) (timestamp : Int) (cb : κ) (interval now settime : Int)
      (hw : (s.tm w).triggering = false) (hmax : addr < uintptrMax)
      (hfresh : ∀ w, ∀ e ∈ (s.tm w).entries, e.timer.addr ≠ addr)
      (e : Entry) (he : e ∈ (s.tm w).timers) (hle : e.expiration ≤ timestamp)
    : Step s (.registerTimer w addr timestamp cb interval now settime)
        { s with
          tm := update s.tm w { s.tm w with
            timers := (s.tm w).timers.insert ⟨timestamp, s.next addr⟩ }
          timer := update s.timer (s.next addr) ((Timer.new timestamp cb interval).enable true)
          registered := s.registered ++ [s.next addr] }
  | cancelNone : Step s (.unregisterEvent TimerId.default) s
  | cancelDead (p : TimerPtr) (hp : p ∈ s.registered)
      (hdead : ∀ w, ∀ e ∈ (s.tm w).entries, e.timer ≠ p)
    : Step s (.unregisterEvent (TimerId.new p)) { s with cancelled := s.cancelled ++ [p] }
  | cancel (p : TimerPtr) (hp : p ∈ s.registered)
    : Step s (.unregisterEvent (TimerId.new p))
        { s with
          timer := update s.timer p ((s.timer p).enable false)
          cancelled := s.cancelled ++ [p] }
  | triggerTimer (w : Fin n) (now : Int) (hw : (s.tm w).triggering = false)
      (active on : List Entry)
      (hactive : active = (s.tm w).activeTimers ++ (s.tm w).timers.upTo (toLex (now, uintptrMax)))
      (hon : on = active.filter fun e => (s.timer e.timer).on)
    : Step s (.triggerTimer w now)
        { s with
          tm := update s.tm w {
            timers := (s.tm w).timers.eraseUpTo (toLex (now, uintptrMax))
            activeTimers := active
            triggering := true
            fd := (s.tm w).fd.read }
          tasks := update s.tasks w (s.tasks w ++ on.map fun e => (s.timer e.timer).onTimeCallback)
          fired := s.fired ++ on.map Entry.timer }
  | resetTimer (w : Fin n) (now settime : Int) (hw : (s.tm w).triggering = true)
      (timer : TimerPtr → Timer κ) (timers : OrderedSet Entry.key) (fd : TimerFd)
      (hrearm : rearm s.timer (s.tm w).timers (s.tm w).activeTimers = (timer, timers))
      (hnone : timers.first = none → fd = (s.tm w).fd)
      (hsome : ∀ e, timers.first = some e → fd = resetTimerFd timer e.timer now settime)
    : Step s (.resetTimer w now settime)
        { s with
          tm := update s.tm w { timers, activeTimers := [], triggering := false, fd }
          timer }
  | expire (w : Fin n) (now deadline : Int) (hfd : (s.tm w).fd = .armed deadline)
      (hle : deadline ≤ now)
    : Step s (.expire w now)
        { s with tm := update s.tm w { s.tm w with fd := .readable } }

theorem Step.of_registerTimer {s t : State n κ}
    (h : s.registerTimer w addr timestamp cb interval now settime = some t)
    : Step s (.registerTimer w addr timestamp cb interval now settime) t := by
  unfold State.registerTimer at h
  simp only [Option.ite_none_right_eq_some] at h
  rcases h with ⟨⟨hw, hfresh⟩, h⟩
  simp only [State.fresh, decide_eq_true_eq] at hfresh
  simp only [insert, Function.update_self, Function.update_idem, resetTimerFd] at h
  cases hfirst : (s.tm w).timers.first with
  | none =>
    simp only [hfirst, ↓reduceIte, Option.some.injEq] at h
    subst h
    apply Step.registerFirst w addr timestamp cb interval now settime hw hfresh.left hfresh.right
    intro e he
    exact absurd he (OrderedSet.first_none.mp hfirst e)
  | some e =>
    by_cases hlt : timestamp < e.expiration
    . simp only [hfirst, Timer.new, hlt, decide_true, ↓reduceIte, Option.some.injEq] at h
      subst h
      apply Step.registerFirst w addr timestamp cb interval now settime hw hfresh.left hfresh.right
      intro e' he'
      have := Prod.Lex.toLex_le_toLex.mp (OrderedSet.first_le hfirst he')
      simp only at this
      omega
    . simp only [hfirst, Timer.new, hlt, decide_false, Bool.false_eq_true, ↓reduceIte,
        Option.some.injEq] at h
      subst h
      apply Step.registerLater w addr timestamp cb interval now settime hw hfresh.left hfresh.right
        e (OrderedSet.first_mem hfirst)
      omega

theorem State.alive_eq_false {s : State n κ} (h : s.alive p = false)
    : ∀ w, ∀ e ∈ (s.tm w).entries, e.timer ≠ p := by
  simp only [State.alive, decide_eq_false_iff_not, not_exists, not_and] at h
  exact h

theorem Step.of_unregisterEvent {s t : State n κ} (h : s.unregisterEvent timerId = some t)
    : Step s (.unregisterEvent timerId) t := by
  unfold State.unregisterEvent at h
  simp only [Option.ite_none_right_eq_some] at h
  rcases h with ⟨hid, h⟩
  cases hid with
  | inl hid =>
    subst hid
    simp only [TimerId.default, ↓reduceIte, Option.toList_none, List.append_nil,
      Option.some.injEq] at h
    subst h
    exact .cancelNone
  | inr hid =>
    rcases hid with ⟨p, hp, rfl⟩
    simp only [TimerId.new, Nat.add_eq_zero_iff, Nat.one_ne_zero, and_false, ↓reduceIte,
      Option.toList_some] at h
    cases halive : s.alive p with
    | true =>
      simp only [Option.filter, halive, ↓reduceIte, Option.some.injEq] at h
      subst h
      exact .cancel p hp
    | false =>
      simp only [Option.filter, halive, Bool.false_eq_true, ↓reduceIte, Option.some.injEq] at h
      subst h
      exact .cancelDead p hp (State.alive_eq_false halive)

theorem Step.of_step {s t : State n κ} {a : Action n κ} (h : step s a = some t) : Step s a t := by
  cases a with
  | registerTimer w addr timestamp cb interval now settime => exact .of_registerTimer h
  | unregisterEvent timerId => exact .of_unregisterEvent h
  | triggerTimer w now =>
    simp only [step, State.triggerTimer, Option.ite_none_right_eq_some, Option.some.injEq] at h
    rcases h with ⟨hw, rfl⟩
    exact .triggerTimer w now hw _ _ rfl rfl
  | resetTimer w now settime =>
    simp only [step, State.resetTimer, Option.ite_none_right_eq_some, Option.some.injEq] at h
    rcases h with ⟨hw, rfl⟩
    apply Step.resetTimer w now settime hw _ _ _ rfl
    . intro hfirst
      rw [hfirst]
    . intro e hfirst
      rw [hfirst]
  | expire w now =>
    simp only [step, State.expire] at h
    split at h
    . next deadline hfd =>
      simp only [Option.ite_none_right_eq_some, Option.some.injEq] at h
      rcases h with ⟨hle, rfl⟩
      exact .expire w now deadline hfd hle
    . cases h

end TimerManager
end Koro
