import Koro.TimerManager.Entries

/-!
This module contains what is true of the timer fd while timers wait. `timerfd_settime` is only called
for a new earliest timer and at the end of a trigger, and where the expiration is not after the clock
reading that the relative time is computed from, the zero `it_value` disarms the fd.
-/

namespace Koro
namespace TimerManager

open Function (update)

variable {n : Nat} {κ : Type u} {s t : State n κ}

def Armed (tm : TimerManager) : Prop :=
  tm.triggering = false → tm.timers.isEmpty = false → tm.fd ≠ .disarmed

def State.Armed (s : State n κ) : Prop :=
  ∀ w, (s.tm w).Armed

-- Whenever the timer fd is set, the clock has not come to the expiration it is set for
def InTime (s : State n κ) : Action n κ → Prop
  | .registerTimer w _ timestamp _ _ now _ =>
    (∀ e ∈ (s.tm w).timers, timestamp < e.expiration) → now < timestamp
  | .resetTimer w now _ =>
    (∀ e ∈ (s.tm w).timers, now < e.expiration)
      ∧ ∀ e ∈ (s.tm w).activeTimers, repeating s.timer e → now < (again s.timer e).expiration
  | _ => True

theorem armed_update {tm : Fin n → TimerManager} {w : Fin n} {tm' : TimerManager}
    (h : ∀ w, (tm w).Armed)
    : (∀ w', (update tm w tm' w').Armed) ↔ tm'.Armed := by
  constructor
  . intro hall
    have := hall w
    rwa [Function.update_self] at this
  . intro htm w'
    by_cases hw : w' = w
    . rw [hw, Function.update_self]
      exact htm
    . rw [Function.update_of_ne hw]
      exact h w'

theorem isEmpty_eq_false {timers : OrderedSet Entry.key} {e : Entry} (he : e ∈ timers)
    : timers.isEmpty = false := by
  cases hempty : timers.isEmpty with
  | false => rfl
  | true => exact absurd he (OrderedSet.isEmpty_iff.mp hempty e)

theorem settime_ne_disarmed {tp now settime : Int}
    : TimerFd.settime (Timestamp.toRelativeItimerspec tp now) settime ≠ .disarmed ↔ now < tp := by
  rw [TimerFd.settime_toRelativeItimerspec]
  split
  . next h => simp [h]
  . next h => simpa using h

theorem first_after {timers : OrderedSet Entry.key} (h : timers.first = some e)
    : now < e.expiration ↔ ∀ e' ∈ timers, now < e'.expiration := by
  constructor
  . intro hnow e' he'
    have := Prod.Lex.toLex_le_toLex.mp (OrderedSet.first_le h he')
    simp only at this
    omega
  . intro hall
    exact hall e (OrderedSet.first_mem h)

theorem armed_step (hwf : s.Wellformed) (h : s.Armed) (hs : Step s a t)
    : t.Armed ↔ InTime s a := by
  unfold State.Armed at *
  cases hs with
  | registerFirst w addr timestamp cb interval now settime hw hmax hfresh hfirst =>
    rw [armed_update h]
    simp only [Armed, hw, OrderedSet.isEmpty_insert, true_implies, settime_ne_disarmed, InTime]
    exact ⟨fun hnow _ => hnow, fun hnow => hnow hfirst⟩
  | registerLater w addr timestamp cb interval now settime hw hmax hfresh e he hle =>
    rw [armed_update h]
    have hfd : (s.tm w).fd ≠ .disarmed := h w hw (isEmpty_eq_false he)
    simp only [Armed, hw, OrderedSet.isEmpty_insert, true_implies, InTime]
    constructor
    . intro _ hfirst
      have := hfirst e he
      omega
    . intro _
      exact hfd
  | cancelNone => exact ⟨fun _ => trivial, fun _ => h⟩
  | cancelDead p hp hdead => exact ⟨fun _ => trivial, fun _ => h⟩
  | cancel p hp => exact ⟨fun _ => trivial, fun _ => h⟩
  | triggerTimer w now hw active on hactive hon =>
    rw [armed_update h]
    simp [Armed, InTime]
  | resetTimer w now settime hw timer timers fd hrearm hnone hsome =>
    rw [armed_update h]
    have hready := hwf.ready w
    have hafter : InTime s (.resetTimer w now settime) ↔ ∀ e ∈ timers, now < e.expiration := by
      simp only [InTime, mem_rearm hready hrearm]
      constructor
      . rintro ⟨htimers, hactive⟩ e (he | ⟨e', he', hrepeat, rfl⟩)
        . exact htimers e he
        . exact hactive e' he' hrepeat
      . intro hall
        refine ⟨fun e he => hall e (.inl he), fun e he hrepeat => ?_⟩
        exact hall _ (.inr ⟨e, he, hrepeat, rfl⟩)
    rw [hafter]
    cases hfirst : timers.first with
    | none =>
      have hempty := OrderedSet.first_none.mp hfirst
      have : timers.isEmpty = true := OrderedSet.isEmpty_iff.mpr hempty
      simp only [Armed, this, Bool.true_eq_false, false_implies, implies_true, true_iff]
      intro e he
      exact absurd he (hempty e)
    | some e =>
      have hkeyed : (timer e.timer).expiration = e.expiration := by
        have := (hwf.reset w fd hrearm).keyed w e
        rw [Function.update_self] at this
        apply this
        rw [mem_entries]
        exact .inl (OrderedSet.first_mem hfirst)
      have hmem := isEmpty_eq_false (OrderedSet.first_mem hfirst)
      simp only [Armed, hmem, true_implies, hsome e hfirst, resetTimerFd, hkeyed,
        settime_ne_disarmed]
      exact first_after hfirst
  | expire w now deadline hfd hle =>
    rw [armed_update h]
    simp [Armed, InTime]

variable [Inhabited κ]

theorem armed_start : (State.start n κ).Armed := by
  intro w
  simp [State.start, Armed, TimerManager.new, OrderedSet.empty, OrderedSet.isEmpty]

/--
The timer fd is armed or readable in every state of a run just as long as it is set in time.
-/
theorem armed_iff_inTime (as : List (Action n κ))
    : (machine n κ).Always State.Armed (State.start n κ) as
        ↔
      (machine n κ).Meets InTime (State.start n κ) as := by
  apply Machine.always_iff_meets (I := State.Wellformed)
  . intro s a t hwf h hat
    have hs : Step s a t := Step.of_step hat
    exact ⟨wellformed_step hwf hs, armed_step hwf h hs⟩
  . exact wellformed_start
  . exact armed_start

-- A timer for now, as `runAfter` with no delay makes it, found to be late by `resetTimerFd`
def late : List (Action 1 Nat) :=
  [.registerTimer 0 8 100 1 (-1) 101 101]

theorem not_armed_late
    : ¬∀ s, (machine 1 Nat).Reachable s → s.Armed := by
  intro h
  have hexec : (machine 1 Nat).exec (State.start 1 Nat) late = some _ := rfl
  have := h _ (Machine.Reachable.of_exec late rfl hexec) 0 rfl rfl
  exact this rfl

end TimerManager
end Koro
