import Koro.TimerManager.Due

/-!
This module contains the proof that a repeating timer keeps to its schedule: however late it is handled, its
next call is due a whole number of intervals after the time it was registered for.
-/

namespace Koro
namespace TimerManager

open Function (update)

variable {n : Nat} {κ : Type u} {s t : State n κ} {a : Action n κ}

/--
Timer `p` of worker `w` is due `interval` after `first` for each time it has fired: it is waiting for
the next time, or is still to be repeated after the last one.
-/
structure State.Scheduled (s : State n κ) (w : Fin n) (p : TimerPtr) (first interval : Int) : Prop where
  registered : p ∈ s.registered
  repeats : (s.timer p).repeats = true
  every : (s.timer p).interval = interval
  entry : ⟨first + interval * s.fired.count p, p⟩ ∈ (s.tm w).timers
    ∨ ⟨first + interval * (s.fired.count p - 1), p⟩ ∈ (s.tm w).activeTimers

variable {w : Fin n} {p : TimerPtr} {first interval : Int}

-- The step leaves the manager of `w` and the timer alone
theorem State.Scheduled.keep (h : s.Scheduled w p first interval)
    (hregistered : p ∈ t.registered) (htimers : ∀ e ∈ (s.tm w).timers, e ∈ (t.tm w).timers)
    (hactive : (t.tm w).activeTimers = (s.tm w).activeTimers)
    (hrepeats : (t.timer p).repeats = (s.timer p).repeats)
    (hinterval : (t.timer p).interval = (s.timer p).interval)
    (hfired : t.fired.count p = s.fired.count p)
    : t.Scheduled w p first interval where
  registered := hregistered
  repeats := hrepeats.trans h.repeats
  every := hinterval.trans h.every
  entry := by
    rw [hfired, hactive]
    exact h.entry.imp_left (htimers _)

variable [Inhabited κ]

end TimerManager
end Koro
