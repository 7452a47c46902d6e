import Koro.TimerManager.Due
import Koro.Machine.Tally

/-!
This module contains what each operation does to the number of live timers. A timer is live from its
registration until it is first cancelled or, if it is a one-shot timer, until it has fired.
-/

namespace Koro
namespace TimerManager

open Function (update)

variable {n : Nat} {κ : Type u} {s t : State n κ}

def State.live (s : State n κ) (p : TimerPtr) : Bool :=
  decide (p ∉ s.cancelled) && ((s.timer p).repeats || decide (p ∉ s.fired))

def State.liveCount (s : State n κ) : Nat :=
  s.registered.countP s.live

theorem liveCount_congr (hregistered : t.registered = s.registered)
    (h : ∀ p ∈ s.registered, t.live p = s.live p)
    : t.liveCount = s.liveCount := by
  unfold State.liveCount
  rw [hregistered]
  apply List.countP_congr
  intro p hp
  rw [h p hp]

theorem liveCount_register (h : s.History) {tm : Fin n → TimerManager} {fresh : Timer κ}
    {addr : Nat}
    : State.liveCount { s with
        tm
        timer := update s.timer (s.next addr) fresh
        registered := s.registered ++ [s.next addr] }
        =
      s.liveCount + 1 := by
  have hcancelled : s.next addr ∉ s.cancelled := fun hp => h.next (h.cancelled _ hp)
  have hfired : s.next addr ∉ s.fired := fun hp => h.next (h.fired _ hp)
  simp only [State.liveCount, List.countP_append, List.countP_singleton]
  congr 1
  . apply List.countP_congr
    intro p hp
    have : p ≠ s.next addr := by
      intro heq
      exact h.next (heq ▸ hp)
    simp only [State.live, Function.update_of_ne this]
  . simp [State.live, hcancelled, hfired]

theorem liveCount_cancel (h : s.History) {p : TimerPtr} (hp : p ∈ s.registered)
    {timer : TimerPtr → Timer κ} (hrepeats : ∀ q, (timer q).repeats = (s.timer q).repeats)
    : State.liveCount { s with timer, cancelled := s.cancelled ++ [p] } + (s.live p).toNat
        =
      s.liveCount := by
  have hlive : ∀ q, State.live { s with timer, cancelled := s.cancelled ++ [p] } q
      = (s.live q && decide (q ≠ p)) := by
    intro q
    by_cases hq : q = p
    . simp [State.live, hq]
    . simp [State.live, hrepeats, hq]
  unfold State.liveCount
  cases hthis : s.live p with
  | true =>
    rw [← Tally.countP_remove h.nodup hp hthis, Bool.toNat_true]
    congr 1
    apply List.countP_congr
    intro q _
    rw [hlive]
  | false =>
    rw [Bool.toNat_false, Nat.add_zero]
    apply List.countP_congr
    intro q _
    rw [hlive]
    by_cases hq : q = p
    . simp [hq, hthis]
    . simp [hq]

theorem liveCount_fire {tm : Fin n → TimerManager} {tasks : Fin n → List κ}
    {fired : List TimerPtr} (hfired : ∀ p ∈ fired, p ∈ s.registered ∧ p ∉ s.cancelled)
    (hwaiting : ∀ p ∈ fired, (s.timer p).repeats = false → p ∉ s.fired)
    : State.liveCount { s with tm, tasks, fired := s.fired ++ fired } = s.liveCount
        ↔
      ∀ p ∈ fired, (s.timer p).repeats = true := by
  unfold State.liveCount
  rw [Tally.countP_eq_iff]
  . constructor
    . intro h p hp
      rcases hfired p hp with ⟨hregistered, hcancelled⟩
      cases hr : (s.timer p).repeats with
      | true => rfl
      | false =>
        have hlive : s.live p = true := by simp [State.live, hcancelled, hwaiting p hp hr]
        have := h p hregistered hlive
        simp [State.live, hr, hp] at this
    . intro h p _ hlive
      by_cases hp : p ∈ fired
      . have := h p hp
        simp only [State.live, this, Bool.true_or, Bool.and_true] at hlive ⊢
        exact hlive
      . simpa [State.live, hp] using hlive
  . intro p _
    simp only [State.live, Bool.and_eq_true, Bool.or_eq_true, decide_eq_true_eq,
      List.mem_append, not_or]
    tauto

end TimerManager
end Koro
