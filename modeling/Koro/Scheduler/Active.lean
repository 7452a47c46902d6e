import Koro.Scheduler.Step
import Koro.Machine.Tally

/-!
This module contains what `active_thread_count_` counts, and what can become of workers that have
nothing in hand.
-/

namespace Koro
namespace Run

open Function (update)

variable {n : Nat} {s t : State n} {a : Action n}

-- From the increment of `active_thread_count_` to the decrement, or to a failed assertion
def Pc.isCounted : Pc → Bool
  | .counted _ => true
  | .lockFailed _ => true
  | .locked _ => true
  | .resuming _ _ => true
  | .running _ _ => true
  | .resumed _ _ => true
  | .requeue _ => true
  | .unlocking _ => true
  | .uncount => true
  | .aborted => true
  | _ => false

-- From the mutex section that took an entry on
def Pc.busy : Pc → Bool
  | .popped _ => true
  | pc => pc.isCounted

def counted (worker : Fin n → Pc) : Nat :=
  ∑ i, (worker i).isCounted.toNat

theorem counted_update (worker : Fin n → Pc) (i : Fin n) (p : Pc)
    : counted (update worker i p) + (worker i).isCounted.toNat
        =
      counted worker + p.isCounted.toNat :=
  Tally.sum_update (fun p => p.isCounted.toNat) worker i p

theorem counted_update_of_eq {worker : Fin n → Pc} {p : Pc}
    (h : (worker i).isCounted = p.isCounted)
    : counted worker = counted (update worker i p) := by
  have := counted_update worker i p
  rw [h] at this
  omega

theorem active_step (h : Step s a t) (hs : s.activeThreadCount = counted s.worker)
    : t.activeThreadCount = counted t.worker := by
  cases h with
  | create => exact hs
  | submit q => exact hs
  | submitFiber q f hf => exact hs
  | count i task hi =>
    have := counted_update s.worker i (.counted task)
    rw [hi] at this
    simp only [Pc.isCounted, Bool.toNat_true, Bool.toNat_false] at this ⊢
    omega
  | uncount i hi =>
    have := counted_update s.worker i .pop
    rw [hi] at this
    simp only [Pc.isCounted, Bool.toNat_true, Bool.toNat_false] at this ⊢
    omega
  | _ => exact hs.trans (counted_update_of_eq (by simp_all [Pc.isCounted]))

theorem reachable_active (h : (machine n).Reachable s)
    : s.activeThreadCount = counted s.worker := by
  apply h.invariant (I := fun s => s.activeThreadCount = counted s.worker)
  . intro s hs
    rw [hs]
    simp [State.start, counted, Pc.isCounted]
  . intro s a t hs _ hat
    exact active_step (Step.of_step hat) hs

theorem active_zero {worker : Fin n → Pc} (h : ∀ i, (worker i).busy = false)
    : counted worker = 0 := by
  apply Finset.sum_eq_zero
  intro i _
  have := h i
  cases hi : worker i <;> simp_all [Pc.busy, Pc.isCounted]

-- The queue that an action takes an entry from
def State.takes (s : State n) : Action n → Option (Fin n)
  | .pop i => if s.worker i = .pop ∧ s.tasks i ≠ [] then some i else none
  | .steal i true =>
    match s.worker i with
    | .steal k => if k < n ∧ s.tasks (victim i k) ≠ [] then some (victim i k) else none
    | _ => none
  | _ => none

def Action.submits : Action n → Bool
  | .submit _ => true
  | .submitFiber _ _ => true
  | _ => false

theorem tasks_takes (h : Step s a t) (htakes : s.takes a = some q)
    : ∃ rest, t.tasks = update s.tasks q rest ∧ rest.length + 1 = (s.tasks q).length := by
  cases h with
  | popNone i hi hq => simp [State.takes, hq] at htakes
  | pop i task rest hi hq =>
    have : i = q := by simpa [State.takes, hi, hq] using htakes
    subst this
    exact ⟨rest, rfl, by simp [hq]⟩
  | stealMiss i ownsLock k hi hk hmiss =>
    cases ownsLock with
    | false => cases htakes
    | true => simp [State.takes, hi, hmiss rfl] at htakes
  | steal i v task rest k hi hk hv hq =>
    have : v = q := by simpa [State.takes, hi, hk, ← hv, hq] using htakes
    subst this
    exact ⟨rest, rfl, by simp [hq]⟩
  | stealNone i ownsLock k hi hk =>
    cases ownsLock <;> simp [State.takes, hi, hk] at htakes
  | _ => cases htakes

theorem append_keeps {tasks : Fin n → List ScheduledTask} (hq : tasks q ≠ [])
    : update tasks p (tasks p ++ l) q ≠ [] := by
  by_cases hqp : q = p
  . simp [hqp ▸ hq, hqp]
  . rwa [Function.update_of_ne hqp]

theorem takes_empty (h : ∀ q, s.tasks q = []) : s.takes a = none := by
  cases a with
  | pop i => simp [State.takes, h]
  | steal i ownsLock =>
    cases ownsLock with
    | false => rfl
    | true =>
      simp only [State.takes, h]
      cases s.worker i <;> simp
  | _ => rfl

-- A queue that is not taken from does not become empty
theorem tasks_keeps (h : Step s a t) (htakes : s.takes a = none) (hq : s.tasks q ≠ [])
    : t.tasks q ≠ [] := by
  cases h with
  | submit p => exact append_keeps hq
  | submitFiber p f hf => exact append_keeps hq
  | pop i task rest hi hi' => simp [State.takes, hi, hi'] at htakes
  | steal i v task rest k hi hk hv hv' => simp [State.takes, hi, hk, ← hv, hv'] at htakes
  | putBack i f hi => exact append_keeps hq
  | requeue i f hi => exact append_keeps hq
  | _ => exact hq

theorem rest_update {worker : Fin n → Pc} {p : Pc} (h : ∀ i, (worker i).busy = false)
    (hp : p.busy = false)
    : ∀ j, (update worker i p j).busy = false := by
  intro j
  by_cases hji : j = i
  . simpa [hji] using hp
  . simpa [hji] using h j

-- Workers with nothing in hand change nothing but their places until they find an entry
theorem rest_step (h : Step s a t) (hrest : ∀ i, (s.worker i).busy = false)
    (hsubmits : a.submits = false) (htakes : s.takes a = none)
    : (∀ i, (t.worker i).busy = false) ∧ t.tasks = s.tasks
        ∧ t.activeThreadCount = s.activeThreadCount := by
  have hbusy : ∀ {i p}, s.worker i = p → p.busy ≠ true := by
    intro i p hi hp
    simp [← hi, hrest i] at hp
  cases h with
  | create => exact ⟨hrest, rfl, rfl⟩
  | submit q => cases hsubmits
  | submitFiber q f hf => cases hsubmits
  | popNone i hi hq => exact ⟨rest_update hrest rfl, rfl, rfl⟩
  | pop i task rest hi hq => simp [State.takes, hi, hq] at htakes
  | stealMiss i ownsLock k hi hk hmiss => exact ⟨rest_update hrest rfl, rfl, rfl⟩
  | steal i v task rest k hi hk hv hq => simp [State.takes, hi, hk, ← hv, hq] at htakes
  | stealNone i ownsLock k hi hk => exact ⟨rest_update hrest rfl, rfl, rfl⟩
  | exit i hi hterm => exact ⟨rest_update hrest rfl, rfl, rfl⟩
  | idle i hi hterm => exact ⟨rest_update hrest rfl, rfl, rfl⟩
  | idleReturn i term hi => exact ⟨rest_update hrest rfl, rfl, rfl⟩
  | _ => exact absurd rfl (hbusy (by assumption))

end Run
end Koro
