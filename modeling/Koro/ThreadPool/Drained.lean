import Koro.ThreadPool.Conserve

/-!
This module contains what the destructor of `ThreadPool` leaves behind: a worker that returns is not
there for the tasks that running tasks submit to its queue afterwards.
-/

namespace Koro
namespace ThreadPool

open Function (update)

variable {n : Nat} {s t : State n} {act : Action n}

-- A client gets on with a `submit` up to its push
def Action.outside : Action n → Bool
  | .submit (.client _) => true
  | .push (.client _) => true
  | _ => false

-- No `submit` comes from outside once the destructor has started
def Quiet (s : State n) (act : Action n) : Prop :=
  act.outside = true → s.dtor = .notCalled

/--
A worker that returns leaves another worker behind, or nothing in any queue.
-/
def Unabandoned (s : State n) (act : Action n) : Prop :=
  ∀ i, act = .lock i → s.queue i = [] → s.stop i = true →
    (∃ j, j ≠ i ∧ s.worker j ≠ .returned) ∨ ∀ j, s.queue j = []

-- All workers have returned, and there is a task still
def State.Abandoned (s : State n) : Prop :=
  (∀ i, s.worker i = .returned) ∧ ∃ j, s.queue j ≠ []

-- How far the destructor is
structure State.Ends (s : State n) : Prop where
  started : ∀ i, s.stop i = true → s.dtor ≠ .notCalled
  returned : ∀ i, s.worker i = .returned → s.stop i = true
  frames : ∀ i f, s.frame (.worker i) = some f → ∃ c, s.worker i = .running c
  joined : s.dtor = .destroyed → ∀ i, s.worker i = .returned

theorem ends_start : (State.start n).Ends := by
  constructor <;> simp [State.start]

theorem user_running (h : s.user (.worker i) = true) : ∃ c, s.worker i = .running c := by
  unfold State.user at h
  cases hi : s.worker i <;> simp_all

theorem ends_step (h : s.Ends) (hs : Step s act t) : t.Ends where
  started := by
    intro i
    have := h.started i
    cases hs <;> first
      | exact h.started i
      | grind [Function.update_apply]
  returned := by
    intro i
    have := h.returned i
    cases hs <;> first
      | exact h.returned i
      | grind [Function.update_apply]
  frames := by
    intro i f
    have := h.frames i
    cases hs <;> first
      | exact h.frames i f
      | grind [Function.update_apply, user_running]
  joined := by
    intro hd i
    have := h.joined
    cases hs <;> first
      | exact h.joined hd i
      | grind [Function.update_apply]

theorem reachable_ends (h : (machine n).Reach ok s) : s.Ends := by
  apply h.invariant
  . intro s hs
    rw [hs]
    exact ends_start
  . intro s a t hs _ hat
    exact ends_step hs (Step.of_step hat)

-- Nothing is pushed from inside or outside any more
theorem no_push (he : s.Ends) (hquiet : Quiet s (.push th)) (hall : ∀ i, s.worker i = .returned)
    : s.frame th ≠ some (.push idx) := by
  intro hframe
  cases th with
  | worker i =>
    rcases he.frames i _ hframe with ⟨c, hc⟩
    simp [hall i] at hc
  | client k =>
    have hstop := he.returned idx (hall idx)
    exact he.started idx hstop (hquiet rfl)

-- The pool is abandoned by the last worker to return,
theorem abandoned_before (he : s.Ends) (hquiet : Quiet s act) (hs : Step s act t) (h : t.Abandoned)
    : s.Abandoned ∨ ¬Unabandoned s act := by
  rcases h with ⟨hall, j, hj⟩
  have hmoved : ∀ i p, p ≠ .returned → ¬∀ k, update s.worker i p k = .returned := by
    intro i p hp h
    have := h i
    rw [Function.update_self] at this
    exact hp this
  cases hs with
  | ret i hi hq hstop =>
    right
    intro hun
    rcases hun i rfl hq hstop with ⟨k, hk, hworker⟩ | hempty
    . have := hall k
      simp only [Function.update_of_ne hk] at this
      exact hworker this
    . exact hj (hempty j)
  | push th idx hframe => exact absurd hframe (no_push he hquiet hall)
  | _ => first | exact .inl ⟨hall, j, hj⟩ | exact absurd hall (hmoved _ _ (by simp))

-- and stays so
theorem abandoned_after (he : s.Ends) (hquiet : Quiet s act) (hs : Step s act t) (h : s.Abandoned)
    : t.Abandoned := by
  rcases h with ⟨hall, hany⟩
  cases hs with
  | push th idx hframe => exact absurd hframe (no_push he hquiet hall)
  | _ => grind [State.Abandoned]

theorem abandoned_step (he : s.Ends) (hquiet : Quiet s act) (hs : Step s act t)
    : t.Abandoned ↔ s.Abandoned ∨ ¬Unabandoned s act := by
  constructor
  . intro h
    exact abandoned_before he hquiet hs h
  . rintro (h | hnot)
    . exact abandoned_after he hquiet hs h
    . simp only [Unabandoned, not_forall, not_or, not_exists, not_and, Decidable.not_not] at hnot
      rcases hnot with ⟨i, rfl, hq, hstop, hothers, hany⟩
      cases hs with
      | ret _ hi _ _ =>
        refine ⟨?_, hany⟩
        intro j
        by_cases hj : j = i
        . subst hj
          exact Function.update_self ..
        . simp only [Function.update_of_ne hj]
          exact hothers j hj
      | _ => simp_all

theorem finished_iff (h : s.Conserved) (he : s.Ends) (hd : s.dtor = .destroyed)
    : (∀ c < s.submitted, c ∈ s.finished) ↔ ¬s.Abandoned := by
  have hall := he.joined hd
  have hplaces : ∀ c < s.submitted, s.places c = 1 := by
    intro c hc
    rw [h.total c]
    simp [hc]
  constructor
  . intro hfinished ⟨_, j, hj⟩
    rcases List.exists_mem_of_ne_nil _ hj with ⟨c, hc⟩
    rcases List.getElem?_of_mem hc with ⟨k, hk⟩
    have hsubmitted : c < s.submitted := by
      have hpos : 0 < s.places c := by
        have := inQueues_pos (q := j) (k := k) hk
        unfold State.places
        omega
      rw [h.total c] at hpos
      by_contra hc
      simp [hc] at hpos
    have hle := Nat.le_of_eq (hplaces c hsubmitted)
    have hqueue : s.At c (.queue j k) := hk
    have hfin : s.At c .finished := hfinished c hsubmitted
    have hsame := place_unique hle hqueue hfin
    cases hsame
  . intro hnot c hc
    rcases place_exists (Nat.lt_of_lt_of_eq Nat.zero_lt_one (hplaces c hc).symm) with ⟨p, hp⟩
    cases p with
    | queue q k =>
      have hq : s.queue q ≠ [] := List.ne_nil_of_mem (List.mem_of_getElem? hp)
      exact absurd ⟨hall, q, hq⟩ hnot
    | hand i =>
      simp only [State.At, hall i, Pc.task] at hp
      cases hp
    | finished => exact hp

/--
When the destructor has joined all workers, and no `submit` has come from outside since it started,
every task pushed has been invoked just if no worker was the last to return while a task was in the
queue of another.
-/
theorem drained_iff (as : List (Action n)) (hexec : (machine n).exec (State.start n) as = some s)
    (hquiet : (machine n).Meets Quiet (State.start n) as) (hd : s.dtor = .destroyed)
    : (∀ c < s.submitted, c ∈ s.finished) ↔ (machine n).Meets Unabandoned (State.start n) as := by
  have hreach : (machine n).Reachable s := Machine.Reachable.of_exec as rfl hexec
  have hstart : ¬(State.start n).Abandoned := by
    simp [State.Abandoned, State.start]
  have hkeep : ∀ s a t, s.Ends → (machine n).step s a = some t → t.Ends := by
    intro s a t he hat
    exact ends_step he (Step.of_step hat)
  have hstep : ∀ s a t, s.Ends → Quiet s a → (machine n).step s a = some t →
      (t.Abandoned ↔ s.Abandoned ∨ ¬Unabandoned s a) := by
    intro s a t he hquiet hat
    exact abandoned_step he hquiet (Step.of_step hat)
  rw [finished_iff (reachable_conserved hreach) (reachable_ends hreach) hd]
  rw [Machine.not_iff_meets as hkeep hstep ends_start hexec hquiet]
  simp [hstart]

-- Worker 1 runs a task that submits another one after worker 0 has returned
def submittedLate : List (Action 2) :=
  submits 0 ++ submits 0 ++ ([.lock 0, .call 0, .finish 0, .lock 1, .call 1] : List (Action 2))
    ++ (List.replicate 6 .destroy : List (Action 2))
    ++ ([.lock 0, .submit (.worker 1), .push (.worker 1), .notify (.worker 1), .finish 1,
         .lock 1] : List (Action 2))
    ++ ([.destroy] : List (Action 2))

-- Worker 0 has not returned yet
def submittedEarly : List (Action 2) :=
  submits 0 ++ submits 0 ++ ([.lock 0, .call 0, .finish 0, .lock 1, .call 1] : List (Action 2))
    ++ (List.replicate 6 .destroy : List (Action 2))
    ++ ([.submit (.worker 1), .push (.worker 1), .notify (.worker 1), .finish 1,
         .lock 1] : List (Action 2))
    ++ ([.lock 0, .call 0, .finish 0, .lock 0, .destroy] : List (Action 2))

instance (s : State n) (act : Action n) : Decidable (Quiet s act) :=
  inferInstanceAs (Decidable (act.outside = true → s.dtor = .notCalled))

theorem drained_iff_submittedEarly
    : ∃ s,
        (machine 2).exec (State.start 2) submittedEarly = some s
          ∧
        s.submitted = 3 ∧ s.dtor = .destroyed
          ∧
        ((∀ c < s.submitted, c ∈ s.finished)
            ↔
          (machine 2).Meets Unabandoned (State.start 2) submittedEarly) := by
  have h : ((machine 2).exec (State.start 2) submittedEarly).any (fun s =>
      s.submitted = 3 ∧ s.dtor = .destroyed) = true := by
    decide +kernel
  simp only [Option.any_eq_true, decide_eq_true_eq] at h
  rcases h with ⟨s, hexec, hsubmitted, hd⟩
  exact ⟨s, hexec, hsubmitted, hd, drained_iff submittedEarly hexec (by decide +kernel) hd⟩

theorem not_drained_submittedLate
    : ¬∀ (as : List (Action 2)) (s : State 2),
        (machine 2).exec (State.start 2) as = some s → (machine 2).Meets Quiet (State.start 2) as →
          s.dtor = .destroyed → ∀ c < s.submitted, c ∈ s.finished := by
  intro hall
  have h : ((machine 2).exec (State.start 2) submittedLate).any (fun s =>
      s.dtor = .destroyed ∧ s.submitted = 3 ∧ 2 ∉ s.finished) = true := by
    decide +kernel
  simp only [Option.any_eq_true, decide_eq_true_eq] at h
  rcases h with ⟨s, hexec, hd, hsubmitted, hnot⟩
  exact hnot (hall submittedLate s hexec (by decide +kernel) hd 2 (by omega))

end ThreadPool
end Koro
