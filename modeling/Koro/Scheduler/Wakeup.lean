import Koro.Scheduler.Calls

/-!
This module contains the proof that the handshake between `submit`, `tickle` and `IOManager::idle`
loses no wake-up: a worker blocked in `epoll_wait` has nothing to do, or a write to its eventfd has
been made or is still to come.
-/

namespace Koro

namespace Run

variable {n : Nat} {s t : State n}

-- The queue of a worker that does not put back what it has popped only grows by submissions
theorem tasks_empty {a : Action n} (h : Step s a t)
    (hi : ∀ f, s.worker i ≠ .lockFailed f ∧ s.worker i ≠ .requeue f)
    (hempty : s.tasks i = []) (hsubmit : a ≠ .submit i) (hfiber : ∀ f, a ≠ .submitFiber i f)
    : t.tasks i = [] := by
  cases h with
  | submit q =>
    have hq : i ≠ q := by
      intro hq
      exact hsubmit (by rw [hq])
    simp only [Function.update_of_ne hq, hempty]
  | submitFiber q f hf =>
    have hq : i ≠ q := by
      intro hq
      exact hfiber f (by rw [hq])
    simp only [Function.update_of_ne hq, hempty]
  | pop j task rest hj hq =>
    have hij : i ≠ j := by
      intro hij
      simp [← hij, hempty] at hq
    simp only [Function.update_of_ne hij, hempty]
  | steal j q task rest k hj hk hv hq =>
    have hiq : i ≠ q := by
      intro hiq
      simp [← hiq, hempty] at hq
    simp only [Function.update_of_ne hiq, hempty]
  | putBack j f hj =>
    have hij : i ≠ j := by
      rintro rfl
      exact (hi f).left hj
    simp only [Function.update_of_ne hij, hempty]
  | requeue j f hj =>
    have hij : i ≠ j := by
      rintro rfl
      exact (hi f).right hj
    simp only [Function.update_of_ne hij, hempty]
  | _ => exact hempty

end Run

namespace Scheduler

open Function (update)

variable {n : Nat} {kind : Kind} {s t : State n} {act : Action n}

-- `idling` is set
def IdlePc.announced : IdlePc → Bool
  | .entering => true
  | .quit => true
  | .check => true
  | .busy => true
  | .poll => true
  | .polled _ => true
  | _ => false

-- The handshake, for a worker and its idle fiber
structure State.Handshake (s : State n) : Prop where
  idling : ∀ i, (s.idlePc i).announced = true → s.idling i = true
  tasks : ∀ i, s.idlePc i = .poll → s.core.tasks i ≠ [] →
    0 < s.eventFd i ∨ ∃ t, t ≠ .stopper
      ∧ (s.frame t = some (.tickle i) ∨ s.frame t = some (.notify i))
  final : ∀ i, s.finalTickled i = true →
    s.answered i = true ∨ 0 < s.eventFd i ∨ (s.idlePc i ≠ .check ∧ s.idlePc i ≠ .poll)

theorem handshake_start : (State.start n).Handshake where
  idling := by simp [State.start, IdlePc.announced]
  tasks := by simp [State.start]
  final := by simp [State.start, State.finalTickled]

theorem idling_step (h : s.Handshake) (hs : Step kind s act t)
    : ∀ i, (t.idlePc i).announced = true → t.idling i = true := by
  intro j hj
  have := h.idling
  cases hs <;> grind [Function.update_apply, IdlePc.announced]

-- The queue of a worker that looks for no task of its own gets its first entry by a push whose `tickle`
-- is to come
theorem fill_step (hc : s.Calls) (hs : Step kind s act t)
    (hi : ∀ f, s.core.worker i ≠ .lockFailed f ∧ s.core.worker i ≠ .requeue f)
    (hfiber : (s.core.worker i).inFiber = false) (hpc : ∀ wakeup, s.idlePc i ≠ .dispatch wakeup)
    (hempty : s.core.tasks i = [])
    : t.core.tasks i = [] ∨ ∃ th, th ≠ .stopper ∧ t.frame th = some (.tickle i) := by
  have hother : ∀ {a : Run.Action n} {core}, Run.step s.core a = some core → a ≠ .submit i →
      (∀ f, a ≠ .submitFiber i f) → core.tasks i = [] := by
    intro a core hcore hsubmit hfiber
    exact Run.tasks_empty (Run.Step.of_step hcore) hi hempty hsubmit hfiber
  have hpush : ∀ {idx fiber core}, Run.step s.core (submitAction idx fiber) = some core →
      idx ≠ i → core.tasks i = [] := by
    intro idx fiber core hcore hidx
    apply hother hcore
    . cases fiber <;> simp [submitAction, hidx]
    . cases fiber <;> simp [submitAction, hidx]
  cases hs with
  | run act j a core hact hframe hcore =>
    left
    apply hother hcore
    . intro ha
      simp [ha] at hact
      cases act <;> simp [Action.onRun] at hact
    . intro f ha
      cases act <;> simp [Action.onRun, ha] at hact
  | create core hcore => exact .inl (hother hcore (by simp) (by simp))
  | pushEmpty th idx fiber core hframe _ hcore =>
    cases decEq idx i with
    | isTrue hidx =>
      subst hidx
      right
      refine ⟨th, ?_, by simp⟩
      intro hth
      subst hth
      exact hc.stopper idx fiber hframe
    | isFalse hidx => exact .inl (hpush hcore hidx)
  | push th idx fiber core hframe hne hcore =>
    left
    apply hpush hcore
    intro hidx
    subst hidx
    exact hne hempty
  | wake j f core huser hcore =>
    left
    apply hother hcore (by simp)
    intro f' hf'
    cases hf'
    have := user_running huser
    simp [hfiber] at this
  | deliver j wakeup core hj hcore =>
    left
    apply hother hcore
    . rintro ⟨rfl⟩
      exact hpc wakeup hj
    . simp
  | idleReturn j term core hj hcore => exact .inl (hother hcore (by simp) (by simp))
  | _ => exact .inl hempty

-- A call of `tickle` for a worker that polls gets to its write
theorem tickle_step (hc : s.Calls) (h : s.Handshake) (hs : Step .ioManager s act t)
    (hpc : s.idlePc i = .poll)
    (hth : s.frame th = some (.tickle i) ∨ s.frame th = some (.notify i))
    : 0 < t.eventFd i ∨ t.frame th = some (.tickle i) ∨ t.frame th = some (.notify i) := by
  have hidling : s.idling i = true := h.idling i (by simp [hpc, IdlePc.announced])
  have hidle : s.core.worker i = .idle := hc.idle i (by simp [hpc])
  have hcalls : ∀ j f, s.frame (.worker j) = some f → f.inSubmit = true →
      s.core.worker j ≠ .idle := by
    intro j f hf hin
    exact hc.not_idle hf hin
  cases hs <;> grind [Function.update_apply, user_frame, Frame.inSubmit]

theorem eventFd_step (hs : Step kind s act t) (hpc : s.idlePc i = .poll) (hfd : 0 < s.eventFd i)
    : 0 < t.eventFd i := by
  cases hs <;> grind [Function.update_apply]

theorem poll_step (hs : Step kind s act t) (hpc : t.idlePc i = .poll)
    : s.idlePc i = .poll ∨ t.core.tasks i = [] := by
  cases hs <;> grind [Function.update_apply]

theorem tasks_step (hc : s.Calls) (h : s.Handshake) (hs : Step .ioManager s act t)
    : ∀ i, t.idlePc i = .poll → t.core.tasks i ≠ [] →
        0 < t.eventFd i ∨ ∃ th, th ≠ .stopper
          ∧ (t.frame th = some (.tickle i) ∨ t.frame th = some (.notify i)) := by
  intro i hpoll htasks
  have hpc : s.idlePc i = .poll := by
    cases poll_step hs hpoll with
    | inl hpc => exact hpc
    | inr hempty => exact absurd hempty htasks
  by_cases hempty : s.core.tasks i = []
  . have hidle := hc.idle i (by simp [hpc])
    rcases fill_step hc hs (by simp [hidle]) (by rw [hidle]; rfl) (by simp [hpc]) hempty with hstill | ⟨th, hth, hframe⟩
    . exact absurd hstill htasks
    . exact .inr ⟨th, hth, .inl hframe⟩
  . rcases h.tasks i hpc hempty with hfd | ⟨th, hth, hframe⟩
    . exact .inl (eventFd_step hs hpc hfd)
    . cases tickle_step hc h hs hpc hframe with
      | inl hfd => exact .inl hfd
      | inr hframe => exact .inr ⟨th, hth, hframe⟩

theorem finalTickled_of_same (hpc : t.stopPc = s.stopPc) (hframe : t.frame .stopper = s.frame .stopper)
    : t.finalTickled i = s.finalTickled i := by
  simp only [State.finalTickled, hpc, hframe]

theorem finalTickled_step (hc : s.Calls) (hf : s.Finals) (h : s.Handshake) (hs : Step .ioManager s act t)
    (hfinal : t.finalTickled i = true)
    : s.finalTickled i = true ∨ 0 < t.eventFd i ∨ (t.idlePc i ≠ .check ∧ t.idlePc i ≠ .poll) := by
  by_cases hsame : t.stopPc = s.stopPc ∧ t.frame .stopper = s.frame .stopper
  . left
    rw [← finalTickled_of_same hsame.left hsame.right]
    exact hfinal
  . have := hc.stopper
    have := hf.tickle
    have := hf.notify
    have := hf.called
    have := h.idling i
    rw [finalTickled_iff] at hfinal ⊢
    cases hs <;> first
      | exact absurd ⟨rfl, rfl⟩ hsame
      | grind [Function.update_apply, IdlePc.announced]

theorem final_step (hc : s.Calls) (hf : s.Finals) (h : s.Handshake) (hs : Step .ioManager s act t)
    : ∀ i, t.finalTickled i = true →
        t.answered i = true ∨ 0 < t.eventFd i ∨ (t.idlePc i ≠ .check ∧ t.idlePc i ≠ .poll) := by
  intro i hfinal
  cases finalTickled_step hc hf h hs hfinal with
  | inl hbefore =>
    have := h.final i hbefore
    cases hs <;> grind [Function.update_apply]
  | inr hafter => exact .inr hafter

theorem handshake_step (hc : s.Calls) (hf : s.Finals) (h : s.Handshake) (hs : Step .ioManager s act t)
    : t.Handshake where
  idling := idling_step h hs
  tasks := tasks_step hc h hs
  final := final_step hc hf h hs

theorem reachable_handshake (h : (machine .ioManager n).Reachable s) : s.Handshake := by
  apply h.invariant_with (J := fun s => s.Calls ∧ s.Finals)
  . intro s hs
    exact ⟨reachable_calls hs, reachable_finals hs⟩
  . intro s hs
    rw [hs]
    exact handshake_start
  . intro s a t hJ hs _ hat
    exact handshake_step hJ.left hJ.right hs (Step.of_step hat)

/--
While worker `i` is blocked in `epoll_wait` and its eventfd has not been written, its queue is empty
or the push that ended its being empty has its `tickle` still to come, and if `stop` has done its
last `tickle` for the worker then `stopping` has returned false to it since.
-/
theorem no_lost_wakeup (h : (machine .ioManager n).Reachable s) (hpc : s.idlePc i = .poll)
    (hfd : s.eventFd i = 0)
    : (s.core.tasks i = []
          ∨
        ∃ th, th ≠ .stopper
          ∧ (s.frame th = some (.tickle i) ∨ s.frame th = some (.notify i)))
        ∧
      (s.finalTickled i = true → s.answered i = true) := by
  have hinv := reachable_handshake h
  constructor
  . by_cases htasks : s.core.tasks i = []
    . exact .inl htasks
    . right
      cases hinv.tasks i hpc htasks with
      | inl hpos => omega
      | inr htickle => exact htickle
  . intro hfinal
    rcases hinv.final i hfinal with hans | hpos | ⟨_, hpoll⟩
    . exact hans
    . omega
    . exact absurd hpc hpoll

-- A callback comes after the last `tickle` of `stop`, and is stolen from under worker 0
def submittedLate : List (Action 2) :=
  ([.stop, .stop, .tickle .stopper, .stop, .tickle .stopper, .stop, .stop] : List (Action 2))
    ++ (List.replicate 6 (.stopping .stopper) : List (Action 2))
    ++ ([.stop, .stop, .tickle .stopper, .stop, .tickle .stopper] : List (Action 2))
    ++ ([.pop 0, .steal 0 true, .steal 0 true, .enterIdle 0, .idle 0] : List (Action 2))
    ++ ([.pop 1, .submit (.client 0) none, .push (.client 0)] : List (Action 2))
    ++ (List.replicate 4 (.stopping (.worker 0)) : List (Action 2))
    ++ ([.idle 0, .steal 1 true, .idle 0, .tickle (.client 0),
         .submit (.client 1) none] : List (Action 2))
    ++ ([.submit (.client 2) none, .push (.client 2)] : List (Action 2))

theorem no_lost_wakeup_submittedLate
    : ∃ s,
        (machine .ioManager 2).exec (State.start 2) submittedLate = some s
          ∧
        s.core.tasks 0 ≠ [] ∧ s.finalTickled 0 = true
          ∧
        (s.core.tasks 0 = []
            ∨
          ∃ th, th ≠ .stopper
            ∧ (s.frame th = some (.tickle 0) ∨ s.frame th = some (.notify 0)))
          ∧
        (s.finalTickled 0 = true → s.answered 0 = true) := by
  have h : ((machine .ioManager 2).exec (State.start 2) submittedLate).any (fun s =>
      s.core.tasks 0 ≠ [] ∧ s.finalTickled 0 = true ∧ s.idlePc 0 = .poll ∧ s.eventFd 0 = 0) = true := by
    decide +kernel
  simp only [Option.any_eq_true, decide_eq_true_eq] at h
  rcases h with ⟨s, hexec, htasks, hfinal, hpc, hfd⟩
  refine ⟨s, hexec, htasks, hfinal, ?_⟩
  exact no_lost_wakeup (Machine.Reachable.of_exec _ rfl hexec) hpc hfd

end Scheduler
end Koro
