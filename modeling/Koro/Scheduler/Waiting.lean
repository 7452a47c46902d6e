import Koro.Scheduler.Wakeup

/-!
This module contains what `Scheduler::idle` loses: `cv.wait` has no predicate, so a worker that has found
its queue empty goes to sleep whatever has been pushed and notified in the meantime.
-/

namespace Koro

namespace Run

open Function (update)

theorem idleTerm_step {s t : State n} {a : Action n} (h : Step s a t)
    (hterm : ∀ i, s.idleTerm i = true → s.worker i ≠ .idle)
    : ∀ i, t.idleTerm i = true → t.worker i ≠ .idle := by
  intro i
  have := hterm i
  cases h <;> first
    | exact hterm i
    | grind [Function.update_apply]

-- A worker whose idle fiber has terminated does not enter it again
theorem reachable_idleTerm {s : State n} (h : (machine n).Reachable s)
    : ∀ i, s.idleTerm i = true → s.worker i ≠ .idle := by
  apply h.invariant
  . intro s hs
    rw [hs]
    simp [State.start]
  . intro s a t hs _ hat
    exact idleTerm_step (Step.of_step hat) hs

theorem idleTerm_stays {s t : State n} {a : Action n} (h : Step s a t) (hi : s.worker i ≠ .idle)
    (hterm : s.idleTerm i = true)
    : t.idleTerm i = true := by
  cases h with
  | idleReturn j term hj =>
    have hij : i ≠ j := by
      rintro rfl
      exact hi hj
    simp only [Function.update_of_ne hij, hterm]
  | _ => exact hterm

-- The worker has found its own queue empty, and will not look at it again before `idle_fiber` is left
def State.looked (s : State n) (i : Fin n) : Bool :=
  match s.worker i with
  | .steal _ => !s.idleTerm i
  | .noTask => !s.idleTerm i
  | .idle => true
  | _ => false

theorem looked_step {s t : State n} {a : Action n} (h : Step s a t) (hi : t.looked i = true)
    : s.looked i = true ∨ (s.tasks i = [] ∧ t.tasks i = []) := by
  unfold State.looked at hi ⊢
  cases h <;> grind [Function.update_apply]

end Run

namespace Scheduler

open Function (update)

variable {n : Nat} {kind : Kind} {s t : State n} {act : Action n}

def IdlePc.unwoken : IdlePc → Bool
  | .setIdling => true
  | .wait => true
  | .waiting => true
  | _ => false

-- The worker has found its own queue empty, and gets to `cv.wait` without another look at it
def State.headed (s : State n) (i : Fin n) : Bool :=
  s.core.looked i && (s.idlePc i).unwoken

theorem idleTerm_step (hs : Step kind s act t) (hi : s.core.worker i ≠ .idle)
    (hterm : s.core.idleTerm i = true)
    : t.core.idleTerm i = true := by
  have hone : ∀ {a core}, Run.step s.core a = some core → core.idleTerm i = true := by
    intro a core hcore
    exact Run.idleTerm_stays (Run.Step.of_step hcore) hi hterm
  cases hs with
  | run act j a core hact hframe hcore => exact hone hcore
  | create core hcore => exact hone hcore
  | pushEmpty th idx fiber core hframe hempty hcore => exact hone hcore
  | push th idx fiber core hframe hempty hcore => exact hone hcore
  | wake j f core huser hcore => exact hone hcore
  | deliver j wakeup core hpc hcore => exact hone hcore
  | idleReturn j term core hpc hcore => exact hone hcore
  | _ => exact hterm

-- The worker has been woken and is asking `stopping`, which has not returned false to it, or is about
-- to quit, or has quit
def State.past (s : State n) (i : Fin n) : Bool :=
  s.core.idleTerm i || s.idlePc i = .woken || s.idlePc i = .leave
    || s.idlePc i = .leaving && s.frame (.worker i) ≠ some (.stopping (.ret false))

-- Thread `th` is between its push into the queue of worker `i` and the end of its `tickle`
def State.Tickles (s : State n) (i : Fin n) (th : Thread n) : Prop :=
  th ≠ .stopper ∧ (s.frame th = some (.tickle i) ∨ s.frame th = some (.notify i))

-- The thread whose `tickle` ends without waking the worker, and this worker
def State.fails (s : State n) : Action n → Option (Thread n × Fin n)
  | .tickle th =>
    match s.frame th with
    | some (.tickle idx) => if s.idling idx then none else some (th, idx)
    | _ => none
  | .notify th =>
    match s.frame th with
    | some (.notify idx) => if s.idlePc idx = .waiting then none else some (th, idx)
    | _ => none
  | _ => none

-- The worker whose idle fiber gets false from `stopping`
def State.refuses (s : State n) : Action n → Option (Fin n)
  | .stopping (.worker i) =>
    match s.frame (.worker i) with
    | some (.stopping pc) => if s.stoppingRead pc = some (.ret false) then some i else none
    | _ => none
  | _ => none

/--
A `tickle` that wakes nobody leaves nobody behind: that of a push, no worker which is on its way to
`cv.wait` with something in its queue and no other such `tickle` to come; the last one of `stop`, no
worker which has not been woken yet, nor one that `stopping` sends back to its loop afterwards.
-/
structure Attended (s : State n) (act : Action n) : Prop where
  pushed : ∀ th idx, s.fails act = some (th, idx) → th ≠ .stopper → s.headed idx = true →
    s.core.tasks idx ≠ [] → ∃ th', th' ≠ th ∧ s.Tickles idx th'
  last : ∀ idx k, s.fails act = some (.stopper, idx) → s.stopPc = .final k → s.past idx = true
  answered : ∀ i, s.refuses act = some i → s.finalTickled i = false

-- No worker sleeps over its queue or through the end
structure State.Awake (s : State n) : Prop where
  tasks : ∀ i, s.idlePc i = .waiting → s.core.tasks i ≠ [] → ∃ th, s.Tickles i th
  stopped : ∀ i, s.finalTickled i = true → s.idlePc i ≠ .waiting

structure State.Watched (s : State n) : Prop where
  tasks : ∀ i, s.headed i = true → s.core.tasks i ≠ [] → ∃ th, s.Tickles i th
  final : ∀ i, s.finalTickled i = true → s.past i = true

theorem watched_start : (State.start n).Watched where
  tasks := by simp [State.start, Run.State.start]
  final := by simp [State.start, State.finalTickled]

theorem headed_place (h : s.headed i = true)
    : (∀ f, s.core.worker i ≠ .lockFailed f ∧ s.core.worker i ≠ .requeue f)
        ∧ (s.core.worker i).inFiber = false ∧ ∀ wakeup, s.idlePc i ≠ .dispatch wakeup := by
  simp only [State.headed, Bool.and_eq_true] at h
  rcases h with ⟨hlooked, hpc⟩
  refine ⟨?_, ?_, ?_⟩
  . intro f
    constructor <;> intro hi <;> simp [Run.State.looked, hi] at hlooked
  . cases hi : s.core.worker i <;> simp_all [Run.State.looked, Run.Pc.inFiber]
  . intro wakeup hi
    simp [hi, IdlePc.unwoken] at hpc

theorem headed_step (hs : Step .scheduler s act t) (h : t.headed i = true)
    : s.headed i = true ∨ t.core.tasks i = [] := by
  have hother : ∀ {a core}, Run.step s.core a = some core → core.looked i = true →
      (s.idlePc i).unwoken = true → s.headed i = true ∨ core.tasks i = [] := by
    intro a core hcore hlooked hpc
    cases Run.looked_step (Run.Step.of_step hcore) hlooked with
    | inl hbefore => simp [State.headed, hbefore, hpc]
    | inr hempty => exact .inr hempty.right
  simp only [State.headed, Bool.and_eq_true] at h
  rcases h with ⟨hlooked, hpc⟩
  cases hs with
  | run act j a core hact hframe hcore => exact hother hcore hlooked hpc
  | create core hcore => exact hother hcore hlooked hpc
  | pushEmpty th idx fiber core hframe hempty hcore => exact hother hcore hlooked hpc
  | push th idx fiber core hframe hempty hcore => exact hother hcore hlooked hpc
  | wake j f core huser hcore => exact hother hcore hlooked hpc
  | deliver j wakeup core hj hcore => exact hother hcore hlooked hpc
  | idleReturn j term core hj hcore =>
    cases decEq i j with
    | isTrue hij =>
      subst hij
      cases Run.Step.of_step hcore with
      | idleReturn _ _ hi => simp [Run.State.looked] at hlooked
    | isFalse hij =>
      simp only [Function.update_of_ne hij] at hpc
      exact hother hcore hlooked hpc
  | _ => grind [Function.update_apply, State.headed, IdlePc.unwoken]

theorem tickles_step (hc : s.Calls) (hs : Step .scheduler s act t) (h : s.Tickles i th)
    : t.Tickles i th ∨ s.fails act = some (th, i) ∨ t.idlePc i = .woken := by
  have hcalls : ∀ j f, s.frame (.worker j) = some f → f.inSubmit = true →
      s.core.worker j ≠ .idle := by
    intro j f hf hin
    exact hc.not_idle hf hin
  unfold State.Tickles at h ⊢
  unfold State.fails
  cases hs <;> first
    | exact .inl h
    | grind [Function.update_apply, user_frame, Frame.inSubmit]

theorem pushed_step (hc : s.Calls) (ha : Attended s act) (h : s.Watched)
    (hs : Step .scheduler s act t)
    : ∀ i, t.headed i = true → t.core.tasks i ≠ [] → ∃ th, t.Tickles i th := by
  intro i hi htasks
  have hheaded : s.headed i = true := by
    cases headed_step hs hi with
    | inl hheaded => exact hheaded
    | inr hempty => exact absurd hempty htasks
  by_cases hempty : s.core.tasks i = []
  . rcases headed_place hheaded with ⟨hplace, hfiber, hpc⟩
    rcases fill_step hc hs hplace hfiber hpc hempty with hstill | ⟨th, hth, hframe⟩
    . exact absurd hstill htasks
    . exact ⟨th, hth, .inl hframe⟩
  . have hpass : ∀ {th}, s.Tickles i th → t.Tickles i th ∨ s.fails act = some (th, i) := by
      intro th hth
      rcases tickles_step hc hs hth with hstill | hfails | hwoken
      . exact .inl hstill
      . exact .inr hfails
      . simp [State.headed, hwoken, IdlePc.unwoken] at hi
    rcases h.tasks i hheaded hempty with ⟨th, hth⟩
    cases hpass hth with
    | inl hstill => exact ⟨th, hstill⟩
    | inr hfails =>
      rcases ha.pushed th i hfails hth.left hheaded hempty with ⟨th', hne, hth'⟩
      cases hpass hth' with
      | inl hstill => exact ⟨th', hstill⟩
      | inr hfails' =>
        rw [hfails] at hfails'
        cases hfails'
        exact absurd rfl hne

theorem past_step (hc : s.Calls) (hterm : ∀ i, s.core.idleTerm i = true → s.core.worker i ≠ .idle)
    (hs : Step .scheduler s act t) (h : s.past i = true)
    : t.past i = true ∨ s.refuses act = some i := by
  by_cases hi : s.core.idleTerm i = true
  . left
    simp [State.past, idleTerm_step hs (hterm i hi) hi]
  . have hidle : s.core.worker i = .idle := by
      apply hc.idle i
      intro hpc
      simp [State.past, hi, hpc] at h
    have huser : s.user (.worker i) = false := by
      simp [State.user, hidle]
    simp only [State.past, hi] at h ⊢
    unfold State.refuses
    cases hs with
    | idleReturn j term core hj hcore =>
      cases Run.Step.of_step hcore with
      | idleReturn _ _ hi => grind [Function.update_apply]
    | _ => grind [Function.update_apply]

theorem finalTickled_before (hc : s.Calls) (hf : s.Finals) (hs : Step .scheduler s act t)
    (h : t.finalTickled i = true)
    : s.finalTickled i = true ∨ t.idlePc i = .woken
        ∨ (∃ k, s.stopPc = .final k ∧ s.fails act = some (.stopper, i)) := by
  have := hc.stopper
  have := hf.tickle
  have := hf.notify
  have := hf.called
  rw [finalTickled_iff] at h ⊢
  unfold State.fails
  cases hs <;> first
    | exact .inl h
    | grind [Function.update_apply]

theorem last_step (hc : s.Calls) (hf : s.Finals)
    (hterm : ∀ i, s.core.idleTerm i = true → s.core.worker i ≠ .idle)
    (ha : Attended s act) (h : s.Watched) (hs : Step .scheduler s act t)
    : ∀ i, t.finalTickled i = true → t.past i = true := by
  intro i hfinal
  rcases finalTickled_before hc hf hs hfinal with hbefore | hwoken | ⟨k, hk, hfails⟩
  . cases past_step hc hterm hs (h.final i hbefore) with
    | inl hpast => exact hpast
    | inr hrefuses =>
      have := ha.answered i hrefuses
      simp [hbefore] at this
  . simp [State.past, hwoken]
  . cases past_step hc hterm hs (ha.last i k hfails hk) with
    | inl hpast => exact hpast
    | inr hrefuses =>
      cases act <;> simp [State.refuses, State.fails] at hrefuses hfails

theorem watched_step (hc : s.Calls) (hf : s.Finals)
    (hterm : ∀ i, s.core.idleTerm i = true → s.core.worker i ≠ .idle)
    (ha : Attended s act) (h : s.Watched) (hs : Step .scheduler s act t)
    : t.Watched where
  tasks := pushed_step hc ha h hs
  final := last_step hc hf hterm ha h hs

theorem reachable_watched (h : (machine .scheduler n).Reach Attended s) : s.Watched := by
  apply h.invariant_with
    (J := fun s => s.Calls ∧ s.Finals ∧ ∀ i, s.core.idleTerm i = true → s.core.worker i ≠ .idle)
  . intro s hs
    exact ⟨reachable_calls hs, reachable_finals hs, Run.reachable_idleTerm (reachable_core hs)⟩
  . intro s hs
    rw [hs]
    exact watched_start
  . intro s a t ⟨hc, hf, hterm⟩ h ha hat
    exact watched_step hc hf hterm ha h (Step.of_step hat)

/--
Where every `tickle` that wakes nobody leaves nobody behind, no worker sleeps over its queue or
through the end.
-/
theorem awake_of_attended (h : (machine .scheduler n).Reach Attended s) : s.Awake := by
  have hc := reachable_calls h
  have hwatched := reachable_watched h
  constructor
  . intro i hpc htasks
    apply hwatched.tasks i _ htasks
    simp [State.headed, Run.State.looked, IdlePc.unwoken, hc.idle i (by simp [hpc]), hpc]
  . intro i hfinal hpc
    have hidle := hc.idle i (by simp [hpc])
    have hpast := hwatched.final i hfinal
    simp only [State.past, hpc] at hpast
    have hterm : s.core.idleTerm i = true := by
      simpa using hpast
    exact Run.reachable_idleTerm (reachable_core h) i hterm hidle

-- The push comes while the worker sleeps, which is notified
def pushedAsleep : List (Action 1) :=
  [.pop 0, .steal 0 true, .enterIdle 0, .idle 0, .idle 0, .submit (.client 0) none, .push (.client 0)]

theorem attended_of_none (hfails : s.fails act = none) (hrefuses : s.refuses act = none)
    : Attended s act := by
  constructor <;> simp [hfails, hrefuses]

theorem awake_of_attended_pushedAsleep
    : ∃ s,
        (machine .scheduler 1).exec (State.start 1) pushedAsleep = some s
          ∧
        s.idlePc 0 = .waiting ∧ s.core.tasks 0 ≠ [] ∧ s.Awake := by
  have h : ((machine .scheduler 1).exec (State.start 1) pushedAsleep).any (fun s =>
      s.idlePc 0 = .waiting ∧ s.core.tasks 0 ≠ []) = true := by
    decide +kernel
  simp only [Option.any_eq_true, decide_eq_true_eq] at h
  rcases h with ⟨s, hexec, hpc, htasks⟩
  have hmeets : (machine .scheduler 1).Meets (fun s act => s.fails act = none ∧ s.refuses act = none)
      (State.start 1) pushedAsleep := by
    decide +kernel
  refine ⟨s, hexec, hpc, htasks, awake_of_attended ?_⟩
  apply Machine.Reach.mono (Machine.Reach.of_exec _ rfl hexec hmeets)
  intro s act hnone
  exact attended_of_none hnone.left hnone.right

-- The push comes before the worker has set `idling`, and does not find it
def pushedEarly : List (Action 1) :=
  [.pop 0, .steal 0 true, .enterIdle 0, .submit (.client 0) none, .push (.client 0), .tickle (.client 0),
    .idle 0, .idle 0]

theorem not_awake_pushedEarly
    : ¬∀ s : State 1, (machine .scheduler 1).Reachable s → s.Awake := by
  intro hall
  have h : ∃ s, (machine .scheduler 1).exec (State.start 1) pushedEarly = some s
      ∧ s.idlePc 0 = .waiting ∧ s.core.tasks 0 ≠ [] ∧ ∀ th, s.frame th = none := by
    refine ⟨_, rfl, by decide, by decide, ?_⟩
    intro th
    rcases th with i | k | _
    . rfl
    . rcases k with _ | k <;> rfl
    . rfl
  rcases h with ⟨s, hexec, hpc, htasks, hframe⟩
  rcases (hall s (Machine.Reachable.of_exec _ rfl hexec)).tasks 0 hpc htasks with ⟨th, _, htickle⟩
  simp [hframe] at htickle

end Scheduler
end Koro
