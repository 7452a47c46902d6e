import Koro.Scheduler.Moves

/-!
This module contains what the calls that the threads of a scheduler are inside of say about the
places of its workers.
-/

namespace Koro

namespace Run

variable {n : Nat} {s t : State n}

def Pc.inFiber : Pc → Bool
  | .running _ _ => true
  | _ => false

-- The worker whose step an action is
def Action.actor : Action n → Option (Fin n)
  | .create => none
  | .submit _ => none
  | .submitFiber _ _ => none
  | .pop i => some i
  | .steal i _ => some i
  | .idle i => some i
  | .idleReturn i _ => some i
  | .count i => some i
  | .tryLock i => some i
  | .putBack i => some i
  | .readState i => some i
  | .resume i => some i
  | .yield i => some i
  | .hold i => some i
  | .finish i => some i
  | .checkState i => some i
  | .requeue i => some i
  | .unlock i => some i
  | .uncount i => some i

theorem worker_other {a : Action n} (h : Step s a t) (hi : a.actor ≠ some i)
    : t.worker i = s.worker i := by
  have hne : ∀ {j}, some j ≠ some i → i ≠ j := by
    intro j hj hij
    exact hj (congrArg some hij.symm)
  cases h <;> first | rfl | exact Function.update_of_ne (hne hi) _ _

theorem worker_ne {a : Action n} (h : Step s a t) (ha : a.actor = some i) {j : Fin n} (hj : j ≠ i)
    : t.worker j = s.worker j := by
  apply worker_other h
  rw [ha, ne_eq, Option.some.injEq]
  exact fun hij => hj hij.symm

-- Only an idle worker's own return ends its being idle
theorem worker_idle {a : Action n} (h : Step s a t) (hi : s.worker i = .idle)
    (ha : ∀ term, a ≠ .idleReturn i term)
    : t.worker i = .idle := by
  by_cases hactor : a.actor = some i
  . cases h with
    | idleReturn j term hj =>
      cases hactor
      exact absurd rfl (ha term)
    | _ =>
      cases hactor <;> simp_all
  . rw [worker_other h hactor, hi]

end Run

namespace Scheduler

open Function (update)

variable {n : Nat} {kind : Kind} {s t : State n} {act : Action n}

def Frame.inSubmit : Frame n → Bool
  | .push _ _ => true
  | .tickle _ => true
  | .notify _ => true
  | .stopping _ => false

-- A worker is inside of its idle fiber, or of a fiber that calls `submit`
structure State.Calls (s : State n) : Prop where
  idle : ∀ i, s.idlePc i ≠ .setIdling → s.core.worker i = .idle
  submit : ∀ i f, s.frame (.worker i) = some f → f.inSubmit = true →
    (s.core.worker i).inFiber = true
  client : ∀ k pc, s.frame (.client k) ≠ some (.stopping pc)
  stopper : ∀ idx fiber, s.frame .stopper ≠ some (.push idx fiber)

theorem calls_start : (State.start n).Calls where
  idle := by simp [State.start]
  submit := by simp [State.start]
  client := by simp [State.start]
  stopper := by simp [State.start]

theorem onRun_actor (h : act.onRun = some (i, a)) : a.actor = some i ∧ ∀ j term, a ≠ .idleReturn j term := by
  cases act <;> simp_all [Action.onRun] <;> rcases h with ⟨rfl, rfl⟩ <;> simp [Run.Action.actor]

theorem submitAction_actor (idx : Fin n) (fiber : Option FiberId)
    : (submitAction idx fiber).actor = none := by
  cases fiber <;> rfl

-- A worker moves by a step of `run` outside of any call, or where its idle fiber returns
theorem worker_step (hs : Step kind s act t) (i : Fin n)
    : t.core.worker i = s.core.worker i
        ∨
      (s.frame (.worker i) = none ∧ t.frame = s.frame ∧ t.idlePc = s.idlePc
        ∧ (s.core.worker i = .idle → t.core.worker i = .idle))
        ∨
      (s.core.worker i = .idle ∧ t.idlePc i = .setIdling) := by
  have hother : ∀ {a : Run.Action n} {core}, Run.step s.core a = some core → a.actor ≠ some i →
      core.worker i = s.core.worker i := by
    intro a core hcore ha
    exact Run.worker_other (Run.Step.of_step hcore) ha
  cases hs with
  | run act j a core hact hframe hcore =>
    rcases onRun_actor hact with ⟨hactor, hreturn⟩
    cases decEq j i with
    | isTrue hij =>
      subst hij
      right
      left
      refine ⟨hframe, rfl, rfl, ?_⟩
      intro hidle
      exact Run.worker_idle (Run.Step.of_step hcore) hidle (hreturn j)
    | isFalse hij =>
      left
      apply hother hcore
      simp [hactor, hij]
  | create core hcore => exact .inl (hother hcore (by simp [Run.Action.actor]))
  | pushEmpty th idx fiber core hframe hempty hcore =>
    exact .inl (hother hcore (by simp [submitAction_actor]))
  | push th idx fiber core hframe hempty hcore =>
    exact .inl (hother hcore (by simp [submitAction_actor]))
  | wake j f core huser hcore => exact .inl (hother hcore (by simp [Run.Action.actor]))
  | deliver j wakeup core hpc hcore => exact .inl (hother hcore (by simp [Run.Action.actor]))
  | idleReturn j term core hpc hcore =>
    cases decEq j i with
    | isTrue hij =>
      subst hij
      right
      right
      refine ⟨?_, by simp⟩
      cases Run.Step.of_step hcore with
      | idleReturn _ _ hj => exact hj
    | isFalse hij => exact .inl (hother hcore (by simp [Run.Action.actor, hij]))
  | _ => exact .inl rfl

theorem idlePc_step (hs : Step kind s act t) (h : t.idlePc i ≠ .setIdling)
    : s.idlePc i ≠ .setIdling ∨ s.core.worker i = .idle := by
  cases hs <;> grind [Function.update_apply]

theorem idle_step (h : s.Calls) (hs : Step kind s act t)
    : ∀ i, t.idlePc i ≠ .setIdling → t.core.worker i = .idle := by
  intro i hi
  have hidle : s.core.worker i = .idle := by
    cases idlePc_step hs hi with
    | inl hpc => exact h.idle i hpc
    | inr hidle => exact hidle
  rcases worker_step hs i with hsame | ⟨_, _, _, hkeep⟩ | ⟨_, hpc⟩
  . rw [hsame, hidle]
  . exact hkeep hidle
  . exact absurd hpc hi

theorem user_running (h : s.user (.worker i) = true) : (s.core.worker i).inFiber = true := by
  unfold State.user at h
  cases hworker : s.core.worker i <;> simp_all [Run.Pc.inFiber]

theorem user_frame (h : s.user th = true) : s.frame th = none := by
  cases th with
  | worker i =>
    unfold State.user at h
    cases hworker : s.core.worker i <;> simp_all
  | client k => simpa [State.user] using h
  | stopper => simp [State.user] at h

-- A thread gets into `submit` from user code only
theorem inSubmit_step (hs : Step kind s act t) (h : t.frame (.worker i) = some f)
    (hf : f.inSubmit = true)
    : (∃ f', s.frame (.worker i) = some f' ∧ f'.inSubmit = true)
        ∨
      s.user (.worker i) = true := by
  cases hs <;> grind [Function.update_apply, Frame.inSubmit]

theorem submit_step (h : s.Calls) (hs : Step kind s act t)
    : ∀ i f, t.frame (.worker i) = some f → f.inSubmit = true →
        (t.core.worker i).inFiber = true := by
  intro i f hf hin
  have hbefore : (s.core.worker i).inFiber = true := by
    rcases inSubmit_step hs hf hin with ⟨f', hf', hin'⟩ | huser
    . exact h.submit i f' hf' hin'
    . exact user_running huser
  rcases worker_step hs i with hsame | ⟨hframe, hframes, _, _⟩ | ⟨hidle, _⟩
  . rw [hsame]
    exact hbefore
  . rw [hframes, hframe] at hf
    cases hf
  . simp [hidle, Run.Pc.inFiber] at hbefore

theorem client_step (h : s.Calls) (hs : Step kind s act t)
    : ∀ k pc, t.frame (.client k) ≠ some (.stopping pc) := by
  intro k pc
  have := h.client k
  cases hs <;> grind [Function.update_apply]

theorem stopper_step (h : s.Calls) (hs : Step kind s act t)
    : ∀ idx fiber, t.frame .stopper ≠ some (.push idx fiber) := by
  intro idx fiber
  have := h.stopper idx fiber
  cases hs <;> grind [Function.update_apply, State.user]

theorem calls_step (h : s.Calls) (hs : Step kind s act t) : t.Calls where
  idle := idle_step h hs
  submit := submit_step h hs
  client := client_step h hs
  stopper := stopper_step h hs

theorem reachable_calls (h : (machine kind n).Reach ok s) : s.Calls := by
  apply h.invariant
  . intro s hs
    rw [hs]
    exact calls_start
  . intro s a t hs _ hat
    exact calls_step hs (Step.of_step hat)

theorem State.Calls.not_idle (h : s.Calls) (hf : s.frame (.worker i) = some f)
    (hin : f.inSubmit = true)
    : s.core.worker i ≠ .idle := by
  intro hidle
  have := h.submit i f hf hin
  simp [hidle, Run.Pc.inFiber] at this

-- How far `stop` is
structure State.Finals (s : State n) : Prop where
  called : s.stopPc = .notCalled → s.stop = false
  tickles : ∀ k idx, s.stopPc = .final k →
    (s.frame .stopper = some (.tickle idx) ∨ s.frame .stopper = some (.notify idx)) →
    idx.val + 1 = k

theorem State.Finals.tickle (h : s.Finals)
    : ∀ k idx, s.stopPc = .final k → s.frame .stopper = some (.tickle idx) → idx.val + 1 = k := by
  intro k idx hk hframe
  exact h.tickles k idx hk (.inl hframe)

theorem State.Finals.notify (h : s.Finals)
    : ∀ k idx, s.stopPc = .final k → s.frame .stopper = some (.notify idx) → idx.val + 1 = k := by
  intro k idx hk hframe
  exact h.tickles k idx hk (.inr hframe)

theorem finals_step (hc : s.Calls) (h : s.Finals) (hs : Step kind s act t) : t.Finals where
  called := by
    have := h.called
    cases hs <;> first
      | exact h.called
      | grind
  tickles := by
    intro k idx
    have := h.tickles
    have := hc.stopper
    cases hs <;> first
      | exact h.tickles k idx
      | grind [Function.update_apply]

theorem reachable_finals (h : (machine kind n).Reach ok s) : s.Finals := by
  apply h.invariant_with (J := State.Calls)
  . intro s hs
    exact reachable_calls hs
  . intro s hs
    rw [hs]
    constructor <;> simp [State.start]
  . intro s a t hc hs _ hat
    exact finals_step hc hs (Step.of_step hat)

theorem finalTickled_iff
    : s.finalTickled i = true
        ↔
      (∃ k, s.stopPc = .final k ∧ (i.val + 1 < k ∨ (i.val + 1 = k ∧ s.frame .stopper = none)))
        ∨ s.stopPc = .join ∨ s.stopPc = .returned := by
  unfold State.finalTickled
  cases s.stopPc with
  | final k =>
    simp only [Bool.and_eq_true, decide_eq_true_eq, Bool.or_eq_true, Option.isNone_iff_eq_none]
    grind
  | _ => simp

end Scheduler
end Koro
