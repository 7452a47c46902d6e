import Koro.Data.Deque
import Koro.Scheduler.Exclusive

/-!
This module contains in which order the entries of a queue are taken: its worker takes them in the order in
which they have been put there, and no entry waits for more of the worker's turns than there are entries
before it, whatever is pushed and stolen meanwhile.
-/

namespace Koro
namespace Run

open Function (update)

variable {n : Nat} {s t : State n} {a : Action n}

-- What a step does to the queue `q`
def queueOp (q : Fin n) (s : State n) : Action n → Option (Deque.Op ScheduledTask)
  | .submit p => if p = q then some (.pushBack (.cb s.callbacks)) else none
  | .submitFiber p f => if p = q then some (.pushBack (.fiber f)) else none
  | .pop i => if i = q then some .popFront else none
  | .steal i true =>
    match s.worker i with
    | .steal k => if k < n ∧ State.victim i k = q then some .popBack else none
    | _ => none
  | .putBack i =>
    match s.worker i with
    | .lockFailed f => if i = q then some (.pushBack (.fiber f)) else none
    | _ => none
  | .requeue i =>
    match s.worker i with
    | .requeue f => if i = q then some (.pushBack (.fiber f)) else none
    | _ => none
  | _ => none

theorem queueOp_step (q : Fin n) (hs : Step s a t)
    : t.tasks q = Deque.run (queueOp q s a).toList (s.tasks q) := by
  have hpush : ∀ (p : Fin n) (task : ScheduledTask),
      update s.tasks p (s.tasks p ++ [task]) q
        = Deque.run (if p = q then some (.pushBack task) else none : Option (Deque.Op _)).toList
            (s.tasks q) := by
    intro p task
    by_cases hp : p = q
    . subst hp
      rw [Function.update_self, if_pos rfl]
      rfl
    . rw [Function.update_of_ne (Ne.symm hp), if_neg hp]
      rfl
  cases hs with
  | submit p => exact hpush p _
  | submitFiber p f hf => exact hpush p _
  | popNone i hi hq =>
    by_cases hp : i = q
    . subst hp
      simp [queueOp, Deque.run, Deque.Op.apply, hq]
    . simp [queueOp, Deque.run, hp]
  | pop i task rest hi hq =>
    by_cases hp : i = q
    . subst hp
      simp [queueOp, Deque.run, Deque.Op.apply, hq]
    . simp [queueOp, Deque.run, hp, Function.update_of_ne (Ne.symm hp)]
  | stealMiss i ownsLock k hi hk hmiss =>
    cases ownsLock with
    | false => rfl
    | true =>
      by_cases hp : State.victim i k = q
      . subst hp
        simp [queueOp, hi, hk, Deque.run, Deque.Op.apply, hmiss rfl]
      . simp [queueOp, hi, hp, Deque.run]
  | steal i p task rest k hi hk hv hq =>
    subst hv
    by_cases hp : State.victim i k = q
    . subst hp
      simp [queueOp, hi, hk, Deque.run, Deque.Op.apply, hq]
    . simp [queueOp, hi, hp, Deque.run, Function.update_of_ne (Ne.symm hp)]
  | stealNone i ownsLock k hi hk =>
    cases ownsLock with
    | false => rfl
    | true => simp [queueOp, hi, hk, Deque.run]
  | putBack i f hi =>
    simp only [queueOp, hi]
    exact hpush i _
  | requeue i f hi =>
    simp only [queueOp, hi]
    exact hpush i _
  | _ => rfl

theorem queue_views (q : Fin n) : Deque.Views (machine n) (fun s => s.tasks q) (queueOp q) where
  step := by
    intro s a t hs
    exact queueOp_step q (Step.of_step hs)

-- What is done to the queue `q` in a run
def queueOps (q : Fin n) (s : State n) (as : List (Action n)) : List (Deque.Op ScheduledTask) :=
  Deque.ops (machine n) (queueOp q) s as

theorem pops_queueOp (q : Fin n) (s : State n) (a : Action n)
    : Deque.pops (queueOp q s a).toList = if a = .pop q then 1 else 0 := by
  cases a with
  | pop i => by_cases hp : i = q <;> simp [queueOp, hp, Deque.pops]
  | submit p => by_cases hp : p = q <;> simp [queueOp, hp, Deque.pops]
  | submitFiber p f => by_cases hp : p = q <;> simp [queueOp, hp, Deque.pops]
  | steal i ownsLock =>
    cases ownsLock <;> simp only [queueOp] <;> grind [Deque.pops]
  | putBack i =>
    simp only [queueOp]
    grind [Deque.pops]
  | requeue i =>
    simp only [queueOp]
    grind [Deque.pops]
  | _ => rfl

/--
In every run the worker of a queue takes entries in the order in which they have been put there, and an
entry is gone once the worker has come to the queue more often than there were entries before it: of what
there was when the run began, a stretch is left in front that begins after as many entries as the worker
has come for.
-/
theorem in_turn (as : List (Action n)) (hexec : (machine n).exec s as = some t) (q : Fin n)
    : (Deque.served (queueOps q s as) (s.tasks q) ++ t.tasks q).Sublist
          (s.tasks q ++ Deque.pushed (queueOps q s as))
        ∧
      ∃ kept later,
        t.tasks q = kept ++ later
          ∧
        kept <+: (s.tasks q).drop (as.count (.pop q))
          ∧
        later.Sublist (Deque.pushed (queueOps q s as)) := by
  have hview : t.tasks q = Deque.run (queueOps q s as) (s.tasks q) := (queue_views q).exec as hexec
  rw [← Deque.pops_ops (.pop q) as hexec (pops_queueOp q), hview]
  exact ⟨Deque.served_sublist _ _, Deque.run_split _ _⟩

-- Worker 1 steals the last of three callbacks, and worker 0 takes the first one
def afterSteal : List (Action 2) :=
  [.submit 0, .submit 0, .submit 0, .pop 1, .steal 1 true, .pop 0]

theorem in_turn_stolen
    : ∃ t,
        (machine 2).exec (State.start 2) afterSteal = some t
          ∧
        Deque.served (queueOps 0 (State.start 2) afterSteal) [] = [.cb 0] ∧ t.tasks 0 = [.cb 1]
          ∧
        (Deque.served (queueOps 0 (State.start 2) afterSteal) [] ++ t.tasks 0).Sublist
            ([] ++ Deque.pushed (queueOps 0 (State.start 2) afterSteal))
          ∧
        ∃ kept later,
          t.tasks 0 = kept ++ later
            ∧
          kept <+: ([] : List ScheduledTask).drop (afterSteal.count (.pop 0))
            ∧
          later.Sublist (Deque.pushed (queueOps 0 (State.start 2) afterSteal)) := by
  have h : ((machine 2).exec (State.start 2) afterSteal).any (fun t => t.tasks 0 = [.cb 1]) = true := by
    decide
  have hserved : Deque.served (queueOps 0 (State.start 2) afterSteal) [] = [.cb 0] := by
    rfl
  simp only [Option.any_eq_true, decide_eq_true_eq] at h
  rcases h with ⟨t, hexec, htasks⟩
  exact ⟨t, hexec, hserved, htasks, in_turn afterSteal hexec 0⟩

section OneWorker

variable {s t : State 1} {a : Action 1}

def toCallback : ScheduledTask → Option CallbackId
  | .cb c => some c
  | .fiber _ => none

-- What the worker has taken and not entered yet
def State.taken (s : State 1) : List CallbackId :=
  match s.worker 0 with
  | .popped task => (toCallback task).toList
  | .counted task => (toCallback task).toList
  | .resuming f true => (s.fiber f).cb.toList
  | _ => []

structure State.InOrder (s : State 1) : Prop where
  order : s.entered ++ s.taken ++ (s.tasks 0).filterMap toCallback = List.range s.callbacks
  steal : ∀ k, s.worker 0 = .steal k → 1 ≤ k
  wrapper : ∀ f, s.worker 0 = .resuming f true →
    f < s.fibers ∧ (s.fiber f).started = false ∧ (s.fiber f).state = .kReady
  others : ∀ f < s.fibers, (s.fiber f).started = false → s.worker 0 ≠ .resuming f true →
    (s.fiber f).cb = none

theorem inOrder_start : (State.start 1).InOrder := by
  constructor <;> simp [State.start, State.taken]

-- The worker goes on with no callback newly in its hands
theorem State.InOrder.move (h : s.InOrder) (hold : ∀ f, s.worker 0 ≠ .resuming f true)
    (hnew : ∀ f, t.worker 0 ≠ .resuming f true) (hsteal : ∀ k, t.worker 0 = .steal k → 1 ≤ k)
    (htaken : t.entered ++ t.taken ++ (t.tasks 0).filterMap toCallback
      = s.entered ++ s.taken ++ (s.tasks 0).filterMap toCallback)
    (hcount : t.callbacks = s.callbacks ∧ t.fibers = s.fibers)
    (hfiber : ∀ f, (t.fiber f).started = false →
      (s.fiber f).started = false ∧ ((s.fiber f).cb = none → (t.fiber f).cb = none))
    : t.InOrder := by
  constructor
  . rw [htaken, hcount.left]
    exact h.order
  . exact hsteal
  . intro f hf
    exact absurd hf (hnew f)
  . intro f hf hstarted _
    rw [hcount.right] at hf
    rcases hfiber f hstarted with ⟨hstarted, hcb⟩
    exact hcb (h.others f hf hstarted (hold f))

theorem inOrder_step (hb : s.Bounded) (h : s.InOrder) (hs : Step s a t) : t.InOrder := by
  have hzero : ∀ i : Fin 1, i = 0 := Fin.fin_one_eq_zero
  have horder := h.order
  cases hs with
  | create =>
    have hold : ∀ f, s.worker 0 = .resuming f true → f ≠ s.fibers := by
      intro f hf
      exact Nat.ne_of_lt (h.wrapper f hf).left
    refine ⟨?_, h.steal, ?_, ?_⟩
    . rw [← horder]
      congr 2
      unfold State.taken
      cases hw : s.worker 0 with
      | resuming f wrapper => cases wrapper <;> simp [Function.update_of_ne, hold f, hw]
      | _ => rfl
    . intro f hf
      dsimp only at hf ⊢
      rw [Function.update_of_ne (hold f hf)]
      have := h.wrapper f hf
      exact ⟨Nat.lt_succ_of_lt this.left, this.right⟩
    . intro f hf hstarted hw
      dsimp only at hf hstarted hw ⊢
      by_cases heq : f = s.fibers
      . rw [heq, Function.update_self]
        rfl
      . rw [Function.update_of_ne heq] at hstarted ⊢
        exact h.others f (Nat.lt_of_le_of_ne (Nat.le_of_lt_succ hf) heq) hstarted hw
  | submit q =>
    cases hzero q
    refine ⟨?_, h.steal, h.wrapper, h.others⟩
    dsimp only
    rw [Function.update_self, List.filterMap_append, ← List.append_assoc, List.range_succ, ← horder]
    rfl
  | submitFiber q f hf =>
    cases hzero q
    refine ⟨?_, h.steal, h.wrapper, h.others⟩
    dsimp only
    rw [Function.update_self, List.filterMap_append, ← horder]
    simp [toCallback, State.taken]
  | wrap i c hi =>
    cases hzero i
    constructor
    . rw [← horder]
      simp [State.taken, hi, toCallback, Fiber.new]
    . simp
    . intro f hf
      simp only [Function.update_self, Pc.resuming.injEq, and_true] at hf
      subst hf
      simp [Fiber.new]
    . intro f hf hstarted hw
      dsimp only at hf hstarted hw ⊢
      have hne : f ≠ s.fibers := by
        rintro rfl
        exact hw (Function.update_self ..)
      rw [Function.update_of_ne hne] at hstarted ⊢
      exact h.others f (Nat.lt_of_le_of_ne (Nat.le_of_lt_succ hf) hne) hstarted (by simp [hi])
  | resume i f wrapper hi hf =>
    cases hzero i
    have hnone : wrapper = false → (s.fiber f).started = false → (s.fiber f).cb = none := by
      intro hw hstarted
      apply h.others f (hb.held_lt (by rw [hi]; rfl)) hstarted
      simp [hi, hw]
    constructor
    . rw [← horder]
      cases wrapper with
      | true => simp [State.taken, hi, (h.wrapper f hi).right.left]
      | false => cases hstarted : (s.fiber f).started <;> simp [State.taken, hi, hstarted, hnone]
    . simp
    . simp
    . intro g hg hstarted _
      dsimp only at hg hstarted ⊢
      by_cases hgf : g = f
      . simp [hgf] at hstarted
      . rw [Function.update_of_ne hgf] at hstarted ⊢
        apply h.others g hg hstarted
        rw [hi]
        rintro ⟨⟩
        exact hgf rfl
  | resumeFail i f wrapper hi hf =>
    cases hzero i
    cases wrapper with
    | true => exact absurd (.inl (h.wrapper f hi).right.right) hf
    | false => apply h.move <;> simp [hi, State.taken]
  | pop i task rest hi hq =>
    cases hzero i
    apply h.move <;> simp [hi, State.taken, hq]
    cases task <;> rfl
  | stealMiss i ownsLock k hi hk hmiss =>
    cases hzero i
    have := h.steal k hi
    omega
  | steal i q task rest k hi hk hv hq =>
    cases hzero i
    have := h.steal k hi
    omega
  | popNone i hi _ | stealNone i _ _ hi _ | exit i hi _ | idle i hi _ | idleReturn i _ hi
  | count i _ hi | lockFail i _ hi _ | putBack i _ hi | readTerm i _ hi _ | readState i _ hi _
  | yieldFail i _ _ hi _ | yieldTerm i _ _ hi _ | holdFail i _ _ hi _ | checkFail i _ hi _
  | checkReady i _ _ hi _ | checkOther i _ _ hi _ | requeue i _ hi | uncount i hi =>
    cases hzero i
    apply h.move <;> simp [hi, State.taken, toCallback]
  | lock i f hi _ | yield i f _ hi _ | hold i f _ hi _ | finish i f _ hi | unlock i f hi =>
    cases hzero i
    apply h.move <;> simp [hi, State.taken, toCallback]
    -- The fiber has been started before, or is not started here, and gets no callback
    intro g
    by_cases hg : g = f <;> simp_all

theorem reachable_inOrder (h : (machine 1).Reach ok s) : s.InOrder := by
  apply h.invariant_with (J := State.Bounded)
  . intro s hs
    exact reachable_bounded (hs.mono fun _ _ _ => trivial)
  . intro s hs
    rw [hs]
    exact inOrder_start
  . intro s a t hb hI _ hat
    exact inOrder_step hb hI (Step.of_step hat)

/--
One worker enters the callbacks in the order in which they have been submitted, whatever fibers are put in
its queue.
-/
theorem entered_in_order (h : (machine 1).Reachable s) : ∃ k ≤ s.callbacks, s.entered = List.range k := by
  have horder := (reachable_inOrder h).order
  have hprefix : s.entered <+: List.range s.callbacks := by
    rw [← horder, List.append_assoc]
    exact List.prefix_append _ _
  exact Deque.exists_range hprefix

-- The fiber of callback 0 yields, and is resumed after callback 1 has been entered
def taking : List (Action 1) :=
  [.submit 0, .submit 0, .pop 0, .count 0, .tryLock 0, .resume 0, .yield 0, .checkState 0, .requeue 0,
    .unlock 0, .uncount 0, .pop 0, .count 0, .tryLock 0, .resume 0]

theorem entered_in_order_taking
    : ∃ s,
        (machine 1).exec (State.start 1) taking = some s
          ∧
        s.entered = [0, 1] ∧ ∃ k ≤ s.callbacks, s.entered = List.range k := by
  have h : ((machine 1).exec (State.start 1) taking).any (fun s => s.entered = [0, 1]) = true := by
    decide
  simp only [Option.any_eq_true, decide_eq_true_eq] at h
  rcases h with ⟨s, hexec, hentered⟩
  exact ⟨s, hexec, hentered, entered_in_order (Machine.Reachable.of_exec _ rfl hexec)⟩

end OneWorker

end Run
end Koro
