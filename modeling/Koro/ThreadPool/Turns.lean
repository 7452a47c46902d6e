import Koro.Data.Deque
import Koro.ThreadPool.Conserve

/-!
This module contains in which order the tasks of a `ThreadPool` are taken: a worker takes those of its own
queue in the order in which they have been submitted, and no task waits for more of its turns than there
are tasks before it.
-/

namespace Koro
namespace ThreadPool

open Function (update)

variable {n : Nat} {s t : State n} {a : Action n}

-- What a step does to the queue `q`
def queueOp (q : Fin n) (s : State n) : Action n → Option (Deque.Op TaskId)
  | .push th =>
    match s.frame th with
    | some (.push idx) => if idx = q then some (.pushBack s.submitted) else none
    | _ => none
  | .lock i => if i = q then some .popFront else none
  | .steal i true =>
    match s.worker i with
    | .steal k => if k < n ∧ State.victim i k = q then some .popBack else none
    | _ => none
  | _ => none

theorem queueOp_step (q : Fin n) (hs : Step s a t)
    : t.queue q = Deque.run (queueOp q s a).toList (s.queue q) := by
  cases hs with
  | push th idx hframe =>
    by_cases hp : idx = q
    . subst hp
      simp [queueOp, hframe, Deque.run, Deque.Op.apply]
    . simp [queueOp, hframe, hp, Deque.run, Function.update_of_ne (Ne.symm hp)]
  | pop i task rest hi hq =>
    by_cases hp : i = q
    . subst hp
      simp [queueOp, Deque.run, Deque.Op.apply, hq]
    . simp [queueOp, Deque.run, hp, Function.update_of_ne (Ne.symm hp)]
  | ret i hi hq hstop =>
    by_cases hp : i = q
    . subst hp
      simp [queueOp, Deque.run, Deque.Op.apply, hq]
    . simp [queueOp, Deque.run, hp]
  | look i hi hq hstop =>
    by_cases hp : i = q
    . subst hp
      simp [queueOp, Deque.run, Deque.Op.apply, hq]
    . simp [queueOp, Deque.run, hp]
  | steal i p task rest k hi hk hv hq =>
    subst hv
    by_cases hp : State.victim i k = q
    . subst hp
      simp [queueOp, hi, hk, Deque.run, Deque.Op.apply, hq]
    . simp [queueOp, hi, hp, Deque.run, Function.update_of_ne (Ne.symm hp)]
  | stealMiss i ownsLock k hi hk hmiss =>
    cases ownsLock with
    | false => rfl
    | true =>
      by_cases hp : State.victim i k = q
      . subst hp
        simp [queueOp, hi, hk, Deque.run, Deque.Op.apply, hmiss rfl]
      . simp [queueOp, hi, hp, Deque.run]
  | stealNone i ownsLock k hi hk =>
    cases ownsLock with
    | false => rfl
    | true => simp [queueOp, hi, Nat.not_lt.mpr hk, Deque.run]
  | _ => rfl

theorem queue_views (q : Fin n) : Deque.Views (machine n) (fun s => s.queue q) (queueOp q) where
  step := by
    intro s a t hs
    exact queueOp_step q (Step.of_step hs)

def queueOps (q : Fin n) (s : State n) (as : List (Action n)) : List (Deque.Op TaskId) :=
  Deque.ops (machine n) (queueOp q) s as

theorem pops_queueOp (q : Fin n) (s : State n) (a : Action n)
    : Deque.pops (queueOp q s a).toList = if a = .lock q then 1 else 0 := by
  cases a with
  | lock i => by_cases hp : i = q <;> simp [queueOp, hp, Deque.pops]
  | push th =>
    simp only [queueOp]
    grind [Deque.pops]
  | steal i ownsLock => cases ownsLock <;> simp only [queueOp] <;> grind [Deque.pops]
  | _ => rfl

theorem queueOp_pushed (q : Fin n) (hs : Step s a t)
    : Deque.pushed (queueOp q s a).toList = [] ∧ s.submitted ≤ t.submitted
        ∨
      Deque.pushed (queueOp q s a).toList = [s.submitted] ∧ s.submitted < t.submitted := by
  cases hs with
  | push th idx hframe =>
    by_cases hp : idx = q
    . exact .inr ⟨by simp [queueOp, hframe, hp, Deque.pushed], Nat.lt_succ_self _⟩
    . exact .inl ⟨by simp [queueOp, hframe, hp, Deque.pushed], Nat.le_succ _⟩
  | pop i task rest hi hq => by_cases hp : i = q <;> simp [queueOp, hp, Deque.pushed]
  | ret i hi hq hstop => by_cases hp : i = q <;> simp [queueOp, hp, Deque.pushed]
  | look i hi hq hstop => by_cases hp : i = q <;> simp [queueOp, hp, Deque.pushed]
  | steal i p task rest k hi hk hv hq =>
    by_cases hp : State.victim i k = q <;> simp [queueOp, hi, hk, hp, Deque.pushed]
  | stealMiss i ownsLock k hi hk hmiss =>
    cases ownsLock <;> by_cases hp : State.victim i k = q <;> simp [queueOp, hi, hk, hp, Deque.pushed]
  | stealNone i ownsLock k hi hk =>
    cases ownsLock <;> simp [queueOp, hi, Nat.not_lt.mpr hk, Deque.pushed]
  | _ => exact .inl ⟨rfl, Nat.le_refl _⟩

-- The tasks pushed in a run are named in their order
theorem pushed_sorted (q : Fin n) (as : List (Action n)) (hexec : (machine n).exec s as = some t)
    : (Deque.pushed (queueOps q s as)).Pairwise (· < ·)
        ∧ ∀ task ∈ Deque.pushed (queueOps q s as), s.submitted ≤ task := by
  induction as generalizing s with
  | nil => simp [queueOps, Deque.ops, Deque.pushed]
  | cons a as ih =>
    simp only [Machine.exec, Option.bind_eq_some_iff] at hexec
    rcases hexec with ⟨r, hr, hrt⟩
    rcases ih hrt with ⟨hsorted, hle⟩
    have hsplit : Deque.pushed (queueOps q s (a :: as))
        = Deque.pushed (queueOp q s a).toList ++ Deque.pushed (queueOps q r as) := by
      rw [queueOps, Deque.ops, hr, Deque.pushed_append]
      rfl
    rw [hsplit]
    rcases queueOp_pushed q (Step.of_step hr) with ⟨hnone, hsame⟩ | ⟨hone, hlt⟩
    . rw [hnone]
      exact ⟨hsorted, fun task htask => Nat.le_trans hsame (hle task htask)⟩
    . rw [hone, List.singleton_append, List.pairwise_cons]
      refine ⟨⟨fun task htask => Nat.lt_of_lt_of_le hlt (hle task htask), hsorted⟩, ?_⟩
      intro task htask
      rcases List.mem_cons.mp htask with rfl | htask
      . exact Nat.le_refl _
      . exact Nat.le_trans (Nat.le_of_lt hlt) (hle task htask)

/--
A worker takes the tasks of its own queue in the order in which they have been submitted. A task that is in
the queue waits for no more of the worker's turns than there are tasks before it, whatever is submitted
and stolen meanwhile.
-/
theorem own_in_order (as as' : List (Action n)) (hstart : (machine n).exec (State.start n) as = some s)
    (hexec : (machine n).exec s as' = some t) (q : Fin n)
    : (Deque.served (queueOps q (State.start n) as) [] ++ s.queue q).Pairwise (· < ·)
        ∧
      ∃ kept later,
        t.queue q = kept ++ later
          ∧
        kept <+: (s.queue q).drop (as'.count (.lock q))
          ∧
        ∀ task ∈ later, s.submitted ≤ task := by
  constructor
  . have hview : s.queue q = Deque.run (queueOps q (State.start n) as) [] :=
      (queue_views q).exec as hstart
    rw [hview]
    exact List.Pairwise.sublist (Deque.served_sublist _ []) (pushed_sorted q as hstart).left
  . have hview : t.queue q = Deque.run (queueOps q s as') (s.queue q) := (queue_views q).exec as' hexec
    rcases Deque.run_split (queueOps q s as') (s.queue q) with ⟨kept, later, hrun, hkept, hlater⟩
    rw [queueOps, Deque.pops_ops (.lock q) as' hexec (pops_queueOp q)] at hkept
    refine ⟨kept, later, hview.trans hrun, hkept, ?_⟩
    intro task htask
    exact (pushed_sorted q as' hexec).right task (hlater.subset htask)

-- Three tasks for two workers, of which worker 0 takes one
def threePushed : List (Action 2) :=
  submits 0 ++ submits 0 ++ submits 0

theorem own_in_order_threePushed
    : ∃ s t,
        (machine 2).exec (State.start 2) threePushed = some s
          ∧
        (machine 2).exec s [.lock 0] = some t ∧ s.queue 0 = [0, 2] ∧ t.queue 0 = [2]
          ∧
        (Deque.served (queueOps 0 (State.start 2) threePushed) [] ++ s.queue 0).Pairwise (· < ·)
          ∧
        ∃ kept later,
          t.queue 0 = kept ++ later
            ∧
          kept <+: (s.queue 0).drop (([.lock 0] : List (Action 2)).count (.lock 0))
            ∧
          ∀ task ∈ later, s.submitted ≤ task := by
  have h : ((machine 2).exec (State.start 2) threePushed).any (fun s => s.queue 0 = [0, 2]
      ∧ ((machine 2).exec s [.lock 0]).any (fun t => t.queue 0 = [2]) = true) = true := by
    decide
  simp only [Option.any_eq_true, decide_eq_true_eq] at h
  rcases h with ⟨s, hstart, hs, t, hexec, ht⟩
  exact ⟨s, t, hstart, hexec, hs, ht, own_in_order threePushed [.lock 0] hstart hexec 0⟩

section OneWorker

variable {s t : State 1} {a : Action 1}

-- What the worker has taken and not called yet
def State.taken (s : State 1) : List TaskId :=
  match s.worker 0 with
  | .holding task => [task]
  | _ => []

structure State.InOrder (s : State 1) : Prop where
  order : s.entered ++ s.taken ++ s.queue 0 = List.range s.submitted
  steal : ∀ k, s.worker 0 = .steal k → 1 ≤ k

theorem inOrder_step (h : s.InOrder) (hs : Step s a t) : t.InOrder := by
  have hzero : ∀ i : Fin 1, i = 0 := Fin.fin_one_eq_zero
  rcases h with ⟨horder, hsteal⟩
  cases hs with
  | push th idx hframe =>
    cases hzero idx
    refine ⟨?_, hsteal⟩
    dsimp only
    rw [Function.update_self, ← List.append_assoc, List.range_succ, ← horder]
    rfl
  | steal i q task rest k hi hk hv hq =>
    cases hzero i
    have := hsteal k hi
    omega
  | stealMiss i ownsLock k hi hk hmiss =>
    cases hzero i
    have := hsteal k hi
    omega
  | submit th idx huser => exact ⟨horder, hsteal⟩
  | notifyNone th idx hframe hi => exact ⟨horder, hsteal⟩
  | notify th idx hframe hi =>
    cases hzero idx
    refine ⟨?_, by simp⟩
    rw [← horder]
    simp [State.taken, hi]
  | pop i task rest hi hq =>
    cases hzero i
    refine ⟨?_, by simp⟩
    rw [← horder]
    simp [State.taken, hi, hq]
  | look i hi hq hstop =>
    cases hzero i
    refine ⟨?_, by simp⟩
    rw [← horder]
    simp [State.taken, hi]
  | call i task hi =>
    cases hzero i
    refine ⟨?_, by simp⟩
    rw [← horder]
    simp [State.taken, hi]
  | ret i hi _ _ | stealNone i _ _ hi _ | wait i hi _ _ | relock i hi _ | spurious i hi | test i hi _
  | testFail i hi _ _ | finish i _ hi _ | dtorNotify i _ hi =>
    cases hzero i
    refine ⟨?_, by simp⟩
    rw [← horder]
    simp [State.taken, hi]
  | _ => exact ⟨horder, hsteal⟩

/--
A single worker calls the tasks in the order in which they have been submitted.
-/
theorem called_in_order (h : (machine 1).Reachable s) : ∃ k ≤ s.submitted, s.entered = List.range k := by
  have horder : s.InOrder := by
    apply h.invariant
    . intro s hs
      rw [hs]
      exact ⟨rfl, by simp [State.start]⟩
    . intro s a t hI _ hat
      exact inOrder_step hI (Step.of_step hat)
  have hprefix : s.entered <+: List.range s.submitted := by
    rw [← horder.order, List.append_assoc]
    exact List.prefix_append _ _
  exact Deque.exists_range hprefix

-- The second task is submitted by the first one
def nested : List (Action 1) :=
  submits 0 ++ ([.lock 0, .call 0, .submit (.worker 0), .push (.worker 0), .notify (.worker 0), .finish 0,
    .lock 0, .call 0] : List (Action 1))

theorem called_in_order_nested
    : ∃ s,
        (machine 1).exec (State.start 1) nested = some s
          ∧
        s.entered = [0, 1] ∧ ∃ k ≤ s.submitted, s.entered = List.range k := by
  have h : ((machine 1).exec (State.start 1) nested).any (fun s => s.entered = [0, 1]) = true := by
    decide
  simp only [Option.any_eq_true, decide_eq_true_eq] at h
  rcases h with ⟨s, hexec, hentered⟩
  exact ⟨s, hexec, hentered, called_in_order (Machine.Reachable.of_exec _ rfl hexec)⟩

end OneWorker

end ThreadPool
end Koro
