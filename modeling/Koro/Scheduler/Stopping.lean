import Koro.Scheduler.Active
import Koro.Scheduler.Calls

/-!
This module contains what `stopping` finds out. It reads `stop_`, `active_thread_count_`,
`pending_event_count_` and each queue at different moments, and a worker takes an entry out of its
queue before it counts itself as active: an entry that is in neither place when its turn comes is
missed. `Sound` says of each step that no entry is missed by it.
-/

namespace Koro

namespace Run

open Function (update)

variable {n : Nat} {s t : State n} {a : Action n} {k : Nat}

-- There is an entry to see from queue `k` on
def State.Visible (s : State n) (k : Nat) : Prop :=
  ∃ q : Fin n, k ≤ q ∧ s.tasks q ≠ []

instance (s : State n) (k : Nat) : Decidable (s.Visible k) :=
  inferInstanceAs (Decidable (∃ q : Fin n, k ≤ q ∧ s.tasks q ≠ []))

-- There still is when an entry is taken from queue `q`
def State.Spares (s : State n) (q : Fin n) (k : Nat) : Prop :=
  ∃ p : Fin n, k ≤ p ∧ if p = q then 1 < (s.tasks p).length else s.tasks p ≠ []

instance (s : State n) (q : Fin n) (k : Nat) : Decidable (s.Spares q k) :=
  inferInstanceAs (Decidable (∃ p : Fin n,
    k ≤ p ∧ if p = q then 1 < (s.tasks p).length else s.tasks p ≠ []))

-- The queues before `k` were empty, and there is nothing that could change it
structure State.Clear (s : State n) (k : Nat) : Prop where
  worker : ∀ i, (s.worker i).busy = false
  tasks : ∀ q : Fin n, q < k → s.tasks q = []

theorem visible_keeps (h : Step s a t) (htakes : s.takes a = none) (hs : s.Visible k)
    : t.Visible k := by
  rcases hs with ⟨q, hq, htasks⟩
  exact ⟨q, hq, tasks_keeps h htakes htasks⟩

theorem visible_takes (h : Step s a t) (htakes : s.takes a = some q) (hs : s.Spares q k)
    : t.Visible k := by
  rcases hs with ⟨p, hp, hspare⟩
  rcases tasks_takes h htakes with ⟨rest, htasks, hlen⟩
  refine ⟨p, hp, ?_⟩
  rw [htasks]
  by_cases hpq : p = q
  . subst hpq
    rw [Function.update_self]
    simp only [↓reduceIte] at hspare
    intro hrest
    rw [hrest] at hlen
    simp only [List.length_nil] at hlen
    omega
  . rw [Function.update_of_ne hpq]
    simpa [hpq] using hspare

theorem visible_step (h : Step s a t) (hspares : ∀ q ∈ s.takes a, s.Spares q k)
    (hs : s.Visible k)
    : t.Visible k := by
  cases htakes : s.takes a with
  | some q => exact visible_takes h htakes (hspares q htakes)
  | none => exact visible_keeps h htakes hs

theorem clear_step (h : Step s a t) (hsubmits : a.submits = false)
    (hspares : ∀ q ∈ s.takes a, s.Spares q k) (hs : s.Clear k)
    : t.Clear k ∨ t.Visible k := by
  cases htakes : s.takes a with
  | some q => exact .inr (visible_takes h htakes (hspares q htakes))
  | none =>
    left
    rcases rest_step h hs.worker hsubmits htakes with ⟨hworker, htasks, _⟩
    refine ⟨hworker, ?_⟩
    rw [htasks]
    exact hs.tasks

-- The look at queue `k`
theorem clear_queue (hk : k < n) (hempty : s.tasks ⟨k, hk⟩ = []) (hs : s.Clear k)
    : s.Clear (k + 1) where
  worker := hs.worker
  tasks := by
    intro q hq
    by_cases hqk : q.val = k
    . subst hqk
      exact hempty
    . apply hs.tasks q
      omega

theorem visible_queue (hk : k < n) (hempty : s.tasks ⟨k, hk⟩ = []) (hs : s.Visible k)
    : s.Visible (k + 1) := by
  rcases hs with ⟨q, hq, htasks⟩
  refine ⟨q, ?_, htasks⟩
  have : q.val ≠ k := by
    intro hqk
    subst hqk
    exact htasks hempty
  omega

theorem not_visible (hk : ¬k < n) : ¬s.Visible k := by
  intro ⟨q, hq, _⟩
  omega

end Run

namespace Scheduler

open Function (update)

variable {n : Nat} {kind : Kind} {s t : State n} {act : Action n} {th : Thread n}

-- The first queue that is still to be looked at, once no worker was found active
def StoppingPc.rest (n : Nat) : StoppingPc → Option Nat
  | .pending => some 0
  | .queue k => some k
  | .ret true => some n
  | _ => none

-- The threads that call `stopping`
def callers (n : Nat) : List (Thread n) :=
  .stopper :: (List.finRange n).map .worker

namespace State

def scan (s : State n) (th : Thread n) : Option Nat :=
  match s.frame th with
  | some (.stopping pc) => pc.rest n
  | _ => none

-- Nothing submitted is unfinished, and `stopping` is true
structure Quiescent (s : State n) : Prop where
  stop : s.stop = true
  active : s.core.activeThreadCount = 0
  pending : s.pendingEventCount = 0
  tasks : ∀ q, s.core.tasks q = []
  worker : ∀ i, (s.core.worker i).busy = false

instance (s : State n) : Decidable s.Quiescent :=
  decidable_of_iff
    (s.stop = true ∧ s.core.activeThreadCount = 0 ∧ s.pendingEventCount = 0
      ∧ (∀ q, s.core.tasks q = []) ∧ ∀ i, (s.core.worker i).busy = false)
    ⟨fun ⟨h₁, h₂, h₃, h₄, h₅⟩ => ⟨h₁, h₂, h₃, h₄, h₅⟩,
      fun h => ⟨h.stop, h.active, h.pending, h.tasks, h.worker⟩⟩

-- Whoever is past the read of `active_thread_count_` still has an entry to see when one is taken
-- from queue `q`
def Keeps (s : State n) (q : Fin n) : Prop :=
  ∀ th ∈ callers n, ∀ k ∈ s.scan th, s.core.Spares q k

instance (s : State n) (q : Fin n) : Decidable (s.Keeps q) :=
  inferInstanceAs (Decidable (∀ th ∈ callers n, ∀ k ∈ s.scan th, s.core.Spares q k))

-- They see the entry that is put into queue `q`, or another one
def Shows (s : State n) (q : Fin n) : Prop :=
  ¬s.Quiescent ∧ ∀ th ∈ callers n, ∀ k ∈ s.scan th, k ≤ q ∨ s.core.Visible k

instance (s : State n) (q : Fin n) : Decidable (s.Shows q) :=
  inferInstanceAs (Decidable (¬s.Quiescent ∧ ∀ th ∈ callers n, ∀ k ∈ s.scan th, k ≤ q ∨ s.core.Visible k))

end State

-- The queue that a worker takes an entry from
def State.taken (s : State n) : Action n → Option (Fin n)
  | .pop i => s.core.takes (.pop i)
  | .steal i ownsLock => s.core.takes (.steal i ownsLock)
  | _ => none

-- The queue that an entry from outside of the workers' fibers goes into
def State.given (s : State n) : Action n → Option (Fin n)
  | .push (.client k) =>
    match s.frame (.client k) with
    | some (.push idx _) => some idx
    | _ => none
  | .deliver i => some i
  | _ => none

-- No worker is found active while one has just taken an entry
def State.overlooks (s : State n) : Action n → Bool
  | .stopping th =>
    s.frame th = some (.stopping .active) ∧ s.core.activeThreadCount = 0
      ∧ ∃ i, (s.core.worker i).busy = true
  | _ => false

/--
No step hides an entry from `stopping`: when an entry is taken, whoever has found no worker active
still has another one to see; what comes from outside of the workers' fibers comes before everything
has been found finished, and into a queue that is still to be looked at unless there is an entry in
one; and when no worker is found active while one has just taken an entry, there is another entry in
a queue.
-/
structure Sound (s : State n) (a : Action n) : Prop where
  take : ∀ q ∈ s.taken a, s.Keeps q
  give : ∀ q ∈ s.given a, s.Shows q
  read : s.overlooks a = true → s.core.Visible 0

instance (s : State n) (a : Action n) : Decidable (Sound s a) :=
  decidable_of_iff
    ((∀ q ∈ s.taken a, s.Keeps q) ∧ (∀ q ∈ s.given a, s.Shows q)
      ∧ (s.overlooks a = true → s.core.Visible 0))
    ⟨fun ⟨h₁, h₂, h₃⟩ => ⟨h₁, h₂, h₃⟩, fun h => ⟨h.take, h.give, h.read⟩⟩

-- No submit is issued from outside the workers after `stop` was called
def NoLateSubmit (s : State n) : Action n → Bool
  | .submit (.client _) _ => !s.stop
  | _ => true

-- What `stopping` has found so far is still so, or there is an entry for it to see
def State.Found (s : State n) (pc : StoppingPc) (k : Nat) : Prop :=
  s.core.Clear k ∧ (pc = .pending ∨ s.pendingEventCount = 0) ∨ s.core.Visible k

structure State.Scanned (s : State n) : Prop where
  stop : ∀ th pc, s.frame th = some (.stopping pc) → pc ≠ .stop → pc ≠ .ret false → s.stop = true
  found : ∀ th pc k, s.frame th = some (.stopping pc) → pc.rest n = some k → s.Found pc k

theorem mem_callers (hc : s.Calls) (hth : s.frame th = some (.stopping pc)) : th ∈ callers n := by
  cases th with
  | worker i => simp [callers]
  | client k => exact absurd hth (hc.client k pc)
  | stopper => simp [callers]

-- What a read of `stopping` finds, and where it leads
inductive Read (s : State n) : StoppingPc → StoppingPc → Prop where
  | no (pc : StoppingPc) : Read s pc (.ret false)
  | stop (h : s.stop = true) : Read s .stop .active
  | active (h : s.core.activeThreadCount = 0) : Read s .active .pending
  | pending (h : s.pendingEventCount = 0) : Read s .pending (.queue 0)
  | queue (k : Nat) (hk : k < n) (h : s.core.tasks ⟨k, hk⟩ = []) : Read s (.queue k) (.queue (k + 1))
  | ret (k : Nat) (hk : ¬k < n) : Read s (.queue k) (.ret true)

theorem Read.of_stoppingRead (h : s.stoppingRead pc = some pc') : Read s pc pc' := by
  cases pc with
  | stop =>
    cases hstop : s.stop with
    | true => simp [State.stoppingRead, hstop] at h; subst h; exact .stop hstop
    | false => simp [State.stoppingRead, hstop] at h; subst h; exact .no _
  | active =>
    by_cases hactive : s.core.activeThreadCount = 0
    . simp [State.stoppingRead, hactive] at h; subst h; exact .active hactive
    . simp [State.stoppingRead, hactive] at h; subst h; exact .no _
  | pending =>
    by_cases hpending : s.pendingEventCount = 0
    . simp [State.stoppingRead, hpending] at h; subst h; exact .pending hpending
    . simp [State.stoppingRead, hpending] at h; subst h; exact .no _
  | queue k =>
    by_cases hk : k < n
    . by_cases htasks : s.core.tasks ⟨k, hk⟩ = []
      . simp [State.stoppingRead, hk, htasks] at h; subst h; exact .queue k hk htasks
      . simp [State.stoppingRead, hk, htasks] at h; subst h; exact .no _
    . simp [State.stoppingRead, hk] at h; subst h; exact .ret k hk
  | ret b => simp [State.stoppingRead] at h

theorem frame_step (hs : Step kind s act t) (hth : t.frame th = some (.stopping pc))
    : s.frame th = some (.stopping pc)
        ∨
      pc = .stop
        ∨
      ∃ pc', act = .stopping th ∧ s.frame th = some (.stopping pc') ∧ Read s pc' pc
        ∧ t.core = s.core ∧ t.stop = s.stop ∧ t.pendingEventCount = s.pendingEventCount := by
  cases hs with
  | stopping th' pc₁ pc₂ hframe hread =>
    have := Read.of_stoppingRead hread
    grind [Function.update_apply]
  | _ => grind [Function.update_apply]

-- `stop_` stays set
theorem stays_stop (hs : Step kind s act t) (h : s.stop = true) : t.stop = true := by
  cases hs <;> first | exact h | rfl

theorem stop_step (h : s.Scanned) (hs : Step kind s act t)
    : ∀ th pc, t.frame th = some (.stopping pc) → pc ≠ .stop → pc ≠ .ret false →
        t.stop = true := by
  intro th pc hth hstop hret
  rcases frame_step hs hth with hbefore | hpc | ⟨pc', _, hframe, hread, _, hstops, _⟩
  . exact stays_stop hs (h.stop th pc hbefore hstop hret)
  . exact absurd hpc hstop
  . rw [hstops]
    cases hread with
    | no => exact absurd rfl hret
    | stop hset => exact hset
    | active => exact h.stop th _ hframe (by simp) (by simp)
    | pending => exact h.stop th _ hframe (by simp) (by simp)
    | queue => exact h.stop th _ hframe (by simp) (by simp)
    | ret => exact h.stop th _ hframe (by simp) (by simp)

theorem running_busy {pc : Run.Pc} (h : pc.inFiber = true) : pc.busy = true := by
  cases pc <;> simp_all [Run.Pc.inFiber, Run.Pc.busy, Run.Pc.isCounted]

theorem submitAction_takes (c : Run.State n) (idx : Fin n) (fiber : Option FiberId)
    : c.takes (submitAction idx fiber) = none := by
  cases fiber <;> rfl

theorem visible_submit (idx : Fin n) (fiber : Option FiberId)
    (hcore : Run.step s.core (submitAction idx fiber) = some core) (h : k ≤ idx.val ∨ s.core.Visible k)
    : core.Visible k := by
  have hstep := Run.Step.of_step hcore
  cases h with
  | inl hk =>
    refine ⟨idx, hk, ?_⟩
    cases fiber with
    | none => cases hstep; simp
    | some f => cases hstep; simp
  | inr hvisible => exact Run.visible_keeps hstep (submitAction_takes s.core idx fiber) hvisible

theorem onRun_submits (h : Action.onRun act = some (i, a)) : a.submits = false := by
  cases act <;> simp_all [Action.onRun] <;> rcases h with ⟨_, rfl⟩ <;> rfl

theorem onRun_keeps (hact : act.onRun = some (i, a)) (hok : Sound s act)
    : ∀ q ∈ s.core.takes a, s.Keeps q := by
  cases act <;> simp only [Action.onRun, reduceCtorEq, Option.some.injEq, Prod.mk.injEq] at hact
    <;> rcases hact with ⟨_, rfl⟩ <;> exact hok.take

theorem keeps_spares (hc : s.Calls) (h : s.Keeps q) (hth : s.frame th = some (.stopping pc))
    (hk : pc.rest n = some k)
    : s.core.Spares q k := by
  apply h th (mem_callers hc hth) k
  simp [State.scan, hth, hk]

theorem visible_step (hc : s.Calls) (hs : Step kind s act t) (hok : Sound s act)
    (hth : s.frame th = some (.stopping pc)) (hk : pc.rest n = some k) (h : s.core.Visible k)
    : t.core.Visible k := by
  cases hs with
  | run act i a core hact hframe hcore =>
    apply Run.visible_step (Run.Step.of_step hcore) _ h
    intro q hq
    exact keeps_spares hc (onRun_keeps hact hok q hq) hth hk
  | create core hcore => exact Run.visible_keeps (Run.Step.of_step hcore) rfl h
  | pushEmpty th' idx fiber core hframe hempty hcore => exact visible_submit idx fiber hcore (.inr h)
  | push th' idx fiber core hframe hne hcore => exact visible_submit idx fiber hcore (.inr h)
  | wake i f core huser hcore => exact Run.visible_keeps (Run.Step.of_step hcore) rfl h
  | deliver i wakeup core hpc hcore => exact Run.visible_keeps (Run.Step.of_step hcore) rfl h
  | idleReturn i term core hpc hcore => exact Run.visible_keeps (Run.Step.of_step hcore) rfl h
  | _ => exact h

-- Where workers have nothing in hand an entry comes from outside, and `Sound` says where to
theorem push_shown (hc : s.Calls) (hok : Sound s (.push th'))
    (hframe : s.frame th' = some (.push idx fiber)) (hrest : ∀ i, (s.core.worker i).busy = false)
    : s.Shows idx := by
  cases th' with
  | worker i =>
    have := running_busy (hc.submit i _ hframe rfl)
    simp [hrest i] at this
  | client k' =>
    apply hok.give
    simp [State.given, hframe]
  | stopper => exact absurd hframe (hc.stopper idx fiber)

theorem clear_step (hc : s.Calls) (hs : Step kind s act t) (hok : Sound s act)
    (hth : s.frame th = some (.stopping pc)) (hk : pc.rest n = some k) (h : s.core.Clear k)
    : t.core.Clear k ∧ t.pendingEventCount = s.pendingEventCount ∨ t.core.Visible k := by
  have hscan : k ∈ s.scan th := by simp [State.scan, hth, hk]
  have hcaller := mem_callers hc hth
  cases hs with
  | run act i a core hact hframe hcore =>
    have := Run.clear_step (Run.Step.of_step hcore) (onRun_submits hact) (by
      intro q hq
      exact keeps_spares hc (onRun_keeps hact hok q hq) hth hk) h
    simpa using this
  | create core hcore =>
    have := Run.clear_step (Run.Step.of_step hcore) rfl (by simp [Run.State.takes]) h
    simpa using this
  | pushEmpty th' idx fiber core hframe hempty hcore =>
    right
    exact visible_submit idx fiber hcore ((push_shown hc hok hframe h.worker).right th hcaller k hscan)
  | push th' idx fiber core hframe hne hcore =>
    right
    exact visible_submit idx fiber hcore ((push_shown hc hok hframe h.worker).right th hcaller k hscan)
  | wake i f core huser hcore =>
    have := running_busy (user_running huser)
    simp [h.worker i] at this
  | deliver i wakeup core hpc hcore =>
    right
    apply visible_submit i none hcore
    exact (hok.give i rfl).right th hcaller k hscan
  | setPending i count huser =>
    have := running_busy (user_running huser)
    simp [h.worker i] at this
  | idleReturn i term core hpc hcore =>
    have := Run.clear_step (Run.Step.of_step hcore) rfl (by simp [Run.State.takes]) h
    simpa using this
  | _ => exact .inl ⟨h, rfl⟩

theorem found_step (hc : s.Calls) (hs : Step kind s act t) (hok : Sound s act)
    (hth : s.frame th = some (.stopping pc)) (hk : pc.rest n = some k) (h : s.Found pc k)
    : t.Found pc k := by
  cases h with
  | inl hclear =>
    cases clear_step hc hs hok hth hk hclear.left with
    | inl hafter =>
      left
      rw [hafter.right]
      exact ⟨hafter.left, hclear.right⟩
    | inr hvisible => exact .inr hvisible
  | inr hvisible => exact .inr (visible_step hc hs hok hth hk hvisible)

-- When no worker is found active
theorem found_active (hok : Sound s (.stopping th)) (hth : s.frame th = some (.stopping .active))
    (hzero : s.core.activeThreadCount = 0)
    : s.Found .pending 0 := by
  by_cases hbusy : ∃ i, (s.core.worker i).busy = true
  . right
    apply hok.read
    simp [State.overlooks, hth, hzero, hbusy]
  . left
    refine ⟨⟨?_, ?_⟩, .inl rfl⟩
    . intro i
      rw [← Bool.not_eq_true]
      intro hi
      exact hbusy ⟨i, hi⟩
    . intro q hq
      omega

theorem found_read (h : s.Scanned) (hok : Sound s (.stopping th))
    (hth : s.frame th = some (.stopping pc)) (hread : Read s pc pc') (hk : pc'.rest n = some k)
    : s.Found pc' k := by
  cases hread with
  | no => cases hk
  | stop => cases hk
  | active hzero =>
    cases hk
    exact found_active hok hth hzero
  | pending hzero =>
    cases hk
    cases h.found th _ 0 hth rfl with
    | inl hclear => exact .inl ⟨hclear.left, .inr hzero⟩
    | inr hvisible => exact .inr hvisible
  | queue j hj htasks =>
    cases hk
    cases h.found th _ j hth rfl with
    | inl hclear =>
      left
      refine ⟨Run.clear_queue hj htasks hclear.left, ?_⟩
      simpa using hclear.right
    | inr hvisible => exact .inr (Run.visible_queue hj htasks hvisible)
  | ret j hj =>
    cases hk
    cases h.found th _ j hth rfl with
    | inl hclear =>
      left
      refine ⟨⟨hclear.left.worker, ?_⟩, by simpa using hclear.right⟩
      intro q hq
      apply hclear.left.tasks
      omega
    | inr hvisible => exact absurd hvisible (Run.not_visible hj)

theorem scanned_step (hc : s.Calls) (h : s.Scanned) (hs : Step kind s act t)
    (hok : Sound s act)
    : t.Scanned where
  stop := stop_step h hs
  found := by
    intro th pc k hth hk
    rcases frame_step hs hth with hbefore | hpc | ⟨pc', hact, hframe, hread, hcore, _, hpending⟩
    . exact found_step hc hs hok hbefore hk (h.found th pc k hbefore hk)
    . simp [hpc, StoppingPc.rest] at hk
    . subst hact
      have := found_read h hok hframe hread hk
      unfold State.Found at this ⊢
      rw [hcore, hpending]
      exact this

theorem reachable_scanned (h : (machine kind n).Reach Sound s) : s.Scanned := by
  apply h.invariant_with (J := State.Calls)
  . intro s hs
    exact reachable_calls hs
  . intro s hs
    rw [hs]
    constructor <;> simp [State.start]
  . intro s a t hc hs hok hat
    exact scanned_step hc hs (Step.of_step hat) hok

theorem quiescent_core (h : s.Quiescent) (hcore : Run.step s.core a = some core)
    (hsubmits : a.submits = false)
    : { s with core }.Quiescent := by
  rcases Run.rest_step (Run.Step.of_step hcore) h.worker hsubmits (Run.takes_empty h.tasks)
    with ⟨hworker, htasks, hactive⟩
  refine ⟨h.stop, ?_, h.pending, ?_, hworker⟩
  . rw [hactive]
    exact h.active
  . rw [htasks]
    exact h.tasks

theorem State.Quiescent.same (h : s.Quiescent) (hcore : t.core = s.core) (hstop : t.stop = true)
    (hpending : t.pendingEventCount = s.pendingEventCount)
    : t.Quiescent := by
  constructor
  . exact hstop
  . rw [hcore]
    exact h.active
  . rw [hpending]
    exact h.pending
  . rw [hcore]
    exact h.tasks
  . rw [hcore]
    exact h.worker

-- What is finished stays finished
theorem quiescent_step (hc : s.Calls) (h : s.Quiescent) (hs : Step kind s act t)
    (hok : Sound s act)
    : t.Quiescent := by
  cases hs with
  | run act i a core hact hframe hcore => exact quiescent_core h hcore (onRun_submits hact)
  | create core hcore => exact quiescent_core h hcore rfl
  | pushEmpty th idx fiber core hframe hempty hcore =>
    exact absurd h (push_shown hc hok hframe h.worker).left
  | push th idx fiber core hframe hne hcore =>
    exact absurd h (push_shown hc hok hframe h.worker).left
  | wake i f core huser hcore =>
    have := running_busy (user_running huser)
    simp [h.worker i] at this
  | deliver i wakeup core hpc hcore => exact absurd h (hok.give i rfl).left
  | setPending i count huser =>
    have := running_busy (user_running huser)
    simp [h.worker i] at this
  | idleReturn i term core hpc hcore => exact (quiescent_core h hcore rfl).same rfl h.stop rfl
  | stop => exact h.same rfl rfl rfl
  | _ => exact h.same rfl h.stop rfl

-- `stopping` finds out that everything is finished, and nothing else than that from then on
theorem quiescent_of_ret (hscan : s.Scanned)
    (hactive : s.core.activeThreadCount = Run.counted s.core.worker)
    (h : s.frame th = some (.stopping (.ret true)))
    : s.Quiescent := by
  have hstop := hscan.stop th _ h (by simp) (by simp)
  cases hscan.found th _ n h rfl with
  | inl hclear =>
    refine ⟨hstop, ?_, by simpa using hclear.right, ?_, hclear.left.worker⟩
    . rw [hactive]
      exact Run.active_zero hclear.left.worker
    . intro q
      exact hclear.left.tasks q q.isLt
  | inr hvisible => exact absurd hvisible (Run.not_visible (Nat.lt_irrefl n))

theorem stoppingRead_quiescent (h : s.Quiescent) (pc : StoppingPc)
    : s.stoppingRead pc ≠ some (.ret false) := by
  cases pc with
  | stop => simp [State.stoppingRead, h.stop]
  | active => simp [State.stoppingRead, h.active]
  | pending => simp [State.stoppingRead, h.pending]
  | queue k =>
    simp only [State.stoppingRead, h.tasks]
    split <;> simp
  | ret b => simp [State.stoppingRead]

/--
In a run whose every step is `Sound`, where a call of `stopping` comes to true nothing submitted is
unfinished, and in every later state of such a run that is so and no read of `stopping` leads to
false.
-/
theorem stopping_sound (h : (machine kind n).Reach Sound s)
    (hret : s.frame th = some (.stopping (.ret true)))
    : s.Quiescent
        ∧
      ∀ r, (machine kind n).Steps Sound s r →
        r.Quiescent ∧ ∀ pc, r.stoppingRead pc ≠ some (.ret false) := by
  have hs : s.Quiescent := by
    apply quiescent_of_ret (reachable_scanned h) _ hret
    exact Run.reachable_active (reachable_core h)
  refine ⟨hs, ?_⟩
  intro r hr
  have : r.Calls ∧ r.Quiescent := by
    apply hr.keeps (I := fun s => s.Calls ∧ s.Quiescent) ⟨reachable_calls h, hs⟩
    intro s a t hI hok hat
    have hstep := Step.of_step hat
    exact ⟨calls_step hI.left hstep, quiescent_step hI.left hI.right hstep hok⟩
  exact ⟨this.right, stoppingRead_quiescent this.right⟩

-- One callback is submitted, runs, and is over before `stop` looks
def submittedEarly : List (Action 1) :=
  ([.submit (.client 0) none, .push (.client 0), .tickle (.client 0), .pop 0, .count 0,
    .tryLock 0, .resume 0, .stop, .stop, .tickle .stopper, .stop, .finish 0, .checkState 0,
    .unlock 0, .uncount 0, .stop] : List (Action 1))
    ++ (List.replicate 5 (.stopping .stopper) : List (Action 1))

theorem stopping_sound_submittedEarly
    : ∃ s,
        (machine .scheduler 1).exec (State.start 1) submittedEarly = some s
          ∧
        s.core.finished = [0]
          ∧
        s.Quiescent
          ∧
        ∀ r, (machine .scheduler 1).Steps Sound s r →
          r.Quiescent ∧ ∀ pc, r.stoppingRead pc ≠ some (.ret false) := by
  have h : ((machine .scheduler 1).exec (State.start 1) submittedEarly).any (fun s =>
      s.frame .stopper = some (.stopping (.ret true)) ∧ s.core.finished = [0]) = true := by
    decide +kernel
  simp only [Option.any_eq_true, decide_eq_true_eq] at h
  rcases h with ⟨s, hexec, hret, hfinished⟩
  refine ⟨s, hexec, hfinished, ?_⟩
  apply stopping_sound _ hret
  apply Machine.Reach.of_exec _ rfl hexec
  decide +kernel

-- A worker has taken the only callback out of its queue and does not count as active yet
def takenUncounted : List (Action 1) :=
  ([.submit (.client 0) none, .push (.client 0), .tickle (.client 0), .pop 0, .stop, .stop,
    .tickle .stopper, .stop, .stop] : List (Action 1))
    ++ (List.replicate 5 (.stopping .stopper) : List (Action 1))

theorem not_stopping_sound
    : ¬∀ (n : Nat) (s : State n) (th : Thread n),
        (machine .scheduler n).Reach (fun s a => NoLateSubmit s a = true) s →
        s.frame th = some (.stopping (.ret true)) →
        (∀ q, s.core.tasks q = []) ∧ ∀ i, (s.core.worker i).busy = false := by
  intro h
  have hexec : ((machine .scheduler 1).exec (State.start 1) takenUncounted).any (fun s =>
      s.frame .stopper = some (.stopping (.ret true)) ∧ (s.core.worker 0).busy = true) = true := by
    decide +kernel
  simp only [Option.any_eq_true, decide_eq_true_eq] at hexec
  rcases hexec with ⟨s, hexec, hret, hbusy⟩
  have hreach : (machine .scheduler 1).Reach (fun s a => NoLateSubmit s a = true) s := by
    apply Machine.Reach.of_exec _ rfl hexec
    decide +kernel
  have := (h 1 s .stopper hreach hret).right 0
  simp [hbusy] at this

end Scheduler
end Koro
