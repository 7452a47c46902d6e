import Koro.Data.RefCount
import Koro.Machine.Tally
import Koro.Scheduler.Calls
import Koro.Scheduler.Exclusive

/-!
This module contains who refers to a fiber while `Scheduler::run` passes it around, and when the last
`shared_ptr` to it goes, which destroys the fiber and frees its stack.

`task i` and `fiberWrapper i` are the variables of worker `i` in `run`. The `task` is declared outside of
the loop: it stays what it was until the worker pops an entry or comes back from `stealTask`. The
`fiber_wrapper` goes at the end of its block. A reference to a `ScheduledTask` is counted as one to the
fiber of it. `mainFunc` has a reference in its `running_fiber`, from the first `resume` until it has
called `cb_`. All others are in `outer`: those of who calls `submit`, those that the code run by a fiber
keeps, and what `lock` makes of the `weak_ptr` in the callbacks of `do_io`.
-/

namespace Koro
namespace References

open Function (update)

structure State (n : Nat) where
  core : Run.State n
  task : Fin n → Option ScheduledTask
  fiberWrapper : Fin n → Option FiberId
  outer : FiberId → Nat
  counts : RefCounts FiberId

def State.start (n : Nat) : State n where
  core := Run.State.start n
  task := fun _ => none
  fiberWrapper := fun _ => none
  outer := fun _ => 0
  counts := .empty

namespace State

variable {n : Nat}

def copyTask (s : State n) (task : Option ScheduledTask) : State n :=
  match task with
  | some (.fiber f) => { s with counts := s.counts.share f }
  | _ => s

def dropTask (s : State n) (task : Option ScheduledTask) : State n :=
  match task with
  | some (.fiber f) => { s with counts := s.counts.release f }
  | _ => s

-- The reference is moved into `task`, which gives up the one it had
def assignTask (s : State n) (i : Fin n) (task : Option ScheduledTask) : State n :=
  { s with task := update s.task i task }.dropTask (s.task i)

-- What a step of `run` does to the references, where `core` is what `Run.machine` has come to
def after (s : State n) (core : Run.State n) : Run.Action n → State n
  | .create =>
    { s with
      core
      outer := update s.outer s.core.fibers (s.outer s.core.fibers + 1)
      counts := s.counts.make s.core.fibers
    }
  | .submitFiber _ f => { s with core }.copyTask (some (.fiber f))
  | .pop i =>
    match core.worker i with
    | .popped task => { s with core }.assignTask i (some task)
    | _ => { s with core }
  | .steal i _ =>
    match core.worker i with
    | .popped task => { s with core }.assignTask i (some task)
    | .noTask => { s with core }.assignTask i none
    | _ => { s with core }
  | .tryLock i =>
    match s.core.worker i with
    | .counted (.cb _) =>
      { s with
        core
        fiberWrapper := update s.fiberWrapper i (some s.core.fibers)
        counts := s.counts.make s.core.fibers
      }
    | _ => { s with core }
  | .putBack i => { s with core }.copyTask (s.task i)
  | .resume i =>
    match core.worker i with
    | .running f _ =>
      if (s.core.fiber f).started then
        { s with core }
      else
        { s with core, counts := s.counts.share f }
    | _ => { s with core }
  | .finish i =>
    match s.core.worker i with
    | .running f _ => { s with core, counts := s.counts.release f }
    | _ => { s with core }
  | .requeue i =>
    match s.fiberWrapper i with
    | some f => { s with core, counts := s.counts.share f }
    | none => { s with core }.copyTask (s.task i)
  | _ => { s with core }

-- The caller of `submit` refers to the fiber, and `fiber_wrapper` is gone before the count of active
-- threads is lowered
def ready (s : State n) : Run.Action n → Bool
  | .submitFiber _ f => s.outer f ≠ 0
  | .uncount i => (s.fiberWrapper i).isNone
  | _ => true

def run (s : State n) (a : Run.Action n) : Option (State n) :=
  if s.ready a then
    (Run.step s.core a).map fun core => s.after core a
  else
    none

def endBlock (s : State n) (i : Fin n) : Option (State n) :=
  match s.core.worker i, s.fiberWrapper i with
  | .uncount, some f =>
    some { s with
      fiberWrapper := update s.fiberWrapper i none
      counts := s.counts.release f
    }
  | _, _ => none

-- A copy of a `shared_ptr`, `runningFiber`, or `lock` of a `weak_ptr`: it finds nothing in one to a fiber
-- that has been destroyed
def lock (s : State n) (f : FiberId) : Option (State n) :=
  if s.counts.strong f = 0 then
    some s
  else
    some { s with
      outer := update s.outer f (s.outer f + 1)
      counts := s.counts.share f
    }

def drop (s : State n) (f : FiberId) : Option (State n) :=
  if s.outer f ≠ 0 then
    some { s with
      outer := update s.outer f (s.outer f - 1)
      counts := s.counts.release f
    }
  else
    none

end State

inductive Action (n : Nat) where
  | run (a : Run.Action n)
  | endBlock (i : Fin n)
  | lock (f : FiberId)
  | drop (f : FiberId)
  deriving DecidableEq, Repr

variable {n : Nat} {s t : State n} {i : Fin n} {f : FiberId}

def step (s : State n) : Action n → Option (State n)
  | .run a => s.run a
  | .endBlock i => s.endBlock i
  | .lock f => s.lock f
  | .drop f => s.drop f

def machine (n : Nat) : Machine (State n) (Action n) where
  init s := s = State.start n
  step := step

-- Between its first `resume` and the end of `cb_`
def begun (fb : Fiber) : Bool :=
  fb.started && fb.state ≠ .kTerm

def ofTask (f : FiberId) (task : Option ScheduledTask) : Nat :=
  if task = some (.fiber f) then 1 else 0

def ofWrapper (f : FiberId) (wrapper : Option FiberId) : Nat :=
  if wrapper = some f then 1 else 0

-- The references there are to a fiber
def State.refs (s : State n) (f : FiberId) : Nat :=
  ∑ q, (s.core.tasks q).count (.fiber f) + ∑ i, ofTask f (s.task i)
    + ∑ i, ofWrapper f (s.fiberWrapper i) + (begun (s.core.fiber f)).toNat + s.outer f

/--
A fiber is destroyed when nobody refers to it any more, and once only. None of those is destroyed that an
entry of a queue or a worker names, on whose stack a worker executes, or whose function has begun and not
ended: to lock a `weak_ptr` to such a fiber finds it.
-/
structure Alive (s : State n) : Prop where
  counted : ∀ f, s.counts.strong f = s.refs f
  freed : ∀ f, f ∈ s.counts.freed ↔ f < s.core.fibers ∧ s.refs f = 0
  once : s.counts.freed.Nodup
  queued : ∀ q f, .fiber f ∈ s.core.tasks q → f ∉ s.counts.freed
  named : ∀ i f, (s.core.worker i).named = some f → f ∉ s.counts.freed
  begun : ∀ f, begun (s.core.fiber f) = true → f ∉ s.counts.freed ∧ s.counts.strong f ≠ 0

-- What the variables of a worker hold at its place in `run`
def Locals (task : Option ScheduledTask) (wrapper : Option FiberId) : Run.Pc → Prop
  | .popped t => task = some t ∧ wrapper = none
  | .counted t => task = some t ∧ wrapper = none
  | .lockFailed f => task = some (.fiber f) ∧ wrapper = none
  | .locked f => task = some (.fiber f) ∧ wrapper = none
  | .resuming f wraps => if wraps then wrapper = some f else task = some (.fiber f) ∧ wrapper = none
  | .running f wraps => if wraps then wrapper = some f else task = some (.fiber f) ∧ wrapper = none
  | .resumed f wraps => if wraps then wrapper = some f else task = some (.fiber f) ∧ wrapper = none
  | .requeue f => wrapper = some f ∨ task = some (.fiber f) ∧ wrapper = none
  | .unlocking f => wrapper = some f ∨ task = some (.fiber f) ∧ wrapper = none
  | .uncount => True
  | .aborted => True
  | _ => wrapper = none

def State.Counted (s : State n) : Prop :=
  s.counts.Exact (fun f => f < s.core.fibers) s.refs

structure Consistent (s : State n) : Prop where
  exact : s.Counted
  locals : ∀ i, Locals (s.task i) (s.fiberWrapper i) (s.core.worker i)
  started : ∀ f, (s.core.fiber f).state = .kRunning → (s.core.fiber f).started = true

open RefCounts (one)

theorem ofTask_fiber (f g : FiberId) : ofTask g (some (.fiber f)) = one f g := by
  simp [ofTask, one, eq_comm]

@[simp]
theorem ofTask_none (g : FiberId) : ofTask g none = 0 :=
  rfl

@[simp]
theorem ofTask_cb (c : CallbackId) (g : FiberId) : ofTask g (some (.cb c)) = 0 := by
  simp [ofTask]

theorem ofWrapper_some (f g : FiberId) : ofWrapper g (some f) = one f g := by
  simp [ofWrapper, one, eq_comm]

@[simp]
theorem ofWrapper_none (g : FiberId) : ofWrapper g none = 0 :=
  rfl

theorem count_cons (l : List ScheduledTask) (task : ScheduledTask) (g : FiberId)
    : (task :: l).count (.fiber g) = l.count (.fiber g) + ofTask g (some task) := by
  simp [List.count_cons, ofTask]

theorem count_push (l : List ScheduledTask) (task : ScheduledTask) (g : FiberId)
    : (l ++ [task]).count (.fiber g) = l.count (.fiber g) + ofTask g (some task) := by
  simp [List.count_append, List.count_singleton, ofTask]

theorem begun_update {fiber : FiberId → Fiber} {fb : Fiber} (h : begun fb = begun (fiber f)) (g : FiberId)
    : begun (update fiber f fb g) = begun (fiber g) := by
  by_cases hg : g = f
  . rw [hg, Function.update_self, h]
  . rw [Function.update_of_ne hg]

theorem begun_new (cb : Option CallbackId) (execute : Bool)
    : begun { Fiber.new cb with execute } = false :=
  rfl

theorem copyTask_eq (s : State n) (task : Option ScheduledTask)
    : s.copyTask task = { s with counts := (s.copyTask task).counts } := by
  unfold State.copyTask
  split <;> rfl

theorem dropTask_eq (s : State n) (task : Option ScheduledTask)
    : s.dropTask task = { s with counts := (s.dropTask task).counts } := by
  unfold State.dropTask
  split <;> rfl

theorem assignTask_eq (s : State n) (i : Fin n) (task : Option ScheduledTask)
    : s.assignTask i task
        =
      { s with task := update s.task i task, counts := (s.assignTask i task).counts } := by
  unfold State.assignTask
  rw [dropTask_eq]

section Fields

variable (s : State n) (i : Fin n) (task : Option ScheduledTask)

@[simp]
theorem core_copyTask : (s.copyTask task).core = s.core := by
  rw [copyTask_eq]

@[simp]
theorem core_assignTask : (s.assignTask i task).core = s.core := by
  rw [assignTask_eq]

@[simp]
theorem task_copyTask : (s.copyTask task).task = s.task := by
  rw [copyTask_eq]

@[simp]
theorem task_assignTask : (s.assignTask i task).task = update s.task i task := by
  rw [assignTask_eq]

@[simp]
theorem fiberWrapper_copyTask : (s.copyTask task).fiberWrapper = s.fiberWrapper := by
  rw [copyTask_eq]

@[simp]
theorem fiberWrapper_assignTask : (s.assignTask i task).fiberWrapper = s.fiberWrapper := by
  rw [assignTask_eq]

@[simp]
theorem outer_copyTask : (s.copyTask task).outer = s.outer := by
  rw [copyTask_eq]

@[simp]
theorem outer_assignTask : (s.assignTask i task).outer = s.outer := by
  rw [assignTask_eq]

end Fields

section Exact

variable {made : FiberId → Prop} {refs refs' : FiberId → Nat} {task : Option ScheduledTask}

theorem exact_copyTask (h : s.counts.Exact made refs) (hk : ∀ f, task = some (.fiber f) → refs f ≠ 0)
    (hrefs : ∀ g, refs' g = refs g + ofTask g task)
    : (s.copyTask task).counts.Exact made refs' := by
  unfold State.copyTask
  split
  . next f =>
    apply h.share (hk f rfl)
    intro g
    rw [hrefs, ofTask_fiber]
  . next hcb =>
    apply h.stay
    intro g
    rw [hrefs, ofTask, if_neg (hcb g)]
    rfl

theorem exact_dropTask (h : s.counts.Exact made refs) (hrefs : ∀ g, refs' g + ofTask g task = refs g)
    : (s.dropTask task).counts.Exact made refs' := by
  unfold State.dropTask
  split
  . next f =>
    apply h.release
    intro g
    rw [← hrefs, ofTask_fiber]
  . next hcb =>
    apply h.stay
    intro g
    rw [← hrefs, ofTask, if_neg (hcb g)]
    rfl

end Exact

theorem consistent_start : Consistent (State.start n) where
  exact := by
    apply RefCounts.exact_empty
    . intro f
      exact Nat.not_lt_zero f
    . intro f
      simp [State.refs, State.start, Run.State.start, begun, Fiber.new]
  locals := fun _ => rfl
  started := by simp [State.start, Run.State.start, Fiber.new]

variable {a : Run.Action n} {core : Run.State n}

@[simp]
theorem core_after : (s.after core a).core = core := by
  unfold State.after
  repeat' split
  all_goals simp

theorem vars_other (ha : a.actor ≠ some i)
    : (s.after core a).task i = s.task i ∧ (s.after core a).fiberWrapper i = s.fiberWrapper i := by
  have hne : ∀ j, a.actor = some j → i ≠ j := by
    intro j hj hij
    exact ha (hij ▸ hj)
  constructor
  all_goals
    unfold State.after
    repeat' split
    all_goals first
      | exact Function.update_of_ne (hne _ rfl) ..
      | rw [task_assignTask]; exact Function.update_of_ne (hne _ rfl) ..
      | simp only [task_copyTask, fiberWrapper_copyTask, fiberWrapper_assignTask]

theorem locals_run (h : ∀ i, Locals (s.task i) (s.fiberWrapper i) (s.core.worker i))
    (hready : s.ready a = true) (hs : Run.Step s.core a core) (i : Fin n)
    : Locals ((s.after core a).task i) ((s.after core a).fiberWrapper i) (core.worker i) := by
  have hi := h i
  clear h
  by_cases ha : a.actor = some i
  . cases hs with
    | create | submit | submitFiber => cases ha
    | resume j f wrapper hj hf =>
      cases ha
      rw [hj] at hi
      simp only [State.after, Function.update_self]
      split <;> exact hi
    | checkReady j f wrapper hj hf | checkOther j f wrapper hj hf =>
      cases ha
      rw [hj] at hi
      simp only [State.after, Function.update_self, Locals] at hi ⊢
      cases wrapper with
      | true => exact .inl hi
      | false => exact .inr hi
    | requeue j f hj =>
      cases ha
      rw [hj] at hi
      simp only [State.after, Function.update_self]
      split
      . exact hi
      . rw [task_copyTask, fiberWrapper_copyTask]
        exact hi
    | uncount j hj =>
      cases ha
      simpa [State.after, Locals, State.ready] using hready
    | _ =>
      cases ha
      simp_all [State.after, Locals]
  . rw [(vars_other ha).left, (vars_other ha).right, Run.worker_other hs ha]
    exact hi

theorem locals_named {pc : Run.Pc} {task : Option ScheduledTask} {wrapper : Option FiberId}
    (h : Locals task wrapper pc) (hpc : pc.named = some f)
    : task = some (.fiber f) ∨ wrapper = some f := by
  cases pc with
  | popped t | counted t =>
    cases t with
    | fiber g =>
      cases hpc
      exact .inl h.left
    | cb c => cases hpc
  | lockFailed g | locked g =>
    cases hpc
    exact .inl h.left
  | resuming g wraps | running g wraps | resumed g wraps =>
    cases hpc
    cases wraps with
    | true => exact .inr h
    | false => exact .inl h.left
  | requeue g | unlocking g =>
    cases hpc
    exact h.symm.imp And.left id
  | _ => cases hpc

theorem refs_task (h : s.task i = some (.fiber f)) : s.refs f ≠ 0 := by
  have := Tally.le_sum (w := fun j => ofTask f (s.task j)) (Finset.mem_univ i)
  simp only [h, ofTask_fiber, RefCounts.one_self] at this
  unfold State.refs
  omega

theorem refs_wrapper (h : s.fiberWrapper i = some f) : s.refs f ≠ 0 := by
  have := Tally.le_sum (w := fun j => ofWrapper f (s.fiberWrapper j)) (Finset.mem_univ i)
  simp only [h, ofWrapper_some, RefCounts.one_self] at this
  unfold State.refs
  omega

theorem refs_queued {q : Fin n} (h : .fiber f ∈ s.core.tasks q) : s.refs f ≠ 0 := by
  have := Tally.le_sum (w := fun q => (s.core.tasks q).count (.fiber f)) (Finset.mem_univ q)
  have := List.count_pos_iff.mpr h
  unfold State.refs
  omega

theorem refs_begun (h : begun (s.core.fiber f) = true) : s.refs f ≠ 0 := by
  simp [State.refs, h]

theorem Consistent.refs_named (h : Consistent s) (hi : (s.core.worker i).named = some f)
    : s.refs f ≠ 0 := by
  rcases locals_named (h.locals i) hi with htask | hwrapper
  . exact refs_task htask
  . exact refs_wrapper hwrapper

theorem Consistent.alive (h : Consistent s) : Alive s where
  counted := h.exact.strong
  freed := h.exact.freed
  once := h.exact.once
  queued := fun _ _ hf => h.exact.not_freed (refs_queued hf)
  named := fun _ _ hf => h.exact.not_freed (h.refs_named hf)
  begun := by
    intro f hf
    rw [h.exact.strong]
    exact ⟨h.exact.not_freed (refs_begun hf), refs_begun hf⟩

theorem refs_outer (h : s.outer f ≠ 0) : s.refs f ≠ 0 := by
  unfold State.refs
  omega

theorem queued_update (tasks : Fin n → List ScheduledTask) (q : Fin n) (l : List ScheduledTask)
    (g : FiberId)
    : ∑ p, (update tasks q l p).count (.fiber g) + (tasks q).count (.fiber g)
        =
      ∑ p, (tasks p).count (.fiber g) + l.count (.fiber g) :=
  Tally.sum_update (fun l => l.count (.fiber g)) tasks q l

theorem counted_quiet (h : s.Counted) (hfibers : core.fibers = s.core.fibers)
    (htasks : core.tasks = s.core.tasks) (hbegun : ∀ g, begun (core.fiber g) = begun (s.core.fiber g))
    : State.Counted { s with core } := by
  unfold State.Counted
  rw [hfibers]
  apply h.stay
  intro g
  simp only [State.refs, htasks, hbegun]

-- An entry that is pushed refers to its fiber
theorem counted_push (h : s.Counted) {q : Fin n} (task : ScheduledTask)
    (hfibers : core.fibers = s.core.fibers)
    (htasks : core.tasks = update s.core.tasks q (s.core.tasks q ++ [task]))
    (hfiber : core.fiber = s.core.fiber) (hk : ∀ f, task = .fiber f → s.refs f ≠ 0)
    : State.Counted ({ s with core }.copyTask (some task)) := by
  have hrefs : ∀ g, ({ s with core }.copyTask (some task)).refs g = s.refs g + ofTask g (some task) := by
    intro g
    have := queued_update s.core.tasks q (s.core.tasks q ++ [task]) g
    rw [count_push] at this
    simp only [State.refs, core_copyTask, task_copyTask, fiberWrapper_copyTask, outer_copyTask, htasks,
      hfiber]
    omega
  unfold State.Counted
  rw [core_copyTask, hfibers]
  apply exact_copyTask (s := { s with core }) h _ hrefs
  intro f hf
  exact hk f (Option.some.inj hf)

-- An entry goes from a queue into the variable of a worker
theorem counted_take (h : s.Counted) {q : Fin n} {task : ScheduledTask} {rest : List ScheduledTask}
    (hfibers : core.fibers = s.core.fibers) (htasks : core.tasks = update s.core.tasks q rest)
    (hfiber : core.fiber = s.core.fiber)
    (hcount : ∀ g, (s.core.tasks q).count (.fiber g) = rest.count (.fiber g) + ofTask g (some task))
    : State.Counted ({ s with core }.assignTask i (some task)) := by
  have hrefs : ∀ g,
      ({ s with core }.assignTask i (some task)).refs g + ofTask g (s.task i) = s.refs g := by
    intro g
    have hqueued := queued_update s.core.tasks q rest g
    have htask := Tally.sum_update (ofTask g) s.task i (some task)
    rw [hcount] at hqueued
    simp only [State.refs, core_assignTask, task_assignTask, fiberWrapper_assignTask, outer_assignTask,
      htasks, hfiber]
    omega
  unfold State.Counted
  rw [core_assignTask, hfibers]
  exact exact_dropTask h hrefs

theorem counted_drop (h : s.Counted) (hfibers : core.fibers = s.core.fibers)
    (htasks : core.tasks = s.core.tasks) (hfiber : core.fiber = s.core.fiber)
    : State.Counted ({ s with core }.assignTask i none) := by
  have hrefs : ∀ g, ({ s with core }.assignTask i none).refs g + ofTask g (s.task i) = s.refs g := by
    intro g
    have htask := Tally.sum_update (ofTask g) s.task i none
    rw [ofTask_none] at htask
    simp only [State.refs, core_assignTask, task_assignTask, fiberWrapper_assignTask, outer_assignTask,
      htasks, hfiber]
    omega
  unfold State.Counted
  rw [core_assignTask, hfibers]
  exact exact_dropTask h hrefs

-- `mainFunc` of a fiber gets its reference
theorem counted_begin (h : s.Counted) {fb : Fiber} (hfibers : core.fibers = s.core.fibers)
    (htasks : core.tasks = s.core.tasks) (hfiber : core.fiber = update s.core.fiber f fb)
    (hfb : (begun fb).toNat = (begun (s.core.fiber f)).toNat + 1) (hk : s.refs f ≠ 0)
    : State.Counted { s with core, counts := s.counts.share f } := by
  unfold State.Counted
  rw [hfibers]
  apply h.share hk
  intro g
  simp only [State.refs, htasks, hfiber]
  by_cases hg : g = f
  . rw [hg, Function.update_self, hfb, RefCounts.one_self]
    omega
  . rw [Function.update_of_ne hg, RefCounts.one_of_ne hg]
    rfl

theorem counted_end (h : s.Counted) {fb : Fiber} (hfibers : core.fibers = s.core.fibers)
    (htasks : core.tasks = s.core.tasks) (hfiber : core.fiber = update s.core.fiber f fb)
    (hfb : (begun fb).toNat + 1 = (begun (s.core.fiber f)).toNat)
    : State.Counted { s with core, counts := s.counts.release f } := by
  unfold State.Counted
  rw [hfibers]
  apply h.release
  intro g
  simp only [State.refs, htasks, hfiber]
  by_cases hg : g = f
  . rw [hg, Function.update_self, RefCounts.one_self, ← hfb]
    omega
  . rw [Function.update_of_ne hg, RefCounts.one_of_ne hg]
    rfl

-- A fiber is made, with one reference to it
theorem counted_make (h : s.Counted) {wrapper : Fin n → Option FiberId} {outer : FiberId → Nat}
    {fb : Fiber} (hfibers : core.fibers = s.core.fibers + 1) (htasks : core.tasks = s.core.tasks)
    (hfiber : core.fiber = update s.core.fiber s.core.fibers fb) (hfb : begun fb = false)
    (hvars : ∀ g, ∑ i, ofWrapper g (wrapper i) + outer g
      = ∑ i, ofWrapper g (s.fiberWrapper i) + s.outer g + one s.core.fibers g)
    : State.Counted
        { s with core, fiberWrapper := wrapper, outer, counts := s.counts.make s.core.fibers } := by
  have hbegun : ∀ g, begun (core.fiber g) = begun (s.core.fiber g) := by
    have hnone : begun (s.core.fiber s.core.fibers) = false := by
      by_contra hne
      rw [Bool.not_eq_false] at hne
      exact absurd (h.known _ (refs_begun hne)) (Nat.lt_irrefl _)
    rw [hfiber]
    exact begun_update (hfb.trans hnone.symm)
  unfold State.Counted
  rw [hfibers]
  apply h.make (Nat.lt_irrefl _)
  . intro g
    exact Nat.lt_succ_iff_lt_or_eq
  . intro g
    have := hvars g
    simp only [State.refs, htasks, hbegun]
    omega

theorem counted_create (h : s.Counted) (hfibers : core.fibers = s.core.fibers + 1)
    (htasks : core.tasks = s.core.tasks)
    (hfiber : core.fiber = update s.core.fiber s.core.fibers (Fiber.new none))
    : (s.after core .create).Counted := by
  apply counted_make h hfibers htasks hfiber rfl
  intro g
  by_cases hg : g = s.core.fibers
  . rw [hg, Function.update_self, RefCounts.one_self]
    omega
  . rw [Function.update_of_ne hg, RefCounts.one_of_ne hg]
    omega

theorem counted_run (h : Consistent s) (hex : s.core.Exclusive) (hready : s.ready a = true)
    (hs : Run.Step s.core a core)
    : (s.after core a).Counted := by
  have hexact := h.exact
  cases hs with
  | create => exact counted_create hexact rfl rfl rfl
  | popNone | stealMiss | resumeFail =>
    simp only [State.after, Function.update_self]
    exact counted_quiet hexact rfl rfl fun _ => rfl
  | lock j f hj hf =>
    simp only [State.after, hj]
    exact counted_quiet hexact rfl rfl (begun_update rfl)
  | lockFail j f hj hf =>
    simp only [State.after, hj]
    exact counted_quiet hexact rfl rfl fun _ => rfl
  | unlock j f hj =>
    exact counted_quiet hexact rfl rfl (begun_update rfl)
  | yield j f wrapper hj hf | hold j f wrapper hj hf =>
    exact counted_quiet hexact rfl rfl (begun_update (by simp [begun, hf]))
  | submit q =>
    exact counted_push hexact (.cb s.core.callbacks) rfl rfl rfl (by simp)
  | submitFiber q f hf =>
    refine counted_push hexact _ rfl rfl rfl ?_
    intro g hg
    cases hg
    exact refs_outer (by simpa [State.ready] using hready)
  | putBack j f hj =>
    have htask := h.locals j
    rw [hj] at htask
    simp only [State.after, htask.left]
    refine counted_push hexact _ rfl rfl rfl ?_
    intro g hg
    cases hg
    exact refs_task htask.left
  | requeue j f hj =>
    have hvars := h.locals j
    rw [hj] at hvars
    rcases hvars with hwrapper | ⟨htask, hwrapper⟩
    . simp only [State.after, hwrapper]
      refine counted_push hexact (.fiber f) rfl rfl rfl ?_
      intro g hg
      cases hg
      exact refs_wrapper hwrapper
    . simp only [State.after, hwrapper, htask]
      refine counted_push hexact _ rfl rfl rfl ?_
      intro g hg
      cases hg
      exact refs_task htask
  | pop j task rest hj hq =>
    simp only [State.after, Function.update_self]
    refine counted_take hexact rfl rfl rfl ?_
    intro g
    rw [hq, count_cons]
  | steal j q task rest k hj hk hv hq =>
    simp only [State.after, Function.update_self]
    refine counted_take hexact rfl rfl rfl ?_
    intro g
    rw [hq, count_push]
  | stealNone =>
    simp only [State.after, Function.update_self]
    exact counted_drop hexact rfl rfl rfl
  | wrap j c hj =>
    simp only [State.after, hj]
    refine counted_make hexact rfl rfl rfl rfl ?_
    intro g
    have := Tally.sum_update (ofWrapper g) s.fiberWrapper j (some s.core.fibers)
    have hnone := h.locals j
    rw [hj] at hnone
    rw [hnone.right, ofWrapper_none, ofWrapper_some] at this
    omega
  | resume j f wrapper hj hf =>
    have hnamed : s.refs f ≠ 0 := h.refs_named (by rw [hj]; rfl)
    simp only [State.after, Function.update_self]
    split
    . next hstarted =>
      have hbegun : begun (s.core.fiber f) = true := by
        rcases hf with hf | hf <;> simp [begun, hf, hstarted]
      exact counted_quiet hexact rfl rfl (begun_update (by rw [hbegun]; rfl))
    . next hstarted =>
      refine counted_begin hexact rfl rfl rfl ?_ hnamed
      simp [begun, hstarted]
  | finish j f wrapper hj =>
    have hstate := hex.allowed j f (by rw [hj]; rfl)
    rw [hj] at hstate
    have hstarted := h.started f hstate
    simp only [State.after, hj]
    refine counted_end hexact rfl rfl rfl ?_
    simp [begun, hstarted, show (s.core.fiber f).state = .kRunning from hstate]
  | _ =>
    exact counted_quiet hexact rfl rfl fun _ => rfl

theorem started_run (h : ∀ f, (s.core.fiber f).state = .kRunning → (s.core.fiber f).started = true)
    (hs : Run.Step s.core a core) (f : FiberId) (hf : (core.fiber f).state = .kRunning)
    : (core.fiber f).started = true := by
  have hold := h f
  cases hs <;> grind [Function.update_apply, Fiber.new]

theorem consistent_run (h : Consistent s) (hex : s.core.Exclusive) (hs : s.run a = some t)
    : Consistent t := by
  unfold State.run at hs
  simp only [Option.ite_none_right_eq_some, Option.map_eq_some_iff] at hs
  rcases hs with ⟨hready, core, hcore, rfl⟩
  have hstep := Run.Step.of_step hcore
  constructor
  . exact counted_run h hex hready hstep
  . intro i
    rw [core_after]
    exact locals_run h.locals hready hstep i
  . rw [core_after]
    exact started_run h.started hstep

theorem consistent_endBlock (h : Consistent s) (hs : s.endBlock i = some t) : Consistent t := by
  unfold State.endBlock at hs
  split at hs
  . next f hi hwrapper =>
    cases hs
    constructor
    . apply RefCounts.Exact.release h.exact
      intro g
      have := Tally.sum_update (ofWrapper g) s.fiberWrapper i none
      rw [hwrapper, ofWrapper_none, ofWrapper_some] at this
      simp only [State.refs]
      omega
    . intro j
      by_cases hji : j = i
      . subst hji
        change Locals (s.task j) _ (s.core.worker j)
        rw [hi]
        trivial
      . change Locals (s.task j) (update s.fiberWrapper i none j) (s.core.worker j)
        rw [Function.update_of_ne hji]
        exact h.locals j
    . exact h.started
  . cases hs

theorem consistent_lock (h : Consistent s) (hs : s.lock f = some t) : Consistent t := by
  unfold State.lock at hs
  split at hs
  . cases hs
    exact h
  . next hstrong =>
    cases hs
    refine ⟨?_, h.locals, h.started⟩
    rw [h.exact.strong] at hstrong
    apply RefCounts.Exact.share h.exact hstrong
    intro g
    by_cases hg : g = f
    . simp only [State.refs, hg, Function.update_self, RefCounts.one_self]
      omega
    . simp only [State.refs, Function.update_of_ne hg, RefCounts.one_of_ne hg]
      rfl

theorem consistent_drop (h : Consistent s) (hs : s.drop f = some t) : Consistent t := by
  unfold State.drop at hs
  split at hs
  . next houter =>
    cases hs
    refine ⟨?_, h.locals, h.started⟩
    apply RefCounts.Exact.release h.exact
    intro g
    by_cases hg : g = f
    . simp only [State.refs, hg, Function.update_self, RefCounts.one_self]
      omega
    . simp only [State.refs, Function.update_of_ne hg, RefCounts.one_of_ne hg]
      rfl
  . cases hs

theorem reachable_core (h : (machine n).Reachable s) : (Run.machine n).Reachable s.core := by
  apply h.project State.core
  . intro s hs
    cases hs
    rfl
  . intro s a t _ hs
    have hsame : t.core = s.core → (Run.machine n).Steps Machine.free s.core t.core := by
      intro hcore
      rw [hcore]
      exact Machine.Steps.refl _
    cases a with
    | run a =>
      change s.run a = some t at hs
      unfold State.run at hs
      simp only [Option.ite_none_right_eq_some, Option.map_eq_some_iff] at hs
      rcases hs with ⟨_, core, hcore, rfl⟩
      rw [core_after]
      exact (Machine.Steps.refl _).tail trivial hcore
    | endBlock i =>
      change s.endBlock i = some t at hs
      unfold State.endBlock at hs
      split at hs
      . cases hs
        exact hsame rfl
      . cases hs
    | lock f =>
      change s.lock f = some t at hs
      unfold State.lock at hs
      split at hs <;> cases hs <;> exact hsame rfl
    | drop f =>
      change s.drop f = some t at hs
      unfold State.drop at hs
      split at hs
      . cases hs
        exact hsame rfl
      . cases hs

theorem reachable_consistent (h : (machine n).Reachable s) : Consistent s := by
  apply Machine.Reach.invariant_with (J := fun s => s.core.Exclusive) h
  . intro s hs
    exact Run.reachable_exclusive (reachable_core hs)
  . intro s hs
    cases hs
    exact consistent_start
  . intro s a t hex hs _ hstep
    cases a with
    | run a => exact consistent_run hs hex hstep
    | endBlock i => exact consistent_endBlock hs hstep
    | lock f => exact consistent_lock hs hstep
    | drop f => exact consistent_drop hs hstep

theorem fibers_alive (h : (machine n).Reachable s) : Alive s :=
  (reachable_consistent h).alive

-- An entry that names fiber 0 is the last reference to it, until worker 1 finds nothing else to do
def wokenLate : List (Action 2) :=
  [.run (.submit 0), .run (.pop 0), .run (.count 0), .run (.tryLock 0), .run (.resume 0), .lock 0,
    .run (.submitFiber 1 0), .drop 0, .run (.finish 0), .run (.checkState 0), .run (.unlock 0), .endBlock 0,
    .run (.uncount 0), .run (.pop 1), .run (.count 1), .run (.tryLock 1), .run (.readState 1),
    .run (.unlock 1), .run (.uncount 1), .run (.pop 1), .run (.steal 1 true), .run (.steal 1 true), .lock 0]

theorem fibers_alive_wokenLate
    : ∃ s, (machine 2).exec (State.start 2) wokenLate = some s ∧ s.counts.freed = [0] ∧ Alive s := by
  have h : (machine 2).exec (State.start 2) wokenLate = some _ := rfl
  exact ⟨_, h, rfl, fibers_alive (Machine.Reachable.of_exec _ rfl h)⟩

end References
end Koro
