import Koro.Fiber.Switch
import Koro.Scheduler.Calls
import Koro.Scheduler.Exclusive

/-!
This module contains the workers of `Scheduler::run` with the contexts that they switch between, while
fibers go from worker to worker. In `Run.machine` a fiber changes its state and is left, or entered, in one
step; here its state changes first, and the `swapcontext` follows as a step of its own, so that other
workers see a fiber on hold whose context has not been saved.

A `FiberObj` is the fiber that `runningFiber` makes for a worker, its `idle_fiber`, or one that is
scheduled, and stands for its stack as well. `exec i` is the stack on which worker `i` executes and
`tFiber i` its `t_fiber`; its `t_scheduler_fiber` and `t_thread_fiber` are always `main i`. `running` is the
local `running_fiber` of `mainFunc` on a stack. In `pending i` are the contexts that worker `i` is about to
save and to load. `saved` says of a context that it has been saved and not been loaded since, and `resumer`
is the point right after the last `resume` of a fiber: the code keeps neither.
-/

namespace Koro
namespace Contexts

open Function (update)
open Switch (Point)

inductive FiberObj (n : Nat) where
  | main (i : Fin n)
  | idle (i : Fin n)
  | task (f : FiberId)
  deriving DecidableEq, Repr

structure Context (n : Nat) where
  stack : FiberObj n
  point : Point
  deriving DecidableEq, Repr

structure State (n : Nat) where
  core : Run.State n
  ctx : FiberObj n → Context n
  tFiber : Fin n → FiberObj n
  exec : Fin n → FiberObj n
  running : FiberObj n → Option (FiberObj n)
  pending : Fin n → Option (FiberObj n × FiberObj n)
  switches : Nat
  saved : FiberObj n → Bool
  resumer : FiberObj n → Option (Context n)

def FiberObj.isMain {n : Nat} : FiberObj n → Bool
  | .main _ => true
  | _ => false

-- Each worker has called `runningFiber`
def State.start (n : Nat) : State n where
  core := Run.State.start n
  ctx := fun o => ⟨o, if o.isMain then .created else .entry⟩
  tFiber := .main
  exec := .main
  running := fun _ => none
  pending := fun _ => none
  switches := 0
  saved := fun o => !o.isMain
  resumer := fun _ => none

namespace State

variable {n : Nat}

-- `resume`, up to its `swapcontext`
def resume (s : State n) (i : Fin n) (this : FiberObj n) : State n :=
  { s with
    tFiber := update s.tFiber i this
    pending := update s.pending i (some (.main i, this))
  }

-- `hold` and `yield`, up to their `swapcontext`
def leave (s : State n) (i : Fin n) (this : FiberObj n) : State n :=
  { s with
    tFiber := update s.tFiber i (.main i)
    pending := update s.pending i (some (this, .main i))
  }

-- At its end `mainFunc` yields by its `running_fiber`
def mainFuncEnd (s : State n) (i : Fin n) : Option (State n) :=
  (s.running (s.exec i)).map (s.leave i)

-- What a step of worker `i` does to its contexts, where `core` is what `Run.machine` has come to
def after (s : State n) (core : Run.State n) : Run.Action n → Option (State n)
  | .resume i =>
    match core.worker i with
    | .running f _ => some ({ s with core }.resume i (.task f))
    | _ => some { s with core }
  | .idle i =>
    match core.worker i with
    | .idle => some ({ s with core }.resume i (.idle i))
    | _ => some { s with core }
  | .idleReturn i term =>
    if term then
      { s with core }.mainFuncEnd i
    else
      some ({ s with core }.leave i (s.tFiber i))
  | .yield i =>
    match core.worker i with
    | .resumed _ _ => some ({ s with core }.leave i (s.tFiber i))
    | _ => some { s with core }
  | .hold i =>
    match core.worker i with
    | .resumed _ _ => some ({ s with core }.leave i (s.tFiber i))
    | _ => some { s with core }
  | .finish i => { s with core }.mainFuncEnd i
  | _ => some { s with core }

-- A worker that is about to switch does nothing before
def ready (s : State n) (a : Run.Action n) : Bool :=
  match a.actor with
  | some i => (s.pending i).isNone
  | none => true

def run (s : State n) (a : Run.Action n) : Option (State n) :=
  if s.ready a then
    (Run.step s.core a).bind fun core => s.after core a
  else
    none

-- At its entry `mainFunc` reads `t_fiber`
def swapcontext (s : State n) (i : Fin n) : Option (State n) :=
  (s.pending i).map fun (save, load) =>
    let after : Context n := ⟨s.exec i, .after s.switches⟩
    let ctx := update s.ctx save after
    let control := ctx load
    { s with
      ctx
      exec := update s.exec i control.stack
      running :=
        if control.point = .entry then
          update s.running control.stack (some (s.tFiber i))
        else
          s.running
      pending := update s.pending i none
      switches := s.switches + 1
      saved := update (update s.saved save true) load false
      resumer := if save = .main i then update s.resumer load (some after) else s.resumer
    }

end State

inductive Action (n : Nat) where
  | run (a : Run.Action n)
  | swapcontext (i : Fin n)
  deriving DecidableEq, Repr

variable {n : Nat} {s t : State n} {i j : Fin n}

def step (s : State n) : Action n → Option (State n)
  | .run a => s.run a
  | .swapcontext i => s.swapcontext i

def machine (n : Nat) : Machine (State n) (Action n) where
  init s := s = State.start n
  step := step

-- The fiber that the place of worker `i` is in
def home (i : Fin n) : Run.Pc → FiberObj n
  | .idle => .idle i
  | .running f _ => .task f
  | _ => .main i

def State.home (s : State n) (i : Fin n) : FiberObj n :=
  Contexts.home i (s.core.worker i)

/--
No two workers execute on one stack. A worker executes on the stack, and has the `t_fiber`, that belongs to
its place in `run`, except when it is about to switch: then it saves the context of the stack on which it
is and loads that of the stack on which it is to be, which has been saved after it was loaded last. When
it leaves a fiber, it goes on right after its own last `resume`, which was of this fiber. `mainFunc` on a
stack has the fiber of this stack at hand.
-/
structure Safe (s : State n) : Prop where
  distinct : ∀ i j, s.exec i = s.exec j → i = j
  here : ∀ i, s.pending i = none → s.exec i = s.home i ∧ s.tFiber i = s.home i
  switches : ∀ i save load, s.pending i = some (save, load) →
    s.exec i = save ∧ s.saved save = false
      ∧
    load = s.home i ∧ s.tFiber i = load ∧ s.saved load = true ∧ (s.ctx load).stack = load
  returns : ∀ i save, s.pending i = some (save, .main i) → s.resumer save = some (s.ctx (.main i))
  running : ∀ i, (s.exec i).isMain = false → s.running (s.exec i) = some (s.exec i)

-- What is known besides: who may be on a stack, and what has been saved of it
structure Tied (s : State n) : Prop where
  main : ∀ i j, s.exec i = .main j → i = j
  idle : ∀ i j, s.exec i = .idle j → i = j
  task : ∀ i f, s.exec i = .task f → (s.core.worker i).held = some f
  saved : ∀ o, s.saved o = true ↔ ∀ i, s.exec i ≠ o
  ctx : ∀ o, (s.ctx o).stack = o
  running : ∀ o, o.isMain = false →
    s.running o = some o ∨ s.saved o = true ∧ (s.ctx o).point = .entry
  resumed : ∀ i, s.exec i ≠ .main i → s.resumer (s.exec i) = some (s.ctx (.main i))
  here : ∀ i, s.pending i = none → s.exec i = s.home i ∧ s.tFiber i = s.home i
  pending : ∀ i save load, s.pending i = some (save, load) →
    s.exec i = save ∧ load = s.home i ∧ s.tFiber i = load
      ∧
    (save = .main i ∧ load ≠ .main i ∨ save ≠ .main i ∧ load = .main i)

theorem task_of_home (h : s.home i = .task f) : (s.core.worker i).held = some f := by
  unfold State.home home at h
  split at h
  . cases h
  . next g b hi =>
    cases h
    rw [hi]
    rfl
  . cases h

theorem home_cases (s : State n) (i : Fin n)
    : s.home i = .main i ∨ s.home i = .idle i ∨ ∃ f, s.home i = .task f := by
  unfold State.home home
  split
  . exact .inr (.inl rfl)
  . exact .inr (.inr ⟨_, rfl⟩)
  . exact .inl rfl

theorem of_home_main (h : s.home i = .main j) : i = j := by
  rcases home_cases s i with hhome | hhome | ⟨f, hhome⟩ <;> rw [hhome] at h <;> cases h
  rfl

theorem of_home_idle (h : s.home i = .idle j) : i = j := by
  rcases home_cases s i with hhome | hhome | ⟨f, hhome⟩ <;> rw [hhome] at h <;> cases h
  rfl

namespace Tied

theorem distinct (h : Tied s) (hex : s.core.Exclusive) (heq : s.exec i = s.exec j) : i = j := by
  cases ho : s.exec j with
  | main k => rw [h.main i k (heq.trans ho), h.main j k ho]
  | idle k => rw [h.idle i k (heq.trans ho), h.idle j k ho]
  | task f => exact hex.lock.unique i j f (h.task i f (heq.trans ho)) (h.task j f ho)

-- Nobody is on the stack that worker `i` is about to enter
theorem vacant (h : Tied s) (hex : s.core.Exclusive) (hne : s.exec i ≠ s.home i) (j : Fin n)
    : s.exec j ≠ s.home i := by
  intro hj
  have hij : j = i := by
    rcases home_cases s i with hhome | hhome | ⟨f, hhome⟩ <;> rw [hhome] at hj
    . exact h.main j i hj
    . exact h.idle j i hj
    . exact hex.lock.unique j i f (h.task j f hj) (task_of_home hhome)
  rw [hij] at hj
  exact hne hj

-- `mainFunc` on the stack of the worker has its own fiber at hand
theorem running_exec (h : Tied s) (hne : (s.exec i).isMain = false)
    : s.running (s.exec i) = some (s.exec i) := by
  rcases h.running _ hne with hrunning | ⟨hsaved, _⟩
  . exact hrunning
  . exact absurd rfl ((h.saved _).mp hsaved i)

theorem safe (h : Tied s) (hex : s.core.Exclusive) : Safe s where
  distinct := fun _ _ => h.distinct hex
  here := h.here
  switches := by
    intro i save load hpending
    rcases h.pending i save load hpending with ⟨hexec, hhome, hfiber, hsides⟩
    have hne : s.exec i ≠ s.home i := by
      rw [hexec, ← hhome]
      rcases hsides with ⟨hsave, hload⟩ | ⟨hsave, hload⟩
      . rw [hsave]
        exact hload.symm
      . rw [hload]
        exact hsave
    have hsaved : s.saved save ≠ true := fun hsaved => (h.saved save).mp hsaved i hexec
    refine ⟨hexec, by simpa using hsaved, hhome, hfiber, ?_, h.ctx load⟩
    rw [h.saved, hhome]
    exact h.vacant hex hne
  returns := by
    intro i save hpending
    rcases h.pending i save _ hpending with ⟨hexec, _, _, ⟨_, hload⟩ | ⟨hsave, _⟩⟩
    . exact absurd rfl hload
    . rw [← hexec] at hsave ⊢
      exact h.resumed i hsave
  running := fun _ => h.running_exec

-- A step of `run` that switches to nothing
theorem stay (h : Tied s) {core : Run.State n}
    (hother : ∀ j, home j (core.worker j) = s.home j)
    (hheld : ∀ j f, s.exec j = .task f → (core.worker j).held = some f)
    : Tied { s with core } where
  main := h.main
  idle := h.idle
  task := hheld
  saved := h.saved
  ctx := h.ctx
  running := h.running
  resumed := h.resumed
  here := by
    intro j hj
    rw [State.home, hother j]
    exact h.here j hj
  pending := by
    intro j save load hj
    rw [State.home, hother j]
    exact h.pending j save load hj

-- Worker `i` is about to go from where it is to its new place
theorem turn (h : Tied s) {core : Run.State n} {save load : FiberObj n}
    (hother : ∀ j, j ≠ i → core.worker j = s.core.worker j)
    (hheld : ∀ f, s.exec i = .task f → (core.worker i).held = some f)
    (hsave : s.exec i = save) (hload : home i (core.worker i) = load)
    (hsides : save = .main i ∧ load ≠ .main i ∨ save ≠ .main i ∧ load = .main i)
    : Tied { s with
        core
        tFiber := update s.tFiber i load
        pending := update s.pending i (some (save, load)) } where
  main := h.main
  idle := h.idle
  task := by
    intro j f hj
    by_cases hji : j = i
    . subst hji
      exact hheld f hj
    . rw [hother j hji]
      exact h.task j f hj
  saved := h.saved
  ctx := h.ctx
  running := h.running
  resumed := h.resumed
  here := by
    intro j hj
    change update s.pending i (some (save, load)) j = none at hj
    change s.exec j = Contexts.home j (core.worker j)
      ∧ update s.tFiber i load j = Contexts.home j (core.worker j)
    by_cases hji : j = i
    . subst hji
      rw [Function.update_self] at hj
      cases hj
    . rw [Function.update_of_ne hji] at hj ⊢
      rw [hother j hji]
      exact h.here j hj
  pending := by
    intro j save' load' hj
    change update s.pending i (some (save, load)) j = some (save', load') at hj
    change s.exec j = save'
      ∧ load' = Contexts.home j (core.worker j) ∧ update s.tFiber i load j = load' ∧ _
    by_cases hji : j = i
    . subst hji
      rw [Function.update_self] at hj ⊢
      cases hj
      exact ⟨hsave, hload.symm, rfl, hsides⟩
    . rw [Function.update_of_ne hji] at hj ⊢
      rw [hother j hji]
      exact h.pending j save' load' hj

end Tied

theorem tied_start : Tied (State.start n) where
  main := by simp [State.start]
  idle := by simp [State.start]
  task := by simp [State.start]
  saved := by
    intro o
    cases o <;> simp [State.start, FiberObj.isMain]
  ctx := by simp [State.start]
  running := by
    intro o ho
    simp [State.start, ho]
  resumed := by simp [State.start]
  here := by simp [State.start, State.home, home, Run.State.start]
  pending := by simp [State.start]

theorem run_split {a : Run.Action n} (h : s.run a = some t)
    : (∀ i, a.actor = some i → s.pending i = none)
        ∧
      ∃ core, Run.Step s.core a core ∧ s.after core a = some t := by
  unfold State.run State.ready at h
  simp only [Option.ite_none_right_eq_some, Option.bind_eq_some_iff] at h
  rcases h with ⟨hready, core, hcore, hafter⟩
  refine ⟨?_, core, .of_step hcore, hafter⟩
  intro i hi
  simpa [hi] using hready

namespace Tied

variable {core : Run.State n} {a : Run.Action n}

-- Worker `i` makes a step of `run` on its own stack
theorem stay_main (h : Tied s) (hs : Run.Step s.core a core) (ha : a.actor = some i)
    (hready : s.pending i = none) (hbefore : s.home i = .main i)
    (hafter : Contexts.home i (core.worker i) = .main i)
    : Tied { s with core } := by
  apply h.stay
  . intro j
    by_cases hji : j = i
    . rw [hji, hafter, hbefore]
    . rw [Run.worker_ne hs ha hji]
      rfl
  . intro j f hj
    by_cases hji : j = i
    . rw [hji, (h.here i hready).left, hbefore] at hj
      cases hj
    . rw [Run.worker_ne hs ha hji]
      exact h.task j f hj

theorem enter (h : Tied s) (hs : Run.Step s.core a core) (ha : a.actor = some i) {this : FiberObj n}
    (hready : s.pending i = none) (hbefore : s.home i = .main i)
    (hafter : Contexts.home i (core.worker i) = this) (hthis : this ≠ .main i)
    : Tied ({ s with core }.resume i this) := by
  have hexec : s.exec i = .main i := (h.here i hready).left.trans hbefore
  apply h.turn
  . intro j hj
    exact Run.worker_ne hs ha hj
  . intro f hf
    rw [hexec] at hf
    cases hf
  . exact hexec
  . exact hafter
  . exact .inl ⟨rfl, hthis⟩

theorem leave (h : Tied s) (hs : Run.Step s.core a core) (ha : a.actor = some i) {this : FiberObj n}
    (hready : s.pending i = none) (hbefore : s.home i = this) (hthis : this ≠ .main i)
    (hafter : Contexts.home i (core.worker i) = .main i)
    (hheld : ∀ f, this = .task f → (core.worker i).held = some f)
    : Tied ({ s with core }.leave i this) := by
  have hexec : s.exec i = this := (h.here i hready).left.trans hbefore
  apply h.turn
  . intro j hj
    exact Run.worker_ne hs ha hj
  . intro f hf
    exact hheld f (hexec.symm.trans hf)
  . exact hexec
  . exact hafter
  . exact .inr ⟨hthis, rfl⟩

-- By `t_fiber` as by its `running_fiber`, a fiber that leaves a stack is the one of this stack
theorem out (h : Tied s) {this : FiberObj n} (hready : s.pending i = none) (hhome : s.home i = this)
    (hthis : this.isMain = false)
    : s.tFiber i = this
        ∧
      ∀ core, { s with core }.mainFuncEnd i = some ({ s with core }.leave i this) := by
  rcases h.here i hready with ⟨hexec, hfiber⟩
  rw [hhome] at hexec hfiber
  have hrunning := h.running_exec (by rw [hexec]; exact hthis)
  refine ⟨hfiber, ?_⟩
  intro core
  unfold State.mainFuncEnd
  rw [hrunning, hexec]
  rfl

end Tied

theorem tied_run {a : Run.Action n} (h : Tied s) (hs : s.run a = some t) (hex : t.core.Exclusive)
    : Tied t := by
  rcases run_split hs with ⟨hready, core, hcore, hafter⟩
  have hcore' := hcore
  cases hcore with
  | create | submit | submitFiber =>
    cases hafter
    exact h.stay (fun _ => rfl) h.task
  | resume i f wrapper hi hf =>
    simp only [State.after, Function.update_self] at hafter
    cases hafter
    apply h.enter hcore' rfl (hready i rfl) <;> simp [State.home, home, hi]
  | idle i hi hterm =>
    simp only [State.after, Function.update_self] at hafter
    cases hafter
    apply h.enter hcore' rfl (hready i rfl) <;> simp [State.home, home, hi]
  | idleReturn i term hi =>
    have hhome : s.home i = .idle i := by simp [State.home, home, hi]
    have hout := h.out (hready i rfl) hhome rfl
    have hleave := h.leave hcore' rfl (hready i rfl) hhome (by simp) (by simp [home]) (by simp)
    cases term
    . simp only [State.after, Bool.false_eq_true, ↓reduceIte, hout, Option.some.injEq] at hafter
      exact hafter ▸ hleave
    . simp only [State.after, ↓reduceIte, hout, Option.some.injEq] at hafter
      exact hafter ▸ hleave
  | yieldFail i f wrapper hi hf =>
    simp only [State.after, Function.update_self] at hafter
    cases hafter
    exact absurd (Function.update_self ..) (hex.asserted i)
  | holdFail i f wrapper hi hf =>
    simp only [State.after, Function.update_self] at hafter
    cases hafter
    exact absurd (Function.update_self ..) (hex.asserted i)
  | yieldTerm i f wrapper hi | yield i f wrapper hi | hold i f wrapper hi | finish i f wrapper hi =>
    have hhome : s.home i = .task f := by simp [State.home, home, hi]
    have hout := h.out (hready i rfl) hhome rfl
    simp only [State.after, Function.update_self, hout, Option.some.injEq] at hafter
    subst hafter
    apply h.leave hcore' rfl (hready i rfl) hhome <;> simp [home, Run.Pc.held]
  | _ =>
    simp only [State.after, Function.update_self] at hafter
    cases hafter
    apply h.stay_main hcore' rfl (hready _ rfl) <;> simp [State.home, home, *]

-- The `swapcontext` of worker `i` from `save` to `load`
def State.switched (s : State n) (i : Fin n) (save load : FiberObj n) : State n :=
  { s with
    ctx := update s.ctx save ⟨save, .after s.switches⟩
    exec := update s.exec i load
    running := if (s.ctx load).point = .entry then update s.running load (some load) else s.running
    pending := update s.pending i none
    switches := s.switches + 1
    saved := update (update s.saved save true) load false
    resumer :=
      if save = .main i then update s.resumer load (some ⟨save, .after s.switches⟩) else s.resumer
  }

theorem Tied.swapcontext_eq (h : Tied s) (hs : s.swapcontext i = some t)
    : ∃ save, s.exec i = save ∧ s.exec i ≠ s.home i ∧ s.tFiber i = s.home i
        ∧ (save ≠ .main i → s.home i = .main i)
        ∧ t = s.switched i save (s.home i) := by
  unfold State.swapcontext at hs
  rw [Option.map_eq_some_iff] at hs
  rcases hs with ⟨⟨save, load⟩, hpending, ht⟩
  rcases h.pending i save load hpending with ⟨hexec, rfl, hfiber, hsides⟩
  have hne : s.home i ≠ save := by
    rcases hsides with ⟨hsave, hload⟩ | ⟨hsave, hload⟩
    . rw [hsave]
      exact hload
    . rw [hload]
      exact hsave.symm
  refine ⟨save, hexec, ?_, hfiber, ?_, ?_⟩
  . rw [hexec]
    exact hne.symm
  . intro hsave
    rcases hsides with ⟨hmain, _⟩ | ⟨_, hload⟩
    . exact absurd hmain hsave
    . exact hload
  . rw [← ht, State.switched]
    simp only [Function.update_of_ne hne, h.ctx, hexec, hfiber]

namespace Tied

variable {save load : FiberObj n}

theorem switched_saved (h : Tied s) (hex : s.core.Exclusive) (hne : s.exec i ≠ load) (o : FiberObj n)
    : (s.switched i (s.exec i) load).saved o = true
        ↔ ∀ j, (s.switched i (s.exec i) load).exec j ≠ o := by
  change update (update s.saved (s.exec i) true) load false o = true ↔ ∀ j, update s.exec i load j ≠ o
  by_cases hload : o = load
  . subst hload
    simp only [Function.update_self, Bool.false_eq_true, false_iff]
    intro hall
    exact hall i (Function.update_self ..)
  . rw [Function.update_of_ne hload]
    by_cases hsave : o = s.exec i
    . subst hsave
      simp only [Function.update_self, true_iff]
      intro j
      by_cases hji : j = i
      . rw [hji, Function.update_self]
        exact hne.symm
      . rw [Function.update_of_ne hji]
        exact fun heq => hji (h.distinct hex heq)
    . rw [Function.update_of_ne hsave, h.saved]
      apply forall_congr'
      intro j
      by_cases hji : j = i
      . rw [hji, Function.update_self]
        exact iff_of_true (Ne.symm hsave) (Ne.symm hload)
      . rw [Function.update_of_ne hji]

theorem switched_running (h : Tied s) (o : FiberObj n) (ho : o.isMain = false)
    : (s.switched i (s.exec i) load).running o = some o
        ∨
      (s.switched i (s.exec i) load).saved o = true
        ∧ ((s.switched i (s.exec i) load).ctx o).point = .entry := by
  simp only [State.switched]
  by_cases hload : o = load
  . subst hload
    left
    by_cases hentry : (s.ctx o).point = .entry
    . rw [if_pos hentry, Function.update_self]
    . rw [if_neg hentry]
      rcases h.running o ho with hrunning | ⟨_, hpoint⟩
      . exact hrunning
      . exact absurd hpoint hentry
  . have hsame : (if (s.ctx load).point = .entry then update s.running load (some load) else s.running) o
        = s.running o := by
      split
      . exact Function.update_of_ne hload ..
      . rfl
    rw [hsame]
    rcases h.running o ho with hrunning | ⟨hsaved, hpoint⟩
    . exact .inl hrunning
    . have hsave : o ≠ s.exec i := ((h.saved o).mp hsaved i).symm
      right
      rw [Function.update_of_ne hload, Function.update_of_ne hsave, Function.update_of_ne hsave]
      exact ⟨hsaved, hpoint⟩

-- `load` is where worker `i` is to be, and nobody is there
theorem switched (h : Tied s) (hex : s.core.Exclusive) (hne : s.exec i ≠ s.home i)
    (hfiber : s.tFiber i = s.home i) (hsides : s.exec i ≠ .main i → s.home i = .main i)
    : Tied (s.switched i (s.exec i) (s.home i)) where
  main := by
    intro j k hj
    change update s.exec i (s.home i) j = .main k at hj
    by_cases hji : j = i
    . subst hji
      rw [Function.update_self] at hj
      exact of_home_main hj
    . rw [Function.update_of_ne hji] at hj
      exact h.main j k hj
  idle := by
    intro j k hj
    change update s.exec i (s.home i) j = .idle k at hj
    by_cases hji : j = i
    . subst hji
      rw [Function.update_self] at hj
      exact of_home_idle hj
    . rw [Function.update_of_ne hji] at hj
      exact h.idle j k hj
  task := by
    intro j f hj
    change update s.exec i (s.home i) j = .task f at hj
    by_cases hji : j = i
    . subst hji
      rw [Function.update_self] at hj
      exact task_of_home hj
    . rw [Function.update_of_ne hji] at hj
      exact h.task j f hj
  saved := h.switched_saved hex hne
  ctx := by
    intro o
    change (update s.ctx (s.exec i) ⟨s.exec i, .after s.switches⟩ o).stack = o
    by_cases ho : o = s.exec i
    . rw [ho, Function.update_self]
    . rw [Function.update_of_ne ho]
      exact h.ctx o
  running := h.switched_running
  resumed := by
    intro j hj
    change update s.exec i (s.home i) j ≠ .main j at hj
    change (if s.exec i = .main i then _ else s.resumer) (update s.exec i (s.home i) j)
      = some (update s.ctx (s.exec i) _ (.main j))
    by_cases hji : j = i
    . subst hji
      rw [Function.update_self] at hj ⊢
      have hmain : s.exec j = .main j := by
        by_contra hmain
        exact hj (hsides hmain)
      rw [if_pos hmain, Function.update_self, hmain, Function.update_self]
    . rw [Function.update_of_ne hji] at hj ⊢
      have hown : FiberObj.main j ≠ s.exec i := by
        intro hown
        exact hji (h.main i j hown.symm).symm
      rw [Function.update_of_ne hown, ← h.resumed j hj]
      split
      . exact Function.update_of_ne (h.vacant hex hne j) ..
      . rfl
  here := by
    intro j hj
    change update s.pending i none j = none at hj
    change update s.exec i (s.home i) j = s.home j ∧ s.tFiber j = s.home j
    by_cases hji : j = i
    . subst hji
      rw [Function.update_self]
      exact ⟨rfl, hfiber⟩
    . rw [Function.update_of_ne hji] at hj ⊢
      exact h.here j hj
  pending := by
    intro j save' load' hj
    change update s.pending i none j = some (save', load') at hj
    change update s.exec i (s.home i) j = save' ∧ load' = s.home j ∧ s.tFiber j = load' ∧ _
    by_cases hji : j = i
    . subst hji
      rw [Function.update_self] at hj
      cases hj
    . rw [Function.update_of_ne hji] at hj ⊢
      exact h.pending j save' load' hj

end Tied

theorem tied_swapcontext (h : Tied s) (hex : s.core.Exclusive) (hs : s.swapcontext i = some t)
    : Tied t := by
  rcases h.swapcontext_eq hs with ⟨save, rfl, hne, hfiber, hsides, rfl⟩
  exact h.switched hex hne hfiber hsides

theorem core_swapcontext (hs : s.swapcontext i = some t) : t.core = s.core := by
  unfold State.swapcontext at hs
  rw [Option.map_eq_some_iff] at hs
  rcases hs with ⟨_, _, rfl⟩
  rfl

theorem core_after {a : Run.Action n} {core : Run.State n} (h : s.after core a = some t)
    : t.core = core := by
  unfold State.after State.mainFuncEnd at h
  repeat' split at h
  all_goals first
    | cases h; rfl
    | rw [Option.map_eq_some_iff] at h; rcases h with ⟨_, _, rfl⟩; rfl

/--
What the workers do with contexts is a run of `Run.machine` with stuttering steps.
-/
theorem reachable_core (h : (machine n).Reachable s) : (Run.machine n).Reachable s.core := by
  apply h.project State.core
  . intro s hs
    cases hs
    rfl
  . intro s a t _ hs
    cases a with
    | run a =>
      change s.run a = some t at hs
      unfold State.run at hs
      simp only [Option.ite_none_right_eq_some, Option.bind_eq_some_iff] at hs
      rcases hs with ⟨_, core, hcore, hafter⟩
      rw [core_after hafter]
      exact (Machine.Steps.refl _).tail trivial hcore
    | swapcontext i =>
      rw [core_swapcontext hs]
      exact Machine.Steps.refl _

theorem reachable_tied (h : (machine n).Reachable s) : Tied s := by
  have hex : ∀ s, (machine n).Reachable s → s.core.Exclusive := by
    intro s hs
    exact Run.reachable_exclusive (reachable_core hs)
  have : (machine n).Reachable s ∧ Tied s := by
    apply Machine.Reach.invariant (I := fun s => (machine n).Reachable s ∧ Tied s) h
    . intro s hs
      cases hs
      exact ⟨Machine.Reach.start rfl, tied_start⟩
    . intro s a t hs _ hstep
      have hreach : (machine n).Reachable t := hs.left.tail trivial hstep
      refine ⟨hreach, ?_⟩
      cases a with
      | run a => exact tied_run hs.right hstep (hex t hreach)
      | swapcontext i => exact tied_swapcontext hs.right (hex s hs.left) hstep
  exact this.right

theorem contexts_safe (h : (machine n).Reachable s) : Safe s :=
  (reachable_tied h).safe (Run.reachable_exclusive (reachable_core h))

-- A fiber holds and is queued again before its context is saved; worker 1 does not get it until then
def migration : List (Action 2) :=
  [.run (.submit 0), .run (.pop 0), .run (.count 0), .run (.tryLock 0), .run (.resume 0), .swapcontext 0,
    .run (.hold 0), .run (.submitFiber 1 0), .run (.pop 1), .run (.count 1), .run (.tryLock 1),
    .run (.putBack 1), .run (.uncount 1), .swapcontext 0, .run (.checkState 0), .run (.unlock 0),
    .run (.pop 1), .run (.count 1), .run (.tryLock 1), .run (.readState 1), .run (.resume 1),
    .swapcontext 1, .run (.finish 1)]

theorem contexts_safe_migration
    : ∃ s, (machine 2).exec (State.start 2) migration = some s
        ∧ s.pending 1 = some (.task 0, .main 1) ∧ s.running (.task 0) = some (.task 0) ∧ Safe s := by
  have h : (machine 2).exec (State.start 2) migration = some _ := rfl
  exact ⟨_, h, rfl, rfl, contexts_safe (Machine.Reachable.of_exec _ rfl h)⟩

-- No step of `run` is kept from doing what it does to the contexts
theorem Tied.after_some {a : Run.Action n} {core : Run.State n} (h : Tied s) (hready : s.ready a = true)
    (hs : Run.Step s.core a core)
    : ∃ t, s.after core a = some t
        ∧ (t.pending = s.pending ∨ ∃ i p, t.pending = update s.pending i (some p)) := by
  have hpending : ∀ i, a.actor = some i → s.pending i = none := by
    intro i hi
    simpa [State.ready, hi] using hready
  cases hs with
  | idleReturn i term hi =>
    have hhome : s.home i = .idle i := by simp [State.home, home, hi]
    have hout := h.out (hpending i rfl) hhome rfl
    cases term
    . exact ⟨_, rfl, .inr ⟨i, _, rfl⟩⟩
    . exact ⟨_, hout.right _, .inr ⟨i, _, rfl⟩⟩
  | finish i f wrapper hi =>
    have hhome : s.home i = .task f := by simp [State.home, home, hi]
    have hout := h.out (hpending i rfl) hhome rfl
    exact ⟨_, hout.right _, .inr ⟨i, _, rfl⟩⟩
  | resume i | idle i | yieldTerm i | yield i | hold i =>
    simp only [State.after, Function.update_self]
    exact ⟨_, rfl, .inr ⟨i, _, rfl⟩⟩
  | exit | resumeFail | yieldFail | holdFail =>
    simp only [State.after, Function.update_self]
    exact ⟨_, rfl, .inl rfl⟩
  | _ => exact ⟨_, rfl, .inl rfl⟩

theorem swapcontext_some {p : FiberObj n × FiberObj n} (h : s.pending i = some p)
    : ∃ t, s.swapcontext i = some t ∧ t.pending = update s.pending i none := by
  rw [State.swapcontext, h]
  exact ⟨_, rfl, rfl⟩

-- Each step of `run` and the switch after it can be made at once
theorem exists_settled {core : Run.State n} (h : (Run.machine n).Reachable core)
    : ∃ s, (machine n).Reachable s ∧ s.core = core ∧ ∀ i, s.pending i = none := by
  apply Machine.Reach.invariant
    (I := fun core => ∃ s, (machine n).Reachable s ∧ s.core = core ∧ ∀ i, s.pending i = none) h
  . intro core hcore
    cases hcore
    exact ⟨State.start n, Machine.Reach.start rfl, rfl, fun _ => rfl⟩
  . rintro _ a core ⟨s, hs, rfl, hpending⟩ _ hcore
    have hready : s.ready a = true := by
      unfold State.ready
      split
      . next i _ => simp [hpending i]
      . rfl
    rcases (reachable_tied hs).after_some hready (.of_step hcore) with ⟨t, hafter, hswitch⟩
    have hrun : (machine n).step s (.run a) = some t := by
      change s.run a = some t
      rw [State.run, if_pos hready, show Run.step s.core a = some core from hcore]
      exact hafter
    have ht : (machine n).Reachable t := hs.tail trivial hrun
    rcases hswitch with hsame | ⟨i, ⟨save, load⟩, hi⟩
    . refine ⟨t, ht, core_after hafter, ?_⟩
      rw [hsame]
      exact hpending
    . have hload : t.pending i = some (save, load) := by rw [hi, Function.update_self]
      rcases swapcontext_some hload with ⟨r, hr, hpending'⟩
      have hcore' : r.core = core := (core_swapcontext hr).trans (core_after hafter)
      refine ⟨r, ht.tail trivial (a := .swapcontext i) hr, hcore', ?_⟩
      intro j
      rw [hpending']
      by_cases hji : j = i
      . rw [hji, Function.update_self]
      . rw [Function.update_of_ne hji, hi, Function.update_of_ne hji]
        exact hpending j

/--
That the switches are steps of their own takes nothing away from what `run` can come to, and adds nothing.
-/
theorem settled_iff (core : Run.State n)
    : (Run.machine n).Reachable core
        ↔ ∃ s, (machine n).Reachable s ∧ s.core = core ∧ ∀ i, s.pending i = none := by
  constructor
  . exact exists_settled
  . rintro ⟨s, hs, rfl, _⟩
    exact reachable_core hs

end Contexts
end Koro
