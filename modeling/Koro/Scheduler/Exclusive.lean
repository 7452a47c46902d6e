import Koro.Scheduler.Step
import Koro.Machine.Ownership

/-!
This module contains the proof that a fiber never runs on two workers: the `execute` flag is a lock,
and the plain `state_` field is only ever changed by the worker that owns it.
-/

namespace Koro
namespace Run

open Function (update)

-- The fiber between a successful `tryLock` and the matching `unlock`
def Pc.held : Pc → Option FiberId
  | .locked f => some f
  | .resuming f _ => some f
  | .running f _ => some f
  | .resumed f _ => some f
  | .requeue f => some f
  | .unlocking f => some f
  | _ => none

-- The fiber named by a worker's local variables
def Pc.named : Pc → Option FiberId
  | .popped (.fiber f) => some f
  | .counted (.fiber f) => some f
  | .lockFailed f => some f
  | pc => pc.held

-- The states a fiber may be in while it is held
def Pc.allows : Pc → Fiber.State → Prop
  | .resuming _ _, state => state = .kReady ∨ state = .kHold
  | .running _ _, state => state = .kRunning
  | .requeue _, state => state = .kReady
  | _, state => state ≠ .kRunning

theorem Pc.named_of_held {pc : Pc} (h : pc.held = some f) : pc.named = some f := by
  cases pc <;> simp_all [Pc.held, Pc.named]

structure Exclusive (worker : Fin n → Pc) (fiber : FiberId → Fiber) : Prop where
  lock : Ownership (Pc.held ∘ worker) (Fiber.execute ∘ fiber)
  allowed : ∀ i f, (worker i).held = some f → (worker i).allows (fiber f).state
  free : ∀ f, (fiber f).execute = false → (fiber f).state ≠ .kRunning
  asserted : ∀ i, worker i ≠ .aborted

namespace Exclusive

variable {n : Nat} {worker : Fin n → Pc} {fiber : FiberId → Fiber} {f : FiberId} {p : Pc}

theorem move (h : Exclusive worker fiber) (i : Fin n) (hheld : p.held = (worker i).held)
    (hallows : ∀ f, p.held = some f → p.allows (fiber f).state) (hp : p ≠ .aborted)
    : Exclusive (update worker i p) fiber where
  lock := by
    rw [Function.comp_update, hheld]
    have : update (Pc.held ∘ worker) i (worker i).held = Pc.held ∘ worker :=
      Function.update_eq_self i _
    rw [this]
    exact h.lock
  allowed := by
    intro j g hj
    by_cases hji : j = i
    . subst hji
      rw [Function.update_self] at hj ⊢
      exact hallows g hj
    . rw [Function.update_of_ne hji] at hj ⊢
      exact h.allowed j g hj
  free := h.free
  asserted := by
    intro j
    by_cases hji : j = i
    . simpa [hji] using hp
    . simpa [hji] using h.asserted j

-- The place of worker `i` and the fiber it is about to hold, holds, or gives up change together
theorem change (h : Exclusive worker fiber) (i : Fin n) (fb : Fiber)
    (hlock : Ownership (update (Pc.held ∘ worker) i p.held)
      (update (Fiber.execute ∘ fiber) f fb.execute))
    (hother : ∀ j, j ≠ i → (worker j).held ≠ some f)
    (hheld : ∀ g, p.held = some g → g = f ∧ p.allows fb.state)
    (hfree : fb.execute = false → fb.state ≠ .kRunning) (hp : p ≠ .aborted)
    : Exclusive (update worker i p) (update fiber f fb) where
  lock := by
    rw [Function.comp_update, Function.comp_update]
    exact hlock
  allowed := by
    intro j g hj
    by_cases hji : j = i
    . subst hji
      rw [Function.update_self] at hj ⊢
      rcases hheld g hj with ⟨hg, hallows⟩
      rw [hg, Function.update_self]
      exact hallows
    . rw [Function.update_of_ne hji] at hj ⊢
      have : g ≠ f := by
        intro hg
        rw [hg] at hj
        exact hother j hji hj
      rw [Function.update_of_ne this]
      exact h.allowed j g hj
  free := by
    intro g hg
    by_cases hgf : g = f
    . subst hgf
      rw [Function.update_self] at hg ⊢
      exact hfree hg
    . rw [Function.update_of_ne hgf] at hg ⊢
      exact h.free g hg
  asserted := by
    intro j
    by_cases hji : j = i
    . simpa [hji] using hp
    . simpa [hji] using h.asserted j

theorem acquire (h : Exclusive worker fiber) (i : Fin n) (fb : Fiber)
    (hf : ∀ j, (worker j).held ≠ some f) (hheld : p.held = some f) (hfb : fb.execute = true)
    (hallows : p.allows fb.state) (hp : p ≠ .aborted)
    : Exclusive (update worker i p) (update fiber f fb) := by
  apply h.change
  . rw [hheld, hfb]
    exact h.lock.acquire i f hf
  . intro j _
    exact hf j
  . intro g hg
    rw [hheld, Option.some.injEq] at hg
    exact ⟨hg.symm, hallows⟩
  . simp [hfb]
  . exact hp

theorem act (h : Exclusive worker fiber) (i : Fin n) (fb : Fiber)
    (hi : (worker i).held = some f) (hheld : p.held = some f)
    (hfb : fb.execute = (fiber f).execute) (hallows : p.allows fb.state) (hp : p ≠ .aborted)
    : Exclusive (update worker i p) (update fiber f fb) := by
  have hset : (fiber f).execute = true := h.lock.set i f hi
  apply h.change
  . have hown : update (Pc.held ∘ worker) i p.held = Pc.held ∘ worker := by
      rw [hheld, ← hi]
      exact Function.update_eq_self i _
    have hflag : update (Fiber.execute ∘ fiber) f fb.execute = Fiber.execute ∘ fiber := by
      rw [hfb]
      exact Function.update_eq_self f _
    rw [hown, hflag]
    exact h.lock
  . intro j hji hj
    exact hji (h.lock.unique j i f hj hi)
  . intro g hg
    rw [hheld, Option.some.injEq] at hg
    exact ⟨hg.symm, hallows⟩
  . simp [hfb, hset]
  . exact hp

theorem release (h : Exclusive worker fiber) (i : Fin n) (fb : Fiber)
    (hi : (worker i).held = some f) (hheld : p.held = none) (hfb : fb.execute = false)
    (hstate : fb.state ≠ .kRunning) (hp : p ≠ .aborted)
    : Exclusive (update worker i p) (update fiber f fb) := by
  apply h.change
  . rw [hheld, hfb]
    exact h.lock.release i f hi
  . intro j hji hj
    exact hji (h.lock.unique j i f hj hi)
  . simp [hheld]
  . intro _
    exact hstate
  . exact hp

theorem fresh (h : Exclusive worker fiber) (fb : Fiber) (hf : ∀ j, (worker j).held ≠ some f)
    (hstate : fb.state ≠ .kRunning)
    : Exclusive worker (update fiber f fb) where
  lock := by
    rw [Function.comp_update]
    exact h.lock.reset f _ hf
  allowed := by
    intro j g hj
    have : g ≠ f := by
      intro hg
      rw [hg] at hj
      exact hf j hj
    rw [Function.update_of_ne this]
    exact h.allowed j g hj
  free := by
    intro g hg
    by_cases hgf : g = f
    . simpa [hgf] using hstate
    . rw [Function.update_of_ne hgf] at hg ⊢
      exact h.free g hg
  asserted := h.asserted

end Exclusive

-- Only fibers already constructed are named by an entry or a worker
structure Bounded (tasks : Fin n → List ScheduledTask) (worker : Fin n → Pc)
    (fiber : FiberId → Fiber) (fibers : Nat) (wraps : FiberId → Option CallbackId) : Prop where
  queued : ∀ q f, .fiber f ∈ tasks q → f < fibers
  named : ∀ i f, (worker i).named = some f → f < fibers
  fresh : ∀ f, fibers ≤ f → fiber f = Fiber.new none ∧ wraps f = none

namespace Bounded

variable {n : Nat} {tasks : Fin n → List ScheduledTask} {worker : Fin n → Pc}
  {fiber : FiberId → Fiber} {fibers : Nat} {wraps : FiberId → Option CallbackId} {f : FiberId}
  {p : Pc}

theorem move (h : Bounded tasks worker fiber fibers wraps) (i : Fin n)
    (hp : ∀ f, p.named = some f → f < fibers)
    : Bounded tasks (update worker i p) fiber fibers wraps where
  queued := h.queued
  named := by
    intro j f hj
    rw [Function.update_apply] at hj
    split at hj
    . apply hp f hj
    . apply h.named j f hj
  fresh := h.fresh

theorem stay (h : Bounded tasks worker fiber fibers wraps) (i : Fin n)
    (hp : p.named = (worker i).named ∨ p.named = none)
    : Bounded tasks (update worker i p) fiber fibers wraps := by
  apply h.move
  intro f hf
  cases hp with
  | inl hp => exact h.named i f (hp ▸ hf)
  | inr hp => simp [hp] at hf

theorem queue (h : Bounded tasks worker fiber fibers wraps) (q : Fin n)
    {l : List ScheduledTask} (hl : ∀ f, .fiber f ∈ l → .fiber f ∈ tasks q ∨ f < fibers)
    : Bounded (update tasks q l) worker fiber fibers wraps where
  queued := by
    intro r f hf
    rw [Function.update_apply] at hf
    split at hf
    . cases hl f hf with
      | inl hf => exact h.queued q f hf
      | inr hf => exact hf
    . apply h.queued r f hf
  named := h.named
  fresh := h.fresh

theorem push (h : Bounded tasks worker fiber fibers wraps) (q : Fin n) (hf : f < fibers)
    : Bounded (update tasks q (tasks q ++ [.fiber f])) worker fiber fibers wraps := by
  apply h.queue
  intro g hg
  simp only [List.mem_append, List.mem_singleton, ScheduledTask.fiber.injEq] at hg
  cases hg with
  | inl hg => exact .inl hg
  | inr hg => exact .inr (hg ▸ hf)

theorem set (h : Bounded tasks worker fiber fibers wraps) (fb : Fiber) (hf : f < fibers)
    : Bounded tasks worker (update fiber f fb) fibers wraps where
  queued := h.queued
  named := h.named
  fresh := by
    intro g hg
    have : g ≠ f := Nat.ne_of_gt (Nat.lt_of_lt_of_le hf hg)
    rw [Function.update_of_ne this]
    apply h.fresh g hg

theorem alloc (h : Bounded tasks worker fiber fibers wraps) (fb : Fiber)
    (w : Option CallbackId)
    : Bounded tasks worker (update fiber fibers fb) (fibers + 1) (update wraps fibers w) where
  queued := by
    intro q f hf
    exact Nat.lt_succ_of_lt (h.queued q f hf)
  named := by
    intro i f hi
    exact Nat.lt_succ_of_lt (h.named i f hi)
  fresh := by
    intro g hg
    have : g ≠ fibers := Nat.ne_of_gt hg
    rw [Function.update_of_ne this, Function.update_of_ne this]
    apply h.fresh g
    apply Nat.le_of_succ_le hg

theorem not_held (h : Bounded tasks worker fiber fibers wraps) (i : Fin n)
    : (worker i).held ≠ some fibers := by
  intro hi
  exact Nat.lt_irrefl fibers (h.named i fibers (Pc.named_of_held hi))

theorem held_lt (h : Bounded tasks worker fiber fibers wraps) (hi : (worker i).held = some f)
    : f < fibers :=
  h.named i f (Pc.named_of_held hi)

end Bounded

variable {n : Nat} {s t : State n}

def State.Bounded (s : State n) : Prop :=
  Run.Bounded s.tasks s.worker s.fiber s.fibers s.wraps

theorem bounded_start : (State.start n).Bounded where
  queued := by simp [State.start]
  named := by simp [State.start, Pc.named, Pc.held]
  fresh := by simp [State.start]

theorem bounded_step (h : s.Bounded) (hs : Step s a t) : t.Bounded := by
  unfold State.Bounded at *
  cases hs with
  | create =>
    have hwraps : update s.wraps s.fibers none = s.wraps := by
      rw [← (h.fresh s.fibers (Nat.le_refl _)).right, Function.update_eq_self]
    rw [← hwraps]
    exact h.alloc (Fiber.new none) none
  | submit q =>
    apply h.queue
    simp
    tauto
  | submitFiber q f hf => exact h.push q hf
  | popNone i hi hq => exact h.stay i (.inr rfl)
  | pop i task rest hi hq =>
    apply (h.move i ?_).queue
    . intro f hf
      simp [hq, hf]
    . intro f hf
      cases task with
      | fiber g =>
        apply h.queued i f
        simp only [Pc.named, Option.some.injEq] at hf
        simp [hq, hf]
      | cb c => simp [Pc.named, Pc.held] at hf
  | stealMiss i ownsLock k hi hk hmiss => exact h.stay i (.inr rfl)
  | steal i q task rest k hi hk hv hq =>
    apply (h.move i ?_).queue
    . intro f hf
      simp [hq, hf]
    . intro f hf
      cases task with
      | fiber g =>
        apply h.queued q f
        simp only [Pc.named, Option.some.injEq] at hf
        simp [hq, hf]
      | cb c => simp [Pc.named, Pc.held] at hf
  | stealNone i ownsLock k hi hk => exact h.stay i (.inr rfl)
  | exit i hi hterm => exact h.stay i (.inr rfl)
  | idle i hi hterm => exact h.stay i (.inr rfl)
  | idleReturn i term hi => exact h.stay i (.inr rfl)
  | count i task hi =>
    apply h.stay i
    rw [hi]
    cases task with
    | fiber f => exact .inl rfl
    | cb c => exact .inr rfl
  | lockFail i f hi hf => exact h.stay i (.inl (by rw [hi]; rfl))
  | lock i f hi hf =>
    apply (h.stay i (.inl (by rw [hi]; rfl))).set
    apply h.named i f
    rw [hi]
    rfl
  | wrap i c hi =>
    apply (h.alloc _ _).move
    intro f hf
    cases hf
    apply Nat.lt_succ_self
  | putBack i f hi =>
    apply (h.stay i (.inr rfl)).push
    apply h.named i f
    rw [hi]
    rfl
  | readTerm i f hi hf => exact h.stay i (.inl (by rw [hi]; rfl))
  | readState i f hi hf => exact h.stay i (.inl (by rw [hi]; rfl))
  | resumeFail i f wrapper hi hf => exact h.stay i (.inr rfl)
  | resume i f wrapper hi hf =>
    apply (h.stay i (.inl (by rw [hi]; rfl))).set
    apply h.held_lt (i := i)
    rw [hi]
    rfl
  | yieldFail i f wrapper hi hf => exact h.stay i (.inr rfl)
  | yieldTerm i f wrapper hi hf => exact h.stay i (.inl (by rw [hi]; rfl))
  | yield i f wrapper hi hf =>
    apply (h.stay i (.inl (by rw [hi]; rfl))).set
    apply h.held_lt (i := i)
    rw [hi]
    rfl
  | holdFail i f wrapper hi hf => exact h.stay i (.inr rfl)
  | hold i f wrapper hi hf =>
    apply (h.stay i (.inl (by rw [hi]; rfl))).set
    apply h.held_lt (i := i)
    rw [hi]
    rfl
  | finish i f wrapper hi =>
    apply (h.stay i (.inl (by rw [hi]; rfl))).set
    apply h.held_lt (i := i)
    rw [hi]
    rfl
  | checkFail i f hi hf => exact h.stay i (.inr rfl)
  | checkReady i f wrapper hi hf => exact h.stay i (.inl (by rw [hi]; rfl))
  | checkOther i f wrapper hi hf => exact h.stay i (.inl (by rw [hi]; rfl))
  | requeue i f hi =>
    apply (h.stay i (.inl (by rw [hi]; rfl))).push
    apply h.held_lt (i := i)
    rw [hi]
    rfl
  | unlock i f hi =>
    apply (h.stay i (.inr rfl)).set
    apply h.held_lt (i := i)
    rw [hi]
    rfl
  | uncount i hi => exact h.stay i (.inr rfl)

def State.Exclusive (s : State n) : Prop :=
  Run.Exclusive s.worker s.fiber

theorem exclusive_start : (State.start n).Exclusive where
  lock := by
    apply Ownership.none
    intro i
    rfl
  allowed := by simp [State.start, Pc.held]
  free := by simp [State.start, Fiber.new]
  asserted := by simp [State.start]

theorem exclusive_step (hb : s.Bounded) (h : s.Exclusive) (hs : Step s a t) : t.Exclusive := by
  unfold State.Exclusive at *
  have hallow : ∀ i, ∀ f, (s.worker i).held = some f → (s.worker i).allows (s.fiber f).state :=
    h.allowed
  cases hs with
  | create => exact h.fresh _ hb.not_held (by simp [Fiber.new])
  | submit q => exact h
  | submitFiber q f hf => exact h
  | popNone i hi hq => apply h.move i <;> simp [hi, Pc.held]
  | pop i task rest hi hq => apply h.move i <;> simp [hi, Pc.held]
  | stealMiss i ownsLock k hi hk hmiss => apply h.move i <;> simp [hi, Pc.held]
  | steal i q task rest k hi hk hv hq => apply h.move i <;> simp [hi, Pc.held]
  | stealNone i ownsLock k hi hk => apply h.move i <;> simp [hi, Pc.held]
  | exit i hi hterm => apply h.move i <;> simp [hi, Pc.held]
  | idle i hi hterm => apply h.move i <;> simp [hi, Pc.held]
  | idleReturn i term hi => apply h.move i <;> simp [hi, Pc.held]
  | count i task hi => apply h.move i <;> simp [hi, Pc.held]
  | lockFail i f hi hf => apply h.move i <;> simp [hi, Pc.held]
  | lock i f hi hf =>
    apply h.acquire i
    . exact h.lock.free hf
    . rfl
    . rfl
    . exact h.free f hf
    . simp
  | wrap i c hi =>
    apply h.acquire i
    . exact hb.not_held
    . rfl
    . rfl
    . simp [Pc.allows, Fiber.new]
    . simp
  | putBack i f hi => apply h.move i <;> simp [hi, Pc.held]
  | readTerm i f hi hf => apply h.move i <;> simp [hi, Pc.held, Pc.allows, hf]
  | readState i f hi hf =>
    have := hallow i f (by rw [hi]; rfl)
    rw [hi] at this
    apply h.move i
    . rw [hi]
      rfl
    . simp only [Pc.held, Option.some.injEq, forall_eq', Pc.allows] at this ⊢
      revert this hf
      cases (s.fiber f).state <;> simp
    . simp
  | resumeFail i f wrapper hi hf =>
    have := hallow i f (by rw [hi]; rfl)
    rw [hi] at this
    contradiction
  | resume i f wrapper hi hf =>
    apply h.act i
    . rw [hi]
      rfl
    . rfl
    . rfl
    . rfl
    . simp
  | yieldFail i f wrapper hi hf =>
    have := hallow i f (by rw [hi]; rfl)
    rw [hi] at this
    exact absurd (.inl this) hf
  | yieldTerm i f wrapper hi hf => apply h.move i <;> simp [hi, Pc.held, Pc.allows, hf]
  | yield i f wrapper hi hf =>
    apply h.act i
    . rw [hi]
      rfl
    . rfl
    . rfl
    . simp [Pc.allows]
    . simp
  | holdFail i f wrapper hi hf =>
    have := hallow i f (by rw [hi]; rfl)
    rw [hi] at this
    contradiction
  | hold i f wrapper hi hf =>
    apply h.act i
    . rw [hi]
      rfl
    . rfl
    . rfl
    . simp [Pc.allows]
    . simp
  | finish i f wrapper hi =>
    apply h.act i
    . rw [hi]
      rfl
    . rfl
    . rfl
    . simp [Pc.allows]
    . simp
  | checkFail i f hi hf =>
    have := hallow i f (by rw [hi]; rfl)
    rw [hi] at this
    contradiction
  | checkReady i f wrapper hi hf => apply h.move i <;> simp [hi, Pc.held, Pc.allows, hf]
  | checkOther i f wrapper hi hf =>
    have := hallow i f (by rw [hi]; rfl)
    rw [hi] at this
    apply h.move i
    . rw [hi]
      rfl
    . simpa [Pc.held, Pc.allows] using this
    . simp
  | requeue i f hi =>
    have := hallow i f (by rw [hi]; rfl)
    rw [hi] at this
    apply h.move i
    . rw [hi]
      rfl
    . simp_all [Pc.held, Pc.allows]
    . simp
  | unlock i f hi =>
    have := hallow i f (by rw [hi]; rfl)
    rw [hi] at this
    apply h.release i
    . rw [hi]
      rfl
    . rfl
    . rfl
    . exact this
    . simp
  | uncount i hi => apply h.move i <;> simp [hi, Pc.held]

theorem reachable_bounded (h : (machine n).Reachable s) : s.Bounded := by
  apply h.invariant
  . intro s hs
    rw [hs]
    exact bounded_start
  . intro s a t hs _ hat
    exact bounded_step hs (Step.of_step hat)

theorem reachable_exclusive (h : (machine n).Reachable s) : s.Exclusive := by
  apply h.invariant_with
  . intro s hs
    exact reachable_bounded hs
  . intro s hs
    rw [hs]
    exact exclusive_start
  . intro s a t hb hs _ hat
    exact exclusive_step hb hs (Step.of_step hat)

theorem term_step (hb : s.Bounded) (hs : Step s a t)
    (hf : (s.fiber f).state = .kTerm)
    : (t.fiber f).state = .kTerm := by
  have hlt : f ≠ s.fibers := by
    intro hfs
    have := (hb.fresh f (Nat.le_of_eq hfs.symm)).left
    simp [this, Fiber.new] at hf
  have hheld : ∀ g, (s.fiber g).state ≠ .kTerm → f ≠ g := by
    intro g hg hfg
    exact hg (hfg ▸ hf)
  cases hs with
  | create => simpa [hlt] using hf
  | wrap i c hi => simpa [hlt] using hf
  | lock i g hi hg =>
    by_cases hfg : f = g
    . simpa [hfg] using hfg ▸ hf
    . simpa [hfg] using hf
  | resume i g wrapper hi hg =>
    have : f ≠ g := by
      apply hheld
      intro hterm
      simp [hterm] at hg
    simpa [this] using hf
  | yield i g wrapper hi hg => simpa [hheld g (by simp [hg])] using hf
  | hold i g wrapper hi hg => simpa [hheld g (by simp [hg])] using hf
  | finish i g wrapper hi =>
    by_cases hfg : f = g
    . simp [hfg]
    . simpa [hfg] using hf
  | unlock i g hi =>
    by_cases hfg : f = g
    . simpa [hfg] using hfg ▸ hf
    . simpa [hfg] using hf
  | _ => exact hf

/--
A fiber never runs on two workers, whatever entries name it and whoever pushes them.
-/
theorem fiber_exclusive (h : (machine n).Reachable s)
    : (∀ i j f, (s.worker i).held = some f → (s.worker j).held = some f → i = j)
        ∧
      (∀ f, (s.fiber f).execute = false →
        (s.fiber f).state = .kReady ∨ (s.fiber f).state = .kHold ∨ (s.fiber f).state = .kTerm)
        ∧
      (∀ i, s.worker i ≠ .aborted)
        ∧
      (∀ f t, (s.fiber f).state = .kTerm → (machine n).Steps Machine.free s t →
        (t.fiber f).state = .kTerm ∧ ∀ i wrapper, t.worker i ≠ .resuming f wrapper)
    := by
  have hex := reachable_exclusive h
  refine ⟨hex.lock.unique, ?_, hex.asserted, ?_⟩
  . intro f hf
    have := hex.free f hf
    revert this
    cases (s.fiber f).state <;> simp
  . intro f t hf hst
    have ht := h.steps hst
    have hterm : (t.fiber f).state = .kTerm := by
      have := hst.keeps (I := fun r => (machine n).Reachable r ∧ (r.fiber f).state = .kTerm)
        ⟨h, hf⟩ ?_
      . exact this.right
      . intro r a r' hr ha hrr'
        refine ⟨hr.left.tail ha hrr', ?_⟩
        exact term_step (reachable_bounded hr.left) (Step.of_step hrr') hr.right
    refine ⟨hterm, ?_⟩
    intro i wrapper hi
    have := (reachable_exclusive ht).allowed i f (by rw [hi]; rfl)
    rw [hi] at this
    simp [Pc.allows, hterm] at this

-- Worker 1 finds an entry for fiber 0 while worker 0 is still inside that fiber
def wokenEarly : List (Action 2) :=
  [.submit 0, .pop 0, .count 0, .tryLock 0, .resume 0, .submitFiber 1 0, .pop 1, .count 1,
    .tryLock 1]

theorem fiber_exclusive_wokenEarly
    : ∃ s,
        (machine 2).exec (State.start 2) wokenEarly = some s
          ∧
        s.worker 0 = .running 0 true ∧ s.worker 1 = .lockFailed 0
          ∧
        (∀ i j f, (s.worker i).held = some f → (s.worker j).held = some f → i = j)
    := by
  have h : (machine 2).exec (State.start 2) wokenEarly = some _ := rfl
  refine ⟨_, h, rfl, rfl, ?_⟩
  apply (fiber_exclusive (Machine.Reachable.of_exec _ rfl h)).left

end Run
end Koro
