import Koro.Scheduler.Calls
import Koro.Scheduler.Conserve

/-!
This module contains the proof that the workers keep every callback whatever entries are pushed for
fibers: one that has not finished is in a queue, with a worker, or in a fiber that is on hold. It is what
is left of the conservation of callbacks where fibers are woken, also while they are still running, or
more than once.
-/

namespace Koro
namespace Run

open Function (update)

variable {n : Nat} {s t : State n} {a : Action n} {c : CallbackId}

def State.Somewhere (s : State n) (c : CallbackId) : Prop :=
  (∃ q, ∃ task ∈ s.tasks q, task.carries s.wraps c = true)
    ∨ (∃ i, (s.worker i).carries s.wraps s.fiber c = true)
    ∨ (∃ f < s.fibers, heldFor s.wraps s.fiber c f = true)
    ∨ c ∈ s.finished

structure State.Kept (s : State n) : Prop where
  somewhere : ∀ c < s.callbacks, s.Somewhere c
  cbs : ∀ f, (s.fiber f).state ≠ .kTerm → (s.fiber f).cb = s.wraps f
  term : ∀ f c, s.wraps f = some c → (s.fiber f).state = .kTerm → c ∈ s.finished

-- An entry goes from its queue into the hands of a worker
theorem task_step (hs : Step s a t) (h : task ∈ s.tasks q)
    : task ∈ t.tasks q ∨ ∃ i, t.worker i = .popped task := by
  have htake : ∀ {i p : Fin n} {first : ScheduledTask} {rest : List ScheduledTask},
      (task ∈ s.tasks p → task = first ∨ task ∈ rest) →
      task ∈ update s.tasks p rest q ∨ ∃ j, update s.worker i (.popped first) j = .popped task := by
    intro i p first rest hp
    by_cases hq : q = p
    . subst hq
      rw [Function.update_self]
      cases hp h with
      | inl hfirst => exact .inr ⟨i, by rw [Function.update_self, hfirst]⟩
      | inr hrest => exact .inl hrest
    . rw [Function.update_of_ne hq]
      exact .inl h
  cases hs with
  | pop i first rest hi hq => exact htake (by simp [hq])
  | steal i p first rest k hi hk hv hq => exact htake (by simp [hq, or_comm])
  | _ => grind [Function.update_apply]

theorem wraps_kept (hb : s.Bounded) (hs : Step s a t) (hw : s.wraps f = some c) : t.wraps f = some c := by
  have hfresh := hb.fresh f
  cases hs <;> grind [Function.update_apply]

theorem carries_step (hb : s.Bounded) (hs : Step s a t) {task : ScheduledTask}
    (h : task.carries s.wraps c = true)
    : task.carries t.wraps c = true := by
  cases task with
  | fiber f =>
    simp only [ScheduledTask.carries, beq_iff_eq] at h ⊢
    exact wraps_kept hb hs h
  | cb d => exact h

theorem queue_step (hb : s.Bounded) (hs : Step s a t) (h : task ∈ s.tasks q)
    (hc : task.carries s.wraps c = true)
    : t.Somewhere c := by
  have hcarries := carries_step hb hs hc
  rcases task_step hs h with hstill | ⟨i, hi⟩
  . exact .inl ⟨q, task, hstill, hcarries⟩
  . refine .inr (.inl ⟨i, ?_⟩)
    rw [hi]
    exact hcarries

theorem state_other (hex : s.Exclusive) (hs : Step s a t) (hi : (s.worker i).held = some f)
    (hactor : a.actor ≠ some i) (hf : f < s.fibers)
    : (t.fiber f).state = (s.fiber f).state := by
  have hother : ∀ {j g}, some j ≠ some i → (s.worker j).held = some g → f ≠ g := by
    intro j g hj hg hfg
    exact hj (congrArg some (hex.lock.unique j i g hg (hfg ▸ hi)))
  have hkeep : ∀ {g b}, f ≠ g → (update s.fiber g b f).state = (s.fiber f).state := by
    intro g b hg
    rw [Function.update_of_ne hg]
  cases hs with
  | create => exact hkeep (Nat.ne_of_lt hf)
  | wrap => exact hkeep (Nat.ne_of_lt hf)
  | lock j g hj hg => grind [Function.update_apply]
  | unlock j g hj => exact hkeep (hother hactor (by rw [hj]; rfl))
  | resume j g wrapper hj hg => exact hkeep (hother hactor (by rw [hj]; rfl))
  | yield j g wrapper hj hg => exact hkeep (hother hactor (by rw [hj]; rfl))
  | hold j g wrapper hj hg => exact hkeep (hother hactor (by rw [hj]; rfl))
  | finish j g wrapper hj => exact hkeep (hother hactor (by rw [hj]; rfl))
  | _ => rfl

theorem hand_other (hb : s.Bounded) (hex : s.Exclusive) (hs : Step s a t)
    (hi : (s.worker i).carries s.wraps s.fiber c = true) (hactor : a.actor ≠ some i)
    : (t.worker i).carries t.wraps t.fiber c = true := by
  have hworker := worker_other hs hactor
  have hstate : ∀ {f}, (s.worker i).held = some f → (t.fiber f).state = (s.fiber f).state := by
    intro f hf
    exact state_other hex hs hf hactor (hb.held_lt hf)
  rw [hworker]
  cases hpc : s.worker i <;> rw [hpc] at hi hstate <;>
    simp only [Pc.carries, Bool.and_eq_true, beq_iff_eq, decide_eq_true_eq, Bool.false_eq_true] at hi ⊢
  . exact carries_step hb hs hi
  . exact carries_step hb hs hi
  . exact wraps_kept hb hs hi
  . exact wraps_kept hb hs hi
  . exact wraps_kept hb hs hi
  . exact wraps_kept hb hs hi
  . exact ⟨wraps_kept hb hs hi.left, by rw [hstate rfl, hi.right]⟩
  . exact wraps_kept hb hs hi

-- What becomes of the callback that worker `i` carries when it takes a step itself
theorem hand_own (hb : s.Bounded) (hex : s.Exclusive) (ht : t.Exclusive) (h : s.Kept)
    (hs : Step s a t) (hi : (s.worker i).carries s.wraps s.fiber c = true)
    (hactor : a.actor = some i)
    : t.Somewhere c := by
  cases hs with
  | create => cases hactor
  | submit => cases hactor
  | submitFiber => cases hactor
  | readTerm j f hj hf =>
    cases hactor
    simp only [hj, Pc.carries, beq_iff_eq] at hi
    exact .inr (.inr (.inr (h.term f c hi hf)))
  | putBack j f hj =>
    cases hactor
    simp only [hj, Pc.carries] at hi
    exact .inl ⟨i, .fiber f, by simp, hi⟩
  | requeue j f hj =>
    cases hactor
    simp only [hj, Pc.carries] at hi
    exact .inl ⟨i, .fiber f, by simp, hi⟩
  | hold j f wrapper hj hf =>
    cases hactor
    simp only [hj, Pc.carries] at hi
    refine .inr (.inr (.inl ⟨f, hb.held_lt (by rw [hj]; rfl), ?_⟩))
    simp [heldFor, hi]
  | finish j f wrapper hj =>
    cases hactor
    simp only [hj, Pc.carries, beq_iff_eq] at hi
    have hrun := hex.allowed i f (by rw [hj]; rfl)
    simp only [hj, Pc.allows] at hrun
    have hcb := h.cbs f (by simp [hrun])
    right; right; right
    simp [hcb, hi]
  | yieldTerm j f wrapper hj hf =>
    have := hex.allowed j f (by rw [hj]; rfl)
    simp [hj, Pc.allows, hf] at this
  | checkOther j f wrapper hj hf =>
    cases hactor
    simp [hj, Pc.carries, hf] at hi
  | resumeFail j f wrapper hj hf => exact absurd (Function.update_self j _ _) (ht.asserted j)
  | yieldFail j f wrapper hj hf => exact absurd (Function.update_self j _ _) (ht.asserted j)
  | holdFail j f wrapper hj hf => exact absurd (Function.update_self j _ _) (ht.asserted j)
  | checkFail j f hj hf => exact absurd (Function.update_self j _ _) (ht.asserted j)
  | _ =>
    cases hactor
    right; left
    refine ⟨i, ?_⟩
    simp_all [Pc.carries, ScheduledTask.carries]

theorem hand_step (hb : s.Bounded) (hex : s.Exclusive) (ht : t.Exclusive) (h : s.Kept)
    (hs : Step s a t) (hi : (s.worker i).carries s.wraps s.fiber c = true)
    : t.Somewhere c := by
  by_cases hactor : a.actor = some i
  . exact hand_own hb hex ht h hs hi hactor
  . exact .inr (.inl ⟨i, hand_other hb hex hs hi hactor⟩)

-- A fiber leaves `kHold` when a worker resumes it
theorem hold_step (hex : s.Exclusive) (hs : Step s a t) (hf : f < s.fibers)
    (hstate : (s.fiber f).state = .kHold)
    : (f < t.fibers ∧ (t.fiber f).state = .kHold) ∨ ∃ i wrapper, t.worker i = .running f wrapper := by
  have hrunning : ∀ i wrapper g, s.worker i = .running g wrapper → g ≠ f := by
    intro i wrapper g hi hg
    have := hex.allowed i g (by rw [hi]; rfl)
    simp [hi, Pc.allows, hg, hstate] at this
  cases hs with
  | resume i g wrapper hi hg =>
    by_cases hfg : f = g
    . exact .inr ⟨i, wrapper, by simp [hfg]⟩
    . simp [hfg, hf, hstate]
  | yield i g wrapper hi hg => simp [(hrunning i wrapper g hi).symm, hf, hstate]
  | hold i g wrapper hi hg => simp [(hrunning i wrapper g hi).symm, hf, hstate]
  | finish i g wrapper hi => simp [(hrunning i wrapper g hi).symm, hf, hstate]
  | _ => grind [Function.update_apply]

theorem held_step (hb : s.Bounded) (hex : s.Exclusive) (hs : Step s a t) (hf : f < s.fibers)
    (hheld : heldFor s.wraps s.fiber c f = true)
    : t.Somewhere c := by
  simp only [heldFor, Bool.and_eq_true, beq_iff_eq, decide_eq_true_eq] at hheld
  have hwraps := wraps_kept hb hs hheld.left
  rcases hold_step hex hs hf hheld.right with ⟨hlt, hstate⟩ | ⟨i, wrapper, hi⟩
  . refine .inr (.inr (.inl ⟨f, hlt, ?_⟩))
    simp [heldFor, hwraps, hstate]
  . refine .inr (.inl ⟨i, ?_⟩)
    simp [hi, Pc.carries, hwraps]

theorem somewhere_step (hb : s.Bounded) (hex : s.Exclusive) (ht : t.Exclusive) (h : s.Kept)
    (hs : Step s a t) (hc : s.Somewhere c)
    : t.Somewhere c := by
  rcases hc with ⟨q, task, htask, hcarries⟩ | ⟨i, hi⟩ | ⟨f, hf, hheld⟩ | hfinished
  . exact queue_step hb hs htask hcarries
  . exact hand_step hb hex ht h hs hi
  . exact held_step hb hex hs hf hheld
  . right; right; right
    cases hs with
    | finish => exact List.mem_append_left _ hfinished
    | _ => exact hfinished

theorem submitted_step (hs : Step s a t) (hc : c < t.callbacks)
    : c < s.callbacks ∨ ∃ q, .cb c ∈ t.tasks q := by
  cases hs with
  | submit q =>
    by_cases hlt : c < s.callbacks
    . exact .inl hlt
    . right
      have : c = s.callbacks := Nat.le_antisymm (Nat.le_of_lt_succ hc) (Nat.not_lt.mp hlt)
      exact ⟨q, by simp [this]⟩
  | _ => exact .inl hc

-- A fiber that has come to its end has run the callback it was made for
theorem term_finished (hex : s.Exclusive) (h : s.Kept) (hs : Step s a t) (hw : t.wraps f = some c)
    (hf : (t.fiber f).state = .kTerm)
    : c ∈ t.finished := by
  have hterm := h.term f c
  cases hs with
  | finish i g wrapper hi =>
    have hrun := hex.allowed i g (by rw [hi]; rfl)
    simp only [hi, Pc.allows] at hrun
    have hcb := h.cbs g (by simp [hrun])
    by_cases hfg : f = g
    . simp only at hw
      rw [hcb, ← hfg, hw]
      simp
    . simp only [Function.update_of_ne hfg] at hf
      exact List.mem_append_left _ (hterm hw hf)
  | _ => grind [Function.update_apply, Fiber.new]

theorem kept_start : (State.start n).Kept where
  somewhere := by simp [State.start]
  cbs := by simp [State.start, Fiber.new]
  term := by simp [State.start]

theorem kept_step (hb : s.Bounded) (hex : s.Exclusive) (ht : t.Exclusive) (h : s.Kept)
    (hs : Step s a t)
    : t.Kept where
  somewhere := by
    intro c hc
    rcases submitted_step hs hc with hbefore | ⟨q, hq⟩
    . exact somewhere_step hb hex ht h hs (h.somewhere c hbefore)
    . exact .inl ⟨q, .cb c, hq, beq_self_eq_true c⟩
  cbs := cbs_step h.cbs hb hs
  term := by
    intro f c hw hf
    exact term_finished hex h hs hw hf

theorem reachable_kept (h : (machine n).Reachable s) : s.Kept := by
  apply h.invariant_with (J := (machine n).Reachable)
  . intro s hs
    exact hs
  . intro s hs
    rw [hs]
    exact kept_start
  . intro s a t hr hs ha hat
    exact kept_step (reachable_bounded hr) (reachable_exclusive hr)
      (reachable_exclusive (hr.tail ha hat)) hs (Step.of_step hat)

theorem somewhere_at (h : s.Somewhere c) : ∃ p, s.At c p := by
  rcases h with ⟨q, task, htask, hcarries⟩ | ⟨i, hi⟩ | ⟨f, hf, hheld⟩ | hfinished
  . rcases List.getElem?_of_mem htask with ⟨k, hk⟩
    exact ⟨.queue q k, task, hk, hcarries⟩
  . exact ⟨.hand i, hi⟩
  . exact ⟨.held f, hf, hheld⟩
  . exact ⟨.finished, hfinished⟩

-- The fiber made for a callback enters its body the first time it is resumed
theorem started_step (hb : s.Bounded) (hk : s.Kept) (h : s.Once) (hs : Step s a t) (c : CallbackId)
    : t.entered.count c = starts t.fiber t.fibers t.wraps c := by
  have hset : ∀ {f fb}, fb.started = (s.fiber f).started →
      s.entered.count c = starts (update s.fiber f fb) s.fibers s.wraps c := by
    intro f fb hfb
    rw [starts_set _ _ _ _ hfb, h.entered c]
  cases hs with
  | create =>
    have halloc := starts_alloc s.fiber s.fibers s.wraps c (Fiber.new none) (s.wraps s.fibers) rfl
    rw [Function.update_eq_self] at halloc
    rw [h.entered c, halloc]
  | wrap i d hi => rw [h.entered c, starts_alloc _ _ _ _ _ _ rfl]
  | resume i f wrapper hi hf =>
    cases hstarted : (s.fiber f).started with
    | true => exact hset hstarted.symm
    | false =>
      have hterm : (s.fiber f).state ≠ .kTerm := by
        intro hterm
        simp [hterm] at hf
      have hstart := @starts_start s.fiber s.fibers s.wraps c f
        { s.fiber f with state := .kRunning, started := true }
        (hb.held_lt (by rw [hi]; rfl)) hstarted rfl
      have hcount : (s.wraps f).toList.count c = (s.wraps f == some c).toNat := by
        cases s.wraps f with
        | none => rfl
        | some d => simp [List.count_singleton, Bool.toNat]
      rw [hstart, ← h.entered c, ← hcount, ← hk.cbs f hterm]
      simp
  | _ => first | exact h.entered c | exact hset rfl

theorem reachable_started (h : (machine n).Reachable s) : s.Once := by
  apply h.invariant_with (J := (machine n).Reachable)
  . intro s hs
    exact hs
  . intro s hs
    rw [hs]
    exact once_start
  . intro s a t hr hs _ hat
    have hb := reachable_bounded hr
    have hstep := Step.of_step hat
    exact {
      wrapped := wrapped_step hb hs hstep
      entered := started_step hb (reachable_kept hr) hs hstep
    }

/--
Whatever entries are pushed for fibers, every callback submitted is in a queue, with a worker, in a
fiber that is on hold, or finished, and its body is entered at most once.
-/
theorem callback_kept (h : (machine n).Reachable s) (hc : c < s.callbacks)
    : (∃ p, s.At c p) ∧ s.entered.count c ≤ 1 := by
  constructor
  . exact somewhere_at ((reachable_kept h).somewhere c hc)
  . have honce := reachable_started h
    rw [honce.entered c]
    have hle := starts_le_wrappers s.fiber s.fibers s.wraps c
    have hwrapped := honce.wrapped c
    have : (decide (c < s.callbacks)).toNat ≤ 1 := Bool.toNat_le _
    unfold wrapped at hwrapped
    omega

-- Fiber 0 is woken twice while it runs: one entry is found while it is locked, the other when it is on hold
def wokenTwice : List (Action 2) :=
  [.submit 0, .pop 0, .count 0, .tryLock 0, .resume 0, .submitFiber 1 0, .submitFiber 1 0, .pop 1,
    .count 1, .tryLock 1, .putBack 1, .hold 0, .checkState 0, .unlock 0, .uncount 1, .pop 1, .count 1,
    .tryLock 1, .readState 1, .resume 1]

theorem callback_kept_wokenTwice
    : ∃ s,
        (machine 2).exec (State.start 2) wokenTwice = some s
          ∧
        s.worker 1 = .running 0 false ∧ s.tasks 1 = [.fiber 0]
          ∧
        (∃ p, s.At 0 p) ∧ s.entered.count 0 ≤ 1
    := by
  have h : (machine 2).exec (State.start 2) wokenTwice = some _ := rfl
  refine ⟨_, h, rfl, rfl, ?_⟩
  exact callback_kept (Machine.Reachable.of_exec _ rfl h) (by decide)

end Run
end Koro
