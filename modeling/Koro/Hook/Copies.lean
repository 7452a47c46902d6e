import Koro.Hook.Step
import Koro.Scheduler.Exclusive

/-!
This module contains the copies of a wait's callback, from `triggerEvent` to their execution, and the
proof that none is lost on the way.
-/

namespace Koro

namespace Run

open Function (update)

variable {n : Nat} {s t : State n} {a : Action n} {c : CallbackId}

-- The callback is the entry in the worker's hand, or the fiber made for it is entered or runs
def Pc.brings (wraps : FiberId → Option CallbackId) (c : CallbackId) : Pc → Bool
  | .popped task => task = .cb c
  | .counted task => task = .cb c
  | .resuming f _ => wraps f = some c
  | .running f _ => wraps f = some c
  | _ => false

def State.Brings (s : State n) (c : CallbackId) : Prop :=
  (∃ q, .cb c ∈ s.tasks q) ∨ ∃ i, (s.worker i).brings s.wraps c = true

instance (s : State n) (c : CallbackId) : Decidable (s.Brings c) :=
  inferInstanceAs (Decidable ((∃ q, .cb c ∈ s.tasks q) ∨ ∃ i, (s.worker i).brings s.wraps c = true))

theorem brings_queue (h : Step s a t) (hq : .cb c ∈ s.tasks q) : t.Brings c := by
  have happend : ∀ {p l}, .cb c ∈ update s.tasks p (s.tasks p ++ l) q := by
    intro p l
    by_cases hqp : q = p
    . subst hqp
      simp [hq]
    . rwa [Function.update_of_ne hqp]
  cases h with
  | submit p => exact .inl ⟨q, happend⟩
  | submitFiber p f hf => exact .inl ⟨q, happend⟩
  | putBack i f hi => exact .inl ⟨q, happend⟩
  | requeue i f hi => exact .inl ⟨q, happend⟩
  | pop i task rest hi hi' =>
    by_cases hqi : q = i
    . subst hqi
      rw [hi', List.mem_cons] at hq
      cases hq with
      | inl htask => exact .inr ⟨q, by simp [Pc.brings, htask]⟩
      | inr hrest => exact .inl ⟨q, by simpa using hrest⟩
    . exact .inl ⟨q, by simpa [hqi] using hq⟩
  | steal i v task rest k hi hk hv hv' =>
    by_cases hqv : q = v
    . subst hqv
      rw [hv', List.mem_append, List.mem_singleton] at hq
      cases hq with
      | inl hrest => exact .inl ⟨q, by simpa using hrest⟩
      | inr htask => exact .inr ⟨i, by simp [Pc.brings, htask]⟩
    . exact .inl ⟨q, by simpa [hqv] using hq⟩
  | _ => exact .inl ⟨q, hq⟩

-- A worker keeps it until it leaves the fiber
theorem brings_hand (hb : s.Bounded) (hex : s.Exclusive) (h : Step s a t)
    (hi : (s.worker i).brings s.wraps c = true)
    (hleave : ∀ f b, s.worker i = .running f b → s.wraps f = some c →
      a ≠ .yield i ∧ a ≠ .hold i ∧ a ≠ .finish i)
    : (t.worker i).brings t.wraps c = true := by
  have hresuming : ∀ f b, s.worker i = .resuming f b →
      f ≠ s.fibers ∧ ((s.fiber f).state = .kReady ∨ (s.fiber f).state = .kHold) := by
    intro f b hf
    have hheld : (s.worker i).held = some f := by rw [hf]; rfl
    have hallowed := hex.allowed i f hheld
    rw [hf] at hallowed
    exact ⟨Nat.ne_of_lt (hb.held_lt hheld), hallowed⟩
  have hrunning : ∀ f b, s.worker i = .running f b → f ≠ s.fibers := by
    intro f b hf
    apply Nat.ne_of_lt
    apply hb.held_lt (i := i)
    rw [hf]
    rfl
  cases h with
  | wrap j d hj =>
    by_cases hij : i = j
    . subst hij
      simp only [hj, Pc.brings, decide_eq_true_eq, ScheduledTask.cb.injEq] at hi
      simp [Pc.brings, hi]
    . simp only [Function.update_of_ne hij]
      cases hp : s.worker i with
      | resuming f b => simpa [hp, Pc.brings, (hresuming f b hp).left] using hi
      | running f b => simpa [hp, Pc.brings, hrunning f b hp] using hi
      | _ => simp_all [Pc.brings]
  | _ => grind [Function.update_apply, Pc.brings]

theorem brings_step (hb : s.Bounded) (hex : s.Exclusive) (h : Step s a t) (hs : s.Brings c)
    (hleave : ∀ i f b, s.worker i = .running f b → s.wraps f = some c →
      a ≠ .yield i ∧ a ≠ .hold i ∧ a ≠ .finish i)
    : t.Brings c := by
  cases hs with
  | inl hqueue =>
    rcases hqueue with ⟨q, hq⟩
    exact brings_queue h hq
  | inr hhand =>
    rcases hhand with ⟨i, hi⟩
    exact .inr ⟨i, brings_hand hb hex h hi (hleave i)⟩

theorem running_step (h : Step s a t) (hi : s.worker i = .running f b)
    (ha : a ≠ .yield i ∧ a ≠ .hold i ∧ a ≠ .finish i)
    : t.worker i = .running f b := by
  cases h <;> grind [Function.update_apply]

-- The callbacks that are anywhere have been pushed
structure State.Issued (s : State n) : Prop where
  queued : ∀ q c, .cb c ∈ s.tasks q → c < s.callbacks
  hand : ∀ i c, s.worker i = .popped (.cb c) ∨ s.worker i = .counted (.cb c) → c < s.callbacks
  wraps : ∀ f c, s.wraps f = some c → c < s.callbacks

theorem issued_queue {q p : Fin n} {task : ScheduledTask} (h : s.Issued)
    (hc : .cb c ∈ update s.tasks p (s.tasks p ++ [task]) q)
    : c < s.callbacks ∨ task = .cb c := by
  by_cases hqp : q = p
  . subst hqp
    rw [Function.update_self, List.mem_append, List.mem_singleton] at hc
    cases hc with
    | inl hold => exact .inl (h.queued q c hold)
    | inr hnew => exact .inr hnew.symm
  . rw [Function.update_of_ne hqp] at hc
    exact .inl (h.queued q c hc)

theorem queued_step (h : s.Issued) (hs : Step s a t)
    : ∀ q c, .cb c ∈ t.tasks q → c < t.callbacks := by
  intro q c hc
  cases hs with
  | submit p =>
    cases issued_queue h hc with
    | inl hold => exact Nat.lt_succ_of_lt hold
    | inr hnew =>
      cases hnew
      exact Nat.lt_succ_self _
  | submitFiber p f hf => simpa using issued_queue h hc
  | putBack i f hi => simpa using issued_queue h hc
  | requeue i f hi => simpa using issued_queue h hc
  | pop i task rest hi hq =>
    apply h.queued q c
    by_cases hqi : q = i
    . subst hqi
      rw [hq]
      exact List.mem_cons_of_mem task (by simpa using hc)
    . simpa [hqi] using hc
  | steal i v task rest k hi hk hv hq =>
    apply h.queued q c
    by_cases hqv : q = v
    . subst hqv
      rw [hq]
      exact List.mem_append_left [task] (by simpa using hc)
    . simpa [hqv] using hc
  | _ => exact h.queued q c hc

theorem callbacks_step (h : Step s a t) : s.callbacks ≤ t.callbacks := by
  cases h <;> first | exact Nat.le_refl _ | exact Nat.le_succ _

theorem issued_step (h : s.Issued) (hs : Step s a t) : t.Issued where
  queued := queued_step h hs
  hand := by
    intro i c
    have := h.hand
    have := h.queued
    cases hs <;> first
      | exact h.hand i c
      | grind [Function.update_apply]
  wraps := by
    intro f c
    have := h.wraps
    have := h.hand
    cases hs <;> first
      | exact h.wraps f c
      | grind [Function.update_apply]

theorem reachable_issued (h : (machine n).Reachable s) : s.Issued := by
  apply h.invariant
  . intro s hs
    rw [hs]
    constructor <;> simp [State.start]
  . intro s a t hs _ hat
    exact issued_step hs (Step.of_step hat)

-- A fiber wraps what it did, or has just been made
theorem wraps_step (h : Step s a t) (hf : f < t.fibers) (hwraps : t.wraps f = some c)
    : f < s.fibers ∧ s.wraps f = some c ∨ f = s.fibers := by
  cases h <;> grind [Function.update_apply]

end Run

namespace Hook

open Function (update)

variable {n : Nat} {s t : State n} {act : Action n}

-- The copy that `triggerEvent` has made and not pushed yet
def Dispatch.copy : Dispatch → Option Body
  | .push _ _ cb _ _ => some cb
  | _ => Option.none

def State.Flying (s : State n) (w : WaitId) : Prop :=
  ∃ i, (s.dispatch i).copy = some (.wake w)

instance (s : State n) (w : WaitId) : Decidable (s.Flying w) :=
  inferInstanceAs (Decidable (∃ i, (s.dispatch i).copy = some (.wake w)))

-- A copy in a task queue or in a worker's hand, before its `exchange`
def State.Queued (s : State n) (w : WaitId) : Prop :=
  ∃ c < s.core.callbacks, s.body c = .wake w ∧ s.core.Brings c
    ∧ ∀ f < s.core.fibers, s.core.wraps f = some c → s.ctl f = .user

instance (s : State n) (w : WaitId) : Decidable (s.Queued w) :=
  inferInstanceAs (Decidable (∃ c < s.core.callbacks, s.body c = .wake w ∧ s.core.Brings c
    ∧ ∀ f < s.core.fibers, s.core.wraps f = some c → s.ctl f = .user))

-- A worker executes a copy, between its `exchange` and its push
def State.Pushing (s : State n) (w : WaitId) : Prop :=
  ∃ i, (s.running i).map Prod.snd = some (.push w)

instance (s : State n) (w : WaitId) : Decidable (s.Pushing w) :=
  inferInstanceAs (Decidable (∃ i, (s.running i).map Prod.snd = some (.push w)))

def State.Copied (s : State n) (w : WaitId) : Prop :=
  s.Flying w ∨ s.Queued w ∨ s.Pushing w

instance (s : State n) (w : WaitId) : Decidable (s.Copied w) :=
  inferInstanceAs (Decidable (s.Flying w ∨ s.Queued w ∨ s.Pushing w))

theorem flying_iff
    : s.Flying w ↔ ∃ i ch ev triggers evs, s.dispatch i = .push ch ev (.wake w) triggers evs := by
  apply exists_congr
  intro i
  cases s.dispatch i <;> simp [Dispatch.copy]

theorem pushing_iff : s.Pushing w ↔ ∃ i f b, s.core.worker i = .running f b ∧ s.ctl f = .push w := by
  apply exists_congr
  intro i
  unfold State.running
  cases s.core.worker i <;> simp

-- What a fiber that `run` has not made yet is about to do
def State.Fresh (s : State n) : Prop :=
  ∀ f, s.core.fibers ≤ f → s.ctl f = .user

theorem running_lt (hb : s.core.Bounded) (hi : s.core.worker i = .running f b)
    : f < s.core.fibers := by
  apply hb.held_lt (i := i)
  rw [hi]
  rfl

theorem fibers_step {c c' : Run.State n} (h : Run.step c a = some c') : c.fibers ≤ c'.fibers := by
  cases Run.Step.of_step h <;> first | exact Nat.le_refl _ | exact Nat.le_succ _

theorem fresh_step (hb : s.core.Bounded) (h : s.Fresh) (hs : Step s act t) : t.Fresh := by
  intro g hg
  have hcore : s.core.fibers ≤ g → s.ctl g = .user := h g
  have hother : ∀ {i f b}, s.core.worker i = .running f b → s.core.fibers ≤ g → g ≠ f := by
    intro i f b hi hle
    exact Nat.ne_of_gt (Nat.lt_of_lt_of_le (running_lt hb hi) hle)
  have hle : ∀ {a core}, Run.step s.core a = some core → core.fibers ≤ g → s.core.fibers ≤ g := by
    intro a core hstep hg
    exact Nat.le_trans (fibers_step hstep) hg
  cases hs <;> grind [Function.update_apply]

theorem flying_step (hissued : s.core.Issued) (hs : Step s act t) (h : s.Flying w)
    : t.Flying w ∨ t.Queued w := by
  rw [flying_iff] at h ⊢
  rcases h with ⟨i, ch, ev, triggers, evs, hi⟩
  cases hs with
  | poll j evs' ready hj hd =>
    left
    refine ⟨i, ch, ev, triggers, evs, ?_⟩
    have hij : i ≠ j := by
      intro hij
      simp [← hij, hi] at hd
    simp only [Function.update_of_ne hij, hi]
  | turn j d d' hd hturn =>
    left
    refine ⟨i, ch, ev, triggers, evs, ?_⟩
    have hij : i ≠ j := by
      intro hij
      rw [← hij, hi] at hd
      subst hd
      cases hturn
    simp only [Function.update_of_ne hij, hi]
  | pushCopy j ch' ev' cb triggers' evs' q core hd hq hcore =>
    by_cases hij : i = j
    . subst hij
      rw [hi] at hd
      cases hd
      right
      cases Run.Step.of_step hcore with
      | submit =>
        refine ⟨s.core.callbacks, Nat.lt_succ_self _, by simp, .inl ⟨q, by simp⟩, ?_⟩
        intro f _ hwraps
        exact absurd (hissued.wraps f _ hwraps) (Nat.lt_irrefl _)
    . left
      refine ⟨i, ch, ev, triggers, evs, ?_⟩
      simp only [Function.update_of_ne hij, hi]
  | _ => exact .inl ⟨i, ch, ev, triggers, evs, hi⟩

-- The callback that is about to push a fiber pushes it
theorem pushing_step (hs : Step s act t) (howned : s.owned (s.wait w).fiber = true)
    (h : s.Pushing w)
    : t.Pushing w ∨ 0 < (t.wait w).pushes := by
  rw [pushing_iff] at h ⊢
  rcases h with ⟨i, f, b, hi, hctl⟩
  have hcore : ∀ {a core}, Run.step s.core a = some core →
      a ≠ .yield i ∧ a ≠ .hold i ∧ a ≠ .finish i → core.worker i = .running f b := by
    intro a core hstep ha
    exact Run.running_step (Run.Step.of_step hstep) hi ha
  have hgoto : ∀ {g c}, s.ctl g ≠ .push w → update s.ctl g c f = .push w := by
    intro g c hg
    have hfg : f ≠ g := by
      intro hfg
      rw [← hfg, hctl] at hg
      exact hg rfl
    rw [Function.update_of_ne hfg, hctl]
  cases hs with
  | run a core ha hstep =>
    exact .inl ⟨i, f, b, hcore hstep (by refine ⟨?_, ?_, ?_⟩ <;> rintro rfl <;> cases ha), hctl⟩
  | create core hstep => exact .inl ⟨i, f, b, hcore hstep (by simp), hctl⟩
  | submit q core hstep => exact .inl ⟨i, f, b, hcore hstep (by simp), hctl⟩
  | submitFiber q g core hstep => exact .inl ⟨i, f, b, hcore hstep (by simp), hctl⟩
  | leave _ j a g b' core ha hj hleave hstep =>
    left
    refine ⟨i, f, b, hcore hstep ?_, hctl⟩
    have hij : j ≠ i := by
      intro hij
      rw [hij, hi] at hj
      cases hj
      simp [hctl] at hleave
    rcases ha with rfl | rfl | rfl <;> simp [hij]
  | walk _ j g b' c c' hj hg hwalk =>
    left
    refine ⟨i, f, b, hi, hgoto ?_⟩
    intro hpush
    rw [hg] at hpush
    subst hpush
    cases hwalk with
    | pushNone _ hlost => simp [howned] at hlost
  | hold j g b' ch e w' core hj hg hstep =>
    left
    refine ⟨i, f, b, hcore hstep ?_, hgoto (by simp [hg])⟩
    have hij : j ≠ i := by
      intro hij
      rw [hij, hi] at hj
      cases hj
      simp [hctl] at hg
    simp [hij]
  | exchange j g b' w' hj hg hcalls htriggered => exact .inl ⟨i, f, b, hi, hgoto (by simp [hg])⟩
  | pushFiber j g b' w' core hj hg hstep =>
    by_cases hw : w = w'
    . right
      simp [hw]
    . left
      refine ⟨i, f, b, hcore hstep (by simp), hgoto ?_⟩
      simpa [hg] using Ne.symm hw
  | idleReturn j term core hd hstep => exact .inl ⟨i, f, b, hcore hstep (by simp), hctl⟩
  | openFile fd nonBlock hfile => exact .inl ⟨i, f, b, hi, hctl⟩
  | poll j evs ready hj hd => exact .inl ⟨i, f, b, hi, hctl⟩
  | turn j d d' hd hturn => exact .inl ⟨i, f, b, hi, hctl⟩
  | pushCopy j ch ev cb triggers evs q core hd hq hstep =>
    exact .inl ⟨i, f, b, hcore hstep (by simp), hctl⟩
  | _ => exact .inl ⟨i, f, b, hi, hgoto (by simp [‹s.ctl _ = _›])⟩

-- Steps of `run` move a copy from place to place
theorem queued_core (hb : s.core.Bounded) (hex : s.core.Exclusive) (hfresh : s.Fresh)
    (hcore : Run.step s.core a = some core) (hc : c < s.core.callbacks)
    (hbrings : s.core.Brings c) (huser : ∀ f < s.core.fibers, s.core.wraps f = some c → s.ctl f = .user)
    (hleave : ∀ i f b, s.core.worker i = .running f b → s.core.wraps f = some c →
      a ≠ .yield i ∧ a ≠ .hold i ∧ a ≠ .finish i)
    : c < core.callbacks ∧ core.Brings c
        ∧ ∀ f < core.fibers, core.wraps f = some c → s.ctl f = .user := by
  have hstep := Run.Step.of_step hcore
  refine ⟨Nat.lt_of_lt_of_le hc (Run.callbacks_step hstep),
    Run.brings_step hb hex hstep hbrings hleave, ?_⟩
  intro f hf hwraps
  cases Run.wraps_step hstep hf hwraps with
  | inl hold => exact huser f hold.left hold.right
  | inr hnew => exact hfresh f (Nat.le_of_eq hnew.symm)

theorem queued_step (hb : s.core.Bounded) (hex : s.core.Exclusive) (hfresh : s.Fresh)
    (hs : Step s act t) (h : s.Queued w) (htriggered : (s.wait w).triggered = false)
    : t.Queued w ∨ t.Pushing w := by
  rw [pushing_iff]
  rcases h with ⟨c, hc, hbody, hbrings, huser⟩
  have hcalls : ∀ {f}, s.core.wraps f = some c → s.calls f = .wake w := by
    intro f hf
    simp only [State.calls, hf, hbody]
  have hrun : ∀ {a core}, Run.step s.core a = some core →
      (∀ i, a ≠ .yield i ∧ a ≠ .hold i ∧ a ≠ .finish i) →
      c < core.callbacks ∧ core.Brings c
        ∧ ∀ f < core.fibers, core.wraps f = some c → s.ctl f = .user := by
    intro a core hcore ha
    exact queued_core hb hex hfresh hcore hc hbrings huser (fun i _ _ _ _ => ha i)
  have hnew : ∀ {cb}, update s.body s.core.callbacks cb c = .wake w := by
    intro cb
    rw [Function.update_of_ne (Nat.ne_of_lt hc), hbody]
  have hgoto : ∀ {g c' f}, s.ctl g ≠ .user → s.ctl f = .user → update s.ctl g c' f = .user := by
    intro g c' f hg hf
    have hfg : f ≠ g := by
      intro hfg
      exact hg (hfg ▸ hf)
    rw [Function.update_of_ne hfg, hf]
  have hleft : ∀ {g c'}, s.ctl g ≠ .user → ∀ f < s.core.fibers, s.core.wraps f = some c →
      update s.ctl g c' f = .user := by
    intro g c' hg f hf hwraps
    exact hgoto hg (huser f hf hwraps)
  cases hs with
  | run a core ha hcore =>
    rcases hrun hcore (by intro i; refine ⟨?_, ?_, ?_⟩ <;> rintro rfl <;> cases ha) with ⟨h₁, h₂, h₃⟩
    exact .inl ⟨c, h₁, hbody, h₂, h₃⟩
  | create core hcore =>
    rcases hrun hcore (by simp) with ⟨h₁, h₂, h₃⟩
    exact .inl ⟨c, h₁, hbody, h₂, h₃⟩
  | submit q core hcore =>
    rcases hrun hcore (by simp) with ⟨h₁, h₂, h₃⟩
    exact .inl ⟨c, h₁, hnew, h₂, h₃⟩
  | submitFiber q g core hcore =>
    rcases hrun hcore (by simp) with ⟨h₁, h₂, h₃⟩
    exact .inl ⟨c, h₁, hbody, h₂, h₃⟩
  | leave _ j a g b core ha hj hleave hcore =>
    -- The fiber left is not the one made for the copy
    have hother : s.core.wraps g ≠ some c := by
      intro hwraps
      have := huser g (running_lt hb hj) hwraps
      simp [this, hcalls hwraps] at hleave
    rcases queued_core hb hex hfresh hcore hc hbrings huser (by
      intro i f b' hi hwraps
      have hij : j ≠ i := by
        intro hij
        rw [hij, hi] at hj
        cases hj
        exact hother hwraps
      rcases ha with rfl | rfl | rfl <;> simp [hij]) with ⟨h₁, h₂, h₃⟩
    exact .inl ⟨c, h₁, hbody, h₂, h₃⟩
  | walk _ j g b c₀ c' hj hg hwalk =>
    left
    refine ⟨c, hc, hbody, hbrings, ?_⟩
    intro f hf hwraps
    have hf' := huser f hf hwraps
    by_cases hfg : f = g
    . subst hfg
      rw [hf'] at hg
      subst hg
      cases hwalk with
      | callDoIo fd e hcalls' => simp [hcalls hwraps] at hcalls'
      | callClose fd hcalls' => simp [hcalls hwraps] at hcalls'
      | handleError ch hcalls' => simp [hcalls hwraps] at hcalls'
      | exchange w' hcalls' htrue =>
        rw [hcalls hwraps] at hcalls'
        cases hcalls'
        simp [htriggered] at htrue
    . simpa [hfg] using hf'
  | hold j g b ch e w' core hj hg hcore =>
    rcases queued_core hb hex hfresh hcore hc hbrings huser (by
      intro i f b' hi hwraps
      have hij : j ≠ i := by
        intro hij
        rw [hij, hi] at hj
        cases hj
        have := huser _ (running_lt hb hi) hwraps
        rw [hg] at this
        cases this
      simp [hij]) with ⟨h₁, h₂, h₃⟩
    left
    refine ⟨c, h₁, hbody, h₂, ?_⟩
    intro f hf hwraps
    exact hgoto (by simp [hg]) (h₃ f hf hwraps)
  | exchange j g b w' hj hg hcalls' htriggered' =>
    by_cases hwraps : s.core.wraps g = some c
    . right
      rw [hcalls hwraps] at hcalls'
      cases hcalls'
      exact ⟨j, g, b, hj, by simp⟩
    . left
      refine ⟨c, hc, hbody, hbrings, ?_⟩
      intro f hf hwraps'
      have hfg : f ≠ g := by
        intro hfg
        exact hwraps (hfg ▸ hwraps')
      simpa [hfg] using huser f hf hwraps'
  | pushFiber j g b w' core hj hg hcore =>
    rcases hrun hcore (by simp) with ⟨h₁, h₂, h₃⟩
    left
    refine ⟨c, h₁, hbody, h₂, ?_⟩
    intro f hf hwraps
    exact hgoto (by simp [hg]) (h₃ f hf hwraps)
  | idleReturn j term core hd hcore =>
    rcases hrun hcore (by simp) with ⟨h₁, h₂, h₃⟩
    exact .inl ⟨c, h₁, hbody, h₂, h₃⟩
  | openFile fd nonBlock hfile => exact .inl ⟨c, hc, hbody, hbrings, huser⟩
  | poll j evs ready hj hd => exact .inl ⟨c, hc, hbody, hbrings, huser⟩
  | turn j d d' hd hturn => exact .inl ⟨c, hc, hbody, hbrings, huser⟩
  | pushCopy j ch ev cb triggers evs q core hd hq hcore =>
    rcases hrun hcore (by simp) with ⟨h₁, h₂, h₃⟩
    exact .inl ⟨c, h₁, hnew, h₂, h₃⟩
  | _ => exact .inl ⟨c, hc, hbody, hbrings, hleft (by simp [‹s.ctl _ = _›])⟩

end Hook
end Koro
