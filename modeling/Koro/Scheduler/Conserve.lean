import Koro.Scheduler.Exclusive
import Koro.Machine.Tally

/-!
This module contains the proof that the workers neither lose nor duplicate callbacks. The places a
callback may be at are counted, and every step moves it from one place to another; waking fibers,
that is pushing an entry for a fiber that `run` itself made, is left out here.
-/

namespace Koro

open Function (update)

def ScheduledTask.carries (wraps : FiberId → Option CallbackId) (c : CallbackId)
    : ScheduledTask → Bool
  | .fiber f => wraps f == some c
  | .cb d => d == c

namespace Run

-- The callback a worker has popped and neither put back, held nor finished
def Pc.carries (wraps : FiberId → Option CallbackId) (fiber : FiberId → Fiber) (c : CallbackId)
    : Pc → Bool
  | .popped task => task.carries wraps c
  | .counted task => task.carries wraps c
  | .lockFailed f => wraps f == some c
  | .locked f => wraps f == some c
  | .resuming f _ => wraps f == some c
  | .running f _ => wraps f == some c
  | .resumed f _ => wraps f == some c && decide ((fiber f).state = .kReady)
  | .requeue f => wraps f == some c
  | _ => false

def heldFor (wraps : FiberId → Option CallbackId) (fiber : FiberId → Fiber) (c : CallbackId)
    (f : FiberId)
    : Bool :=
  wraps f == some c && decide ((fiber f).state = .kHold)

inductive Place (n : Nat) where
  | queue (q : Fin n) (k : Nat)
  | hand (i : Fin n)
  | held (f : FiberId)
  | finished
  deriving DecidableEq, Repr

variable {n : Nat}

def State.At (s : State n) (c : CallbackId) : Place n → Prop
  | .queue q k => ∃ task, (s.tasks q)[k]? = some task ∧ task.carries s.wraps c = true
  | .hand i => (s.worker i).carries s.wraps s.fiber c = true
  | .held f => f < s.fibers ∧ heldFor s.wraps s.fiber c f = true
  | .finished => c ∈ s.finished

-- An entry pushed from outside of `run` names no fiber that `run` made
def NotWoken (s : State n) (a : Action n) : Prop :=
  ∀ q f, a = .submitFiber q f → s.wraps f = none

section Count

variable (tasks : Fin n → List ScheduledTask) (worker : Fin n → Pc) (fiber : FiberId → Fiber)
  (fibers : Nat) (wraps : FiberId → Option CallbackId) (finished : List CallbackId)
  (c : CallbackId)

def inQueues : Nat :=
  ∑ q, (tasks q).countP (ScheduledTask.carries wraps c)

def inHands : Nat :=
  ∑ i, ((worker i).carries wraps fiber c).toNat

def inHold : Nat :=
  ∑ f ∈ Finset.range fibers, (heldFor wraps fiber c f).toNat

def places : Nat :=
  inQueues tasks wraps c + inHands worker fiber wraps c + inHold fiber fibers wraps c
    + finished.count c

variable {p : Pc} {f : FiberId} {b : Fiber}

theorem inQueues_update (q : Fin n) (l : List ScheduledTask)
    : inQueues (update tasks q l) wraps c + (tasks q).countP (ScheduledTask.carries wraps c)
        =
      inQueues tasks wraps c + l.countP (ScheduledTask.carries wraps c) := by
  apply Tally.sum_update (List.countP (ScheduledTask.carries wraps c))

theorem inQueues_push (q : Fin n) (task : ScheduledTask)
    : inQueues (update tasks q (tasks q ++ [task])) wraps c
        =
      inQueues tasks wraps c + (task.carries wraps c).toNat := by
  have := inQueues_update tasks wraps c q (tasks q ++ [task])
  rw [List.countP_append, List.countP_singleton] at this
  cases h : task.carries wraps c with
  | true =>
    simp only [h, ↓reduceIte, Bool.toNat_true] at this ⊢
    omega
  | false =>
    simp only [h, Bool.false_eq_true, ↓reduceIte, Bool.toNat_false] at this ⊢
    omega

theorem inHands_move (i : Fin n) (p : Pc)
    : inHands (update worker i p) fiber wraps c + ((worker i).carries wraps fiber c).toNat
        =
      inHands worker fiber wraps c + (p.carries wraps fiber c).toNat := by
  apply Tally.sum_update (fun p => (Pc.carries wraps fiber c p).toNat)

theorem le_inHands (i : Fin n)
    : ((worker i).carries wraps fiber c).toNat ≤ inHands worker fiber wraps c := by
  exact Tally.le_sum (w := fun j => ((worker j).carries wraps fiber c).toNat) (Finset.mem_univ i)

theorem le_inHold (hf : f < fibers)
    : (heldFor wraps fiber c f).toNat ≤ inHold fiber fibers wraps c := by
  exact Tally.le_sum (w := fun f => (heldFor wraps fiber c f).toNat) (Finset.mem_range.mpr hf)

-- Only a worker to which `f` has just returned looks at the state of `f`
theorem Pc.carries_fiber {pc : Pc}
    (h : ∀ wrapper, pc = .resumed f wrapper → b.state = (fiber f).state)
    : pc.carries wraps (update fiber f b) c = pc.carries wraps fiber c := by
  cases pc with
  | resumed g wrapper =>
    simp only [Pc.carries]
    by_cases hg : g = f
    . subst hg
      rw [Function.update_self, h wrapper rfl]
    . rw [Function.update_of_ne hg]
  | _ => rfl

theorem inHands_fiber (h : ∀ i wrapper, worker i = .resumed f wrapper → b.state = (fiber f).state)
    : inHands worker (update fiber f b) wraps c = inHands worker fiber wraps c := by
  apply Finset.sum_congr rfl
  intro i _
  rw [Pc.carries_fiber fiber wraps c (h i)]

theorem inHold_fiber (hf : f < fibers)
    : inHold (update fiber f b) fibers wraps c + (heldFor wraps fiber c f).toNat
        =
      inHold fiber fibers wraps c + (heldFor wraps (update fiber f b) c f).toNat := by
  unfold inHold
  apply Tally.sum_change (Finset.mem_range.mpr hf)
  intro g _ hg
  unfold heldFor
  rw [Function.update_of_ne hg]

theorem inQueues_alloc {w : Option CallbackId} (h : ∀ q f, .fiber f ∈ tasks q → f < fibers)
    : inQueues tasks (update wraps fibers w) c = inQueues tasks wraps c := by
  apply Finset.sum_congr rfl
  intro q _
  apply List.countP_congr
  intro task htask
  cases task with
  | fiber f =>
    have : f ≠ fibers := Nat.ne_of_lt (h q f htask)
    simp [ScheduledTask.carries, this]
  | cb d => rfl

theorem Pc.carries_alloc {pc : Pc} {w : Option CallbackId} (h : pc.named ≠ some fibers)
    : pc.carries (update wraps fibers w) fiber c = pc.carries wraps fiber c := by
  have key : ∀ f, pc.named = some f → f ≠ fibers := by
    intro f hf hff
    rw [hff] at hf
    contradiction
  cases pc with
  | popped task => cases task <;> simp_all [Pc.carries, ScheduledTask.carries, Pc.named]
  | counted task => cases task <;> simp_all [Pc.carries, ScheduledTask.carries, Pc.named]
  | _ => simp_all [Pc.carries, Pc.named, Pc.held]

theorem inHands_alloc {w : Option CallbackId} (h : ∀ i f, (worker i).named = some f → f < fibers)
    : inHands worker (update fiber fibers b) (update wraps fibers w) c
        =
      inHands worker fiber wraps c := by
  have hfresh : ∀ i, (worker i).named ≠ some fibers := by
    intro i hi
    exact Nat.lt_irrefl _ (h i fibers hi)
  rw [inHands_fiber]
  . apply Finset.sum_congr rfl
    intro i _
    rw [Pc.carries_alloc _ _ _ _ (hfresh i)]
  . intro i wrapper hi
    apply absurd _ (hfresh i)
    rw [hi]
    rfl

theorem inHold_alloc {w : Option CallbackId} (hstate : b.state = .kReady)
    : inHold (update fiber fibers b) (fibers + 1) (update wraps fibers w) c
        =
      inHold fiber fibers wraps c := by
  unfold inHold
  rw [Finset.sum_range_succ]
  have hnew : heldFor (update wraps fibers w) (update fiber fibers b) c fibers = false := by
    simp [heldFor, hstate]
  rw [hnew, Bool.toNat_false, Nat.add_zero]
  apply Finset.sum_congr rfl
  intro f hf
  have : f ≠ fibers := Nat.ne_of_lt (Finset.mem_range.mp hf)
  unfold heldFor
  rw [Function.update_of_ne this, Function.update_of_ne this]

end Count

def State.places (s : State n) (c : CallbackId) : Nat :=
  Run.places s.tasks s.worker s.fiber s.fibers s.wraps s.finished c

structure State.Conserved (s : State n) : Prop where
  total : ∀ c, s.places c = (decide (c < s.callbacks)).toNat
  cbs : ∀ f, (s.fiber f).state ≠ .kTerm → (s.fiber f).cb = s.wraps f
  term : ∀ f c, s.wraps f = some c → (s.fiber f).state = .kTerm → c ∈ s.finished

variable {s t : State n} {c : CallbackId} {f : FiberId} {i : Fin n} {p : Pc}

theorem places_start : (State.start n).places c = 0 := by
  have hqueues : inQueues (State.start n).tasks (State.start n).wraps c = 0 := by
    apply Finset.sum_eq_zero
    intro i _
    rfl
  have hhands : inHands (State.start n).worker (State.start n).fiber (State.start n).wraps c = 0 := by
    apply Finset.sum_eq_zero
    intro i _
    rfl
  unfold State.places places
  rw [hqueues, hhands]
  rfl

theorem places_move (h : p.carries s.wraps s.fiber c = (s.worker i).carries s.wraps s.fiber c)
    : places s.tasks (update s.worker i p) s.fiber s.fibers s.wraps s.finished c = s.places c := by
  have := inHands_move s.worker s.fiber s.wraps c i p
  rw [h] at this
  unfold State.places places
  omega

theorem places_take {q : Fin n} {task : ScheduledTask} {rest : List ScheduledTask}
    (hq : (s.tasks q).countP (ScheduledTask.carries s.wraps c)
      = rest.countP (ScheduledTask.carries s.wraps c) + (task.carries s.wraps c).toNat)
    (hi : (s.worker i).carries s.wraps s.fiber c = false)
    : places (update s.tasks q rest) (update s.worker i (.popped task)) s.fiber s.fibers s.wraps
        s.finished c
        =
      s.places c := by
  have hhand := inHands_move s.worker s.fiber s.wraps c i (.popped task)
  have hqueue := inQueues_update s.tasks s.wraps c q rest
  rw [hi, Bool.toNat_false] at hhand
  simp only [Pc.carries] at hhand
  unfold State.places places
  omega

theorem places_put {q : Fin n} (hi : (s.worker i).carries s.wraps s.fiber c = (s.wraps f == some c))
    (hp : p.carries s.wraps s.fiber c = false)
    : places (update s.tasks q (s.tasks q ++ [.fiber f])) (update s.worker i p) s.fiber s.fibers
        s.wraps s.finished c
        =
      s.places c := by
  have hhand := inHands_move s.worker s.fiber s.wraps c i p
  have hqueue := inQueues_push s.tasks s.wraps c q (.fiber f)
  rw [hi, hp, Bool.toNat_false] at hhand
  simp only [ScheduledTask.carries] at hqueue
  unfold State.places places
  omega

-- Worker `i` goes to `p` while fiber `f` becomes `b`
theorem places_swap {b : Fiber} {l : List CallbackId} (hf : f < s.fibers)
    (h : ∀ j wrapper, s.worker j = .resumed f wrapper → b.state = (s.fiber f).state)
    (heq : (p.carries s.wraps (update s.fiber f b) c).toNat
        + (heldFor s.wraps (update s.fiber f b) c f).toNat + l.count c
      = ((s.worker i).carries s.wraps s.fiber c).toNat + (heldFor s.wraps s.fiber c f).toNat
        + s.finished.count c)
    : places s.tasks (update s.worker i p) (update s.fiber f b) s.fibers s.wraps l c
        =
      s.places c := by
  have hhand := inHands_move s.worker (update s.fiber f b) s.wraps c i p
  have hhold := inHold_fiber s.fiber s.fibers s.wraps c (b := b) hf
  rw [inHands_fiber _ _ _ _ h, Pc.carries_fiber _ _ _ (h i)] at hhand
  unfold State.places places
  omega

theorem places_wrap {d : CallbackId} {fb : Fiber} (hb : s.Bounded)
    (hi : s.worker i = .counted (.cb d)) (hfb : fb.state = .kReady)
    : places s.tasks (update s.worker i (.resuming s.fibers true)) (update s.fiber s.fibers fb)
        (s.fibers + 1) (update s.wraps s.fibers (some d)) s.finished c
        =
      s.places c := by
  have hhand := inHands_move s.worker (update s.fiber s.fibers fb)
    (update s.wraps s.fibers (some d)) c i (.resuming s.fibers true)
  have hhold := inHold_alloc s.fiber s.fibers s.wraps c (w := some d) hfb
  have hqueue := inQueues_alloc s.tasks s.fibers s.wraps c (w := some d) hb.queued
  rw [inHands_alloc _ _ _ _ _ hb.named, hi] at hhand
  simp only [Pc.carries, ScheduledTask.carries, Function.update_self, Option.some_beq_some] at hhand
  unfold State.places places
  omega

theorem places_create (hb : s.Bounded)
    : places s.tasks s.worker (update s.fiber s.fibers (Fiber.new none)) (s.fibers + 1) s.wraps
        s.finished c
        =
      s.places c := by
  have hwraps : update s.wraps s.fibers none = s.wraps := by
    rw [← (hb.fresh s.fibers (Nat.le_refl _)).right, Function.update_eq_self]
  have hhand := inHands_alloc s.worker s.fiber s.fibers s.wraps c (b := Fiber.new none)
    (w := none) hb.named
  have hhold := inHold_alloc s.fiber s.fibers s.wraps c (b := Fiber.new none) (w := none) rfl
  rw [hwraps] at hhand hhold
  unfold State.places places
  rw [hhand, hhold]

theorem places_held_zero (h : s.Conserved) (hf : f < s.fibers) (hw : s.wraps f = some c)
    (hhand : (s.worker i).carries s.wraps s.fiber c = true)
    : (s.fiber f).state ≠ .kHold ∧ (s.fiber f).state ≠ .kTerm := by
  have htotal := h.total c
  have hin := le_inHands s.worker s.fiber s.wraps c i
  have hhold := le_inHold s.fiber s.fibers s.wraps c hf
  have hone : (decide (c < s.callbacks)).toNat ≤ 1 := Bool.toNat_le _
  unfold State.places places at htotal
  rw [hhand, Bool.toNat_true] at hin
  constructor
  . intro hstate
    simp only [heldFor, hw, hstate, beq_self_eq_true, decide_true, Bool.and_self,
      Bool.toNat_true] at hhold
    omega
  . intro hstate
    have := List.count_pos_iff.mpr (h.term f c hw hstate)
    omega

theorem conserved_total (hb : s.Bounded) (hex : s.Exclusive) (ht : t.Exclusive)
    (h : s.Conserved) (hok : NotWoken s a) (hs : Step s a t) (c : CallbackId)
    : t.places c = (decide (c < t.callbacks)).toNat := by
  have htotal := h.total c
  -- While `i` holds `f`, no other worker is about to look at the state of `f`
  have hholder : ∀ {i f}, (s.worker i).held = some f →
      (∀ wrapper, s.worker i ≠ .resumed f wrapper) →
      ∀ {fb : Fiber} j wrapper, s.worker j = .resumed f wrapper →
        fb.state = (s.fiber f).state := by
    intro i f hi hne fb j wrapper hj
    have hij := hex.lock.unique i j f hi (congrArg Pc.held hj)
    exact absurd (hij ▸ hj) (hne wrapper)
  cases hs with
  | create =>
    rw [← htotal]
    exact places_create (s := s) hb
  | submit q =>
    have hqueue := inQueues_push s.tasks s.wraps c q (.cb s.callbacks)
    unfold State.places places at htotal ⊢
    simp only [ScheduledTask.carries] at hqueue
    by_cases hc : c = s.callbacks
    . simp only [hc, beq_self_eq_true, Bool.toNat_true, Nat.lt_irrefl, Nat.lt_succ_self,
        decide_true, decide_false, Bool.toNat_false] at htotal hqueue ⊢
      omega
    . have hne : (s.callbacks == c) = false := by simpa using Ne.symm hc
      have hlt : c < s.callbacks + 1 ↔ c < s.callbacks := by
        rw [Nat.lt_succ_iff]
        exact ⟨fun hle => Nat.lt_of_le_of_ne hle hc, Nat.le_of_lt⟩
      simp only [hne, Bool.toNat_false, hlt] at hqueue ⊢
      omega
  | submitFiber q f hf =>
    have hqueue := inQueues_push s.tasks s.wraps c q (.fiber f)
    unfold State.places places at htotal ⊢
    have hne : (none == some c) = false := rfl
    simp only [ScheduledTask.carries, hok q f rfl, hne, Bool.toNat_false] at hqueue
    simp only
    omega
  | pop i task rest hi hq =>
    rw [← htotal]
    apply places_take (s := s)
    . rw [hq, List.countP_cons]
      cases task.carries s.wraps c <;> simp
    . rw [hi]
      rfl
  | steal i q task rest k hi hk hv hq =>
    rw [← htotal]
    apply places_take (s := s)
    . rw [hq, List.countP_append, List.countP_singleton]
      cases task.carries s.wraps c <;> simp
    . rw [hi]
      rfl
  | putBack i f hi =>
    rw [← htotal]
    apply places_put (s := s)
    . rw [hi]
      rfl
    . rfl
  | requeue i f hi =>
    rw [← htotal]
    apply places_put (s := s)
    . rw [hi]
      rfl
    . rfl
  | lock i f hi hf =>
    rw [← htotal]
    apply places_swap (s := s)
    . exact hb.named i f (by rw [hi]; rfl)
    . intro j wrapper _
      rfl
    . simp [hi, Pc.carries, ScheduledTask.carries, heldFor]
  | wrap i d hi =>
    rw [← htotal]
    exact places_wrap (s := s) hb hi rfl
  | readTerm i f hi hf =>
    rw [← htotal]
    apply places_move (s := s)
    have hlt : f < s.fibers := hb.held_lt (by rw [hi]; rfl)
    have hne : s.wraps f ≠ some c := by
      intro hw
      have hcarry : (s.worker i).carries s.wraps s.fiber c = true := by simp [hi, Pc.carries, hw]
      exact (places_held_zero h hlt hw hcarry).right hf
    simp [hi, Pc.carries, hne]
  | resume i f wrapper hi hf =>
    have hlt : f < s.fibers := hb.held_lt (by rw [hi]; rfl)
    have hhold : heldFor s.wraps s.fiber c f = false := by
      cases hw : s.wraps f == some c with
      | false => simp [heldFor, hw]
      | true =>
        have hcarry : (s.worker i).carries s.wraps s.fiber c = true := by
          rw [hi]
          exact hw
        simp [heldFor, (places_held_zero h hlt (by simpa using hw) hcarry).left]
    rw [← htotal]
    apply places_swap (s := s) hlt
    . exact hholder (by rw [hi]; rfl) (by simp [hi])
    . rw [hhold]
      simp [hi, Pc.carries, heldFor]
  | yield i f wrapper hi hf =>
    rw [← htotal]
    apply places_swap (s := s) (hb.held_lt (by rw [hi]; rfl))
    . exact hholder (by rw [hi]; rfl) (by simp [hi])
    . simp [hi, Pc.carries, heldFor, hf]
  | hold i f wrapper hi hf =>
    rw [← htotal]
    apply places_swap (s := s) (hb.held_lt (by rw [hi]; rfl))
    . exact hholder (by rw [hi]; rfl) (by simp [hi])
    . simp [hi, Pc.carries, heldFor, hf]
  | finish i f wrapper hi =>
    have hrun := hex.allowed i f (by rw [hi]; rfl)
    simp only [hi, Pc.allows] at hrun
    have hcb : (s.fiber f).cb = s.wraps f := h.cbs f (by simp [hrun])
    rw [← htotal]
    apply places_swap (s := s) (hb.held_lt (by rw [hi]; rfl))
    . exact hholder (by rw [hi]; rfl) (by simp [hi])
    . cases hw : s.wraps f with
      | none => simp [hi, Pc.carries, heldFor, hw, hcb]
      | some d =>
        simp [hi, Pc.carries, heldFor, hrun, hw, hcb, List.count_singleton]
        by_cases hd : d = c
        . simp [hd]
          omega
        . simp [hd]
  | unlock i f hi =>
    rw [← htotal]
    apply places_swap (s := s) (hb.held_lt (by rw [hi]; rfl))
    . intro j wrapper _
      rfl
    . simp [hi, Pc.carries, heldFor]
  | checkReady i f wrapper hi hf =>
    rw [← htotal]
    apply places_move (s := s)
    simp [hi, Pc.carries, hf]
  | checkOther i f wrapper hi hf =>
    rw [← htotal]
    apply places_move (s := s)
    simp [hi, Pc.carries, hf]
  | yieldTerm i f wrapper hi hf =>
    have := hex.allowed i f (by rw [hi]; rfl)
    rw [hi] at this
    simp [Pc.allows, hf] at this
  | resumeFail i f wrapper hi hf => exact absurd (Function.update_self i _ _) (ht.asserted i)
  | yieldFail i f wrapper hi hf => exact absurd (Function.update_self i _ _) (ht.asserted i)
  | holdFail i f wrapper hi hf => exact absurd (Function.update_self i _ _) (ht.asserted i)
  | checkFail i f hi hf => exact absurd (Function.update_self i _ _) (ht.asserted i)
  | popNone i hi hq => rw [← htotal]; exact places_move (s := s) (by rw [hi]; rfl)
  | stealMiss i ownsLock k hi hk hmiss => rw [← htotal]; exact places_move (s := s) (by rw [hi]; rfl)
  | stealNone i ownsLock k hi hk => rw [← htotal]; exact places_move (s := s) (by rw [hi]; rfl)
  | exit i hi hterm => rw [← htotal]; exact places_move (s := s) (by rw [hi]; rfl)
  | idle i hi hterm => rw [← htotal]; exact places_move (s := s) (by rw [hi]; rfl)
  | idleReturn i term hi => rw [← htotal]; exact places_move (s := s) (by rw [hi]; rfl)
  | count i task hi => rw [← htotal]; exact places_move (s := s) (by rw [hi]; rfl)
  | lockFail i f hi hf => rw [← htotal]; exact places_move (s := s) (by rw [hi]; rfl)
  | readState i f hi hf => rw [← htotal]; exact places_move (s := s) (by rw [hi]; rfl)
  | uncount i hi => rw [← htotal]; exact places_move (s := s) (by rw [hi]; rfl)

theorem cbs_step (h : ∀ f, (s.fiber f).state ≠ .kTerm → (s.fiber f).cb = s.wraps f)
    (hb : s.Bounded) (hs : Step s a t)
    : ∀ f, (t.fiber f).state ≠ .kTerm → (t.fiber f).cb = t.wraps f := by
  intro g hg
  have hset : ∀ {f : FiberId} {b : Fiber}, (b.state ≠ .kTerm → b.cb = s.wraps f) →
      (update s.fiber f b g).state ≠ .kTerm → (update s.fiber f b g).cb = s.wraps g := by
    intro f b hbcb hstate
    by_cases hgf : g = f
    . subst hgf
      rw [Function.update_self] at hstate ⊢
      exact hbcb hstate
    . rw [Function.update_of_ne hgf] at hstate ⊢
      exact h g hstate
  cases hs with
  | create =>
    apply hset _ hg
    intro _
    exact (hb.fresh s.fibers (Nat.le_refl _)).right.symm
  | wrap i c hi =>
    by_cases hgf : g = s.fibers
    . simp [hgf, Fiber.new]
    . simp only [Function.update_of_ne hgf] at hg ⊢
      exact h g hg
  | lock i f hi hf => exact hset (h f) hg
  | resume i f wrapper hi hf =>
    apply hset _ hg
    intro _
    apply h
    intro hterm
    simp [hterm] at hf
  | yield i f wrapper hi hf => exact hset (fun _ => h f (by simp [hf])) hg
  | hold i f wrapper hi hf => exact hset (fun _ => h f (by simp [hf])) hg
  | finish i f wrapper hi => exact hset (fun hterm => absurd rfl hterm) hg
  | unlock i f hi => exact hset (h f) hg
  | _ => exact h g hg

theorem finished_step (h : s.Conserved) (hex : s.Exclusive) (hs : Step s a t)
    : ∀ f c, t.wraps f = some c → (t.fiber f).state = .kTerm → c ∈ t.finished := by
  intro g c hw hg
  have hset : ∀ {f : FiberId} {b : Fiber}, (b.state = .kTerm → (s.fiber f).state = .kTerm) →
      s.wraps g = some c → (update s.fiber f b g).state = .kTerm → c ∈ s.finished := by
    intro f b hbstate hw hstate
    by_cases hgf : g = f
    . subst hgf
      rw [Function.update_self] at hstate
      exact h.term g c hw (hbstate hstate)
    . rw [Function.update_of_ne hgf] at hstate
      exact h.term g c hw hstate
  cases hs with
  | create => exact hset (by simp [Fiber.new]) hw hg
  | wrap i d hi =>
    by_cases hgf : g = s.fibers
    . simp [hgf, Fiber.new] at hg
    . simp only [Function.update_of_ne hgf] at hw hg
      exact h.term g c hw hg
  | lock i f hi hf =>
    apply hset _ hw hg
    exact id
  | resume i f wrapper hi hf => exact hset (by simp) hw hg
  | yield i f wrapper hi hf => exact hset (by simp) hw hg
  | hold i f wrapper hi hf => exact hset (by simp) hw hg
  | finish i f wrapper hi =>
    have hrun := hex.allowed i f (by rw [hi]; rfl)
    simp only [hi, Pc.allows] at hrun
    by_cases hgf : g = f
    . have hcb : (s.fiber f).cb = s.wraps f := h.cbs f (by simp [hrun])
      simp only at hw
      rw [← hgf, hw] at hcb
      simp [← hgf, hcb]
    . simp only [Function.update_of_ne hgf] at hg
      simp only [List.mem_append]
      exact .inl (h.term g c hw hg)
  | unlock i f hi =>
    apply hset _ hw hg
    exact id
  | _ => exact h.term g c hw hg

theorem conserved_start : (State.start n).Conserved where
  total := by
    intro c
    rw [places_start]
    simp [State.start]
  cbs := by simp [State.start, Fiber.new]
  term := by simp [State.start]

theorem reachable_conserved (h : (machine n).Reach NotWoken s) : s.Conserved := by
  have hfree : ∀ {s}, (machine n).Reach NotWoken s → (machine n).Reachable s := by
    intro s hs
    exact hs.mono fun _ _ _ => trivial
  apply h.invariant_with (J := (machine n).Reach NotWoken)
  . intro s hs
    exact hs
  . intro s hs
    rw [hs]
    exact conserved_start
  . intro s a t hr hs ha hat
    have hb := reachable_bounded (hfree hr)
    have hex := reachable_exclusive (hfree hr)
    have ht := reachable_exclusive (hfree (hr.tail ha hat))
    have hstep := Step.of_step hat
    exact {
      total := conserved_total hb hex ht hs ha hstep
      cbs := cbs_step hs.cbs hb hstep
      term := finished_step hs hex hstep
    }

-- A callback popped but not yet wrapped into a fiber
def Pc.unwrapped (c : CallbackId) : Pc → Bool
  | .popped task => task == .cb c
  | .counted task => task == .cb c
  | _ => false

section Once

variable (tasks : Fin n → List ScheduledTask) (worker : Fin n → Pc) (fiber : FiberId → Fiber)
  (fibers : Nat) (wraps : FiberId → Option CallbackId) (c : CallbackId)

def wrappers : Nat :=
  ∑ f ∈ Finset.range fibers, (wraps f == some c).toNat

def wrapped : Nat :=
  ∑ q, (tasks q).count (.cb c) + ∑ i, ((worker i).unwrapped c).toNat + wrappers fibers wraps c

def starts : Nat :=
  ∑ f ∈ Finset.range fibers, (wraps f == some c && (fiber f).started).toNat

theorem starts_le_wrappers : starts fiber fibers wraps c ≤ wrappers fibers wraps c := by
  apply Finset.sum_le_sum
  intro f _
  cases wraps f == some c <;> simp [Bool.toNat_le]

theorem wrappers_alloc (w : Option CallbackId)
    : wrappers (fibers + 1) (update wraps fibers w) c
        =
      wrappers fibers wraps c + (w == some c).toNat := by
  unfold wrappers
  rw [Finset.sum_range_succ, Function.update_self]
  congr 1
  apply Finset.sum_congr rfl
  intro f hf
  rw [Function.update_of_ne (Nat.ne_of_lt (Finset.mem_range.mp hf))]

theorem starts_alloc (fb : Fiber) (w : Option CallbackId) (hfb : fb.started = false)
    : starts (update fiber fibers fb) (fibers + 1) (update wraps fibers w) c
        =
      starts fiber fibers wraps c := by
  unfold starts
  rw [Finset.sum_range_succ, Function.update_self, Function.update_self, hfb, Bool.and_false,
    Bool.toNat_false, Nat.add_zero]
  apply Finset.sum_congr rfl
  intro f hf
  have : f ≠ fibers := Nat.ne_of_lt (Finset.mem_range.mp hf)
  rw [Function.update_of_ne this, Function.update_of_ne this]

theorem starts_set {f : FiberId} {fb : Fiber} (hfb : fb.started = (fiber f).started)
    : starts (update fiber f fb) fibers wraps c = starts fiber fibers wraps c := by
  apply Finset.sum_congr rfl
  intro g _
  by_cases hgf : g = f
  . rw [hgf, Function.update_self, hfb]
  . rw [Function.update_of_ne hgf]

theorem starts_start {f : FiberId} {fb : Fiber} (hf : f < fibers)
    (hold : (fiber f).started = false) (hnew : fb.started = true)
    : starts (update fiber f fb) fibers wraps c
        =
      starts fiber fibers wraps c + (wraps f == some c).toNat := by
  have hsum : starts (update fiber f fb) fibers wraps c
        + (wraps f == some c && (fiber f).started).toNat
      = starts fiber fibers wraps c
        + (wraps f == some c && (update fiber f fb f).started).toNat := by
    apply Tally.sum_change (Finset.mem_range.mpr hf)
    intro g _ hgf
    rw [Function.update_of_ne hgf]
  simp only [hold, hnew, Function.update_self, Bool.and_false, Bool.toNat_false, Nat.add_zero,
    Bool.and_true] at hsum
  omega

end Once

structure State.Once (s : State n) : Prop where
  wrapped : ∀ c, wrapped s.tasks s.worker s.fibers s.wraps c = (decide (c < s.callbacks)).toNat
  entered : ∀ c, s.entered.count c = starts s.fiber s.fibers s.wraps c

theorem once_start : (State.start n).Once where
  wrapped := by
    intro c
    simp [wrapped, wrappers, State.start, Pc.unwrapped]
  entered := by
    intro c
    simp [starts, State.start]

theorem wrapped_move (hp : p.unwrapped c = (s.worker i).unwrapped c)
    : wrapped s.tasks (update s.worker i p) s.fibers s.wraps c
        =
      wrapped s.tasks s.worker s.fibers s.wraps c := by
  have := Tally.sum_update_of_eq (w := fun p => (Pc.unwrapped c p).toNat) (g := s.worker) (i := i)
    (a := p) (congrArg Bool.toNat hp)
  unfold wrapped
  omega

theorem wrapped_queue {q : Fin n} {l : List ScheduledTask}
    (h : l.count (.cb c) + (p.unwrapped c).toNat
      = (s.tasks q).count (.cb c) + ((s.worker i).unwrapped c).toNat)
    : wrapped (update s.tasks q l) (update s.worker i p) s.fibers s.wraps c
        =
      wrapped s.tasks s.worker s.fibers s.wraps c := by
  have hqueue := Tally.sum_update (List.count (ScheduledTask.cb c)) s.tasks q l
  have hhand := Tally.sum_update (fun p => (Pc.unwrapped c p).toNat) s.worker i p
  unfold wrapped
  omega

theorem wrapped_submit (q : Fin n) (task : ScheduledTask)
    : wrapped (update s.tasks q (s.tasks q ++ [task])) s.worker s.fibers s.wraps c
        =
      wrapped s.tasks s.worker s.fibers s.wraps c + (task == .cb c).toNat := by
  have hqueue := Tally.sum_update (List.count (ScheduledTask.cb c)) s.tasks q (s.tasks q ++ [task])
  have : (s.tasks q ++ [task]).count (.cb c) = (s.tasks q).count (.cb c) + (task == .cb c).toNat := by
    rw [List.count_append, List.count_singleton]
    cases task == .cb c <;> rfl
  unfold wrapped
  omega

theorem wrapped_step (hb : s.Bounded) (h : s.Once) (hs : Step s a t) (c : CallbackId)
    : wrapped t.tasks t.worker t.fibers t.wraps c = (decide (c < t.callbacks)).toNat := by
  cases hs with
  | create =>
    rw [← h.wrapped c]
    have hnone := wrappers_alloc s.fibers s.wraps c none
    rw [← (hb.fresh s.fibers (Nat.le_refl _)).right, Function.update_eq_self] at hnone
    unfold wrapped
    rw [hnone, (hb.fresh s.fibers (Nat.le_refl _)).right]
    rfl
  | submit q =>
    rw [wrapped_submit, h.wrapped c]
    by_cases hc : c = s.callbacks
    . simp [hc]
    . have hne : (ScheduledTask.cb s.callbacks == .cb c) = false := by simpa using Ne.symm hc
      have hlt : c < s.callbacks + 1 ↔ c < s.callbacks := by
        rw [Nat.lt_succ_iff]
        exact ⟨fun hle => Nat.lt_of_le_of_ne hle hc, Nat.le_of_lt⟩
      simp only [hne, Bool.toNat_false, Nat.add_zero, hlt]
  | submitFiber q f hf =>
    rw [← h.wrapped c, wrapped_submit]
    rfl
  | pop i task rest hi hq =>
    rw [← h.wrapped c]
    apply wrapped_queue (s := s)
    rw [hi, hq, List.count_cons]
    cases ht : task == .cb c <;> simp [Pc.unwrapped, ht]
  | steal i q task rest k hi hk hv hq =>
    rw [← h.wrapped c]
    apply wrapped_queue (s := s)
    rw [hi, hq, List.count_append, List.count_singleton]
    cases ht : task == .cb c <;> simp [Pc.unwrapped, ht]
  | wrap i d hi =>
    rw [← h.wrapped c]
    have halloc := wrappers_alloc s.fibers s.wraps c (some d)
    have hhand := Tally.sum_update (fun p => (Pc.unwrapped c p).toNat) s.worker i
      (.resuming s.fibers true)
    have : (ScheduledTask.cb d == .cb c) = (some d == some c) := by
      rw [Bool.eq_iff_iff]
      simp
    rw [hi] at hhand
    have hcounted : Pc.unwrapped c (.counted (.cb d)) = (some d == some c) := this
    have hresuming : Pc.unwrapped c (.resuming s.fibers true) = false := rfl
    rw [hcounted, hresuming, Bool.toNat_false] at hhand
    unfold wrapped
    simp only
    omega
  | putBack i f hi =>
    rw [← h.wrapped c]
    apply wrapped_queue (s := s)
    simp [hi, Pc.unwrapped]
  | requeue i f hi =>
    rw [← h.wrapped c]
    apply wrapped_queue (s := s)
    simp [hi, Pc.unwrapped]
  | _ => rw [← h.wrapped c]; exact wrapped_move (s := s) (by rw [‹s.worker _ = _›]; rfl)

theorem entered_step (hb : s.Bounded) (hc : s.Conserved) (h : s.Once) (hs : Step s a t)
    (c : CallbackId)
    : t.entered.count c = starts t.fiber t.fibers t.wraps c := by
  cases hs with
  | create =>
    have halloc := starts_alloc s.fiber s.fibers s.wraps c (Fiber.new none) none rfl
    rw [← (hb.fresh s.fibers (Nat.le_refl _)).right, Function.update_eq_self] at halloc
    rw [h.entered c, ← halloc, (hb.fresh s.fibers (Nat.le_refl _)).right]
  | wrap i d hi =>
    simp only [h.entered c]
    exact (starts_alloc s.fiber s.fibers s.wraps c _ (some d) rfl).symm
  | lock i f hi hf =>
    rw [starts_set]
    . exact h.entered c
    . rfl
  | resume i f wrapper hi hf =>
    cases hstarted : (s.fiber f).started with
    | true =>
      rw [starts_set _ _ _ _ hstarted.symm]
      exact h.entered c
    | false =>
      have hlt : f < s.fibers := hb.held_lt (by rw [hi]; rfl)
      have hcb : (s.fiber f).cb = s.wraps f := by
        apply hc.cbs
        intro hterm
        simp [hterm] at hf
      simp only [Bool.false_eq_true, ↓reduceIte, List.count_append, h.entered c, hcb]
      rw [starts_start s.fiber s.fibers s.wraps c hlt hstarted rfl]
      cases s.wraps f with
      | none => simp
      | some d => simp [List.count_singleton, Bool.toNat]
  | yield i f wrapper hi hf =>
    rw [starts_set]
    . exact h.entered c
    . rfl
  | hold i f wrapper hi hf =>
    rw [starts_set]
    . exact h.entered c
    . rfl
  | finish i f wrapper hi =>
    rw [starts_set]
    . exact h.entered c
    . rfl
  | unlock i f hi =>
    rw [starts_set]
    . exact h.entered c
    . rfl
  | _ => exact h.entered c

theorem reachable_once (h : (machine n).Reach NotWoken s) : s.Once := by
  apply h.invariant_with (J := (machine n).Reach NotWoken)
  . intro s hs
    exact hs
  . intro s hs
    rw [hs]
    exact once_start
  . intro s a t hr hs ha hat
    have hb := reachable_bounded (hr.mono fun _ _ _ => trivial)
    have hstep := Step.of_step hat
    exact {
      wrapped := wrapped_step hb hs hstep
      entered := entered_step hb (reachable_conserved hr) hs hstep
    }

section Places

theorem inQueues_pos (hp : s.At c (.queue q k)) : 0 < inQueues s.tasks s.wraps c := by
  rcases hp with ⟨task, hk, htask⟩
  exact Tally.entry_pos hk htask

theorem inHands_pos (hp : s.At c (.hand i)) : 0 < inHands s.worker s.fiber s.wraps c :=
  Tally.flag_pos hp

theorem inHold_pos (hp : s.At c (.held f)) : 0 < inHold s.fiber s.fibers s.wraps c := by
  have hle := le_inHold s.fiber s.fibers s.wraps c hp.left
  rw [hp.right] at hle
  exact hle

theorem queue_unique (h : inQueues s.tasks s.wraps c ≤ 1) (hp : s.At c (.queue q k))
    (hp' : s.At c (.queue q' k'))
    : Place.queue q k = Place.queue q' k' := by
  rcases hp with ⟨task, hk, htask⟩
  rcases hp' with ⟨task', hk', htask'⟩
  rcases Tally.entry_unique h hk htask hk' htask' with ⟨hq, hk⟩
  rw [hq, hk]

theorem held_unique (h : inHold s.fiber s.fibers s.wraps c ≤ 1) (hp : s.At c (.held f))
    (hp' : s.At c (.held f'))
    : f = f' := by
  apply Tally.eq_of_sum_le_one h (Finset.mem_range.mpr hp.left) (Finset.mem_range.mpr hp'.left)
  . simp [hp.right]
  . simp [hp'.right]

theorem place_unique {p p' : Place n} (h : s.places c ≤ 1) (hp : s.At c p) (hp' : s.At c p') : p = p' := by
  unfold State.places places at h
  have hfin : s.At c .finished → 0 < s.finished.count c := List.count_pos_iff.mpr
  cases p with
  | queue q k =>
    have := inQueues_pos hp
    cases p' with
    | queue q' k' => exact queue_unique (by omega) hp hp'
    | hand i' => have := inHands_pos hp'; omega
    | held f' => have := inHold_pos hp'; omega
    | finished => have := hfin hp'; omega
  | hand i =>
    have := inHands_pos hp
    cases p' with
    | queue q' k' => have := inQueues_pos hp'; omega
    | hand i' =>
      have hone : inHands s.worker s.fiber s.wraps c ≤ 1 := by omega
      rw [Tally.flag_unique hone hp hp']
    | held f' => have := inHold_pos hp'; omega
    | finished => have := hfin hp'; omega
  | held f =>
    have := inHold_pos hp
    cases p' with
    | queue q' k' => have := inQueues_pos hp'; omega
    | hand i' => have := inHands_pos hp'; omega
    | held f' => rw [held_unique (by omega) hp hp']
    | finished => have := hfin hp'; omega
  | finished =>
    have := hfin hp
    cases p' with
    | queue q' k' => have := inQueues_pos hp'; omega
    | hand i' => have := inHands_pos hp'; omega
    | held f' => have := inHold_pos hp'; omega
    | finished => rfl

theorem place_exists (h : 0 < s.places c) : ∃ p, s.At c p := by
  unfold State.places places at h
  by_cases hqueues : 0 < inQueues s.tasks s.wraps c
  . rcases Tally.exists_entry hqueues with ⟨q, k, task, hk, hcarries⟩
    exact ⟨.queue q k, task, hk, hcarries⟩
  . by_cases hhands : 0 < inHands s.worker s.fiber s.wraps c
    . rcases Tally.exists_flag hhands with ⟨i, hi⟩
      exact ⟨.hand i, hi⟩
    . by_cases hhold : 0 < inHold s.fiber s.fibers s.wraps c
      . rcases Tally.exists_of_sum_pos hhold with ⟨f, hf, hheld⟩
        rw [Nat.pos_iff_ne_zero, ne_eq, Bool.toNat_eq_zero, Bool.not_eq_false] at hheld
        exact ⟨.held f, Finset.mem_range.mp hf, hheld⟩
      . have : 0 < s.finished.count c := by omega
        exact ⟨.finished, List.count_pos_iff.mp this⟩

end Places

/--
Every callback submitted is at exactly one place, and its body is entered at most once.
-/
theorem callback_conserved (h : (machine n).Reach NotWoken s) (hc : c < s.callbacks)
    : (∃ p, s.At c p ∧ ∀ p', s.At c p' → p' = p) ∧ s.entered.count c ≤ 1 := by
  have hplaces : s.places c = 1 := by
    rw [(reachable_conserved h).total c]
    simp [hc]
  constructor
  . rcases place_exists (Nat.lt_of_lt_of_eq Nat.zero_lt_one hplaces.symm) with ⟨p, hp⟩
    refine ⟨p, hp, ?_⟩
    intro p' hp'
    exact place_unique (Nat.le_of_eq hplaces) hp' hp
  . have honce := reachable_once h
    rw [honce.entered c]
    have hle := starts_le_wrappers s.fiber s.fibers s.wraps c
    have hwrapped := honce.wrapped c
    have : (decide (c < s.callbacks)).toNat ≤ 1 := Bool.toNat_le _
    unfold wrapped at hwrapped
    omega

-- Worker 1 steals the second of two callbacks, whose wrapper then comes back `kReady`
def stolen : List (Action 2) :=
  [.submit 0, .submit 0, .pop 1, .steal 1 true, .count 1, .tryLock 1, .resume 1, .yield 1,
    .checkState 1, .requeue 1]

theorem callback_conserved_stolen
    : ∃ s,
        (machine 2).exec (State.start 2) stolen = some s
          ∧
        s.At 1 (.queue 1 0)
          ∧
        (∃ p, s.At 1 p ∧ ∀ p', s.At 1 p' → p' = p) ∧ s.entered.count 1 ≤ 1
    := by
  have h : (machine 2).exec (State.start 2) stolen = some _ := rfl
  refine ⟨_, h, ⟨.fiber 0, rfl, rfl⟩, ?_⟩
  apply callback_conserved
  . apply Machine.Reach.of_exec stolen rfl h
    apply Machine.Meets.of_forall
    simp [stolen, NotWoken]
  . decide

end Run
end Koro
