import Koro.ThreadPool.Drained
import Koro.Machine.Rest

/-!
This module contains the proof that `ThreadPool` comes to rest: as long as nobody calls `submit` and
no wait ends without a notification, only so many steps are left, whatever the schedule and whichever
locks the thieves miss. What it has come to rest with is that every task has been executed and, if the
destructor has been called, that it is through.

The measure is a rank for each worker that says how far it is from sleep, a price for each task in a
queue that pays for the way of the worker which takes it, and ranks for the calls of `submit` under way
and for the destructor. A thief that empties a queue may put its owner farther from sleep: the price of
the task pays for that as well.
-/

namespace Koro
namespace ThreadPool

open Function (update)

variable {n : Nat} {s t : State n} {act : Action n}

-- Neither a new `submit` nor a wakeup out of nothing
def Action.settles : Action n → Bool
  | .submit _ => false
  | .spurious _ => false
  | _ => true

def Settles (_ : State n) (act : Action n) : Prop :=
  act.settles = true

instance (s : State n) (act : Action n) : Decidable (Settles s act) :=
  inferInstanceAs (Decidable (act.settles = true))

section Rank

-- `any` says that the worker has something to take up: a task of its own, or to return
def Pc.rank (n : Nat) (any : Bool) : Pc → Nat
  | .lock => if any then 1 else n + 3
  | .steal k => n - k + 3
  | .relock => 2
  | .waiting => 0
  | .woken => 2
  | .holding _ => n + 5
  | .running _ => n + 4
  | .returned => 0

def price (n : Nat) : Nat :=
  2 * n + 9

def Frame.rank : Frame n → Nat
  | .push _ => price n + 4
  | .notify _ => 3

def frameRank : Option (Frame n) → Nat
  | some f => f.rank
  | none => 0

def DtorPc.rank (n : Nat) : DtorPc → Nat
  | .notCalled => 4 * n + 3
  | .lock k => 4 * (n - k) + 2
  | .notify k => 4 * (n - k) + 1
  | .join => 1
  | .destroyed => 0

theorem rank_mono {a b : Bool} (p : Pc) (h : a = true → b = true) : p.rank n b ≤ p.rank n a := by
  cases a <;> cases b <;> cases p <;> simp_all [Pc.rank]

theorem rank_le_add (a b : Bool) (p : Pc) : p.rank n a ≤ p.rank n b + (n + 2) := by
  cases a <;> cases b <;> cases p <;> simp only [Pc.rank] <;> grind

section Sums

variable (queue : Fin n → List TaskId) (stop : Fin n → Bool) (worker : Fin n → Pc)
variable (frame : Thread n → Option (Frame n)) (F : Finset (Thread n))

def anyOf (i : Fin n) : Bool :=
  !(queue i).isEmpty || stop i

def ranks : Nat :=
  ∑ i, (worker i).rank n (anyOf queue stop i)

def prices : Nat :=
  ∑ q, price n * (queue q).length

def frames : Nat :=
  ∑ th ∈ F, frameRank (frame th)

theorem anyOf_true (h : queue i ≠ [] ∨ stop i = true) : anyOf queue stop i = true := by
  simpa [anyOf] using h

theorem anyOf_false (hq : queue i = []) (hstop : stop i = false) : anyOf queue stop i = false := by
  simp [anyOf, hq, hstop]

theorem anyOf_fill {q i : Fin n} {l : List TaskId} (hl : l ≠ []) (h : anyOf queue stop i = true)
    : anyOf (update queue q l) stop i = true := by
  unfold anyOf at h ⊢
  by_cases hi : i = q
  . subst hi
    simp [hl]
  . rwa [Function.update_of_ne hi]

theorem anyOf_stop {q i : Fin n} (h : anyOf queue stop i = true)
    : anyOf queue (update stop q true) i = true := by
  unfold anyOf at h ⊢
  by_cases hi : i = q
  . subst hi
    simp
  . rwa [Function.update_of_ne hi]

theorem ranks_move (i : Fin n) (p : Pc)
    : ranks queue stop (update worker i p) + (worker i).rank n (anyOf queue stop i)
        =
      ranks queue stop worker + p.rank n (anyOf queue stop i) := by
  have hothers : ∀ j ∈ Finset.univ, j ≠ i →
      (update worker i p j).rank n (anyOf queue stop j) = (worker j).rank n (anyOf queue stop j) := by
    intro j _ hj
    rw [Function.update_of_ne hj]
  have := Tally.sum_change (Finset.mem_univ i) hothers
  rwa [Function.update_self] at this

theorem ranks_more {queue' : Fin n → List TaskId} {stop' : Fin n → Bool}
    (h : ∀ i, anyOf queue stop i = true → anyOf queue' stop' i = true)
    : ranks queue' stop' worker ≤ ranks queue stop worker := by
  apply Finset.sum_le_sum
  intro i _
  exact rank_mono (worker i) (h i)

theorem ranks_queue (q : Fin n) (l : List TaskId)
    : ranks (update queue q l) stop worker ≤ ranks queue stop worker + (n + 2) := by
  have hothers : ∀ j ∈ Finset.univ, j ≠ q →
      (worker j).rank n (anyOf (update queue q l) stop j)
        = (worker j).rank n (anyOf queue stop j) := by
    intro j _ hj
    unfold anyOf
    rw [Function.update_of_ne hj]
  have hsum := Tally.sum_change (Finset.mem_univ q) hothers
  have hq := rank_le_add (n := n) (anyOf (update queue q l) stop q) (anyOf queue stop q) (worker q)
  unfold ranks
  omega

theorem prices_update (q : Fin n) (l : List TaskId)
    : prices (update queue q l) + price n * (queue q).length
        =
      prices queue + price n * l.length := by
  apply Tally.sum_update (fun l : List TaskId => price n * l.length)

theorem frames_update {th : Thread n} (hth : th ∈ F) (f : Option (Frame n))
    : frames (update frame th f) F + frameRank (frame th) = frames frame F + frameRank f := by
  have hothers : ∀ j ∈ F, j ≠ th → frameRank (update frame th f j) = frameRank (frame j) := by
    intro j _ hj
    rw [Function.update_of_ne hj]
  have := Tally.sum_change hth hothers
  rwa [Function.update_self] at this

end Sums

end Rank

-- How many steps may still come; `F` has the threads that are inside of `submit`
def State.work (F : Finset (Thread n)) (s : State n) : Nat :=
  ranks s.queue s.stop s.worker + prices s.queue + frames s.frame F + s.dtor.rank n

def State.InFrames (F : Finset (Thread n)) (s : State n) : Prop :=
  ∀ th, s.frame th ≠ none → th ∈ F

theorem inFrames_step {F : Finset (Thread n)} (h : s.InFrames F) (hset : Settles s act)
    (hs : Step s act t)
    : t.InFrames F := by
  intro th hth
  apply h
  cases hs with
  | submit => cases hset
  | push th' idx hframe =>
    by_cases hth' : th = th'
    . rw [hth', hframe]
      simp
    . simpa [Function.update_of_ne hth'] using hth
  | notify th' idx hframe hi =>
    by_cases hth' : th = th'
    . rw [hth', hframe]
      simp
    . simpa [Function.update_of_ne hth'] using hth
  | notifyNone th' idx hframe hi =>
    by_cases hth' : th = th'
    . rw [hth', hframe]
      simp
    . simpa [Function.update_of_ne hth'] using hth
  | _ => exact hth

theorem work_step {F : Finset (Thread n)} (h : s.InFrames F) (hset : Settles s act)
    (hs : Step s act t)
    : t.work F < s.work F := by
  unfold State.work
  cases hs with
  | submit => cases hset
  | spurious => cases hset
  | push th idx hframe =>
    have hmem : th ∈ F := h th (by simp [hframe])
    have hprices := prices_update s.queue idx (s.queue idx ++ [s.submitted])
    have hframes := frames_update s.frame F hmem (some (.notify idx))
    have hranks : ranks (update s.queue idx (s.queue idx ++ [s.submitted])) s.stop s.worker
        ≤ ranks s.queue s.stop s.worker := by
      apply ranks_more
      intro j hj
      exact anyOf_fill s.queue s.stop (by simp) hj
    rw [hframe] at hframes
    simp only [frameRank, Frame.rank, List.length_append, List.length_singleton,
      Nat.mul_add] at hframes hprices
    dsimp only
    omega
  | notify th idx hframe hi =>
    have hmem : th ∈ F := h th (by simp [hframe])
    have hframes := frames_update s.frame F hmem none
    have hranks := ranks_move s.queue s.stop s.worker idx .woken
    simp only [hframe, hi, frameRank, Frame.rank, Pc.rank] at hframes hranks
    dsimp only
    omega
  | notifyNone th idx hframe hi =>
    have hmem : th ∈ F := h th (by simp [hframe])
    have hframes := frames_update s.frame F hmem none
    simp only [hframe, frameRank, Frame.rank] at hframes
    dsimp only
    omega
  | pop i task rest hi hq =>
    have hprices := prices_update s.queue i rest
    have hmove := ranks_move s.queue s.stop s.worker i (.holding task)
    have hqueue := ranks_queue s.queue s.stop (update s.worker i (.holding task)) i rest
    simp only [hq, hi, List.length_cons, Nat.mul_add, price, Pc.rank] at hprices hmove
    dsimp only
    omega
  | steal i q task rest k hi hk hv hq =>
    have hprices := prices_update s.queue q rest
    have hmove := ranks_move s.queue s.stop s.worker i (.holding task)
    have hqueue := ranks_queue s.queue s.stop (update s.worker i (.holding task)) q rest
    simp only [hq, hi, List.length_append, List.length_singleton, Nat.mul_add, price,
      Pc.rank] at hprices hmove
    dsimp only
    omega
  | ret i hi hq hstop =>
    have hmove := ranks_move s.queue s.stop s.worker i .returned
    have hany := anyOf_true s.queue s.stop (.inr hstop)
    simp only [hi, hany, Pc.rank, ↓reduceIte] at hmove
    dsimp only
    omega
  | look i hi hq hstop =>
    have hmove := ranks_move s.queue s.stop s.worker i (.steal 1)
    have hany := anyOf_false s.queue s.stop hq hstop
    have := i.pos
    simp only [hi, hany, Pc.rank] at hmove
    grind
  | stealMiss i _ k hi hk hmiss =>
    have hmove := ranks_move s.queue s.stop s.worker i (.steal (k + 1))
    simp only [hi, Pc.rank] at hmove
    dsimp only
    omega
  | stealNone i _ k hi hk =>
    have hmove := ranks_move s.queue s.stop s.worker i .relock
    simp only [hi, Pc.rank] at hmove
    dsimp only
    omega
  | wait i hi hq hstop =>
    have hmove := ranks_move s.queue s.stop s.worker i .waiting
    simp only [hi, Pc.rank] at hmove
    dsimp only
    omega
  | relock i hi hany =>
    have hmove := ranks_move s.queue s.stop s.worker i .lock
    simp only [hi, anyOf_true s.queue s.stop hany, Pc.rank] at hmove
    grind
  | test i hi hany =>
    have hmove := ranks_move s.queue s.stop s.worker i .lock
    simp only [hi, anyOf_true s.queue s.stop hany, Pc.rank] at hmove
    grind
  | testFail i hi hq hstop =>
    have hmove := ranks_move s.queue s.stop s.worker i .waiting
    simp only [hi, Pc.rank] at hmove
    dsimp only
    omega
  | call i task hi =>
    have hmove := ranks_move s.queue s.stop s.worker i (.running task)
    simp only [hi, Pc.rank] at hmove
    dsimp only
    omega
  | finish i task hi hframe =>
    have hmove := ranks_move s.queue s.stop s.worker i .lock
    simp only [hi, Pc.rank] at hmove
    grind
  | dtor hd =>
    simp only [hd, DtorPc.rank]
    omega
  | dtorStop i hd =>
    have hranks : ranks s.queue (update s.stop i true) s.worker ≤ ranks s.queue s.stop s.worker := by
      apply ranks_more
      intro j hj
      exact anyOf_stop s.queue s.stop hj
    simp only [hd, DtorPc.rank]
    omega
  | dtorLast k hd hk =>
    simp only [hd, DtorPc.rank]
    omega
  | dtorNotify i hd hi =>
    have hmove := ranks_move s.queue s.stop s.worker i .woken
    simp only [hi, Pc.rank] at hmove
    simp only [hd, DtorPc.rank]
    omega
  | dtorNotifyNone i hd hi =>
    simp only [hd, DtorPc.rank]
    omega
  | join hd hall =>
    simp only [hd, DtorPc.rank]
    omega

theorem work_lowers (F : Finset (Thread n))
    : Machine.Lowers (machine n) Settles (State.InFrames F) (State.work F) where
  keeps := by
    intro s act t hI hset hat
    exact inFrames_step hI hset (Step.of_step hat)
  lowers := by
    intro s act t hI hset hat
    exact work_step hI hset (Step.of_step hat)

theorem inFrames_grow {F : Finset (Thread n)} (h : s.InFrames F) (hs : Step s act t)
    : ∃ F' : Finset (Thread n), t.InFrames F' := by
  by_cases hset : Settles s act
  . exact ⟨F, inFrames_step h hset hs⟩
  . cases hs with
    | submit th idx huser =>
      refine ⟨insert th F, ?_⟩
      intro th' hth'
      by_cases heq : th' = th
      . simp [heq]
      . simp only [Function.update_of_ne heq] at hth'
        exact Finset.mem_insert_of_mem (h th' hth')
    | spurious i hi => exact ⟨F, h⟩
    | _ => exact absurd rfl hset

-- Only so many threads are inside of `submit`
theorem inFrames_exists (h : (machine n).Reach ok s) : ∃ F : Finset (Thread n), s.InFrames F := by
  apply h.invariant (I := fun s => ∃ F : Finset (Thread n), s.InFrames F)
  . intro s hs
    rw [hs]
    exact ⟨∅, by simp [State.InFrames, State.start]⟩
  . intro s a t hF _ hat
    rcases hF with ⟨F, hF⟩
    exact inFrames_grow hF (Step.of_step hat)

/--
From any state reached, only so many steps can be taken under any schedule before somebody calls
`submit` or a wait ends without a notification.
-/
theorem comes_to_rest (h : (machine n).Reachable s)
    : ∃ bound, ∀ as t, (machine n).exec s as = some t → (machine n).Meets Settles s as →
        as.length ≤ bound := by
  rcases inFrames_exists h with ⟨F, hF⟩
  refine ⟨s.work F, ?_⟩
  intro as t hexec hset
  have := (work_lowers F).length_add_le as hF hexec hset
  omega

-- A client has two tasks pushed, and neither worker has moved
def twoPushed : List (Action 2) :=
  submits 0 ++ submits 0

theorem comes_to_rest_twoPushed
    : ∃ s,
        (machine 2).exec (State.start 2) twoPushed = some s
          ∧
        s.queue 0 = [0] ∧ s.queue 1 = [1]
          ∧
        ∃ bound, ∀ as t, (machine 2).exec s as = some t → (machine 2).Meets Settles s as →
          as.length ≤ bound := by
  have h : ((machine 2).exec (State.start 2) twoPushed).any (fun s =>
      s.queue 0 = [0] ∧ s.queue 1 = [1]) = true := by
    decide +kernel
  simp only [Option.any_eq_true, decide_eq_true_eq] at h
  rcases h with ⟨s, hexec, hfirst, hsecond⟩
  exact ⟨s, hexec, hfirst, hsecond, comes_to_rest (Machine.Reachable.of_exec _ rfl hexec)⟩

-- What is left to the workers, to the calls of `submit` under way and to a destructor that has been called
def Internal (s : State n) (act : Action n) : Prop :=
  Settles s act ∧ (act = .destroy → s.dtor ≠ .notCalled)

-- The destructor has told worker `i` to stop
def DtorPc.told : DtorPc → Nat → Prop
  | .notCalled, _ => False
  | .lock k, i => i < k
  | .notify k, i => i ≤ k
  | .join, _ => True
  | .destroyed, _ => True

structure State.Tells (s : State n) : Prop where
  stop : ∀ i : Fin n, s.dtor.told i → s.stop i = true
  notify : ∀ k, s.dtor = .notify k → k < n

theorem tells_start : (State.start n).Tells := by
  constructor <;> simp [State.start, DtorPc.told]

theorem tells_step (h : s.Tells) (hs : Step s act t) : t.Tells where
  stop := by
    intro i htold
    have hstop := h.stop i
    cases hs with
    | dtor hd => simp [DtorPc.told] at htold
    | dtorStop j hd =>
      simp only [DtorPc.told] at htold
      by_cases hij : i = j
      . rw [hij]
        exact Function.update_self ..
      . simp only [Function.update_of_ne hij]
        apply hstop
        rw [hd]
        simp only [DtorPc.told]
        omega
    | dtorLast k hd hk =>
      apply hstop
      rw [hd]
      simp only [DtorPc.told]
      omega
    | dtorNotify j hd hi =>
      apply hstop
      rw [hd]
      simp only [DtorPc.told] at htold ⊢
      omega
    | dtorNotifyNone j hd hi =>
      apply hstop
      rw [hd]
      simp only [DtorPc.told] at htold ⊢
      omega
    | join hd hall =>
      apply hstop
      rw [hd]
      trivial
    | _ => exact hstop htold
  notify := by
    intro k hk
    cases hs with
    | dtorStop j hd =>
      cases hk
      exact j.isLt
    | _ => first | exact h.notify k hk | cases hk

theorem reachable_tells (h : (machine n).Reach ok s) : s.Tells := by
  apply h.invariant
  . intro s hs
    rw [hs]
    exact tells_start
  . intro s a t hs _ hat
    exact tells_step hs (Step.of_step hat)

section AtRest

variable (hrest : (machine n).Rests Internal s)
include hrest

theorem rest_frame (th : Thread n) : s.frame th = none := by
  cases hth : s.frame th with
  | none => rfl
  | some f =>
    cases f with
    | push idx =>
      have := hrest (.push th) ⟨rfl, by simp⟩
      simp [machine, step, State.push, hth] at this
    | notify idx =>
      have := hrest (.notify th) ⟨rfl, by simp⟩
      simp [machine, step, State.notify, hth] at this

theorem rest_worker (i : Fin n) : s.worker i = .waiting ∨ s.worker i = .returned := by
  cases hi : s.worker i with
  | lock =>
    have := hrest (.lock i) ⟨rfl, by simp⟩
    simp only [machine, step, State.lock, hi] at this
    grind
  | steal k =>
    have := hrest (.steal i false) ⟨rfl, by simp⟩
    simp only [machine, step, State.steal, hi] at this
    grind
  | relock =>
    have := hrest (.relock i) ⟨rfl, by simp⟩
    simp only [machine, step, State.relock, hi] at this
    grind
  | woken =>
    have := hrest (.test i) ⟨rfl, by simp⟩
    simp only [machine, step, State.test, hi] at this
    grind
  | holding task =>
    have := hrest (.call i) ⟨rfl, by simp⟩
    simp [machine, step, State.call, hi] at this
  | running task =>
    have := hrest (.finish i) ⟨rfl, by simp⟩
    simp [machine, step, State.finish, hi, rest_frame hrest] at this
  | waiting => exact .inl rfl
  | returned => exact .inr rfl

theorem rest_dtor (htells : s.Tells)
    : s.dtor = .notCalled ∨ (s.dtor = .join ∧ ∃ i, s.worker i ≠ .returned) ∨ s.dtor = .destroyed := by
  cases hd : s.dtor with
  | notCalled => exact .inl rfl
  | lock k =>
    have hdestroy := hrest .destroy ⟨rfl, by simp [hd]⟩
    simp only [machine, step, State.destroy, hd] at hdestroy
    grind
  | notify k =>
    have hdestroy := hrest .destroy ⟨rfl, by simp [hd]⟩
    have := htells.notify k hd
    simp [machine, step, State.destroy, hd, this] at hdestroy
  | join =>
    have hdestroy := hrest .destroy ⟨rfl, by simp [hd]⟩
    refine .inr (.inl ⟨rfl, ?_⟩)
    simpa [machine, step, State.destroy, hd] using hdestroy
  | destroyed => exact .inr (.inr rfl)

-- Who waits has nothing to take up
theorem rest_waiting (htells : s.Tells) (hawake : s.Awake) (hi : s.worker i = .waiting)
    : s.queue i = [] ∧ s.stop i = false := by
  have hnone : ¬s.Notifies i := by
    rintro (⟨th, hth⟩ | hd)
    . rw [rest_frame hrest th] at hth
      cases hth
    . rcases rest_dtor hrest htells with h | ⟨h, _⟩ | h <;> rw [h] at hd <;> cases hd
  by_contra hany
  apply hnone
  apply hawake i hi
  rw [not_and_or, Bool.not_eq_false] at hany
  exact hany

end AtRest

/--
A pool at rest has nobody inside of `submit`. If its destructor has not been called, all workers wait, no
queue has a task, and every task submitted has been called and has returned, once. If it has, it is
through, and all workers have returned.
-/
theorem done_of_rests (h : (machine n).Reachable s) (hrest : (machine n).Rests Internal s)
    : (∀ th, s.frame th = none)
        ∧
      (s.dtor = .notCalled →
        (∀ i, s.worker i = .waiting ∧ s.queue i = [])
          ∧
        ∀ c < s.submitted, s.entered.count c = 1 ∧ s.finished.count c = 1)
        ∧
      (s.dtor ≠ .notCalled → s.dtor = .destroyed ∧ ∀ i, s.worker i = .returned) := by
  have htells := reachable_tells h
  have hawake := reachable_awake h
  have hends := reachable_ends h
  have hconserved := reachable_conserved h
  refine ⟨rest_frame hrest, ?_, ?_⟩
  . intro hd
    have hwaiting : ∀ i, s.worker i = .waiting := by
      intro i
      apply (rest_worker hrest i).resolve_right
      intro hi
      exact hends.started i (hends.returned i hi) hd
    have hempty : ∀ i, s.queue i = [] := by
      intro i
      exact (rest_waiting hrest htells hawake (hwaiting i)).left
    refine ⟨fun i => ⟨hwaiting i, hempty i⟩, ?_⟩
    intro c hc
    have hplaces := hconserved.total c
    have hentered := hconserved.entered c
    simp only [State.places, inQueues, inHands, hempty, hwaiting, Pc.task, hc] at hplaces
    simp only [inCalls, hwaiting, Pc.called] at hentered
    simp at hplaces hentered
    omega
  . intro hd
    have htold : s.dtor = .destroyed ∨ s.dtor = .join := by
      rcases rest_dtor hrest htells with h | ⟨h, _⟩ | h
      . exact absurd h hd
      . exact .inr h
      . exact .inl h
    have hreturned : ∀ i, s.worker i = .returned := by
      intro i
      apply (rest_worker hrest i).resolve_left
      intro hi
      have hstop := htells.stop i (by rcases htold with h | h <;> rw [h] <;> trivial)
      rw [(rest_waiting hrest htells hawake hi).right] at hstop
      cases hstop
    refine ⟨?_, hreturned⟩
    rcases rest_dtor hrest htells with h | ⟨_, i, hi⟩ | h
    . exact absurd h hd
    . exact absurd (hreturned i) hi
    . exact h

theorem twoPushed_step (h : s.dtor = .notCalled ∧ 2 ≤ s.submitted) (hin : Internal s act)
    (hs : Step s act t)
    : t.dtor = .notCalled ∧ 2 ≤ t.submitted := by
  cases hs <;> simp_all [Internal]
  omega

theorem done_of_rests_twoPushed
    : ∃ s t,
        (machine 2).exec (State.start 2) twoPushed = some s
          ∧
        (machine 2).Steps Internal s t ∧ (machine 2).Rests Internal t
          ∧
        t.dtor = .notCalled ∧ 2 ≤ t.submitted
          ∧
        (∀ th, t.frame th = none)
          ∧
        (t.dtor = .notCalled →
          (∀ i, t.worker i = .waiting ∧ t.queue i = [])
            ∧
          ∀ c < t.submitted, t.entered.count c = 1 ∧ t.finished.count c = 1)
          ∧
        (t.dtor ≠ .notCalled → t.dtor = .destroyed ∧ ∀ i, t.worker i = .returned) := by
  have h : ((machine 2).exec (State.start 2) twoPushed).any (fun s =>
      s.dtor = .notCalled ∧ 2 ≤ s.submitted) = true := by
    decide +kernel
  simp only [Option.any_eq_true, decide_eq_true_eq] at h
  rcases h with ⟨s, hexec, hpushed⟩
  have hreach : (machine 2).Reachable s := Machine.Reachable.of_exec _ rfl hexec
  rcases inFrames_exists hreach with ⟨F, hF⟩
  have hlowers : Machine.Lowers (machine 2) Internal (State.InFrames F) (State.work F) :=
    (work_lowers F).mono fun _ _ hin => hin.left
  rcases hlowers.exists_rests hF with ⟨t, hst, hrest⟩
  have hkept : t.dtor = .notCalled ∧ 2 ≤ t.submitted := by
    apply hst.keeps hpushed
    intro s act t hs hin hat
    exact twoPushed_step hs hin (Step.of_step hat)
  have hreach' : (machine 2).Reachable t := hreach.steps (hst.mono fun _ _ _ => trivial)
  exact ⟨s, t, hexec, hst, hrest, hkept.left, hkept.right, done_of_rests hreach' hrest⟩

end ThreadPool
end Koro
