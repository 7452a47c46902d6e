import Koro.ThreadPool.Run
import Koro.Machine.Tally

/-!
This module contains the proof that a `ThreadPool` neither loses nor duplicates tasks, that its
workers return only when they are told to and have nothing left, and that none of them sleeps over its
queue.
-/

namespace Koro
namespace ThreadPool

open Function (update)

-- The task that a worker holds or runs
def Pc.task : Pc → Option TaskId
  | .holding task => some task
  | .running task => some task
  | _ => none

def Pc.called : Pc → Option TaskId
  | .running task => some task
  | _ => none

inductive Place (n : Nat) where
  | queue (q : Fin n) (k : Nat)
  | hand (i : Fin n)
  | finished
  deriving DecidableEq, Repr

variable {n : Nat}

def State.At (s : State n) (c : TaskId) : Place n → Prop
  | .queue q k => (s.queue q)[k]? = some c
  | .hand i => (s.worker i).task = some c
  | .finished => c ∈ s.finished

section Count

variable (queue : Fin n → List TaskId) (worker : Fin n → Pc) (c : TaskId)

def inQueues : Nat :=
  ∑ q, (queue q).count c

def inHands : Nat :=
  ∑ i, (decide ((worker i).task = some c)).toNat

def inCalls : Nat :=
  ∑ i, (decide ((worker i).called = some c)).toNat

theorem inQueues_update (q : Fin n) (l : List TaskId)
    : inQueues (update queue q l) c + (queue q).count c = inQueues queue c + l.count c := by
  apply Tally.sum_update (List.count c)

theorem inHands_move (i : Fin n) (p : Pc)
    : inHands (update worker i p) c + (decide ((worker i).task = some c)).toNat
        =
      inHands worker c + (decide (p.task = some c)).toNat := by
  apply Tally.sum_update (fun p => (decide (Pc.task p = some c)).toNat)

theorem inCalls_move (i : Fin n) (p : Pc)
    : inCalls (update worker i p) c + (decide ((worker i).called = some c)).toNat
        =
      inCalls worker c + (decide (p.called = some c)).toNat := by
  apply Tally.sum_update (fun p => (decide (Pc.called p = some c)).toNat)

theorem inHands_same {p : Pc} (h : p.task = (worker i).task)
    : inHands (update worker i p) c = inHands worker c := by
  have := inHands_move worker c i p
  rw [h] at this
  omega

theorem inCalls_same {p : Pc} (h : p.called = (worker i).called)
    : inCalls (update worker i p) c = inCalls worker c := by
  have := inCalls_move worker c i p
  rw [h] at this
  omega

theorem inCalls_le_inHands : inCalls worker c ≤ inHands worker c := by
  apply Finset.sum_le_sum
  intro i _
  cases hi : worker i <;> simp [Pc.task, Pc.called]

end Count

def State.places (s : State n) (c : TaskId) : Nat :=
  inQueues s.queue c + inHands s.worker c + s.finished.count c

structure State.Conserved (s : State n) : Prop where
  total : ∀ c, s.places c = (decide (c < s.submitted)).toNat
  entered : ∀ c, s.entered.count c = inCalls s.worker c + s.finished.count c

variable {s t : State n} {act : Action n}

theorem conserved_start : (State.start n).Conserved where
  total := by simp [State.start, State.places, inQueues, inHands, Pc.task]
  entered := by simp [State.start, inCalls, Pc.called]

theorem places_step (hs : Step s act t)
    : ∀ c, t.places c + (decide (c < s.submitted)).toNat
        = s.places c + (decide (c < t.submitted)).toNat := by
  intro c
  unfold State.places
  cases hs with
  | push th idx hframe =>
    have := inQueues_update s.queue c idx (s.queue idx ++ [s.submitted])
    rw [List.count_append, List.count_singleton, beq_eq_decide] at this
    grind [Bool.toNat]
  | pop i task rest hi hq =>
    have hhand := inHands_move s.worker c i (.holding task)
    have hqueue := inQueues_update s.queue c i rest
    rw [hq, List.count_cons] at hqueue
    grind [Pc.task, Bool.toNat]
  | steal i q task rest k hi hk hv hq =>
    have hhand := inHands_move s.worker c i (.holding task)
    have hqueue := inQueues_update s.queue c q rest
    rw [hq, List.count_append, List.count_singleton] at hqueue
    grind [Pc.task, Bool.toNat]
  | finish i task hi hframe =>
    have hhand := inHands_move s.worker c i .lock
    rw [List.count_append, List.count_singleton]
    grind [Pc.task, Bool.toNat]
  | submit th idx huser => rfl
  | _ => grind [inHands_same, Pc.task]

theorem conserved_step (h : s.Conserved) (hs : Step s act t) : t.Conserved where
  total := by
    intro c
    have := places_step hs c
    have := h.total c
    omega
  entered := by
    intro c
    have := h.entered c
    cases hs with
    | call i task hi =>
      have hcall := inCalls_move s.worker c i (.running task)
      rw [List.count_append, List.count_singleton]
      grind [Pc.called, Bool.toNat]
    | finish i task hi hframe =>
      have hcall := inCalls_move s.worker c i .lock
      rw [List.count_append, List.count_singleton]
      grind [Pc.called, Bool.toNat]
    | _ => grind [inCalls_same, Pc.called]

theorem reachable_conserved (h : (machine n).Reach ok s) : s.Conserved := by
  apply h.invariant
  . intro s hs
    rw [hs]
    exact conserved_start
  . intro s a t hs _ hat
    exact conserved_step hs (Step.of_step hat)

section Places

variable {c : TaskId} {q : Fin n} {k : Nat} {i : Fin n} {p p' : Place n}

theorem inQueues_pos (hp : s.At c (.queue q k)) : 0 < inQueues s.queue c :=
  Tally.entry_pos hp (beq_self_eq_true c)

theorem at_hand_iff : s.At c (.hand i) ↔ decide ((s.worker i).task = some c) = true := by
  simp [State.At]

theorem inHands_pos (hp : s.At c (.hand i)) : 0 < inHands s.worker c :=
  Tally.flag_pos (b := fun j => decide ((s.worker j).task = some c)) (at_hand_iff.mp hp)

theorem place_unique (h : s.places c ≤ 1) (hp : s.At c p) (hp' : s.At c p') : p = p' := by
  unfold State.places at h
  have hfin : s.At c .finished → 0 < s.finished.count c := List.count_pos_iff.mpr
  cases p with
  | queue q k =>
    have := inQueues_pos hp
    cases p' with
    | queue q' k' =>
      have hone : inQueues s.queue c ≤ 1 := by omega
      rcases Tally.entry_unique hone hp (beq_self_eq_true c) hp' (beq_self_eq_true c) with ⟨hq, hk⟩
      rw [hq, hk]
    | hand i' => have := inHands_pos hp'; omega
    | finished => have := hfin hp'; omega
  | hand i =>
    have := inHands_pos hp
    cases p' with
    | queue q' k' => have := inQueues_pos hp'; omega
    | hand i' =>
      have hone : inHands s.worker c ≤ 1 := by omega
      rw [Tally.flag_unique (b := fun j => decide ((s.worker j).task = some c)) hone
        (at_hand_iff.mp hp) (at_hand_iff.mp hp')]
    | finished => have := hfin hp'; omega
  | finished =>
    have := hfin hp
    cases p' with
    | queue q' k' => have := inQueues_pos hp'; omega
    | hand i' => have := inHands_pos hp'; omega
    | finished => rfl

theorem place_exists (h : 0 < s.places c) : ∃ p, s.At c p := by
  unfold State.places at h
  by_cases hqueues : 0 < inQueues s.queue c
  . rcases Tally.exists_entry hqueues with ⟨q, k, task, hk, htask⟩
    rw [beq_iff_eq] at htask
    exact ⟨.queue q k, htask ▸ hk⟩
  . by_cases hhands : 0 < inHands s.worker c
    . rcases Tally.exists_flag hhands with ⟨i, hi⟩
      exact ⟨.hand i, at_hand_iff.mpr hi⟩
    . have : 0 < s.finished.count c := by omega
      exact ⟨.finished, List.count_pos_iff.mp this⟩

end Places

-- A `notify_one` for worker `i` is still to come
def State.Notifies (s : State n) (i : Fin n) : Prop :=
  (∃ th, s.frame th = some (.notify i)) ∨ s.dtor = .notify i

-- No worker sleeps over its queue or through the end
def State.Awake (s : State n) : Prop :=
  ∀ i, s.worker i = .waiting → s.queue i ≠ [] ∨ s.stop i = true → s.Notifies i

theorem awake_start : (State.start n).Awake := by
  simp [State.Awake, State.start]

theorem user_frame (h : s.user th = true) : s.frame th = none := by
  cases th with
  | worker i =>
    unfold State.user at h
    cases hi : s.worker i <;> simp_all
  | client k => simpa [State.user] using h

-- A notification to come is to come still, or wakes the worker
theorem notifies_step (hs : Step s act t) (h : s.Notifies i) : t.Notifies i ∨ t.worker i ≠ .waiting := by
  rcases h with ⟨th, hth⟩ | hd
  . have hkeep : t.frame th = some (.notify i) ∨ t.worker i ≠ .waiting := by
      cases hs <;> grind [Function.update_apply, user_frame]
    cases hkeep with
    | inl hframe => exact .inl (.inl ⟨th, hframe⟩)
    | inr hi => exact .inr hi
  . have hkeep : t.dtor = .notify i ∨ t.worker i ≠ .waiting := by
      cases hs <;> grind [Function.update_apply]
    cases hkeep with
    | inl hd => exact .inl (.inr hd)
    | inr hi => exact .inr hi

-- What a worker may wait for is announced
theorem fill_step (hs : Step s act t) (hq : s.queue i = []) (hstop : s.stop i = false)
    : t.queue i = [] ∧ t.stop i = false ∨ t.Notifies i := by
  unfold State.Notifies
  cases hs with
  | push th idx hframe =>
    cases decEq i idx with
    | isTrue hi =>
      subst hi
      exact .inr (.inl ⟨th, Function.update_self ..⟩)
    | isFalse hi => grind [Function.update_apply]
  | _ => grind [Function.update_apply, List.append_ne_nil_of_right_ne_nil]

theorem waiting_step (hs : Step s act t) (hi : t.worker i = .waiting)
    : s.worker i = .waiting ∨ (s.queue i = [] ∧ s.stop i = false) := by
  cases hs <;> grind [Function.update_apply]

theorem awake_step (h : s.Awake) (hs : Step s act t) : t.Awake := by
  intro i hi hany
  by_cases hnone : s.queue i = [] ∧ s.stop i = false
  . rcases fill_step hs hnone.left hnone.right with ⟨hq, hstop⟩ | hnotifies
    . simp [hq, hstop] at hany
    . exact hnotifies
  . have hwaiting : s.worker i = .waiting := (waiting_step hs hi).resolve_right hnone
    have hbefore : s.queue i ≠ [] ∨ s.stop i = true := by
      by_cases hq : s.queue i = []
      . simpa [hq] using hnone
      . exact .inl hq
    cases notifies_step hs (h i hwaiting hbefore) with
    | inl hnotifies => exact hnotifies
    | inr hnot => exact absurd hi hnot

theorem reachable_awake (h : (machine n).Reach ok s) : s.Awake := by
  apply h.invariant
  . intro s hs
    rw [hs]
    exact awake_start
  . intro s a t hs _ hat
    exact awake_step hs (Step.of_step hat)

theorem returned_step (hs : Step s act t) (hi : s.worker i ≠ .returned) (ht : t.worker i = .returned)
    : s.stop i = true ∧ s.queue i = [] ∧ t.stop i = true ∧ t.queue i = [] := by
  cases hs <;> grind [Function.update_apply]

/--
Every task pushed is at exactly one place and called at most once; a worker returns only when it is
told to and its queue is empty, and sleeps over its queue or through its being told only when a
`notify_one` is still to come.
-/
theorem task_conserved (h : (machine n).Reachable s)
    : (∀ c < s.submitted, ∃ p, s.At c p ∧ ∀ p', s.At c p' → p' = p)
        ∧
      (∀ c, s.entered.count c ≤ 1)
        ∧
      (∀ act t i, (machine n).step s act = some t → s.worker i ≠ .returned →
        t.worker i = .returned → t.stop i = true ∧ t.queue i = [])
        ∧
      s.Awake := by
  have hconserved := reachable_conserved h
  refine ⟨?_, ?_, ?_, reachable_awake h⟩
  . intro c hc
    have hplaces : s.places c = 1 := by
      rw [hconserved.total c]
      simp [hc]
    rcases place_exists (Nat.lt_of_lt_of_eq Nat.zero_lt_one hplaces.symm) with ⟨p, hp⟩
    refine ⟨p, hp, ?_⟩
    intro p' hp'
    exact place_unique (Nat.le_of_eq hplaces) hp' hp
  . intro c
    have htotal := hconserved.total c
    have hentered := hconserved.entered c
    have hle := inCalls_le_inHands s.worker c
    have := Bool.toNat_le (decide (c < s.submitted))
    unfold State.places at htotal
    omega
  . intro act t i hat hi ht
    rcases returned_step (Step.of_step hat) hi ht with ⟨_, _, hstop, hqueue⟩
    exact ⟨hstop, hqueue⟩

def submits (k : Nat) : List (Action n) :=
  [.submit (.client k), .push (.client k), .notify (.client k)]

-- Worker 1 runs its own task and then steals from the back of the other queue
def stolen : List (Action 2) :=
  submits 0 ++ submits 0 ++ submits 0
    ++ ([.lock 1, .call 1, .finish 1, .lock 1, .steal 1 true, .call 1] : List (Action 2))

theorem task_conserved_stolen
    : ∃ s,
        (machine 2).exec (State.start 2) stolen = some s
          ∧
        s.queue 0 = [0] ∧ s.worker 1 = .running 2 ∧ s.finished = [1]
          ∧
        (∀ c < s.submitted, ∃ p, s.At c p ∧ ∀ p', s.At c p' → p' = p)
          ∧
        (∀ c, s.entered.count c ≤ 1)
          ∧
        (∀ act t i, (machine 2).step s act = some t → s.worker i ≠ .returned →
          t.worker i = .returned → t.stop i = true ∧ t.queue i = [])
          ∧
        s.Awake := by
  have h : ((machine 2).exec (State.start 2) stolen).any (fun s =>
      s.queue 0 = [0] ∧ s.worker 1 = .running 2 ∧ s.finished = [1]) = true := by
    decide +kernel
  simp only [Option.any_eq_true, decide_eq_true_eq] at h
  rcases h with ⟨s, hexec, hqueue, hworker, hfinished⟩
  exact ⟨s, hexec, hqueue, hworker, hfinished,
    task_conserved (Machine.Reachable.of_exec _ rfl hexec)⟩

end ThreadPool
end Koro
