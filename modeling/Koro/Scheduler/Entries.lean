import Koro.Scheduler.Exclusive
import Koro.Machine.Tally

/-!
This module contains the counting of what makes a fiber run: the entries that name it, in the task
queues and in the workers' hands, and the workers that are in it. A worker makes no more of it.
-/

namespace Koro

open Function (update)

def ScheduledTask.names (f : FiberId) : ScheduledTask → Bool
  | .fiber g => g = f
  | .cb _ => false

namespace Run

-- The entry that a worker has popped or is about to push, until it enters the fiber
def Pc.names (f : FiberId) : Pc → Bool
  | .popped task => task.names f
  | .counted task => task.names f
  | .lockFailed g => g = f
  | .locked g => g = f
  | .resuming g _ => g = f
  | .requeue g => g = f
  | _ => false

-- The worker has such an entry or is inside of the fiber, where `stays` says that the fiber goes on
-- after its next switch by being woken only
def Pc.drives (f : FiberId) (stays : Bool) (state : Fiber.State) : Pc → Bool
  | .running g _ => decide (g = f) && !stays
  | .resumed g _ => decide (g = f) && decide (state = .kReady)
  | pc => pc.names f

variable {n : Nat}

def State.entries (s : State n) (f : FiberId) : Nat :=
  ∑ q, (s.tasks q).countP (ScheduledTask.names f) + ∑ i, ((s.worker i).names f).toNat

section Count

variable (tasks : Fin n → List ScheduledTask) (worker : Fin n → Pc) (state : Fiber.State)
  (stays : Bool) (f : FiberId)

def drives : Nat :=
  ∑ q, (tasks q).countP (ScheduledTask.names f) + ∑ i, ((worker i).drives f stays state).toNat

variable {tasks worker state stays f} {state' : Fiber.State} {stays' : Bool} {i q : Fin n} {p : Pc}
  {task : ScheduledTask} {rest : List ScheduledTask}

theorem drives_other {pc : Pc} (h : pc.held ≠ some f)
    : pc.drives f stays' state' = pc.drives f stays state := by
  cases pc <;> simp_all [Pc.drives, Pc.names, Pc.held]

theorem names_le_drives {pc : Pc} : (pc.names f).toNat ≤ (pc.drives f stays state).toNat := by
  cases pc <;> simp [Pc.drives, Pc.names]

theorem queues_update (tasks : Fin n → List ScheduledTask) (q : Fin n) (f : FiberId)
      (l : List ScheduledTask)
    : ∑ j, (update tasks q l j).countP (ScheduledTask.names f)
        + (tasks q).countP (ScheduledTask.names f)
        =
      ∑ j, (tasks j).countP (ScheduledTask.names f) + l.countP (ScheduledTask.names f) := by
  apply Tally.sum_update (List.countP (ScheduledTask.names f))

theorem queues_push (tasks : Fin n → List ScheduledTask) (q : Fin n) (f : FiberId)
      (task : ScheduledTask)
    : ∑ j, (update tasks q (tasks q ++ [task]) j).countP (ScheduledTask.names f)
        =
      ∑ j, (tasks j).countP (ScheduledTask.names f) + (task.names f).toNat := by
  have := queues_update tasks q f (tasks q ++ [task])
  rw [List.countP_append, List.countP_singleton] at this
  cases h : task.names f with
  | true =>
    simp only [h, ↓reduceIte, Bool.toNat_true] at this ⊢
    omega
  | false =>
    simp only [h, Bool.false_eq_true, ↓reduceIte, Bool.toNat_false] at this ⊢
    omega

-- Worker `i` goes to `p`, and the others are not in the fiber if its state changes
theorem hands_move (hother : ∀ j, j ≠ i → (worker j).held = some f → stays' = stays ∧ state' = state)
    : ∑ j, ((update worker i p j).drives f stays' state').toNat
        + ((worker i).drives f stays state).toNat
        =
      ∑ j, ((worker j).drives f stays state).toNat + (p.drives f stays' state').toNat := by
  have hsame : ∀ j ∈ Finset.univ, j ≠ i → ((update worker i p j).drives f stays' state').toNat
      = ((worker j).drives f stays state).toNat := by
    intro j _ hj
    simp only [Function.update_of_ne hj]
    by_cases hheld : (worker j).held = some f
    . rcases hother j hj hheld with ⟨hstays, hstate⟩
      rw [hstays, hstate]
    . rw [drives_other hheld]
  simpa only [Function.update_self] using Tally.sum_change (Finset.mem_univ i) hsame

theorem drives_move (hother : ∀ j, j ≠ i → (worker j).held = some f → stays' = stays ∧ state' = state)
    (h : (p.drives f stays' state').toNat ≤ ((worker i).drives f stays state).toNat)
    : drives tasks (update worker i p) state' stays' f ≤ drives tasks worker state stays f := by
  have := hands_move (p := p) hother
  unfold drives
  omega

theorem drives_take (hq : (tasks q).countP (ScheduledTask.names f)
      = rest.countP (ScheduledTask.names f) + (task.names f).toNat)
    : drives (update tasks q rest) (update worker i (.popped task)) state stays f
        ≤
      drives tasks worker state stays f := by
  have hother : ∀ j, j ≠ i → (worker j).held = some f → stays = stays ∧ state = state :=
    fun _ _ _ => ⟨rfl, rfl⟩
  have hhand := hands_move (p := .popped task) hother
  have hqueue := queues_update tasks q f rest
  have hp : (Pc.popped task).drives f stays state = task.names f := rfl
  rw [hp] at hhand
  unfold drives
  omega

theorem drives_put {g : FiberId} (hi : (worker i).drives f stays state = decide (g = f))
    (hp : p.drives f stays state = false)
    : drives (update tasks q (tasks q ++ [.fiber g])) (update worker i p) state stays f
        ≤
      drives tasks worker state stays f := by
  have hother : ∀ j, j ≠ i → (worker j).held = some f → stays = stays ∧ state = state :=
    fun _ _ _ => ⟨rfl, rfl⟩
  have hhand := hands_move (p := p) hother
  have hqueue := queues_push tasks q f (.fiber g)
  rw [hi, hp, Bool.toNat_false] at hhand
  simp only [ScheduledTask.names] at hqueue
  unfold drives
  omega

end Count

def State.drives (s : State n) (f : FiberId) (stays : Bool) : Nat :=
  Run.drives s.tasks s.worker (s.fiber f).state stays f

theorem entries_le_drives (s : State n) (f : FiberId) (stays : Bool) : s.entries f ≤ s.drives f stays := by
  unfold State.entries State.drives drives
  apply Nat.add_le_add_left
  apply Finset.sum_le_sum
  intro i _
  exact names_le_drives

variable {s t : State n} {a : Action n} {f : FiberId} {stays : Bool}

theorem le_drives (s : State n) (f : FiberId) (stays : Bool) (i : Fin n)
    : ((s.worker i).drives f stays (s.fiber f).state).toNat ≤ s.drives f stays := by
  apply Nat.le_add_left_of_le
  exact Tally.le_sum (w := fun j => ((s.worker j).drives f stays (s.fiber f).state).toNat)
    (Finset.mem_univ i)

theorem drives_resuming (stays : Bool) (hi : s.worker i = .resuming f b)
    : 1 ≤ s.drives f stays := by
  have := le_drives s f stays i
  simpa [hi, Pc.drives, Pc.names] using this

theorem drives_submit (stays : Bool) (hs : Step s (.submitFiber q f) t)
    : t.drives f stays = s.drives f stays + 1 := by
  cases hs with
  | submitFiber hf =>
    have := queues_push s.tasks q f (.fiber f)
    simp only [ScheduledTask.names, decide_true, Bool.toNat_true] at this
    simp only [State.drives, Run.drives, this]
    omega

-- Nothing makes a fiber run that does not exist
theorem drives_fresh (stays : Bool) (hb : s.Bounded) (hf : s.fibers ≤ f) : s.drives f stays = 0 := by
  have hqueues : ∀ q, (s.tasks q).countP (ScheduledTask.names f) = 0 := by
    intro q
    rw [List.countP_eq_zero]
    intro task htask hname
    cases task with
    | fiber g =>
      simp only [ScheduledTask.names, decide_eq_true_eq] at hname
      subst hname
      exact absurd (hb.queued q g htask) (Nat.not_lt.mpr hf)
    | cb c => cases hname
  have hhands : ∀ i, (s.worker i).drives f stays (s.fiber f).state = false := by
    intro i
    have hnamed : (s.worker i).named ≠ some f := by
      intro hnamed
      exact absurd (hb.named i f hnamed) (Nat.not_lt.mpr hf)
    cases hw : s.worker i with
    | popped task => cases task <;> simp_all [Pc.drives, Pc.names, Pc.named, ScheduledTask.names]
    | counted task => cases task <;> simp_all [Pc.drives, Pc.names, Pc.named, ScheduledTask.names]
    | _ => simp_all [Pc.drives, Pc.names, Pc.named, Pc.held]
  unfold State.drives drives
  simp [hqueues, hhands]

theorem state_set {fb : Fiber} (h : fb.state = (s.fiber g).state)
    : (update s.fiber g fb f).state = (s.fiber f).state := by
  by_cases hfg : f = g
  . subst hfg
    rw [Function.update_self, h]
  . rw [Function.update_of_ne hfg]

-- Worker `i` holds fiber `g`, and leaves it in another state
theorem drives_set (hex : s.Exclusive) (hi : (s.worker i).held = some g) {fb : Fiber} {p : Pc}
    (hself : f = g → (p.drives f stays fb.state).toNat
      ≤ ((s.worker i).drives f stays (s.fiber f).state).toNat)
    (hother : f ≠ g → p.drives f stays (s.fiber f).state = false)
    : Run.drives s.tasks (update s.worker i p) (update s.fiber g fb f).state stays f
        ≤
      s.drives f stays := by
  by_cases hfg : f = g
  . subst hfg
    rw [Function.update_self]
    apply drives_move _ (hself rfl)
    intro j hj hheld
    exact absurd (hex.lock.unique j i f hheld hi) hj
  . rw [Function.update_of_ne hfg]
    apply drives_move (fun _ _ _ => ⟨rfl, rfl⟩)
    rw [hother hfg]
    exact Nat.zero_le _

theorem drives_new (hb : s.Bounded) (hf : s.fibers ≤ f) {state : Fiber.State} {p : Pc}
    : Run.drives s.tasks (update s.worker i p) state stays f ≤ 1 := by
  have hzero := drives_fresh stays hb hf
  have hother : ∀ j, j ≠ i → (s.worker j).held = some f → stays = stays ∧ state = (s.fiber f).state := by
    intro j _ hj
    exact absurd (hb.named j f (Pc.named_of_held hj)) (Nat.not_lt.mpr hf)
  have hhand := hands_move (p := p) hother
  have hle := Bool.toNat_le (p.drives f stays state)
  unfold State.drives drives at hzero
  unfold drives
  omega

theorem drives_step (hb : s.Bounded) (hex : s.Exclusive) (hs : Step s a t)
    (hsubmit : ∀ q, a ≠ .submitFiber q f)
    (hyield : ∀ i b, s.worker i = .running f b → a = .yield i → stays = false)
    : t.drives f stays ≤ s.drives f stays ∨ s.fibers ≤ f ∧ t.drives f stays ≤ 1 := by
  have hmove : ∀ {i p}, (p.drives f stays (s.fiber f).state).toNat
        ≤ ((s.worker i).drives f stays (s.fiber f).state).toNat →
      Run.drives s.tasks (update s.worker i p) (s.fiber f).state stays f ≤ s.drives f stays := by
    intro i p hp
    exact drives_move (fun _ _ _ => ⟨rfl, rfl⟩) hp
  have hnew : ∀ j, (s.worker j).held ≠ some s.fibers := by
    intro j hj
    exact Nat.lt_irrefl _ (hb.named j _ (Pc.named_of_held hj))
  cases hs with
  | create =>
    left
    apply Nat.le_of_eq
    unfold State.drives drives
    congr 1
    apply Finset.sum_congr rfl
    intro i _
    by_cases hf : f = s.fibers
    . rw [drives_other (hf ▸ hnew i)]
    . simp only [Function.update_of_ne hf]
  | submit q =>
    left
    have := queues_push s.tasks q f (.cb s.callbacks)
    simp only [ScheduledTask.names, Bool.toNat_false, Nat.add_zero] at this
    unfold State.drives drives
    rw [this]
  | submitFiber q g hg =>
    left
    have hgf : g ≠ f := by
      intro hgf
      exact hsubmit q (hgf ▸ rfl)
    have := queues_push s.tasks q f (.fiber g)
    simp only [ScheduledTask.names, hgf, decide_false, Bool.toNat_false, Nat.add_zero] at this
    unfold State.drives drives
    rw [this]
  | pop i task rest hi hq =>
    left
    apply drives_take
    rw [hq, List.countP_cons]
    cases task.names f <;> rfl
  | steal i q task rest k hi hk hv hq =>
    left
    apply drives_take
    rw [hq, List.countP_append, List.countP_singleton]
    cases task.names f <;> rfl
  | putBack i g hi => exact .inl (drives_put (by rw [hi]; rfl) rfl)
  | requeue i g hi => exact .inl (drives_put (by rw [hi]; rfl) rfl)
  | wrap i c hi =>
    by_cases hf : f = s.fibers
    . right
      refine ⟨Nat.le_of_eq hf.symm, ?_⟩
      apply drives_new hb (Nat.le_of_eq hf.symm)
    . left
      unfold State.drives
      simp only [Function.update_of_ne hf]
      apply hmove
      simp [Pc.drives, Pc.names, Ne.symm hf]
  | lock i g hi hf =>
    left
    unfold State.drives
    rw [state_set (by rfl)]
    apply hmove
    rw [hi]
    exact Nat.le_refl _
  | unlock i g hi =>
    left
    unfold State.drives
    rw [state_set (by rfl)]
    exact hmove (Nat.zero_le _)
  | resume i g b hi hf =>
    left
    apply drives_set hex (by rw [hi]; rfl)
    . intro hfg
      simp [hi, hfg, Pc.drives, Pc.names, Bool.toNat_le]
    . intro hfg
      simp [Pc.drives, Ne.symm hfg]
  | yield i g b hi hf =>
    left
    apply drives_set hex (by rw [hi]; rfl)
    . intro hfg
      subst hfg
      simp [hi, Pc.drives, hyield i b hi rfl]
    . intro hfg
      simp [Pc.drives, Ne.symm hfg]
  | hold i g b hi hf =>
    left
    apply drives_set hex (by rw [hi]; rfl)
    . intro hfg
      simp [Pc.drives]
    . intro hfg
      simp [Pc.drives, Ne.symm hfg]
  | finish i g b hi =>
    left
    apply drives_set hex (by rw [hi]; rfl)
    . intro hfg
      simp [Pc.drives]
    . intro hfg
      simp [Pc.drives, Ne.symm hfg]
  | yieldTerm i g b hi hf =>
    left
    apply hmove
    by_cases hfg : g = f
    . subst hfg
      simp [Pc.drives, hf]
    . simp [Pc.drives, hfg]
  | count i task hi => exact .inl (hmove (by rw [hi]; exact Nat.le_refl _))
  | lockFail i g hi hf => exact .inl (hmove (by rw [hi]; exact Nat.le_refl _))
  | readState i g hi hf => exact .inl (hmove (by rw [hi]; exact Nat.le_refl _))
  | checkReady i g b hi hf =>
    left
    apply hmove
    by_cases hfg : g = f
    . subst hfg
      simp [hi, Pc.drives, Pc.names, hf]
    . simp [Pc.drives, Pc.names, hfg]
  | _ => exact .inl (hmove (Nat.zero_le _))

end Run
end Koro
