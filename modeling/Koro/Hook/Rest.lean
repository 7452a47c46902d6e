import Koro.Hook.Once
import Koro.Hook.Removed
import Koro.Hook.Waiter
import Koro.Scheduler.Kept

/-!
This module contains what is left of the waits when all workers have come to rest. The entry that a
callback has pushed for its fiber stays until a worker enters the fiber, so a fiber of whose callback
there was a copy has gone on by then, and a fiber that is still inside of `do_io` has its callback
installed. `pending_event_count_` is the number of these fibers.
-/

namespace Koro

namespace Run

open Function (update)

variable {n : Nat} {s t : State n} {a : Action n} {f : FiberId}

-- There is an entry for the fiber, in a queue or in a worker's hands
def State.Named (s : State n) (f : FiberId) : Prop :=
  (∃ q, .fiber f ∈ s.tasks q) ∨ ∃ i, (s.worker i).names f = true

-- It stays until a worker enters the fiber, or finds it finished
theorem named_step (ht : t.Exclusive) (hs : Step s a t) (h : s.Named f)
    : t.Named f
        ∨ (∃ i b, s.worker i = .resuming f b ∧ t.worker i = .running f b)
        ∨ ∃ i, s.worker i = .locked f ∧ (s.fiber f).state = .kTerm := by
  rcases h with ⟨q, hq⟩ | ⟨i, hi⟩
  . left
    rcases task_step hs hq with hstill | ⟨i, hi⟩
    . exact .inl ⟨q, hstill⟩
    . refine .inr ⟨i, ?_⟩
      rw [hi]
      simp [Pc.names, ScheduledTask.names]
  . by_cases hactor : a.actor = some i
    . cases hs with
      | putBack j g hj =>
        cases hactor
        simp only [hj, Pc.names, decide_eq_true_eq] at hi
        subst hi
        exact .inl (.inl ⟨i, by simp⟩)
      | requeue j g hj =>
        cases hactor
        simp only [hj, Pc.names, decide_eq_true_eq] at hi
        subst hi
        exact .inl (.inl ⟨i, by simp⟩)
      | readTerm j g hj hg =>
        cases hactor
        simp only [hj, Pc.names, decide_eq_true_eq] at hi
        subst hi
        exact .inr (.inr ⟨i, hj, hg⟩)
      | resume j g b hj hg =>
        cases hactor
        simp only [hj, Pc.names, decide_eq_true_eq] at hi
        subst hi
        exact .inr (.inl ⟨i, b, hj, by simp⟩)
      | resumeFail j g b hj hg => exact absurd (Function.update_self j _ _) (ht.asserted j)
      | checkFail j g hj hg => exact absurd (Function.update_self j _ _) (ht.asserted j)
      | create => cases hactor
      | submit q => cases hactor
      | submitFiber q g hg => cases hactor
      | _ =>
        cases hactor
        refine .inl (.inr ⟨i, ?_⟩)
        simp_all [Pc.names, ScheduledTask.names]
    . refine .inl (.inr ⟨i, ?_⟩)
      rw [worker_other hs hactor]
      exact hi

theorem entries_pos (h : s.Named f) : 0 < s.entries f := by
  unfold State.entries
  rcases h with ⟨q, hq⟩ | ⟨i, hi⟩
  . rcases List.getElem?_of_mem hq with ⟨k, hk⟩
    exact Nat.add_pos_left (Tally.entry_pos hk (by simp [ScheduledTask.names])) _
  . exact Nat.add_pos_right _ (Tally.flag_pos hi)

theorem running_unique (hex : s.Exclusive) (hi : s.worker i = .running f b)
    (hj : (s.worker j).held = some f)
    : s.worker j = .running f b := by
  have hheld : (s.worker i).held = some f := by rw [hi]; rfl
  rw [hex.lock.unique j i f hj hheld, hi]

end Run

namespace Hook

open Function (update)

variable {n : Nat} {s t : State n} {act : Action n}

-- The fiber is in the code of a hooked call, or in the callback of a wait after its `exchange`
def Ctl.inside : Ctl → Bool
  | .user => false
  | .done => false
  | _ => true

-- A worker runs the fiber, or it has switched out of itself in `do_io` and not been entered since
def State.Held (s : State n) (f : FiberId) : Prop :=
  (∃ i b, s.core.worker i = .running f b)
    ∨ (∃ ch e w, s.ctl f = .io ch e (.unregister w)) ∧ (s.core.fiber f).state = .kHold

theorem held_core (hex : s.core.Exclusive) (hf : f < s.core.fibers)
    (hcore : Run.step s.core a = some t.core) (hctl : t.ctl f = s.ctl f)
    (ha : ∀ i b, s.core.worker i = .running f b → a ≠ .yield i ∧ a ≠ .hold i ∧ a ≠ .finish i)
    (h : s.Held f)
    : t.Held f := by
  have hstep := Run.Step.of_step hcore
  rcases h with ⟨i, b, hi⟩ | ⟨hplace, hstate⟩
  . exact .inl ⟨i, b, Run.running_step hstep hi (ha i b hi)⟩
  . rcases Run.hold_step hex hstep hf hstate with ⟨_, hhold⟩ | hruns
    . exact .inr ⟨hctl ▸ hplace, hhold⟩
    . exact .inl hruns

-- A fiber goes somewhere while it runs
theorem held_goto (hi : s.core.worker i = .running g b) (hcore : t.core = s.core)
    (hctl : ∀ f, f ≠ g → t.ctl f = s.ctl f) (h : f ≠ g → s.Held f)
    : t.Held f := by
  by_cases hfg : f = g
  . subst hfg
    exact .inl ⟨i, b, hcore ▸ hi⟩
  . rcases h hfg with hruns | hparked
    . exact .inl (hcore ▸ hruns)
    . right
      rwa [hctl f hfg, hcore]

theorem held_step (hex : s.core.Exclusive) (hfresh : s.Fresh)
    (h : ∀ f, (s.ctl f).inside = true → s.Held f) (hs : Step s act t)
    : ∀ f, (t.ctl f).inside = true → t.Held f := by
  intro f hin
  have hlt : (s.ctl f).inside = true → f < s.core.fibers := by
    intro hin
    by_contra hge
    rw [hfresh f (Nat.le_of_not_lt hge)] at hin
    cases hin
  have hrun : ∀ {a}, Run.step s.core a = some t.core → t.ctl f = s.ctl f →
      (∀ i b, s.core.worker i = .running f b → a ≠ .yield i ∧ a ≠ .hold i ∧ a ≠ .finish i) →
      t.Held f := by
    intro a hcore hctl ha
    rw [hctl] at hin
    exact held_core hex (hlt hin) hcore hctl ha (h f hin)
  have hwalk : ∀ {i g b c}, s.core.worker i = .running g b → t.core = s.core →
      t.ctl = update s.ctl g c → t.Held f := by
    intro i g b c hi hcore hctl
    have hother : ∀ f', f' ≠ g → t.ctl f' = s.ctl f' := by
      intro f' hne
      rw [hctl, Function.update_of_ne hne]
    apply held_goto hi hcore hother
    intro hne
    exact h f (hother f hne ▸ hin)
  cases hs with
  | run a core ha hcore =>
    apply hrun hcore rfl
    intro i b _
    refine ⟨?_, ?_, ?_⟩ <;> rintro rfl <;> cases ha
  | create core hcore => exact hrun hcore rfl (by simp)
  | submit q core hcore => exact hrun hcore rfl (by simp)
  | submitFiber q g core hcore => exact hrun hcore rfl (by simp)
  | leave _ i a g b core ha hi hleave hcore =>
    -- The fiber that is left is not inside
    apply hrun hcore rfl
    intro j b' hj
    have hij : i ≠ j := by
      intro hij
      rw [hij, hj] at hi
      cases hi
      simp only at hin
      rcases hleave with ⟨hctl, _⟩ | ⟨hctl, _⟩ <;> rw [hctl] at hin <;> cases hin
    rcases ha with rfl | rfl | rfl <;> simp [hij]
  | hold i g b ch e w core hi hctl hcore =>
    by_cases hfg : f = g
    . subst hfg
      rcases hold_step hex (.hold i f b ch e w core hi hctl hcore) hctl with hsame | ⟨hplace, hstate⟩
      . simp at hsame
      . exact .inr ⟨⟨ch, e, w, hplace⟩, hstate⟩
    . apply hrun hcore (by simp [hfg])
      intro j b' hj
      have hij : i ≠ j := by
        intro hij
        rw [hij, hj] at hi
        cases hi
        exact hfg rfl
      simp [hij]
  | pushFiber i g b w core hi hctl hcore =>
    by_cases hfg : f = g
    . subst hfg
      simp [Ctl.inside] at hin
    . exact hrun hcore (by simp [hfg]) (by simp)
  | idleReturn i term core hd hcore => exact hrun hcore rfl (by simp)
  | pushCopy i ch ev cb triggers evs q core hd hq hcore => exact hrun hcore rfl (by simp)
  | openFile fd nonBlock hfile => exact h f hin
  | poll i evs ready hi hd hready => exact h f hin
  | turn i d d' hd hturn => exact h f hin
  | _ => exact hwalk ‹s.core.worker _ = _› rfl rfl

theorem reachable_held (h : (machine n).Reach ok s) : ∀ f, (s.ctl f).inside = true → s.Held f := by
  apply h.invariant_with (J := fun s => s.core.Exclusive ∧ s.Placed)
  . intro s hs
    exact ⟨Run.reachable_exclusive (reachable_core hs), reachable_placed hs⟩
  . intro s hs
    rw [hs]
    intro f hin
    cases hin
  . intro s act t hJ hs _ hat
    exact held_step hJ.left hJ.right.fresh hs (Step.of_step hat)

theorem inside_of_waiting (h : s.waiting f = some (ch, e, w)) : (s.ctl f).inside = true := by
  rcases io_of_wait (wait_of_waiting h) with ⟨pc, hctl⟩
  rw [hctl]
  rfl

-- An entry that is pushed for a fiber that waits is there as long as the fiber waits
def State.Woken (s : State n) : Prop :=
  ∀ f ch e w, s.waiting f = some (ch, e, w) → 0 < (s.wait w).pushes → s.core.Named f

-- The steps of the workers
theorem named_core (hex : s.core.Exclusive) (hex' : t.core.Exclusive) (hs : Step s act t)
    (hcore : Run.step s.core a = some t.core) (hheld : s.Held f) (hnew : t.waiting f = some (ch, e, w))
    (h : s.core.Named f)
    : t.core.Named f := by
  rcases Run.named_step hex' (Run.Step.of_step hcore) h with hnamed | ⟨i, b, hi, hi'⟩ | ⟨i, hi, hterm⟩
  . exact hnamed
  . rcases hheld with ⟨j, b', hj⟩ | ⟨⟨ch', e', w', hctl⟩, _⟩
    . have := Run.running_unique hex hj (by rw [hi]; rfl)
      rw [hi] at this
      cases this
    . have hrunning := Run.running_state hex' hi'
      rcases unregister_step hs hctl with hsame | huncount
      . simp [State.waiting, hsame, hrunning] at hnew
      . simp [State.waiting, huncount, Ctl.wait] at hnew
  . rcases hheld with ⟨j, b', hj⟩ | ⟨_, hhold⟩
    . have := Run.running_unique hex hj (by rw [hi]; rfl)
      rw [hi] at this
      cases this
    . rw [hterm] at hhold
      cases hhold

theorem woken_step (hex : s.core.Exclusive) (hex' : t.core.Exclusive) (hplaced : s.Placed)
    (hheld : ∀ f, (s.ctl f).inside = true → s.Held f) (h : s.Woken) (hs : Step s act t)
    : t.Woken := by
  intro f ch e w hnew hpushes
  rcases waiting_step hs hnew with hold | ⟨_, _, _, _, _, _, _, _, hwait⟩
  . have hholds := hheld f (inside_of_waiting hold)
    have hcore : ∀ {a}, Run.step s.core a = some t.core → t.wait = s.wait → t.core.Named f := by
      intro a hcore hwait
      apply named_core hex hex' hs hcore hholds hnew
      apply h f ch e w hold
      rwa [← hwait]
    have hsame : t.core = s.core → (t.wait w).pushes = (s.wait w).pushes → t.core.Named f := by
      intro hcore hwait
      rw [hcore]
      apply h f ch e w hold
      rwa [← hwait]
    cases hs with
    | run a core ha hstep => exact hcore hstep rfl
    | create core hstep => exact hcore hstep rfl
    | submit q core hstep => exact hcore hstep rfl
    | submitFiber q g core hstep => exact hcore hstep rfl
    | leave _ i a g b core ha hi hleave hstep => exact hcore hstep rfl
    | hold i g b ch' e' w' core hi hg hstep => exact hcore hstep rfl
    | idleReturn i term core hd hstep => exact hcore hstep rfl
    | pushCopy i ch' ev cb triggers evs q core hd hq hstep => exact hcore hstep rfl
    | pushFiber i g b w' core hi hg hstep =>
      by_cases hww : w = w'
      . subst hww
        rw [(hplaced.wait f ch e w (wait_of_waiting hold)).right] at hstep
        cases Run.Step.of_step hstep with
        | submitFiber hlt => exact .inl ⟨i, by simp⟩
      . apply named_core hex hex' (.pushFiber i g b w' core hi hg hstep) hstep hholds hnew
        apply h f ch e w hold
        simpa [hww] using hpushes
    | exchange i g b w' hi hg hcalls htriggered =>
      apply hsame rfl
      by_cases hww : w = w' <;> simp [hww]
    | registerEvent i ok g b ch' e' io hi hg hio =>
      apply hsame rfl
      have hlt := (hplaced.wait f ch e w (wait_of_waiting hold)).left
      simp [Nat.ne_of_lt hlt]
    | _ => exact hsame rfl rfl
  . rw [hwait] at hpushes
    cases hpushes

theorem reachable_woken (h : (machine n).Reach ok s) : s.Woken := by
  apply h.invariant_with (J := fun s => (machine n).Reach ok s)
  . intro s hs
    exact hs
  . intro s hs
    rw [hs]
    intro f ch e w hwaiting
    cases hwaiting
  . intro s act t hreach hs hok hat
    have hex := Run.reachable_exclusive (reachable_core hreach)
    have hex' := Run.reachable_exclusive (reachable_core (hreach.tail hok hat))
    exact woken_step hex hex' (reachable_placed hreach) (reachable_held hreach) hs (Step.of_step hat)

/--
While a fiber waits that is woken by the callbacks of its waits only, there are as many entries for it as
the callback has pushed: an entry is not lost, however often it is put back, and not pushed again.
-/
theorem entries_eq_pushes (h : (machine n).Reach NotSubmitted s)
    (hwaiting : s.waiting f = some (ch, e, w))
    : s.core.entries f = (s.wait w).pushes := by
  have hle := Run.entries_le_drives s.core f (s.ctl f).stays
  have hone := (reachable_once h).chances f
  rcases Nat.eq_zero_or_pos (s.wait w).pushes with hzero | hpos
  . have hawaits : s.awaits f = true := awaits_iff.mpr ⟨ch, e, w, hwaiting, hzero⟩
    rw [hawaits, Bool.toNat_true] at hone
    omega
  . have hpushes := (wakes_once h).left w
    have hnamed : 0 < s.core.entries f := Run.entries_pos (reachable_woken h f ch e w hwaiting hpos)
    omega

theorem entries_eq_pushes_woken
    : ∃ s,
        (machine 1).exec (State.start 1) (readDelivered ++ wake) = some s
          ∧
        s.waiting 0 = some (0, .kRead, 0) ∧ (s.wait 0).pushes = 1
          ∧
        s.core.entries 0 = (s.wait 0).pushes := by
  have h : ((machine 1).exec (State.start 1) (readDelivered ++ wake)).any (fun s =>
      s.waiting 0 = some (0, .kRead, 0) ∧ (s.wait 0).pushes = 1) = true := by
    decide +kernel
  simp only [Option.any_eq_true, decide_eq_true_eq] at h
  rcases h with ⟨s, hexec, hwaiting, hpushes⟩
  refine ⟨s, hexec, hwaiting, hpushes, ?_⟩
  exact entries_eq_pushes (Machine.Reach.of_exec _ rfl hexec (by decide +kernel)) hwaiting

-- A callback that has been triggered pushes its fiber, which waits for it
def State.Follows (s : State n) : Prop :=
  ∀ f ch e w, s.waiting f = some (ch, e, w) → (s.wait w).triggered = true →
    s.Pushing w ∨ 0 < (s.wait w).pushes

theorem pushing_keeps (hplaced : s.Placed) (hs : Step s act t) (h : s.waiting f = some (ch, e, w))
    (hpush : s.Pushing w ∨ 0 < (s.wait w).pushes)
    : t.Pushing w ∨ 0 < (t.wait w).pushes := by
  have hwait := wait_of_waiting h
  rcases hplaced.wait f ch e w hwait with ⟨hlt, hfiber⟩
  cases hpush with
  | inl hpush =>
    have howned : s.owned (s.wait w).fiber = true := by
      rw [hfiber]
      exact owned_of_wait hwait
    exact pushing_step hs howned hpush
  | inr hpos =>
    rcases wait_keeps hs hlt with ⟨_, _, hle, _⟩
    exact .inr (Nat.lt_of_lt_of_le hpos hle)

theorem follows_step (hplaced : s.Placed) (h : s.Follows) (hs : Step s act t) : t.Follows := by
  intro f ch e w hnew htriggered
  rcases waiting_step hs hnew with hold | ⟨_, _, _, _, _, _, _, _, hwait⟩
  . have hlt := (hplaced.wait f ch e w (wait_of_waiting hold)).left
    rcases wait_keeps hs hlt with ⟨_, _, _, hsame | hpush⟩
    . exact pushing_keeps hplaced hs hold (h f ch e w hold (hsame ▸ htriggered))
    . exact .inl hpush
  . rw [hwait] at htriggered
    cases htriggered

theorem reachable_follows (h : (machine n).Reach ok s) : s.Follows := by
  apply h.invariant_with (J := State.Placed)
  . intro s hs
    exact reachable_placed hs
  . intro s hs
    rw [hs]
    intro f ch e w hwaiting
    cases hwaiting
  . intro s act t hplaced hs _ hat
    exact follows_step hplaced hs (Step.of_step hat)

-- The wait of which there has been a copy is pushed yet, or has been
def State.Comes (s : State n) (f : FiberId) (w : WaitId) : Prop :=
  ∀ ch e, s.waiting f = some (ch, e, w) → s.Copied w ∨ 0 < (s.wait w).pushes

theorem comes_step (h : (machine n).Reach ok s) (hlt : w < s.waits) (hcomes : s.Comes f w)
    (hs : Step s act t)
    : t.Comes f w := by
  intro ch e hnew
  have hplaced := reachable_placed h
  rcases waiting_step hs hnew with hold | ⟨_, _, _, _, _, _, hw, _⟩
  . have hpushing : s.Pushing w ∨ 0 < (s.wait w).pushes → t.Copied w ∨ 0 < (t.wait w).pushes := by
      intro hpush
      cases pushing_keeps hplaced hs hold hpush with
      | inl hpush => exact .inl (.inr (.inr hpush))
      | inr hpos => exact .inr hpos
    rcases hcomes ch e hold with (hflying | hqueued | hpush) | hpos
    . cases flying_step (Run.reachable_issued (reachable_core h)) hs hflying with
      | inl hflying => exact .inl (.inl hflying)
      | inr hqueued => exact .inl (.inr (.inl hqueued))
    . cases htriggered : (s.wait w).triggered with
      | false =>
        have hcore := reachable_core h
        left
        right
        exact queued_step (Run.reachable_bounded hcore) (Run.reachable_exclusive hcore) hplaced.fresh hs
          hqueued htriggered
      | true => exact hpushing (reachable_follows h f ch e w hold htriggered)
    . exact hpushing (.inl hpush)
    . exact hpushing (.inr hpos)
  . exact absurd hw (Nat.ne_of_lt hlt)

-- All workers are in `epoll_wait`, or have left `run`, with nothing in their hands, and no entry is left
structure State.AtRest (s : State n) : Prop where
  worker : ∀ i, s.core.worker i = .idle ∨ s.core.worker i = .exited
  dispatch : ∀ i, s.dispatch i = .none
  tasks : ∀ q, s.core.tasks q = []

instance (s : State n) : Decidable s.AtRest :=
  decidable_of_iff
    ((∀ i, s.core.worker i = .idle ∨ s.core.worker i = .exited) ∧ (∀ i, s.dispatch i = .none)
      ∧ ∀ q, s.core.tasks q = [])
    ⟨fun ⟨h₁, h₂, h₃⟩ => ⟨h₁, h₂, h₃⟩, fun h => ⟨h.worker, h.dispatch, h.tasks⟩⟩

namespace State.AtRest

theorem not_running (h : s.AtRest) : s.core.worker i ≠ .running f b := by
  rcases h.worker i with hi | hi <;> simp [hi]

theorem not_named (h : s.AtRest) : ¬s.core.Named f := by
  rintro (⟨q, hq⟩ | ⟨i, hi⟩)
  . simp [h.tasks q] at hq
  . rcases h.worker i with hw | hw <;> simp [hw, Run.Pc.names] at hi

theorem not_copied (h : s.AtRest) : ¬s.Copied w := by
  rintro (⟨i, hi⟩ | ⟨c, _, _, hbrings, _⟩ | hpush)
  . simp [h.dispatch i, Dispatch.copy] at hi
  . rcases hbrings with ⟨q, hq⟩ | ⟨i, hi⟩
    . simp [h.tasks q] at hq
    . rcases h.worker i with hw | hw <;> simp [hw, Run.Pc.brings] at hi
  . rcases pushing_iff.mp hpush with ⟨i, f, b, hi, _⟩
    exact h.not_running hi

end State.AtRest

/--
An event for which a fiber waits wakes it: once the callback has been copied, the fiber has gone on from
the wait when all workers come to rest, whatever has been done meanwhile, to the descriptor or otherwise.
-/
theorem event_wakes (as : List (Action n)) (h : (machine n).Reachable s)
    (hwaiting : s.waiting f = some (ch, e, w)) (hcopied : s.Copied w)
    (hexec : (machine n).exec s as = some t) (hrest : t.AtRest)
    : t.waiting f ≠ some (ch', e', w) := by
  have hsteps := Machine.Steps.of_exec as hexec (Machine.Meets.of_forall as fun _ _ _ => trivial)
  have hreach : (machine n).Reachable t := h.steps hsteps
  have hlt := ((reachable_placed h).wait f ch e w (wait_of_waiting hwaiting)).left
  have hcomes : (machine n).Reachable t ∧ w < t.waits ∧ t.Comes f w := by
    apply hsteps.keeps
    . exact ⟨h, hlt, fun _ _ _ => .inl hcopied⟩
    . rintro r act r' ⟨hr, hle, hcomes⟩ hok hat
      have hs := Step.of_step hat
      exact ⟨hr.tail hok hat, Nat.lt_of_lt_of_le hle (waits_step hs), comes_step hr hle hcomes hs⟩
  intro hstill
  rcases hcomes.right.right ch' e' hstill with hcopied | hpos
  . exact hrest.not_copied hcopied
  . exact hrest.not_named (reachable_woken hreach f ch' e' w hstill hpos)

-- The fiber is entered, and reads
def readsOn : List (Action 1) :=
  wake ++ reenter 0
    ++ ([.unregisterEvent 0 true, .subPending 0, .call 0 false, .finish 0] : List (Action 1)) ++ leave 0
    ++ ([.run (.pop 0), .run (.steal 0 true), .run (.idle 0)] : List (Action 1))

theorem event_wakes_readsOn
    : ∃ s t,
        (machine 1).exec (State.start 1) readDelivered = some s ∧ (machine 1).exec s readsOn = some t
          ∧
        s.waiting 0 = some (0, .kRead, 0) ∧ t.AtRest ∧ t.waiting 0 ≠ some (0, .kRead, 0) := by
  have h : ((machine 1).exec (State.start 1) readDelivered).any (fun s =>
      s.waiting 0 = some (0, .kRead, 0) ∧ s.Copied 0
        ∧ ((machine 1).exec s readsOn).any (fun t => t.AtRest) = true) = true := by
    decide +kernel
  simp only [Option.any_eq_true, decide_eq_true_eq] at h
  rcases h with ⟨s, hexec, hwaiting, hcopied, t, hexec', hrest⟩
  refine ⟨s, t, hexec, hexec', hwaiting, hrest, ?_⟩
  exact event_wakes readsOn (Machine.Reachable.of_exec _ rfl hexec) hwaiting hcopied hexec' hrest

-- `do_io` is between its increment of `pending_event_count_` and its decrement
def Ctl.counted : Ctl → Bool
  | .io _ _ (.hold _) => true
  | .io _ _ (.unregister _) => true
  | .io _ _ .uncount => true
  | _ => false

def State.counted (s : State n) (m : Nat) : Nat :=
  ∑ f ∈ Finset.range m, (s.ctl f).counted.toNat

theorem counted_update (hg : g < m) (hctl : t.ctl = update s.ctl g c)
    : t.counted m + (s.ctl g).counted.toNat = s.counted m + c.counted.toNat := by
  have hother : ∀ f ∈ Finset.range m, f ≠ g →
      (t.ctl f).counted.toNat = (s.ctl f).counted.toNat := by
    intro f _ hne
    rw [hctl, Function.update_of_ne hne]
  have := Tally.sum_change (Finset.mem_range.mpr hg) hother
  simpa only [State.counted, hctl, Function.update_self] using this

section Pending

open IOManager (Channels.State)

variable {io io' : Channels.State n WaitId}

theorem pending_bind (h : io.bindTaskQueue (some q) fd = some (io', ch))
    : io'.pendingEventCount = io.pendingEventCount := by
  simp only [Channels.State.bindTaskQueue] at h
  split at h <;> cases h <;> rfl

theorem pending_register (h : io.registerLocked ch e cb et ok = some io')
    : io'.pendingEventCount = io.pendingEventCount := by
  simp only [Channels.State.registerLocked] at h
  split at h
  . cases h
  . rcases Option.map_eq_some_iff.mp h with ⟨c, _, rfl⟩
    rfl

theorem pending_unregister (h : io.unregisterLocked ch e ok = some io')
    : io'.pendingEventCount = io.pendingEventCount := by
  simp only [Channels.State.unregisterLocked] at h
  split at h <;> cases h
  rfl

theorem pending_remove (h : io.removeFromEpoll ch ok = some io')
    : io'.pendingEventCount = io.pendingEventCount := by
  simp only [Channels.State.removeFromEpoll] at h
  split at h
  . split at h <;> cases h
    rfl
  . split at h
    . rcases Option.map_eq_some_iff.mp h with ⟨x, _, rfl⟩
      rfl
    . cases h
      rfl

end Pending

def State.Counts (s : State n) : Prop :=
  ∀ m, s.core.fibers ≤ m → s.io.pendingEventCount = UInt64.ofNat (s.counted m)

theorem counts_step (hb : s.core.Bounded) (h : s.Counts) (hs : Step s act t) : t.Counts := by
  intro m hm
  have hmove : ∀ {i g b c}, s.core.worker i = .running g b → s.core.fibers ≤ m →
      t.ctl = update s.ctl g c → t.io.pendingEventCount = s.io.pendingEventCount →
      c.counted = (s.ctl g).counted → t.io.pendingEventCount = UInt64.ofNat (t.counted m) := by
    intro i g b c hi hle hctl hio hc
    have := counted_update (Nat.lt_of_lt_of_le (running_lt hb hi) hle) hctl
    rw [hc] at this
    rw [hio, h m hle, Nat.add_right_cancel this]
  have hcore : ∀ {a}, Run.step s.core a = some t.core → s.core.fibers ≤ m := by
    intro a hstep
    exact Nat.le_trans (fibers_step hstep) hm
  cases hs with
  | run a core ha hstep => exact h m (hcore hstep)
  | create core hstep => exact h m (hcore hstep)
  | submit q core hstep => exact h m (hcore hstep)
  | submitFiber q g core hstep => exact h m (hcore hstep)
  | leave _ i a g b core ha hi hleave hstep => exact h m (hcore hstep)
  | idleReturn i term core hd hstep => exact h m (hcore hstep)
  | pushCopy i ch' ev cb triggers evs q core hd hq hstep => exact h m (hcore hstep)
  | openFile fd nonBlock hfile => exact h m hm
  | poll i evs ready hi hd hready => exact h m hm
  | turn i d d' hd hturn => exact h m hm
  | addPending i g b ch e w hi hctl =>
    have hone := counted_update (t := s.goto g (.io ch e (.hold w)))
      (Nat.lt_of_lt_of_le (running_lt hb hi) hm) rfl
    rw [hctl] at hone
    have hcount : (s.goto g (.io ch e (.hold w))).counted m = s.counted m + 1 := hone
    show s.io.pendingEventCount + 1 = _
    rw [h m hm, ← UInt64.ofNat_one, ← UInt64.ofNat_add, ← hcount]
    rfl
  | subPending i g b ch e hi hctl =>
    have hone := counted_update (t := s.goto g (.io ch e .call))
      (Nat.lt_of_lt_of_le (running_lt hb hi) hm) rfl
    rw [hctl] at hone
    have hcount : (s.goto g (.io ch e .call)).counted m + 1 = s.counted m := hone
    show s.io.pendingEventCount - 1 = _
    rw [h m hm, ← hcount, UInt64.ofNat_add, UInt64.ofNat_one, UInt64.add_sub_cancel]
    rfl
  | walk _ i g b c c' hi hctl hwalk =>
    apply hmove hi hm rfl rfl
    rw [hctl]
    cases hwalk <;> rfl
  | sysNonBlock i g b ch e pc hi hctl hpc =>
    apply hmove hi hm rfl rfl
    rw [hctl, hpc]
    split <;> rfl
  | bind i g b fd e io ch hi hctl hio => exact hmove hi hm rfl (pending_bind hio) (by rw [hctl]; rfl)
  | registerEvent i ok g b ch e io hi hctl hio =>
    exact hmove hi hm rfl (pending_register hio) (by rw [hctl]; rfl)
  | unregisterEvent i ok g b ch e w io hi hctl hio =>
    exact hmove hi hm rfl (pending_unregister hio) (by rw [hctl]; rfl)
  | remove i ok g b fd ch io hi hctl hio =>
    exact hmove hi hm rfl (pending_remove hio) (by rw [hctl]; rfl)
  | hold i g b ch e w core hi hctl hstep =>
    exact hmove hi (hcore hstep) rfl rfl (by rw [hctl]; rfl)
  | pushFiber i g b w core hi hctl hstep =>
    exact hmove hi (hcore hstep) rfl rfl (by rw [hctl]; rfl)
  | setNonBlocking i g b ch e hi hctl => exact hmove hi hm rfl rfl (by rw [hctl]; rfl)
  | reset i ok g b fd ch hi hctl => exact hmove hi hm rfl rfl (by rw [hctl]; rfl)
  | clear i ok g b fd ch hi hctl => exact hmove hi hm rfl rfl (by rw [hctl]; rfl)
  | sysClose i ok g b fd hi hctl => exact hmove hi hm rfl rfl (by rw [hctl]; rfl)
  | exchange i g b w hi hctl hcalls htriggered => exact hmove hi hm rfl rfl (by rw [hctl]; rfl)

theorem reachable_counts (h : (machine n).Reach ok s) : s.Counts := by
  apply h.invariant_with (J := fun s => s.core.Bounded)
  . intro s hs
    exact Run.reachable_bounded (reachable_core hs)
  . intro s hs
    rw [hs]
    intro m _
    simp [State.counted, State.start, Ctl.counted, IOManager.Channels.State.start]
  . intro s act t hb hs _ hat
    exact counts_step hb hs (Step.of_step hat)

theorem counted_eq_zero (h : s.counted m = 0) (hf : f < m) : (s.ctl f).counted = false := by
  have hle : (s.ctl f).counted.toNat ≤ s.counted m :=
    Tally.le_sum (w := fun f => (s.ctl f).counted.toNat) (Finset.mem_range.mpr hf)
  rw [h] at hle
  exact Bool.toNat_eq_zero.mp (Nat.le_zero.mp hle)

theorem counted_le (s : State n) (m : Nat) : s.counted m ≤ m := by
  have hle : s.counted m ≤ ∑ _ ∈ Finset.range m, 1 := Finset.sum_le_sum fun _ _ => Bool.toNat_le _
  simpa using hle

/--
`pending_event_count_` is the number of fibers that are in `do_io` after its increment and before its
decrement. Where it is zero, no fiber is on hold in `do_io`.
-/
theorem pending_counts (h : (machine n).Reachable s)
    : s.io.pendingEventCount = UInt64.ofNat (s.counted s.core.fibers)
        ∧
      (s.core.fibers < UInt64.size → s.io.pendingEventCount = 0 →
        ∀ f ch e w, s.waiting f = some (ch, e, w) → ∃ i b, s.core.worker i = .running f b) := by
  have hcounts := reachable_counts h _ (Nat.le_refl _)
  refine ⟨hcounts, ?_⟩
  intro hsize hzero f ch e w hwaiting
  have hnone : s.counted s.core.fibers = 0 := by
    have hlt := Nat.lt_of_le_of_lt (counted_le s s.core.fibers) hsize
    rw [hzero] at hcounts
    have := congrArg UInt64.toNat hcounts
    rw [UInt64.toNat_ofNat_of_lt' hlt] at this
    exact this.symm
  rcases reachable_held h f (inside_of_waiting hwaiting) with hruns | ⟨⟨ch', e', w', hctl⟩, _⟩
  . exact hruns
  . have hlt := waiting_lt (reachable_placed h) (wait_of_waiting hwaiting)
    have := counted_eq_zero hnone hlt
    rw [hctl] at this
    cases this

-- A fiber waits to read, and its worker has nothing to do
def readWaits : List (Action 1) :=
  ([.openFile 5 false, .submit 0] : List (Action 1)) ++ enter 0 ++ callRead 0 5
    ++ ([.setNonBlocking 0] : List (Action 1)) ++ register 0
    ++ ([.addPending 0, .hold 0] : List (Action 1)) ++ leave 0
    ++ ([.run (.pop 0), .run (.steal 0 true), .run (.idle 0)] : List (Action 1))

theorem pending_counts_readWaits
    : ∃ s,
        (machine 1).exec (State.start 1) readWaits = some s ∧ s.counted s.core.fibers = 1
          ∧
        s.io.pendingEventCount = UInt64.ofNat (s.counted s.core.fibers)
          ∧
        (s.core.fibers < UInt64.size → s.io.pendingEventCount = 0 →
          ∀ f ch e w, s.waiting f = some (ch, e, w) → ∃ i b, s.core.worker i = .running f b) := by
  have h : ((machine 1).exec (State.start 1) readWaits).any (fun s => s.counted s.core.fibers = 1)
      = true := by
    decide +kernel
  simp only [Option.any_eq_true, decide_eq_true_eq] at h
  rcases h with ⟨s, hexec, hone⟩
  exact ⟨s, hexec, hone, pending_counts (Machine.Reachable.of_exec _ rfl hexec)⟩

end Hook
end Koro
