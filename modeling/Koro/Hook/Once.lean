import Koro.Hook.Waits
import Koro.Scheduler.Entries

/-!
This module contains the proof that a wait wakes its fiber at most once. What makes a fiber run, the
entries for it and the worker that is in it, is counted together with the wait that has yet to push it;
of all this there is one at most.
-/

namespace Koro
namespace Hook

open Function (update)
open IOManager (Channels.State)

variable {n : Nat} {s t : State n} {act : Action n}

-- Whatever holds a callback of a wait, the wait has begun
structure State.Known (s : State n) : Prop where
  installed : ∀ ch trigger w, copied (s.io.channel ch) trigger = some (.wake w) → w < s.waits
  flying : ∀ i w, (s.dispatch i).copy = some (.wake w) → w < s.waits
  body : ∀ c w, s.body c = .wake w → w < s.waits

theorem waits_step (hs : Step s act t) : s.waits ≤ t.waits := by
  cases hs <;> first | exact Nat.le_refl _ | exact Nat.le_succ _

theorem flying_known (hs : Step s act t) (h : (t.dispatch i).copy = some cb)
    : (s.dispatch i).copy = some cb ∨ ∃ ch trigger, copied (s.io.channel ch) trigger = some cb := by
  cases hs with
  | poll j evs ready hj hd hready =>
    by_cases hij : i = j
    . subst hij
      simp [Dispatch.copy] at h
    . exact .inl (by simpa [hij] using h)
  | turn j d d' hd hturn =>
    by_cases hij : i = j
    . subst hij
      simp only [Function.update_self] at h
      cases hturn with
      | copy ch ev trigger triggers evs cb' hcb =>
        simp only [Dispatch.copy, Option.some.injEq] at h
        subst h
        exact .inr ⟨ch, trigger, hcb⟩
      | _ => cases h
    . exact .inl (by simpa [hij] using h)
  | pushCopy j ch ev cb' triggers evs q core hd hq hcore =>
    by_cases hij : i = j
    . subst hij
      simp [Dispatch.copy] at h
    . exact .inl (by simpa [hij] using h)
  | _ => exact .inl h

theorem body_known (hs : Step s act t) (h : t.body c = .wake w)
    : s.body c = .wake w ∨ s.Flying w := by
  cases hs with
  | submit q core hcore =>
    by_cases hc : c = s.core.callbacks
    . simp [hc] at h
    . exact .inl (by simpa [hc] using h)
  | pushCopy i ch ev cb triggers evs q core hd hq hcore =>
    by_cases hc : c = s.core.callbacks
    . right
      refine ⟨i, ?_⟩
      simpa [hc, hd, Dispatch.copy] using h
    . exact .inl (by simpa [hc] using h)
  | _ => exact .inl h

theorem known_step (h : s.Known) (hs : Step s act t) : t.Known where
  installed := by
    intro ch trigger w hcb
    rcases copied_step hs hcb with hold | ⟨i, ok, f, b, e, _, hi, hctl, hwaits, hnew⟩
    . exact Nat.lt_of_lt_of_le (h.installed ch trigger w hold) (waits_step hs)
    . simp only [Body.wake.injEq, reduceCtorEq, or_false] at hnew
      rw [hnew, hwaits]
      exact Nat.lt_succ_self _
  flying := by
    intro i w hcopy
    apply Nat.lt_of_lt_of_le _ (waits_step hs)
    rcases flying_known hs hcopy with hold | ⟨ch, trigger, hcb⟩
    . exact h.flying i w hold
    . exact h.installed ch trigger w hcb
  body := by
    intro c w hbody
    apply Nat.lt_of_lt_of_le _ (waits_step hs)
    rcases body_known hs hbody with hold | ⟨i, hcopy⟩
    . exact h.body c w hold
    . exact h.flying i w hcopy

theorem known_start : (State.start n).Known := by
  constructor
  . intro ch trigger w h
    cases trigger with
    | err => cases h
    | event e => cases e <;> cases h
  . intro i w h
    cases h
  . intro c w h
    cases h

theorem calls_known (h : s.Known) (hcalls : s.calls f = .wake w) : w < s.waits := by
  unfold State.calls at hcalls
  split at hcalls
  . exact h.body _ w hcalls
  . cases hcalls

-- The flag of a wait, and the callback that has set it and not pushed yet
structure State.Flagged (s : State n) : Prop where
  pushes : ∀ w, (s.wait w).pushes ≤ (s.wait w).triggered.toNat
  push : ∀ g w, s.ctl g = .push w →
    w < s.waits ∧ (s.wait w).triggered = true ∧ (s.wait w).pushes = 0
  unique : ∀ g g' w, s.ctl g = .push w → s.ctl g' = .push w → g = g'

theorem flagged_step (hknown : s.Known) (h : s.Flagged) (hs : Step s act t) : t.Flagged where
  pushes := by
    intro w
    have hpushes := h.pushes w
    have := h.push
    cases hs <;> first
      | exact hpushes
      | grind [Function.update_apply]
  push := by
    intro g w hctl
    have := h.push
    have := h.pushes w
    have := h.unique
    have := fun hcalls => calls_known (f := g) (w := w) hknown hcalls
    cases hs <;> first
      | exact h.push g w hctl
      | grind [Function.update_apply, Walk]
  unique := by
    intro g g' w hg hg'
    have := h.unique g g' w
    have := h.push
    cases hs <;> first
      | exact h.unique g g' w hg hg'
      | grind [Function.update_apply, Walk]

theorem flagged_start : (State.start n).Flagged := by
  constructor <;> simp [State.start]

-- The fiber is inside of `hold` or on its way there
def Ctl.stays : Ctl → Bool
  | .io _ _ (.count _) => true
  | .io _ _ (.hold _) => true
  | _ => false

-- The fiber waits and has not been pushed
def State.awaits (s : State n) (f : FiberId) : Bool :=
  match s.waiting f with
  | some (_, _, w) => (s.wait w).pushes = 0
  | none => false

structure State.Once (s : State n) : Prop where
  chances : ∀ f, s.core.drives f (s.ctl f).stays + (s.awaits f).toNat ≤ 1
  current : ∀ w < s.waits, (s.wait w).pushes = 0 →
    ∃ ch e, s.waiting (s.wait w).fiber = some (ch, e, w)

theorem awaits_iff
    : s.awaits f = true ↔ ∃ ch e w, s.waiting f = some (ch, e, w) ∧ (s.wait w).pushes = 0 := by
  unfold State.awaits
  split
  . next ch e w h =>
    simp only [decide_eq_true_eq, h, Option.some.injEq, Prod.mk.injEq]
    constructor
    . intro hpushes
      exact ⟨ch, e, w, ⟨rfl, rfl, rfl⟩, hpushes⟩
    . rintro ⟨_, _, _, ⟨rfl, rfl, rfl⟩, hpushes⟩
      exact hpushes
  . next h => simp [h]

theorem awaits_step (hplaced : s.Placed) (hs : Step s act t)
    (hkeep : t.waits = s.waits ∨ t.ctl f = s.ctl f)
    : (t.awaits f).toNat ≤ (s.awaits f).toNat := by
  apply Bool.toNat_le_toNat
  intro h
  rw [awaits_iff] at h ⊢
  rcases h with ⟨ch, e, w, hwaiting, hpushes⟩
  rcases waiting_step hs hwaiting with hold | ⟨_, _, _, _, _, _, hw, hnew, _⟩
  . have hlt := (hplaced.wait f ch e w (wait_of_waiting hold)).left
    rcases wait_keeps hs hlt with ⟨_, _, hle, _⟩
    exact ⟨ch, e, w, hold, by omega⟩
  . cases hkeep with
    | inl hwaits => omega
    | inr hctl =>
      have := (hplaced.wait f ch e w (hctl ▸ wait_of_waiting hwaiting)).left
      exact absurd hw (Nat.ne_of_lt this)

theorem current_step (hex : s.core.Exclusive) (hplaced : s.Placed) (h : s.Once)
    (hs : Step s act t)
    : ∀ w < t.waits, (t.wait w).pushes = 0 → ∃ ch e, t.waiting (t.wait w).fiber = some (ch, e, w) := by
  intro w hw hpushes
  by_cases hold : w < s.waits
  . rcases wait_keeps hs hold with ⟨_, hfiber, hle, _⟩
    have hpushes' : (s.wait w).pushes = 0 := by omega
    rcases h.current w hold hpushes' with ⟨ch, e, hwaiting⟩
    rw [hfiber]
    have hlt := waiting_lt hplaced (wait_of_waiting hwaiting)
    rcases waiting_keeps hex hs hlt hwaiting with hsame | ⟨i, b, hi⟩
    . exact ⟨ch, e, hsame⟩
    . have hone := h.chances (s.wait w).fiber
      have hawaits : s.awaits (s.wait w).fiber = true :=
        awaits_iff.mpr ⟨ch, e, w, hwaiting, hpushes'⟩
      have hpos := Run.drives_resuming (s.ctl (s.wait w).fiber).stays hi
      rw [hawaits, Bool.toNat_true] at hone
      omega
  . cases hs with
    | registerEvent i ok f b ch e io hi hctl hio =>
      have hwaits : w = s.waits := by
        simp only [Nat.lt_succ_iff] at hw
        omega
      subst hwaits
      exact ⟨ch, e, by simp [State.waiting, Ctl.wait]⟩
    | _ => exact absurd hw hold

theorem stays_goto (f : FiberId) (hg : s.ctl g = c) (hc : c'.stays = c.stays)
    : (update s.ctl g c' f).stays = (s.ctl f).stays := by
  by_cases hfg : f = g
  . rw [hfg, Function.update_self, hg, hc]
  . rw [Function.update_of_ne hfg]

theorem stays_walk (h : Walk s g c c') : c'.stays = c.stays := by
  cases h <;> rfl

-- The fiber begins to wait
theorem chances_register (hex : s.core.Exclusive) (hi : s.core.worker i = .running f b)
    (hctl : (s.ctl f).stays = false)
    : s.core.drives f true + 1 = s.core.drives f (s.ctl f).stays := by
  have hother : ∀ j, j ≠ i → (s.core.worker j).held = some f →
      true = false ∧ (s.core.fiber f).state = (s.core.fiber f).state := by
    intro j hj hheld
    exact absurd hheld (Run.not_held_of_running hex hi hj)
  have hhand := Run.hands_move (p := .running f b) hother
  have hout : (Run.Pc.running f b).drives f false (s.core.fiber f).state = true := by
    simp [Run.Pc.drives]
  have hin : (Run.Pc.running f b).drives f true (s.core.fiber f).state = false := by
    simp [Run.Pc.drives]
  rw [← hi, Function.update_eq_self, hi, hout, hin, Bool.toNat_true, Bool.toNat_false] at hhand
  unfold Run.State.drives Run.drives
  rw [hctl]
  omega

-- and switches out of itself
theorem chances_hold (hex : s.core.Exclusive) (hi : s.core.worker i = .running f b)
    (hcore : Run.step s.core (.hold i) = some core)
    : core.drives f false ≤ s.core.drives f true := by
  cases Run.Step.of_step hcore with
  | holdFail _ g b' hj hstate =>
    rw [hi] at hj
    cases hj
    exact absurd (Run.running_state hex hi) hstate
  | hold _ g b' hj hstate =>
    rw [hi] at hj
    cases hj
    apply Run.drives_move
    . intro j hj hheld
      exact absurd hheld (Run.not_held_of_running hex hi hj)
    . simp [Run.Pc.drives]

-- The callback of a wait pushes its fiber, which waits for that
theorem chances_push (h : s.Once) (hflagged : s.Flagged) (hctl : s.ctl g = .push w)
    (hcore : Run.step s.core (.submitFiber i (s.wait w).fiber) = some core)
    : core.drives (s.wait w).fiber (s.ctl (s.wait w).fiber).stays ≤ 1
        ∧ ∃ ch e, s.waiting (s.wait w).fiber = some (ch, e, w) := by
  rcases hflagged.push g w hctl with ⟨hw, _, hpushes⟩
  rcases h.current w hw hpushes with ⟨ch, e, hwaiting⟩
  have hone := h.chances (s.wait w).fiber
  have hawaits : s.awaits (s.wait w).fiber = true :=
    awaits_iff.mpr ⟨ch, e, w, hwaiting, hpushes⟩
  rw [hawaits, Bool.toNat_true] at hone
  rw [Run.drives_submit _ (Run.Step.of_step hcore)]
  exact ⟨hone, ch, e, hwaiting⟩

-- and waits for nothing more
theorem awaits_push (hs : Step s act t) (hwaits : t.waits = s.waits) (hpushes : (t.wait w).pushes ≠ 0)
    (hwaiting : s.waiting f = some (ch, e, w))
    : t.awaits f = false := by
  rw [Bool.eq_false_iff]
  intro h
  rcases awaits_iff.mp h with ⟨ch', e', w', hwaiting', hpushes'⟩
  rcases waiting_step hs hwaiting' with hold | ⟨_, _, _, _, _, _, _, hnew, _⟩
  . rw [hwaiting] at hold
    cases hold
    exact hpushes hpushes'
  . omega

theorem chances_step (hb : s.core.Bounded) (hex : s.core.Exclusive) (hplaced : s.Placed)
    (hflagged : s.Flagged) (h : s.Once) (hs : Step s act t) (hok : ∀ q g, act ≠ .submitFiber q g)
    : ∀ f, t.core.drives f (t.ctl f).stays + (t.awaits f).toNat ≤ 1 := by
  intro f
  have hone := h.chances f
  have hawaits : t.waits = s.waits → (t.awaits f).toNat ≤ (s.awaits f).toNat :=
    fun hwaits => awaits_step hplaced hs (.inl hwaits)
  have hstay : t.core = s.core → (t.ctl f).stays = (s.ctl f).stays → t.waits = s.waits →
      t.core.drives f (t.ctl f).stays + (t.awaits f).toNat ≤ 1 := by
    intro hcore hstays hwaits
    have := hawaits hwaits
    rw [hcore, hstays]
    omega
  -- Steps of a worker in which the fiber does not switch to `hold`
  have hrun : ∀ {a}, Run.step s.core a = some t.core → (∀ q, a ≠ .submitFiber q f) →
      (∀ i b, s.core.worker i = .running f b → a = .yield i → (s.ctl f).stays = false) →
      (t.ctl f).stays = (s.ctl f).stays → t.waits = s.waits →
      t.core.drives f (t.ctl f).stays + (t.awaits f).toNat ≤ 1 := by
    intro a hcore hsubmit hyield hstays hwaits
    have hawaits := hawaits hwaits
    rw [hstays]
    rcases Run.drives_step hb hex (Run.Step.of_step hcore) hsubmit hyield with hle | ⟨hnew, hle⟩
    . omega
    . have : s.awaits f = false := by
        rw [State.awaits, State.waiting, hplaced.fresh f hnew]
        rfl
      rw [this, Bool.toNat_false] at hawaits
      omega
  have hregister : t.core = s.core → (t.ctl f).stays = true → s.core.drives f true = 0 →
      t.core.drives f (t.ctl f).stays + (t.awaits f).toNat ≤ 1 := by
    intro hcore hstays hzero
    rw [hcore, hstays, hzero, Nat.zero_add]
    exact Bool.toNat_le _
  have hhold : (s.ctl f).stays = true → (t.ctl f).stays = false → t.waits = s.waits →
      t.core.drives f false ≤ s.core.drives f true →
      t.core.drives f (t.ctl f).stays + (t.awaits f).toNat ≤ 1 := by
    intro hstays hstays' hwaits hle
    have := hawaits hwaits
    rw [hstays] at hone
    rw [hstays']
    omega
  cases hs with
  | run a core ha hcore =>
    exact hrun hcore (by rintro q rfl; cases ha) (by rintro i b _ rfl; cases ha) rfl rfl
  | create core hcore => exact hrun hcore (by simp) (by simp) rfl rfl
  | submit q core hcore => exact hrun hcore (by simp) (by simp) rfl rfl
  | submitFiber q g core hcore => exact absurd rfl (hok q g)
  | leave _ i a g b core ha hi hleave hcore =>
    apply hrun hcore _ _ rfl rfl
    . intro q
      rcases ha with rfl | rfl | rfl <;> simp
    . intro j b' hj hyield
      have hij : i = j := by
        rcases ha with rfl | rfl | rfl <;> cases hyield
        rfl
      rw [← hij, hi] at hj
      cases hj
      rcases hleave with ⟨hctl, _⟩ | ⟨hctl, _⟩ <;> simp [hctl, Ctl.stays]
  | registerEvent i ok g b ch e io hi hctl hio =>
    by_cases hfg : f = g
    . subst hfg
      have := chances_register hex hi (by rw [hctl]; rfl)
      apply hregister rfl
      . simp [Ctl.stays]
      . omega
    . have := awaits_step hplaced (.registerEvent i ok g b ch e io hi hctl hio)
        (.inr (Function.update_of_ne hfg _ _))
      have hstays : (update s.ctl g (.io ch e .register) f).stays = (s.ctl f).stays :=
        stays_goto f hctl rfl
      simp only [goto_ctl, goto_core, Function.update_of_ne hfg] at this ⊢
      omega
  | hold i g b ch e w core hi hctl hcore =>
    by_cases hfg : f = g
    . subst hfg
      apply hhold _ _ rfl (chances_hold hex hi hcore)
      . simp [hctl, Ctl.stays]
      . simp [Ctl.stays]
    . apply hrun hcore (by simp) (by simp) _ rfl
      simp [hfg]
  | pushFiber i g b w core hi hctl hcore =>
    by_cases hf : f = (s.wait w).fiber
    . subst hf
      rcases chances_push h hflagged hctl hcore with ⟨hle, ch, e, hwaiting⟩
      have hstays : (update s.ctl g .done (s.wait w).fiber).stays = (s.ctl (s.wait w).fiber).stays :=
        stays_goto _ hctl rfl
      have hnone := awaits_push (.pushFiber i g b w core hi hctl hcore) rfl (by simp) hwaiting
      rw [hnone]
      simp only [goto_ctl, hstays]
      exact hle
    . apply hrun hcore _ (by simp) (stays_goto f hctl rfl) rfl
      intro q hq
      cases hq
      exact hf rfl
  | walk _ i g b c c' hi hctl hwalk => exact hstay rfl (stays_goto f hctl (stays_walk hwalk)) rfl
  | sysNonBlock i g b ch e pc hi hctl hpc =>
    apply hstay rfl (stays_goto f hctl _) rfl
    rw [hpc]
    split <;> rfl
  | idleReturn i term core hd hcore => exact hrun hcore (by simp) (by simp) rfl rfl
  | pushCopy i ch ev cb triggers evs q core hd hq hcore =>
    exact hrun hcore (by simp) (by simp) rfl rfl
  | openFile fd nonBlock hfile => exact hstay rfl rfl rfl
  | poll i evs ready hi hd hready => exact hstay rfl rfl rfl
  | turn i d d' hd hturn => exact hstay rfl rfl rfl
  | bind i g b fd e io ch hi hctl hio => exact hstay rfl (stays_goto f hctl rfl) rfl
  | setNonBlocking i g b ch e hi hctl => exact hstay rfl (stays_goto f hctl rfl) rfl
  | addPending i g b ch e w hi hctl => exact hstay rfl (stays_goto f hctl rfl) rfl
  | unregisterEvent i ok g b ch e w io hi hctl hio => exact hstay rfl (stays_goto f hctl rfl) rfl
  | subPending i g b ch e hi hctl => exact hstay rfl (stays_goto f hctl rfl) rfl
  | reset i ok g b fd ch hi hctl => exact hstay rfl (stays_goto f hctl rfl) rfl
  | clear i ok g b fd ch hi hctl => exact hstay rfl (stays_goto f hctl rfl) rfl
  | remove i ok g b fd ch io hi hctl hio => exact hstay rfl (stays_goto f hctl rfl) rfl
  | sysClose i ok g b fd hi hctl => exact hstay rfl (stays_goto f hctl rfl) rfl
  | exchange i g b w hi hctl hcalls htriggered => exact hstay rfl (stays_goto f hctl rfl) rfl

theorem once_start : (State.start n).Once where
  chances := by
    intro f
    have hdrives := Run.drives_fresh false (s := Run.State.start n) Run.bounded_start (Nat.zero_le f)
    exact Nat.le_trans (Nat.le_of_eq hdrives) (Nat.zero_le 1)
  current := by
    intro w hw
    exact absurd hw (Nat.not_lt_zero w)

-- Fibers are woken by the callbacks of their waits only
def NotSubmitted (_ : State n) (act : Action n) : Prop :=
  ∀ q f, act ≠ .submitFiber q f

instance (s : State n) (act : Action n) : Decidable (NotSubmitted s act) :=
  match act with
  | .submitFiber q f => isFalse fun h => h q f rfl
  | .run _ | .create | .submit _ | .yield _ | .hold _ | .finish _ | .callDoIo .. | .bindTaskQueue _
  | .sysNonBlock _ | .setNonBlocking _ | .call .. | .userNonBlock _ | .registerEvent .. | .addPending _
  | .unregisterEvent .. | .subPending _ | .callClose .. | .close .. | .exchange _ | .pushFiber ..
  | .handleError _ | .idleReturn .. | .openFile .. | .poll .. | .dispatchNext _ =>
    isTrue fun _ _ h => by cases h

theorem reachable_known (h : (machine n).Reach ok s) : s.Known := by
  apply h.invariant
  . intro s hs
    rw [hs]
    exact known_start
  . intro s act t hs _ hat
    exact known_step hs (Step.of_step hat)

theorem reachable_flagged (h : (machine n).Reach ok s) : s.Flagged := by
  apply h.invariant_with (J := State.Known)
  . intro s hs
    exact reachable_known hs
  . intro s hs
    rw [hs]
    exact flagged_start
  . intro s act t hknown hs _ hat
    exact flagged_step hknown hs (Step.of_step hat)

theorem reachable_once (h : (machine n).Reach NotSubmitted s) : s.Once := by
  apply h.invariant_with (J := fun s => (machine n).Reach NotSubmitted s)
  . intro s hs
    exact hs
  . intro s hs
    rw [hs]
    exact once_start
  . intro s act t hreach hs hok hat
    have hex := Run.reachable_exclusive (reachable_core hreach)
    have hplaced := reachable_placed hreach
    constructor
    . exact chances_step (Run.reachable_bounded (reachable_core hreach)) hex hplaced
        (reachable_flagged hreach) hs (Step.of_step hat) hok
    . exact current_step hex hplaced hs (Step.of_step hat)

/--
A wait pushes at most one entry for its fiber, a callback that is about to push belongs to what its
fiber waits for at that time, and there is never more than one entry for a fiber.
-/
theorem wakes_once (h : (machine n).Reach NotSubmitted s)
    : (∀ w, (s.wait w).pushes ≤ 1)
        ∧
      (∀ g w, s.ctl g = .push w → ∃ ch e, s.waiting (s.wait w).fiber = some (ch, e, w))
        ∧
      ∀ f, s.core.entries f ≤ 1 := by
  have hflagged := reachable_flagged h
  have honce := reachable_once h
  refine ⟨?_, ?_, ?_⟩
  . intro w
    exact Nat.le_trans (hflagged.pushes w) (Bool.toNat_le _)
  . intro g w hctl
    rcases hflagged.push g w hctl with ⟨hw, _, hpushes⟩
    exact honce.current w hw hpushes
  . intro f
    have hle := Run.entries_le_drives s.core f (s.ctl f).stays
    have hone := honce.chances f
    omega

-- The event is delivered twice before the fiber holds, and one of the copies is executed
def deliveredTwice : List (Action 2) :=
  ([.openFile 5 false, .submit 1] : List (Action 2)) ++ enter 1 ++ callRead 1 5
    ++ ([.setNonBlocking 1, .call 1 false, .finish 1] : List (Action 2)) ++ leave 1
    ++ ([.submit 0] : List (Action 2)) ++ enter 0 ++ callRead 0 5 ++ register 0
    ++ ([.run (.pop 1), .run (.steal 1 true), .run (.steal 1 true),
         .run (.idle 1)] : List (Action 2))
    ++ (.poll 1 [(5, EPOLLIN)] :: List.replicate 5 (.dispatchNext 1) : List (Action 2))
    ++ (.poll 1 [(5, EPOLLIN)] :: List.replicate 5 (.dispatchNext 1) : List (Action 2))
    ++ (.idleReturn 1 false :: enter 1 : List (Action 2)) ++ ([.exchange 1] : List (Action 2))

theorem wakes_once_deliveredTwice
    : ∃ s,
        (machine 2).exec (State.start 2) deliveredTwice = some s ∧ s.ctl 2 = .push 0
          ∧
        (∀ w, (s.wait w).pushes ≤ 1)
          ∧
        (∀ g w, s.ctl g = .push w → ∃ ch e, s.waiting (s.wait w).fiber = some (ch, e, w))
          ∧
        ∀ f, s.core.entries f ≤ 1 := by
  have h : ((machine 2).exec (State.start 2) deliveredTwice).any (fun s => s.ctl 2 = .push 0)
      = true := by
    decide +kernel
  simp only [Option.any_eq_true, decide_eq_true_eq] at h
  rcases h with ⟨s, hexec, hctl⟩
  exact ⟨s, hexec, hctl, wakes_once (Machine.Reach.of_exec _ rfl hexec (by decide +kernel))⟩

end Hook
end Koro
