import Koro.Hook.Copies

/-!
This module contains the waits in `do_io`: from the mutex section of `registerEvent` a fiber waits
until it is resumed, and what is known of a wait changes by its callback only. Callbacks are installed
by registrations only.
-/

namespace Koro

namespace Run

theorem running_state {s : State n} (hex : s.Exclusive) (hi : s.worker i = .running f b)
    : (s.fiber f).state = .kRunning := by
  have := hex.allowed i f (by rw [hi]; rfl)
  rwa [hi] at this

theorem not_held_of_running {s : State n} (hex : s.Exclusive) (hi : s.worker i = .running f b)
    (hj : j ≠ i)
    : (s.worker j).held ≠ some f := by
  intro hheld
  have hown : (s.worker i).held = some f := by rw [hi]; rfl
  exact hj (hex.lock.unique j i f hheld hown)

-- A fiber holds itself
theorem kHold_step {s t : State n} (h : Step s a t) (hf : (t.fiber f).state = .kHold)
    (ha : ∀ i b, s.worker i = .running f b → a ≠ .hold i)
    : (s.fiber f).state = .kHold := by
  cases h <;> grind [Function.update_apply, Fiber.new]

-- and stays held until a worker enters it
theorem kHold_keeps {s t : State n} (hex : s.Exclusive) (h : Step s a t) (hlt : f < s.fibers)
    (hf : (s.fiber f).state = .kHold)
    : (t.fiber f).state = .kHold ∨ ∃ i b, s.worker i = .resuming f b := by
  have hne := Nat.ne_of_lt hlt
  have hrun : ∀ i b, s.worker i ≠ .running f b := by
    intro i b hi
    rw [running_state hex hi] at hf
    cases hf
  cases h <;> grind [Function.update_apply]

end Run

namespace Hook

open Function (update)
open IOManager (Channels.State)

variable {n : Nat} {s t : State n} {act : Action n}

-- The channel, the event and the wait of a fiber that is past the mutex section of `registerEvent`
def Ctl.wait : Ctl → Option (ChannelId × Event × WaitId)
  | .io ch e (.count w) => some (ch, e, w)
  | .io ch e (.hold w) => some (ch, e, w)
  | .io ch e (.unregister w) => some (ch, e, w)
  | _ => none

-- It has not been resumed yet
def State.waiting (s : State n) (f : FiberId) : Option (ChannelId × Event × WaitId) :=
  match s.ctl f with
  | .io _ _ (.unregister _) =>
    if (s.core.fiber f).state = .kHold then (s.ctl f).wait else none
  | c => c.wait

theorem wait_of_waiting (h : s.waiting f = some x) : (s.ctl f).wait = some x := by
  unfold State.waiting at h
  split at h
  . split at h
    . exact h
    . cases h
  . exact h

theorem io_of_wait {c : Ctl} (h : c.wait = some (ch, e, w)) : ∃ pc, c = .io ch e pc := by
  unfold Ctl.wait at h
  split at h <;> cases h <;> exact ⟨_, rfl⟩

theorem bound_step (h : s.io.Bound) (hs : Step s act t) : t.io.Bound ∧ s.io.channels ≤ t.io.channels := by
  cases hs with
  | bind i f b fd e io ch hi hctl hio =>
    rcases IOManager.Channels.bound_bind h hio with ⟨hbound, _, hle⟩
    exact ⟨hbound, hle⟩
  | registerEvent i ok f b ch e io hi hctl hio =>
    rcases IOManager.Channels.table_register hio with ⟨hchs, hchannels⟩
    refine ⟨?_, Nat.le_of_eq hchannels.symm⟩
    intro fd ch' hch'
    simp only [hchs, hchannels] at hch' ⊢
    exact h fd ch' hch'
  | unregisterEvent i ok f b ch e w io hi hctl hio =>
    rcases IOManager.Channels.table_unregister hio with ⟨hchs, hchannels⟩
    refine ⟨?_, Nat.le_of_eq hchannels.symm⟩
    intro fd ch' hch'
    simp only [hchs, hchannels] at hch' ⊢
    exact h fd ch' hch'
  | remove i ok f b fd ch io hi hctl hio =>
    rcases IOManager.Channels.table_remove hio with ⟨hchs, hchannels⟩
    refine ⟨?_, Nat.le_of_eq hchannels.symm⟩
    intro fd ch' hch'
    simp only [hchs, hchannels] at hch' ⊢
    exact h fd ch' hch'
  | reset i ok f b fd ch hi hctl =>
    exact ⟨IOManager.Channels.bound_reset h ch, Nat.le_refl _⟩
  | _ => exact ⟨h, Nat.le_refl _⟩

-- A fiber gets into the part of `do_io` that has a channel by `bindTaskQueue`
theorem io_step (hs : Step s act t) (hctl : t.ctl f = .io ch e pc)
    : (∃ pc', s.ctl f = .io ch e pc')
        ∨
      ∃ q fd io, s.io.bindTaskQueue (some q) fd = some (io, ch) ∧ t.io = io := by
  cases hs with
  | bind i g b fd e' io ch' hi hg hio =>
    by_cases hfg : f = g
    . subst hfg
      simp only [goto_ctl, Function.update_self, Ctl.io.injEq] at hctl
      right
      rw [← hctl.left]
      exact ⟨i, fd, io, hio, rfl⟩
    . left
      exact ⟨pc, by simpa [hfg] using hctl⟩
  | walk _ i g b c c' hi hg hwalk =>
    by_cases hfg : f = g
    . subst hfg
      simp only [goto_ctl, Function.update_self] at hctl
      subst hctl
      left
      cases hwalk with
      | again => exact ⟨_, hg⟩
      | wait => exact ⟨_, hg⟩
    . left
      exact ⟨pc, by simpa [hfg] using hctl⟩
  | _ => grind [Function.update_apply]

theorem channel_step (hbound : s.io.Bound) (h : ∀ f ch e pc, s.ctl f = .io ch e pc → ch < s.io.channels)
    (hs : Step s act t)
    : ∀ f ch e pc, t.ctl f = .io ch e pc → ch < t.io.channels := by
  intro f ch e pc hctl
  rcases io_step hs hctl with ⟨pc', hpc'⟩ | ⟨q, fd, io, hio, rfl⟩
  . exact Nat.lt_of_lt_of_le (h f ch e pc' hpc') (bound_step hbound hs).right
  . exact (IOManager.Channels.bound_bind hbound hio).right.left

-- A wait begins with the mutex section of `registerEvent`
theorem wait_step (hs : Step s act t) (h : (t.ctl f).wait = some (ch, e, w))
    : (s.ctl f).wait = some (ch, e, w)
        ∨
      ∃ i ok io, act = .registerEvent i ok ∧ s.io.registerLocked ch e (some w) true ok = some io
        ∧ t.io = io ∧ w = s.waits ∧ t.waits = s.waits + 1
        ∧ t.wait w = { fiber := f, triggered := false, pushes := 0 } := by
  cases hs with
  | registerEvent i ok g b ch' e' io hi hg hio =>
    by_cases hfg : f = g
    . subst hfg
      simp only [goto_ctl, Function.update_self, Ctl.wait, Option.some.injEq, Prod.mk.injEq] at h
      rcases h with ⟨rfl, rfl, rfl⟩
      right
      exact ⟨i, ok, io, rfl, hio, rfl, rfl, rfl, by simp⟩
    . left
      simpa [hfg] using h
  | walk _ i g b c c' hi hg hwalk =>
    left
    by_cases hfg : f = g
    . subst hfg
      simp only [goto_ctl, Function.update_self] at h
      cases hwalk <;> cases h
    . simpa [hfg] using h
  | _ => grind [Function.update_apply, Ctl.wait]

-- What is known of a wait changes by its callback only
theorem wait_keeps (hs : Step s act t) (hw : w < s.waits)
    : w < t.waits ∧ (t.wait w).fiber = (s.wait w).fiber ∧ (s.wait w).pushes ≤ (t.wait w).pushes
        ∧ ((t.wait w).triggered = (s.wait w).triggered ∨ t.Pushing w) := by
  cases hs with
  | registerEvent i ok g b ch e io hi hg hio =>
    have hwait : update s.wait s.waits { fiber := g, triggered := false, pushes := 0 } w = s.wait w :=
      Function.update_of_ne (Nat.ne_of_lt hw) _ _
    refine ⟨Nat.lt_succ_of_lt hw, ?_⟩
    simp [hwait]
  | exchange i g b w' hi hg hcalls htriggered =>
    by_cases hww : w = w'
    . subst hww
      refine ⟨hw, by simp, by simp, .inr ?_⟩
      rw [pushing_iff]
      exact ⟨i, g, b, hi, by simp⟩
    . exact ⟨hw, by simp [hww], by simp [hww], .inl (by simp [hww])⟩
  | pushFiber i g b w' core hi hg hcore =>
    by_cases hww : w = w'
    . subst hww
      exact ⟨hw, by simp, by simp, .inl (by simp)⟩
    . exact ⟨hw, by simp [hww], by simp [hww], .inl (by simp [hww])⟩
  | _ => exact ⟨hw, rfl, Nat.le_refl _, .inl rfl⟩

theorem kHold_step (hs : Step s act t) (hctl : s.ctl f = .io ch e (.unregister w))
    (hf : (t.core.fiber f).state = .kHold)
    : (s.core.fiber f).state = .kHold := by
  have hcore : ∀ {a core}, Run.step s.core a = some core → (∀ i, a ≠ .hold i) →
      (core.fiber f).state = .kHold → (s.core.fiber f).state = .kHold := by
    intro a core hstep ha hhold
    exact Run.kHold_step (Run.Step.of_step hstep) hhold (fun i _ _ => ha i)
  cases hs with
  | run a core ha hstep => exact hcore hstep (by rintro i rfl; cases ha) hf
  | create core hstep => exact hcore hstep (by simp) hf
  | submit q core hstep => exact hcore hstep (by simp) hf
  | submitFiber q g core hstep => exact hcore hstep (by simp) hf
  | leave _ i a g b core ha hi hleave hstep =>
    apply Run.kHold_step (Run.Step.of_step hstep) hf
    intro j b' hj
    have hij : i ≠ j := by
      intro hij
      rw [hij, hj] at hi
      cases hi
      simp [hctl] at hleave
    rcases ha with rfl | rfl | rfl <;> simp [hij]
  | hold i g b ch' e' w' core hi hg hstep =>
    apply Run.kHold_step (Run.Step.of_step hstep) hf
    intro j b' hj
    have hij : i ≠ j := by
      intro hij
      rw [hij, hj] at hi
      cases hi
      simp [hctl] at hg
    simp [hij]
  | pushFiber i g b w' core hi hg hstep => exact hcore hstep (by simp) hf
  | idleReturn i term core hd hstep => exact hcore hstep (by simp) hf
  | pushCopy i ch' ev cb triggers evs q core hd hq hstep => exact hcore hstep (by simp) hf
  | _ => exact hf

theorem unregister_step (hs : Step s act t) (hctl : s.ctl f = .io ch e (.unregister w))
    : t.ctl f = .io ch e (.unregister w) ∨ t.ctl f = .io ch e .uncount := by
  cases hs with
  | walk _ i g b c c' hi hg hwalk =>
    left
    have hfg : f ≠ g := by
      intro hfg
      rw [← hfg, hctl] at hg
      subst hg
      cases hwalk
    simp [hfg, hctl]
  | _ => grind [Function.update_apply]

-- A fiber that waits has been waiting, or has just registered
theorem waiting_step (hs : Step s act t) (h : t.waiting f = some (ch, e, w))
    : s.waiting f = some (ch, e, w)
        ∨
      ∃ i ok io, act = .registerEvent i ok ∧ s.io.registerLocked ch e (some w) true ok = some io
        ∧ t.io = io ∧ w = s.waits ∧ t.waits = s.waits + 1
        ∧ t.wait w = { fiber := f, triggered := false, pushes := 0 } := by
  cases wait_step hs (wait_of_waiting h) with
  | inr hregister => exact .inr hregister
  | inl hwait =>
    left
    rcases io_of_wait hwait with ⟨pc, hctl⟩
    cases pc with
    | unregister w' =>
      have hw' : w' = w := by
        rw [hctl] at hwait
        cases hwait
        rfl
      subst hw'
      have hcore : (s.core.fiber f).state = .kHold := by
        rcases unregister_step hs hctl with hsame | huncount
        . unfold State.waiting at h
          simp only [hsame, Option.ite_none_right_eq_some] at h
          exact kHold_step hs hctl h.left
        . rw [State.waiting, huncount] at h
          cases h
      simp [State.waiting, hctl, hcore, Ctl.wait]
    | _ => simpa [State.waiting, hctl] using (hctl ▸ hwait)

-- A fiber moves while it runs
theorem ctl_keeps (hs : Step s act t) (hrun : ∀ i b, s.core.worker i ≠ .running f b)
    : t.ctl f = s.ctl f := by
  cases hs <;> grind [Function.update_apply]

theorem count_step (hs : Step s act t) (hctl : s.ctl f = .io ch e (.count w))
    : t.ctl f = .io ch e (.count w) ∨ t.ctl f = .io ch e (.hold w) := by
  cases hs <;> grind [Function.update_apply, Walk]

theorem hold_step (hex : s.core.Exclusive) (hs : Step s act t)
    (hctl : s.ctl f = .io ch e (.hold w))
    : t.ctl f = .io ch e (.hold w)
        ∨ t.ctl f = .io ch e (.unregister w) ∧ (t.core.fiber f).state = .kHold := by
  cases hs with
  | hold i g b ch' e' w' core hi hg hcore =>
    by_cases hfg : f = g
    . right
      subst hfg
      rw [hctl] at hg
      cases hg
      refine ⟨by simp, ?_⟩
      cases Run.Step.of_step hcore with
      | holdFail _ f' b' hi' hstate =>
        rw [hi] at hi'
        cases hi'
        exact absurd (Run.running_state hex hi) hstate
      | hold _ f' b' hi' hstate =>
        rw [hi] at hi'
        cases hi'
        simp
    . left
      simp [hfg, hctl]
  | _ => grind [Function.update_apply, Walk]

-- A wait goes on until a worker enters the fiber
theorem waiting_keeps (hex : s.core.Exclusive) (hs : Step s act t) (hlt : f < s.core.fibers)
    (h : s.waiting f = some (ch, e, w))
    : t.waiting f = some (ch, e, w) ∨ ∃ i b, s.core.worker i = .resuming f b := by
  have hwait := wait_of_waiting h
  rcases io_of_wait hwait with ⟨pc, hctl⟩
  rw [hctl] at hwait
  cases pc with
  | count w' =>
    cases hwait
    left
    cases count_step hs hctl with
    | inl hcount => simp [State.waiting, hcount, Ctl.wait]
    | inr hhold => simp [State.waiting, hhold, Ctl.wait]
  | hold w' =>
    cases hwait
    left
    rcases hold_step hex hs hctl with hhold | ⟨hunregister, hstate⟩
    . simp [State.waiting, hhold, Ctl.wait]
    . simp [State.waiting, hunregister, hstate, Ctl.wait]
  | unregister w' =>
    cases hwait
    have hstate : (s.core.fiber f).state = .kHold := by
      unfold State.waiting at h
      simp only [hctl, Option.ite_none_right_eq_some] at h
      exact h.left
    have hsame : t.ctl f = s.ctl f := by
      apply ctl_keeps hs
      intro i b hi
      rw [Run.running_state hex hi] at hstate
      cases hstate
    have hcore : (t.core.fiber f).state = .kHold ∨ ∃ i b, s.core.worker i = .resuming f b := by
      have hone : ∀ {a core}, Run.step s.core a = some core →
          (core.fiber f).state = .kHold ∨ ∃ i b, s.core.worker i = .resuming f b :=
        fun hstep => Run.kHold_keeps hex (Run.Step.of_step hstep) hlt hstate
      cases hs with
      | run a core ha hstep => exact hone hstep
      | create core hstep => exact hone hstep
      | submit q core hstep => exact hone hstep
      | submitFiber q g core hstep => exact hone hstep
      | leave _ i a g b core ha hi hleave hstep => exact hone hstep
      | hold i g b ch' e' w' core hi hg hstep => exact hone hstep
      | pushFiber i g b w' core hi hg hstep => exact hone hstep
      | idleReturn i term core hd hstep => exact hone hstep
      | pushCopy i ch' ev cb triggers evs q core hd hq hstep => exact hone hstep
      | _ => exact .inl hstate
    cases hcore with
    | inl hstate' => simp [State.waiting, hsame, hctl, hstate', Ctl.wait]
    | inr hresuming => exact .inr hresuming
  | _ => cases hwait

theorem owned_of_wait (h : (s.ctl f).wait = some (ch, e, w)) : s.owned f = true := by
  rcases io_of_wait h with ⟨pc, hctl⟩
  simp [State.owned, hctl]

theorem copied_congr {c c' : Channel n WaitId} (h : ∀ e, c'.callback e = c.callback e)
    (herror : c'.errorCallback = c.errorCallback) (trigger : Trigger)
    : copied c' trigger = copied c trigger := by
  cases trigger with
  | err => simp only [copied, herror]
  | event e => simp only [copied, h]

theorem copied_update {io : Channels.State n WaitId} {q : Fin n} {c : Channel n WaitId} {ok : Bool}
    (h : copied ((io.updateChannel q ch' c ok).channel ch) trigger = some cb)
    : ch = ch' ∧ copied c trigger = some cb ∨ copied (io.channel ch) trigger = some cb := by
  simp only [Channels.State.updateChannel, EpollPoller.updateChannel_eq] at h
  by_cases hch : ch = ch'
  . subst hch
    rw [Function.update_self] at h
    refine .inl ⟨rfl, (copied_congr ?_ ?_ trigger).symm.trans h⟩
    . intro e
      cases e <;> rfl
    . rfl
  . rw [Function.update_of_ne hch] at h
    exact .inr h

-- Only a registration installs callbacks
theorem copied_step (hs : Step s act t) (h : copied (t.io.channel ch) trigger = some cb)
    : copied (s.io.channel ch) trigger = some cb
        ∨
      ∃ i ok f b e, act = .registerEvent i ok ∧ s.core.worker i = .running f b
        ∧ s.ctl f = .io ch e .register ∧ t.waits = s.waits + 1
        ∧ (cb = .wake s.waits ∨ cb = .error ch) := by
  cases hs with
  | bind i f b fd e io ch' hi hctl hio =>
    left
    simp only [Channels.State.bindTaskQueue] at hio
    split at hio
    . cases hio
      exact h
    . cases hio
      by_cases hch : ch = s.io.channels
      . subst hch
        simp only [Function.update_self] at h
        cases trigger with
        | err => cases h
        | event e => cases e <;> cases h
      . simpa only [Function.update_of_ne hch] using h
  | sysNonBlock i f b ch' e pc hi hctl hpc =>
    left
    by_cases hch : ch = ch'
    . subst hch
      simp only [Function.update_self] at h
      refine (copied_congr ?_ ?_ trigger).symm.trans h
      . intro e
        cases e <;> rfl
      . rfl
    . simpa only [Function.update_of_ne hch] using h
  | registerEvent i ok f b ch' e io hi hctl hio =>
    rcases IOManager.Channels.registerLocked_eq_some hio with ⟨q, c, hq, hc, rfl⟩
    rcases copied_update h with ⟨rfl, hnew⟩ | hold
    . cases trigger with
      | err =>
        right
        rw [Channel.register_eq, Option.some.injEq] at hc
        subst hc
        simp only [copied, Option.map_some, Option.some.injEq] at hnew
        exact ⟨i, ok, f, b, e, rfl, hi, hctl, rfl, .inr hnew.symm⟩
      | event e' =>
        simp only [copied, Channel.callback_register hc] at hnew
        split at hnew
        . right
          simp only [Option.map_some, Option.some.injEq] at hnew
          exact ⟨i, ok, f, b, e, rfl, hi, hctl, rfl, .inl hnew.symm⟩
        . exact .inl hnew
    . exact .inl hold
  | unregisterEvent i ok f b ch' e w io hi hctl hio =>
    left
    unfold Channels.State.unregisterLocked at hio
    split at hio
    . cases hio
    . next q hq =>
      cases hio
      rcases copied_update h with ⟨rfl, hnew⟩ | hold
      . cases trigger with
        | err =>
          rw [Channel.unregister_eq] at hnew
          cases e <;> exact hnew
        | event e' =>
          simp only [copied, Channel.callback_unregister] at hnew
          split at hnew
          . cases hnew
          . exact hnew
      . exact hold
  | clear i ok f b fd ch' hi hctl =>
    left
    simp only [Channels.State.clearCallbacks] at h
    by_cases hch : ch = ch'
    . subst hch
      rw [Function.update_self] at h
      cases trigger with
      | err => cases h
      | event e => cases e <;> cases h
    . rwa [Function.update_of_ne hch] at h
  | remove i ok f b fd ch' io hi hctl hio =>
    left
    have hsame := IOManager.Channels.callbacks_remove hio ch
    exact (copied_congr hsame.left hsame.right trigger).symm.trans h
  | _ => exact .inl h

structure State.Placed (s : State n) : Prop where
  fresh : s.Fresh
  bound : s.io.Bound
  channel : ∀ f ch e pc, s.ctl f = .io ch e pc → ch < s.io.channels
  wait : ∀ f ch e w, (s.ctl f).wait = some (ch, e, w) → w < s.waits ∧ (s.wait w).fiber = f

theorem placed_start : (State.start n).Placed := by
  constructor <;>
    simp [State.start, State.Fresh, Ctl.wait, IOManager.Channels.State.Bound,
      IOManager.Channels.State.start]

theorem placed_step (hb : s.core.Bounded) (h : s.Placed) (hs : Step s act t) : t.Placed where
  fresh := fresh_step hb h.fresh hs
  bound := (bound_step h.bound hs).left
  channel := channel_step h.bound h.channel hs
  wait := by
    intro f ch e w hwait
    rcases wait_step hs hwait with hold | ⟨i, ok, io, _, _, _, hw, hwaits, hnew⟩
    . rcases h.wait f ch e w hold with ⟨hlt, hfiber⟩
      rcases wait_keeps hs hlt with ⟨hlt', hfiber', _⟩
      exact ⟨hlt', hfiber'.trans hfiber⟩
    . rw [hwaits, hw, ← hw, hnew]
      exact ⟨Nat.lt_succ_self _, rfl⟩

theorem reachable_placed (h : (machine n).Reach ok s) : s.Placed := by
  apply h.invariant_with (J := fun s => s.core.Bounded)
  . intro s hs
    exact Run.reachable_bounded (reachable_core hs)
  . intro s hs
    rw [hs]
    exact placed_start
  . intro s act t hb hs _ hat
    exact placed_step hb hs (Step.of_step hat)

-- The fibers that have a channel at hand
theorem fiber_lt (h : s.Placed) (hctl : s.ctl f = .io ch e pc) : f < s.core.fibers := by
  by_contra hge
  rw [h.fresh f (Nat.le_of_not_lt hge)] at hctl
  cases hctl

theorem waiting_lt (h : s.Placed) (hwait : (s.ctl f).wait = some (ch, e, w))
    : f < s.core.fibers := by
  rcases io_of_wait hwait with ⟨pc, hctl⟩
  exact fiber_lt h hctl

-- Parts of runs: a worker enters the fiber it makes for the next callback

def enter (i : Fin n) : List (Action n) :=
  [.run (.pop i), .run (.count i), .run (.tryLock i), .run (.resume i)]

def leave (i : Fin n) : List (Action n) :=
  [.run (.checkState i), .run (.unlock i), .run (.uncount i)]

-- Up to the end of the mutex section of `registerEvent`
def register (i : Fin n) : List (Action n) :=
  [.call i true, .userNonBlock i, .registerEvent i true]

def callRead (i : Fin n) (fd : Nat) : List (Action n) :=
  [.callDoIo i fd .kRead, .bindTaskQueue i, .sysNonBlock i]

-- It enters the next fiber in its queue again
def reenter (i : Fin n) : List (Action n) :=
  [.run (.pop i), .run (.count i), .run (.tryLock i), .run (.readState i), .run (.resume i)]

def closeFile (i : Fin n) (fd : Nat) : List (Action n) :=
  .callClose i fd :: List.replicate 6 (.close i true)

end Hook
end Koro
