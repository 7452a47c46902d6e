import Koro.Hook.Waits

/-!
This module contains what steps do to the channel table and to the channels: a channel keeps its
descriptor, is in the table at this descriptor only, and is no longer in the table once its `close` is
past the mutex section of `removeChannel`.
-/

namespace Koro
namespace Hook

open Function (update)
open IOManager (Channels.State)

variable {n : Nat} {s t : State n} {act : Action n}

def Ctl.closes : Ctl → Option ChannelId
  | .close _ (.check ch) => some ch
  | .close _ (.reset ch) => some ch
  | .close _ (.clear ch) => some ch
  | .close _ (.remove ch) => some ch
  | _ => none

-- `close` is past the mutex section
def Ctl.unbound : Ctl → Option ChannelId
  | .close _ (.clear ch) => some ch
  | .close _ (.remove ch) => some ch
  | _ => none

def Dispatch.channel : Dispatch → Option ChannelId
  | .handle ch _ _ _ => some ch
  | .push ch _ _ _ _ => some ch
  | _ => Option.none

structure State.Tabled (s : State n) : Prop where
  own : ∀ (k : Nat) ch, s.io.chs[k]? = some (some ch) → (s.io.channel ch).fd = k
  closes : ∀ f ch, (s.ctl f).closes = some ch → ch < s.io.channels
  unbound : ∀ f ch, (s.ctl f).unbound = some ch → ∀ k : Nat, s.io.chs[k]? ≠ some (some ch)
  dispatched : ∀ i ch, (s.dispatch i).channel = some ch → ch < s.io.channels

theorem table_bind {io io' : Channels.State n WaitId} (hio : io.bindTaskQueue (some q) fd = some (io', ch'))
    (h : io'.chs[k]? = some (some ch))
    : io.chs[k]? = some (some ch)
        ∨
      k = fd ∧ ch = io.channels ∧ (∀ c, io.chs[fd]? ≠ some (some c))
        ∧ io'.channels = io.channels + 1 ∧ io'.channel ch = Channel.new fd (some q) := by
  simp only [Channels.State.bindTaskQueue] at hio
  split at hio
  . cases hio
    exact .inl (IOManager.Channels.grow_eq_some h)
  . next hnone =>
    cases hio
    rw [List.getElem?_set] at h
    split at h
    . next hk =>
      split at h
      . right
        cases h
        refine ⟨hk.symm, rfl, ?_, rfl, Function.update_self _ _ _⟩
        intro c hc
        apply hnone c
        unfold IOManager.Channels.grow
        split
        . next hge => rw [List.getElem?_append_left (List.getElem?_eq_some_iff.mp hc).1, hc]
        . exact hc
      . cases h
    . exact .inl (IOManager.Channels.grow_eq_some h)

theorem table_step (hs : Step s act t) (h : t.io.chs[k]? = some (some ch))
    : s.io.chs[k]? = some (some ch)
        ∨
      ch = s.io.channels ∧ t.io.channels = s.io.channels + 1
        ∧ ∃ i f b e, act = .bindTaskQueue i ∧ s.core.worker i = .running f b ∧ s.ctl f = .bind k e
          ∧ (∀ c, s.io.chs[k]? ≠ some (some c)) ∧ t.io.channel ch = Channel.new k (some i) := by
  cases hs with
  | bind i f b fd e io ch' hi hctl hio =>
    rcases table_bind hio h with hold | ⟨rfl, rfl, hnone, hchannels, hnew⟩
    . exact .inl hold
    . exact .inr ⟨rfl, hchannels, i, f, b, e, rfl, hi, hctl, hnone, hnew⟩
  | registerEvent i ok f b ch' e io hi hctl hio =>
    left
    rwa [(IOManager.Channels.table_register hio).left] at h
  | unregisterEvent i ok f b ch' e w io hi hctl hio =>
    left
    rwa [(IOManager.Channels.table_unregister hio).left] at h
  | remove i ok f b fd ch' io hi hctl hio =>
    left
    rwa [(IOManager.Channels.table_remove hio).left] at h
  | reset i ok f b fd ch' hi hctl =>
    left
    simp only [Channels.State.resetEntry] at h
    split at h
    . rw [List.getElem?_set] at h
      split at h
      . cases h
      . exact h
    . exact h
  | _ => exact .inl h

-- What a step leaves of a channel
structure Keeps (s : State n) (act : Action n) (t : State n) (ch : ChannelId) : Prop where
  fd : (t.io.channel ch).fd = (s.io.channel ch).fd
  taskQueue : (t.io.channel ch).taskQueue = (s.io.channel ch).taskQueue
    ∨ (t.io.channel ch).taskQueue = none
      ∧ ∃ i ok f b fd, act = .close i ok ∧ s.core.worker i = .running f b
        ∧ s.ctl f = .close fd (.remove ch) ∧ (s.io.channel ch).inEpoll = true
  sysNonBlock : (t.io.channel ch).sysNonBlock = (s.io.channel ch).sysNonBlock
    ∨ (t.io.channel ch).sysNonBlock = true
      ∧ ∃ i f b e, s.core.worker i = .running f b ∧ s.ctl f = .io ch e .sysNonBlock
        ∧ t.ctl f
          = .io ch e (if (s.io.channel ch).sysNonBlock then .call else .setNonBlocking)

theorem Keeps.of_eq (h : t.io.channel ch = s.io.channel ch) : Keeps s act t ch where
  fd := by rw [h]
  taskQueue := by rw [h]; exact .inl rfl
  sysNonBlock := by rw [h]; exact .inl rfl

theorem keeps_update {io : Channels.State n WaitId} {c : Channel n WaitId} {q : Fin n} {ok : Bool}
    (hio : t.io = io.updateChannel q ch' c ok) (hs : io = s.io) (hfd : c.fd = (s.io.channel ch').fd)
    (hq : c.taskQueue = (s.io.channel ch').taskQueue)
    (hblock : c.sysNonBlock = (s.io.channel ch').sysNonBlock)
    : Keeps s act t ch := by
  subst hs
  by_cases hch : ch = ch'
  . subst hch
    have hchannel : t.io.channel ch = { c with inEpoll := c.inEpoll || ok } := by
      rw [hio]
      simp only [Channels.State.updateChannel, EpollPoller.updateChannel_eq, Function.update_self]
    constructor
    . rw [hchannel, ← hfd]
    . left
      rw [hchannel, ← hq]
    . left
      rw [hchannel, ← hblock]
  . apply Keeps.of_eq
    rw [hio]
    exact Function.update_of_ne hch _ _

theorem keeps_step (hs : Step s act t) (hlt : ch < s.io.channels) : Keeps s act t ch := by
  cases hs with
  | bind i f b fd e io ch' hi hctl hio =>
    apply Keeps.of_eq
    simp only [Channels.State.bindTaskQueue] at hio
    split at hio
    . cases hio
      rfl
    . cases hio
      exact Function.update_of_ne (Nat.ne_of_lt hlt) _ _
  | sysNonBlock i f b ch' e pc hi hctl hpc =>
    by_cases hch : ch = ch'
    . subst hch
      constructor
      . simp
      . simp
      . exact .inr ⟨by simp, i, f, b, e, hi, hctl, by simp [hpc]⟩
    . apply Keeps.of_eq
      exact Function.update_of_ne hch _ _
  | registerEvent i ok f b ch' e io hi hctl hio =>
    rcases IOManager.Channels.registerLocked_eq_some hio with ⟨q, c, hq, hc, rfl⟩
    rcases IOManager.Channels.register_keeps hc with ⟨hfd, htask, _⟩
    apply keeps_update rfl rfl hfd htask
    rw [Channel.register_eq, Option.some.injEq] at hc
    subst hc
    cases e <;> rfl
  | unregisterEvent i ok f b ch' e w io hi hctl hio =>
    unfold Channels.State.unregisterLocked at hio
    split at hio
    . cases hio
    . cases hio
      rcases IOManager.Channels.unregister_keeps (s.io.channel ch') e with ⟨hfd, htask, _⟩
      apply keeps_update rfl rfl hfd htask
      rw [Channel.unregister_eq]
      cases e <;> rfl
  | clear i ok f b fd ch' hi hctl =>
    by_cases hch : ch = ch'
    . subst hch
      constructor <;> simp [Channels.State.clearCallbacks]
    . apply Keeps.of_eq
      exact Function.update_of_ne hch _ _
  | remove i ok f b fd ch' io hi hctl hio =>
    unfold Channels.State.removeFromEpoll EpollPoller.removeChannel at hio
    split at hio
    . split at hio <;> cases hio
      exact Keeps.of_eq rfl
    . split at hio
      . next hin =>
        simp only [Option.map_eq_some_iff] at hio
        rcases hio with ⟨⟨interest, c⟩, hc, rfl⟩
        by_cases hch : ch = ch'
        . subst hch
          have hsame : c.fd = (s.io.channel ch).fd
              ∧ c.sysNonBlock = (s.io.channel ch).sysNonBlock := by
            cases ok <;> simp only [hin, ↓reduceIte, Bool.false_eq_true, Option.some.injEq,
              Prod.mk.injEq] at hc <;> rw [← hc.right] <;> exact ⟨rfl, rfl⟩
          constructor
          . simpa using hsame.left
          . exact .inr ⟨by simp, i, ok, f, b, fd, rfl, hi, hctl, hin⟩
          . exact .inl (by simpa using hsame.right)
        . apply Keeps.of_eq
          exact Function.update_of_ne hch _ _
      . cases hio
        exact Keeps.of_eq rfl
  | _ => exact Keeps.of_eq rfl

theorem closes_step (hs : Step s act t) (h : (t.ctl f).closes = some ch)
    : (s.ctl f).closes = some ch ∨ ∃ k : Nat, s.io.chs[k]? = some (some ch) := by
  cases hs with
  | walk _ i g b c c' hi hctl hwalk =>
    by_cases hfg : f = g
    . subst hfg
      simp only [goto_ctl, Function.update_self] at h
      cases hwalk with
      | lookup fd ch' hch =>
        cases h
        exact .inr ⟨fd, hch⟩
      | check fd ch' hq => exact .inl (by rw [hctl]; exact h)
      | _ => cases h
    . exact .inl (by simpa [hfg] using h)
  | _ => grind [Function.update_apply, Ctl.closes]

theorem unbound_step (hs : Step s act t) (h : (t.ctl f).unbound = some ch)
    : (s.ctl f).unbound = some ch
        ∨ t.io = s.io.resetEntry ch ∧ ∃ fd, s.ctl f = .close fd (.reset ch) := by
  cases hs with
  | walk _ i g b c c' hi hctl hwalk =>
    by_cases hfg : f = g
    . subst hfg
      simp only [goto_ctl, Function.update_self] at h
      cases hwalk <;> cases h
    . exact .inl (by simpa [hfg] using h)
  | _ => grind [Function.update_apply, Ctl.unbound]

theorem dispatched_step (hs : Step s act t) (h : (t.dispatch i).channel = some ch)
    : (s.dispatch i).channel = some ch ∨ ∃ k : Nat, s.io.chs[k]? = some (some ch) := by
  cases hs with
  | turn j d d' hd hturn =>
    by_cases hij : i = j
    . subst hij
      simp only [Function.update_self] at h
      cases hturn with
      | lookup ev evs ch' hch =>
        cases h
        exact .inr ⟨ev.fd, hch⟩
      | copy ch' ev trigger triggers evs cb hcb => exact .inl (by rw [hd]; exact h)
      | copyNone ch' ev trigger triggers evs hcb => exact .inl (by rw [hd]; exact h)
      | _ => cases h
    . exact .inl (by simpa [hij] using h)
  | _ => grind [Function.update_apply, Dispatch.channel]

theorem not_reset (hown : (s.io.channel ch).fd = k) : (s.io.resetEntry ch).chs[k]? ≠ some (some ch) := by
  simp only [Channels.State.resetEntry, hown]
  split
  . next hlt => simp [hlt]
  . next hge => simp [List.getElem?_eq_none (Nat.le_of_not_lt hge)]

theorem tabled_step (hplaced : s.Placed) (h : s.Tabled) (hs : Step s act t) : t.Tabled where
  own := by
    intro k ch hch
    rcases table_step hs hch with hold | ⟨_, _, i, _, _, _, _, _, _, _, hnew⟩
    . rw [(keeps_step hs (hplaced.bound k ch hold)).fd]
      exact h.own k ch hold
    . rw [hnew]
      rfl
  closes := by
    intro f ch hcloses
    apply Nat.lt_of_lt_of_le _ (bound_step hplaced.bound hs).right
    rcases closes_step hs hcloses with hold | ⟨k, hk⟩
    . exact h.closes f ch hold
    . exact hplaced.bound k ch hk
  unbound := by
    intro f ch hunbound k hk
    rcases unbound_step hs hunbound with hold | ⟨hreset, fd, hctl⟩
    . rcases table_step hs hk with hk' | ⟨hnew, _⟩
      . exact h.unbound f ch hold k hk'
      . have hcloses : (s.ctl f).closes = some ch := by
          unfold Ctl.unbound at hold
          split at hold <;> cases hold <;> simp [*, Ctl.closes]
        exact absurd (h.closes f ch hcloses) (Nat.not_lt.mpr (Nat.le_of_eq hnew.symm))
    . have hown : (s.io.channel ch).fd = k := by
        rcases table_step hs hk with hk' | ⟨hnew, _⟩
        . exact h.own k ch hk'
        . have hcloses : (s.ctl f).closes = some ch := by rw [hctl]; rfl
          exact absurd (h.closes f ch hcloses) (Nat.not_lt.mpr (Nat.le_of_eq hnew.symm))
      rw [hreset] at hk
      exact not_reset hown hk
  dispatched := by
    intro i ch hch
    apply Nat.lt_of_lt_of_le _ (bound_step hplaced.bound hs).right
    rcases dispatched_step hs hch with hold | ⟨k, hk⟩
    . exact h.dispatched i ch hold
    . exact hplaced.bound k ch hk

theorem tabled_start : (State.start n).Tabled := by
  constructor <;>
    simp [State.start, Ctl.closes, Ctl.unbound, Dispatch.channel, IOManager.Channels.State.start]

theorem reachable_tabled (h : (machine n).Reach ok s) : s.Tabled := by
  apply h.invariant_with (J := State.Placed)
  . intro s hs
    exact reachable_placed hs
  . intro s hs
    rw [hs]
    exact tabled_start
  . intro s act t hplaced hs _ hat
    exact tabled_step hplaced hs (Step.of_step hat)

-- The channel that `bindTaskQueue` returns is for the descriptor, so that a fiber in `do_io` calls
-- `sys_func` on the descriptor of its channel
theorem bind_fd (h : s.Tabled) (hio : s.io.bindTaskQueue (some q) fd = some (io, ch))
    : (io.channel ch).fd = fd := by
  simp only [Channels.State.bindTaskQueue] at hio
  split at hio
  . next hch =>
    cases hio
    exact h.own fd ch (IOManager.Channels.grow_eq_some hch)
  . cases hio
    simp [Channel.new]

end Hook
end Koro
