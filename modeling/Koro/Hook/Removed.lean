import Koro.Hook.Table

/-!
This module contains what becomes of those that still have a channel once `Channel::remove` has cleared
its task queue: fibers that are woken from a wait, and workers in the middle of an event.
-/

namespace Koro
namespace Hook

open Function (update)
open IOManager (Channels.State)

variable {n : Nat} {s t : State n} {act : Action n}

-- The fiber gets to `registerEvent` or `unregisterEvent` without calling `sys_func` again
def Ctl.commits (ch : ChannelId) : Ctl → Bool
  | .io ch' _ .userNonBlock => ch' = ch
  | .io ch' _ .register => ch' = ch
  | .io ch' _ (.count _) => ch' = ch
  | .io ch' _ (.hold _) => ch' = ch
  | .io ch' _ (.unregister _) => ch' = ch
  | _ => false

-- The worker has a copy of a callback of the channel to push, or is about to make one
def State.uses (s : State n) (ch : ChannelId) : Dispatch → Bool
  | .handle ch' _ triggers _ =>
    ch' = ch && triggers.any fun trigger => (copied (s.io.channel ch) trigger).isSome
  | .push ch' _ _ _ _ => ch' = ch
  | _ => false

-- The channel that `Channel::remove` is called on
def State.removes (s : State n) : Action n → Option ChannelId
  | .close i _ =>
    match s.running i with
    | some (_, .close _ (.remove ch)) => if (s.io.channel ch).inEpoll then some ch else none
    | _ => none
  | _ => none

-- The channel for which `sys_func` fails with `EAGAIN`
def State.retries (s : State n) : Action n → Option ChannelId
  | .call i true =>
    match s.running i with
    | some (_, .io ch _ .call) => some ch
    | _ => none
  | _ => none

/--
A channel is removed while nobody is committed to use its task queue, and `sys_func` does not fail with
`EAGAIN` for a channel that has none.
-/
structure Spared (s : State n) (act : Action n) : Prop where
  removed : ∀ ch ∈ s.removes act,
    (∀ f < s.core.fibers, (s.ctl f).commits ch = false) ∧ ∀ i, s.uses ch (s.dispatch i) = false
  again : ∀ ch ∈ s.retries act, (s.io.channel ch).taskQueue ≠ none

instance (s : State n) (act : Action n) : Decidable (Spared s act) :=
  decidable_of_iff
    ((∀ ch ∈ s.removes act,
        (∀ f < s.core.fibers, (s.ctl f).commits ch = false) ∧ ∀ i, s.uses ch (s.dispatch i) = false)
      ∧ ∀ ch ∈ s.retries act, (s.io.channel ch).taskQueue ≠ none)
    ⟨fun ⟨h₁, h₂⟩ => ⟨h₁, h₂⟩, fun h => ⟨h.removed, h.again⟩⟩

-- Whoever is about to use the task queue of a channel finds it set
structure State.Attached (s : State n) : Prop where
  registerEvent : ∀ i f ch e, s.running i = some (f, .io ch e .register) →
    (s.io.channel ch).taskQueue ≠ none
  unregisterEvent : ∀ i f ch e w, s.running i = some (f, .io ch e (.unregister w)) →
    (s.io.channel ch).taskQueue ≠ none
  triggerEvent : ∀ i ch ev cb triggers evs, s.dispatch i = .push ch ev cb triggers evs →
    (s.io.channel ch).taskQueue ≠ none

structure State.Unused (s : State n) (ch : ChannelId) : Prop where
  commits : ∀ f, (s.ctl f).commits ch = false
  uses : ∀ i, s.uses ch (s.dispatch i) = false
  table : ∀ k : Nat, s.io.chs[k]? ≠ some (some ch)

theorem commits_step (hs : Step s act t) (h : (t.ctl f).commits ch = true)
    : (s.ctl f).commits ch = true ∨ ch ∈ s.retries act := by
  cases hs with
  | walk _ i g b c c' hi hctl hwalk hagain =>
    by_cases hfg : f = g
    . subst hfg
      simp only [goto_ctl, Function.update_self] at h
      cases hwalk with
      | again ch' e =>
        right
        simp only [Ctl.commits, decide_eq_true_eq] at h
        rw [hagain ch' e rfl]
        simp [State.retries, State.running, hi, hctl, h]
      | wait ch' e hblock => exact .inl (by rw [hctl]; exact h)
      | _ => cases h
    . exact .inl (by simpa [hfg] using h)
  | _ => grind [Function.update_apply, Ctl.commits]

theorem uses_keeps (hs : Step s act t) (h : t.uses ch d = true)
    : s.uses ch d = true ∨ ∃ f, (s.ctl f).commits ch = true := by
  cases d with
  | handle ch' ev triggers evs =>
    simp only [State.uses, Bool.and_eq_true, decide_eq_true_eq, List.any_eq_true,
      Option.isSome_iff_exists] at h ⊢
    rcases h with ⟨rfl, trigger, htrigger, cb, hcb⟩
    rcases copied_step hs hcb with hold | ⟨i, ok, f, b, e, _, _, hctl, _⟩
    . exact .inl ⟨rfl, trigger, htrigger, cb, hold⟩
    . exact .inr ⟨f, by simp [hctl, Ctl.commits]⟩
  | _ => exact .inl h

theorem uses_step (hs : Step s act t) (h : t.uses ch (t.dispatch i) = true)
    : s.uses ch (s.dispatch i) = true ∨ (∃ k : Nat, s.io.chs[k]? = some (some ch))
        ∨ ∃ f, (s.ctl f).commits ch = true := by
  have hsame : t.dispatch i = s.dispatch i → s.uses ch (s.dispatch i) = true
      ∨ (∃ k : Nat, s.io.chs[k]? = some (some ch)) ∨ ∃ f, (s.ctl f).commits ch = true := by
    intro hd
    rw [hd] at h
    exact (uses_keeps hs h).imp_right .inr
  cases hs with
  | poll j evs ready hj hd hready =>
    by_cases hij : i = j
    . subst hij
      simp [State.uses] at h
    . exact hsame (Function.update_of_ne hij _ _)
  | turn j d d' hd hturn =>
    by_cases hij : i = j
    . subst hij
      simp only [Function.update_self] at h
      cases hturn with
      | lookup ev evs ch' hch =>
        simp only [State.uses, Bool.and_eq_true, decide_eq_true_eq] at h
        rw [← h.left]
        exact .inr (.inl ⟨ev.fd, hch⟩)
      | copy ch' ev trigger triggers evs cb hcb =>
        simp only [State.uses, decide_eq_true_eq] at h
        subst h
        left
        simp [hd, State.uses, hcb]
      | copyNone ch' ev trigger triggers evs hcb =>
        simp only [State.uses, Bool.and_eq_true, decide_eq_true_eq] at h
        rcases h with ⟨rfl, hany⟩
        left
        simpa [hd, State.uses, hcb] using hany
      | _ => cases h
    . exact hsame (Function.update_of_ne hij _ _)
  | pushCopy j ch' ev cb triggers evs q core hd hq hcore =>
    by_cases hij : i = j
    . subst hij
      simp only [Function.update_self, State.uses, Bool.and_eq_true, decide_eq_true_eq] at h
      left
      simp [hd, State.uses, h.left]
    . exact hsame (Function.update_of_ne hij _ _)
  | _ => exact hsame rfl

theorem unused_step (hlt : ch < s.io.channels) (h : s.Unused ch) (hagain : ch ∉ s.retries act)
    (hs : Step s act t)
    : t.Unused ch where
  commits := by
    intro f
    rw [← Bool.not_eq_true]
    intro hcommits
    cases commits_step hs hcommits with
    | inl hold => simp [h.commits f] at hold
    | inr hretry => exact hagain hretry
  uses := by
    intro i
    rw [← Bool.not_eq_true]
    intro huses
    rcases uses_step hs huses with hold | ⟨k, hk⟩ | ⟨f, hf⟩
    . simp [h.uses i] at hold
    . exact h.table k hk
    . simp [h.commits f] at hf
  table := by
    intro k hk
    rcases table_step hs hk with hold | ⟨hnew, _⟩
    . exact h.table k hold
    . exact Nat.ne_of_lt hlt hnew

-- A new channel has a task queue
theorem channels_step (hs : Step s act t) (hlt : ch < t.io.channels)
    : ch < s.io.channels ∨ (t.io.channel ch).taskQueue ≠ none := by
  cases hs with
  | bind i f b fd e io ch' hi hctl hio =>
    simp only [Channels.State.bindTaskQueue] at hio
    split at hio
    . cases hio
      exact .inl hlt
    . cases hio
      by_cases hch : ch = s.io.channels
      . right
        simp [hch, Channel.new]
      . left
        exact Nat.lt_of_le_of_ne (Nat.lt_succ_iff.mp hlt) hch
  | registerEvent i ok f b ch' e io hi hctl hio =>
    left
    rwa [(IOManager.Channels.table_register hio).right] at hlt
  | unregisterEvent i ok f b ch' e w io hi hctl hio =>
    left
    rwa [(IOManager.Channels.table_unregister hio).right] at hlt
  | remove i ok f b fd ch' io hi hctl hio =>
    left
    rwa [(IOManager.Channels.table_remove hio).right] at hlt
  | _ => exact .inl hlt

def State.Released (s : State n) : Prop :=
  ∀ ch < s.io.channels, (s.io.channel ch).taskQueue = none → s.Unused ch

theorem released_step (hplaced : s.Placed) (htabled : s.Tabled) (h : s.Released)
    (hok : Spared s act) (hs : Step s act t)
    : t.Released := by
  intro ch hlt hq
  have hlt' : ch < s.io.channels := by
    cases channels_step hs hlt with
    | inl hold => exact hold
    | inr hnew => exact absurd hq hnew
  rcases (keeps_step hs hlt').taskQueue with hsame | ⟨_, i, ok, f, b, fd, rfl, hi, hctl, hin⟩
  . have hq' : (s.io.channel ch).taskQueue = none := hsame ▸ hq
    apply unused_step hlt' (h ch hlt' hq') _ hs
    intro hretry
    exact hok.again ch hretry hq'
  . have hremoves : ch ∈ s.removes (.close i ok) := by
      simp [State.removes, State.running, hi, hctl, hin]
    rcases hok.removed ch hremoves with ⟨hcommits, huses⟩
    apply unused_step hlt' _ _ hs
    . constructor
      . intro g
        by_cases hg : g < s.core.fibers
        . exact hcommits g hg
        . rw [hplaced.fresh g (Nat.le_of_not_lt hg)]
          rfl
      . exact huses
      . exact htabled.unbound f ch (by rw [hctl]; rfl)
    . simp [State.retries]

theorem released_start : (State.start n).Released := by
  intro ch hlt
  exact absurd hlt (Nat.not_lt_zero ch)

theorem reachable_released (h : (machine n).Reach Spared s) : s.Released := by
  apply h.invariant_with (J := fun s => s.Placed ∧ s.Tabled)
  . intro s hs
    exact ⟨reachable_placed hs, reachable_tabled hs⟩
  . intro s hs
    rw [hs]
    exact released_start
  . intro s act t hJ hs hok hat
    exact released_step hJ.left hJ.right hs hok (Step.of_step hat)

/--
In a run whose steps spare the channels that somebody is committed to, no `registerEvent`,
`unregisterEvent` or `triggerEvent` comes to a channel without a task queue.
-/
theorem attached_of_spared (h : (machine n).Reach Spared s) : s.Attached := by
  have hreleased := reachable_released h
  have hplaced := reachable_placed h
  have htabled := reachable_tabled h
  have hfiber : ∀ {i f ch e pc}, s.running i = some (f, .io ch e pc) →
      (s.ctl f).commits ch = true → (s.io.channel ch).taskQueue ≠ none := by
    intro i f ch e pc hrun hcommits hq
    rcases running_eq_some hrun with ⟨b, _, hctl⟩
    have hunused := hreleased ch (hplaced.channel f ch e pc hctl) hq
    simp [hunused.commits f] at hcommits
  constructor
  . intro i f ch e hrun
    apply hfiber hrun
    rcases running_eq_some hrun with ⟨b, _, hctl⟩
    simp [hctl, Ctl.commits]
  . intro i f ch e w hrun
    apply hfiber hrun
    rcases running_eq_some hrun with ⟨b, _, hctl⟩
    simp [hctl, Ctl.commits]
  . intro i ch ev cb triggers evs hd hq
    have hlt := htabled.dispatched i ch (by rw [hd]; rfl)
    have huses := (hreleased ch hlt hq).uses i
    simp [hd, State.uses] at huses

-- A fiber waits to read, and a copy of its callback is pushed
def readDelivered : List (Action 1) :=
  ([.openFile 5 false, .submit 0] : List (Action 1)) ++ enter 0 ++ callRead 0 5
    ++ ([.setNonBlocking 0] : List (Action 1)) ++ register 0
    ++ ([.addPending 0, .hold 0] : List (Action 1)) ++ leave 0
    ++ ([.run (.pop 0), .run (.steal 0 true), .run (.idle 0), .poll 0 [(5,
         EPOLLIN)]] : List (Action 1))
    ++ (List.replicate 5 (.dispatchNext 0) : List (Action 1))
    ++ ([.idleReturn 0 false] : List (Action 1))

-- The copy is executed
def wake : List (Action 1) :=
  enter 0 ++ ([.exchange 0, .pushFiber 0 true, .finish 0] : List (Action 1)) ++ leave 0

theorem attached_of_spared_woken
    : ∃ s,
        (machine 1).exec (State.start 1) (readDelivered ++ wake ++ reenter 0) = some s
          ∧
        s.running 0 = some (0, .io 0 .kRead (.unregister 0)) ∧ s.Attached := by
  have h : ((machine 1).exec (State.start 1) (readDelivered ++ wake ++ reenter 0)).any (fun s =>
      s.running 0 = some (0, .io 0 .kRead (.unregister 0))) = true := by
    decide +kernel
  simp only [Option.any_eq_true, decide_eq_true_eq] at h
  rcases h with ⟨s, hexec, hrun⟩
  exact ⟨s, hexec, hrun, attached_of_spared (Machine.Reach.of_exec _ rfl hexec (by decide +kernel))⟩

-- The descriptor is closed before the fiber that was woken is resumed
def closedWoken : List (Action 1) :=
  readDelivered ++ (.submit 0 :: wake : List (Action 1)) ++ enter 0 ++ closeFile 0 5
    ++ (.finish 0 :: leave 0 : List (Action 1)) ++ reenter 0

theorem not_attached_closedWoken : ¬∀ s, (machine 1).Reachable s → s.Attached := by
  intro hall
  have h : ((machine 1).exec (State.start 1) closedWoken).any (fun s =>
      s.running 0 = some (0, .io 0 .kRead (.unregister 0)) ∧ (s.io.channel 0).taskQueue = none)
      = true := by
    decide +kernel
  simp only [Option.any_eq_true, decide_eq_true_eq] at h
  rcases h with ⟨s, hexec, hrun, hq⟩
  have hattached := hall s (Machine.Reachable.of_exec _ rfl hexec)
  exact hattached.unregisterEvent 0 0 0 .kRead 0 hrun hq

end Hook
end Koro
