import Koro.Hook.Table

/-!
This module contains the mode of the files that fibers call `sys_func` on. A channel only remembers that
somebody has been about to put its file into `O_NONBLOCK` mode.
-/

namespace Koro
namespace Hook

open Function (update)
open IOManager (Channels.State)

variable {n : Nat} {s t : State n} {act : Action n}

-- The channel of a fiber that is before the `exchange` of `sys_non_block_`
def Ctl.tests : Ctl → Option ChannelId
  | .io ch _ .sysNonBlock => some ch
  | _ => none

def Ctl.sets : Ctl → Option ChannelId
  | .io ch _ .setNonBlocking => some ch
  | _ => none

-- The channel of a fiber that calls `sys_func`, now or again
def Ctl.reads : Ctl → Option ChannelId
  | .io _ _ .sysNonBlock => none
  | .io _ _ .setNonBlocking => none
  | .io ch _ _ => some ch
  | _ => none

-- Whoever tests the channel takes its file to be in `O_NONBLOCK` mode, and no `fcntl` is to come
structure State.Trusts (s : State n) (ch : ChannelId) : Prop where
  flag : (s.io.channel ch).sysNonBlock = true
  sets : ∀ f < s.core.fibers, (s.ctl f).sets ≠ some ch

instance (s : State n) (ch : ChannelId) : Decidable (s.Trusts ch) :=
  decidable_of_iff
    ((s.io.channel ch).sysNonBlock = true ∧ ∀ f < s.core.fibers, (s.ctl f).sets ≠ some ch)
    ⟨fun ⟨h₁, h₂⟩ => ⟨h₁, h₂⟩, fun h => ⟨h.flag, h.sets⟩⟩

-- The channel whose flag is tested
def State.exchanges (s : State n) : Action n → Option ChannelId
  | .sysNonBlock i =>
    match s.running i with
    | some (_, .io ch _ .sysNonBlock) => some ch
    | _ => none
  | _ => none

-- The descriptor that a file comes under which is not in `O_NONBLOCK` mode
def opens : Action n → Option Nat
  | .openFile fd false => some fd
  | _ => none

/--
The flag is found set only when the `fcntl` has been done, and a file comes under a descriptor only
when no fiber or channel takes it to be in `O_NONBLOCK` mode already.
-/
structure Unraced (s : State n) (act : Action n) : Prop where
  exchanged : ∀ ch ∈ s.exchanges act, (s.io.channel ch).sysNonBlock = true → s.Trusts ch
  reads : ∀ fd ∈ opens act, ∀ f < s.core.fibers, ∀ ch ∈ (s.ctl f).reads, (s.io.channel ch).fd ≠ fd
  tests : ∀ fd ∈ opens act, ∀ f < s.core.fibers, ∀ ch ∈ (s.ctl f).tests,
    (s.io.channel ch).fd = fd → ¬s.Trusts ch
  table : ∀ fd ∈ opens act, ∀ ch ∈ (s.io.chs[fd]?).join, ¬s.Trusts ch

instance (s : State n) (act : Action n) : Decidable (Unraced s act) :=
  decidable_of_iff
    ((∀ ch ∈ s.exchanges act, (s.io.channel ch).sysNonBlock = true → s.Trusts ch)
      ∧ (∀ fd ∈ opens act, ∀ f < s.core.fibers, ∀ ch ∈ (s.ctl f).reads, (s.io.channel ch).fd ≠ fd)
      ∧ (∀ fd ∈ opens act, ∀ f < s.core.fibers, ∀ ch ∈ (s.ctl f).tests,
        (s.io.channel ch).fd = fd → ¬s.Trusts ch)
      ∧ ∀ fd ∈ opens act, ∀ ch ∈ (s.io.chs[fd]?).join, ¬s.Trusts ch)
    ⟨fun ⟨h₁, h₂, h₃, h₄⟩ => ⟨h₁, h₂, h₃, h₄⟩,
      fun h => ⟨h.exchanged, h.reads, h.tests, h.table⟩⟩

-- No `sys_func` is called on a file that could block the worker
def State.NeverBlocks (s : State n) : Prop :=
  ∀ i f ch e, s.running i = some (f, .io ch e .call) → s.file (s.io.channel ch).fd ≠ some false

structure State.Agrees (s : State n) : Prop where
  reads : ∀ f ch, (s.ctl f).reads = some ch → s.file (s.io.channel ch).fd ≠ some false
  tests : ∀ f ch, (s.ctl f).tests = some ch → s.Trusts ch →
    s.file (s.io.channel ch).fd ≠ some false
  table : ∀ (fd : Nat) ch, s.io.chs[fd]? = some (some ch) → s.Trusts ch → s.file fd ≠ some false

theorem file_step (hs : Step s act t) (h : t.file fd = some false)
    : s.file fd = some false ∨ fd ∈ opens act := by
  cases hs with
  | setNonBlocking i f b ch e hi hctl =>
    left
    by_cases hfd : fd = (s.io.channel ch).fd
    . simp [hfd] at h
    . simpa [hfd] using h
  | sysClose i ok f b fd' hi hctl =>
    left
    by_cases hfd : fd = fd'
    . simp [hfd] at h
    . simpa [hfd] using h
  | openFile fd' nonBlock hfile =>
    by_cases hfd : fd = fd'
    . right
      simp only [hfd, Function.update_self, Option.some.injEq] at h
      simp [opens, h, hfd]
    . left
      simpa [hfd] using h
  | _ => exact .inl h

-- A fiber that has taken the flag does its `fcntl`
theorem sets_step (hs : Step s act t) (h : (s.ctl f).sets = some ch)
    : (t.ctl f).sets = some ch ∨ t.file (s.io.channel ch).fd ≠ some false := by
  cases hs with
  | setNonBlocking i g b ch' e hi hctl =>
    by_cases hfg : f = g
    . right
      subst hfg
      rw [hctl] at h
      cases h
      simp
    . exact .inl (by simpa [hfg] using h)
  | walk _ i g b c c' hi hctl hwalk =>
    left
    have hfg : f ≠ g := by
      intro hfg
      rw [hfg, hctl] at h
      cases hwalk <;> cases h
    simpa [hfg] using h
  | _ => grind [Function.update_apply, Ctl.sets]

theorem fibers_le (hs : Step s act t) : s.core.fibers ≤ t.core.fibers := by
  cases hs with
  | run a core ha hcore => exact fibers_step hcore
  | create core hcore => exact fibers_step hcore
  | submit q core hcore => exact fibers_step hcore
  | submitFiber q f core hcore => exact fibers_step hcore
  | leave _ i a f b core ha hi hleave hcore => exact fibers_step hcore
  | hold i f b ch e w core hi hctl hcore => exact fibers_step hcore
  | pushFiber i f b w core hi hctl hcore => exact fibers_step hcore
  | idleReturn i term core hd hcore => exact fibers_step hcore
  | pushCopy i ch ev cb triggers evs q core hd hq hcore => exact fibers_step hcore
  | _ => exact Nat.le_refl _

theorem trusts_step (hb : s.core.Bounded) (hs : Step s act t) (hlt : ch < s.io.channels)
    (h : t.Trusts ch)
    : s.Trusts ch ∨ t.file (s.io.channel ch).fd ≠ some false := by
  cases hflag : (s.io.channel ch).sysNonBlock with
  | true =>
    by_cases hsets : ∃ f < s.core.fibers, (s.ctl f).sets = some ch
    . rcases hsets with ⟨f, hf, hsets⟩
      cases sets_step hs hsets with
      | inl hsame => exact absurd hsame (h.sets f (Nat.lt_of_lt_of_le hf (fibers_le hs)))
      | inr hfile => exact .inr hfile
    . left
      refine ⟨hflag, ?_⟩
      intro f hf hset
      exact hsets ⟨f, hf, hset⟩
  | false =>
    rcases (keeps_step hs hlt).sysNonBlock with hsame | ⟨_, i, f, b, e, hi, _, hctl⟩
    . rw [h.flag, hflag] at hsame
      cases hsame
    . have hf := Nat.lt_of_lt_of_le (running_lt hb hi) (fibers_le hs)
      apply absurd _ (h.sets f hf)
      simp [hctl, hflag, Ctl.sets]

theorem reads_step (hs : Step s act t) (h : (t.ctl f).reads = some ch)
    : (s.ctl f).reads = some ch
        ∨ t.file (s.io.channel ch).fd ≠ some false ∧ (∃ e, s.ctl f = .io ch e .setNonBlocking)
        ∨ (s.ctl f).tests = some ch ∧ ch ∈ s.exchanges act
          ∧ (s.io.channel ch).sysNonBlock = true ∧ t.file = s.file := by
  cases hs with
  | bind i g b fd e io ch' hi hctl hio =>
    left
    have hfg : f ≠ g := by
      rintro rfl
      simp [Ctl.reads] at h
    simpa [hfg] using h
  | sysNonBlock i g b ch' e pc hi hctl hpc =>
    by_cases hfg : f = g
    . right; right
      subst hfg
      cases hflag : (s.io.channel ch').sysNonBlock with
      | true =>
        simp [hpc, hflag, Ctl.reads] at h
        subst h
        exact ⟨by rw [hctl]; rfl, by simp [State.exchanges, State.running, hi, hctl], hflag, rfl⟩
      | false => simp [hpc, hflag, Ctl.reads] at h
    . exact .inl (by simpa [hfg] using h)
  | setNonBlocking i g b ch' e hi hctl =>
    by_cases hfg : f = g
    . right; left
      subst hfg
      simp [Ctl.reads] at h
      subst h
      exact ⟨by simp, e, hctl⟩
    . exact .inl (by simpa [hfg] using h)
  | walk _ i g b c c' hi hctl hwalk =>
    left
    by_cases hfg : f = g
    . subst hfg
      simp only [goto_ctl, Function.update_self] at h
      rw [hctl]
      cases hwalk <;> first | exact h | cases h
    . simpa [hfg] using h
  | _ => grind [Function.update_apply, Ctl.reads]

theorem tests_step (hs : Step s act t) (h : (t.ctl f).tests = some ch)
    : (s.ctl f).tests = some ch
        ∨ t.file = s.file ∧ (∃ k : Nat, s.io.chs[k]? = some (some ch))
        ∨ (t.io.channel ch).sysNonBlock = false := by
  cases hs with
  | bind i g b fd e io ch' hi hctl hio =>
    by_cases hfg : f = g
    . right
      subst hfg
      simp only [goto_ctl, Function.update_self, Ctl.tests, Option.some.injEq] at h
      subst h
      simp only [Channels.State.bindTaskQueue] at hio
      split at hio
      . next hch =>
        cases hio
        exact .inl ⟨rfl, fd, IOManager.Channels.grow_eq_some hch⟩
      . cases hio
        right
        simp [Channel.new]
    . exact .inl (by simpa [hfg] using h)
  | sysNonBlock i g b ch' e pc hi hctl hpc =>
    left
    by_cases hfg : f = g
    . subst hfg
      subst hpc
      simp only [goto_ctl, Function.update_self] at h
      split at h <;> cases h
    . simpa [hfg] using h
  | walk _ i g b c c' hi hctl hwalk =>
    left
    by_cases hfg : f = g
    . subst hfg
      simp only [goto_ctl, Function.update_self] at h
      cases hwalk <;> cases h
    . simpa [hfg] using h
  | _ => grind [Function.update_apply, Ctl.tests]

theorem io_of_reads {c : Ctl} (h : c.reads = some ch) : ∃ e pc, c = .io ch e pc := by
  unfold Ctl.reads at h
  split at h <;> cases h
  exact ⟨_, _, rfl⟩

theorem io_of_tests {c : Ctl} (h : c.tests = some ch) : ∃ e pc, c = .io ch e pc := by
  unfold Ctl.tests at h
  split at h <;> cases h
  exact ⟨_, _, rfl⟩

theorem reads_agree (hplaced : s.Placed) (h : s.Agrees) (hok : Unraced s act) (hs : Step s act t)
    (hreads : (t.ctl f).reads = some ch)
    : t.file (t.io.channel ch).fd ≠ some false := by
  intro hfile
  rcases reads_step hs hreads with hold | ⟨hset, e, hctl⟩ | ⟨htests, hexchange, hflag, hsame⟩
  . rcases io_of_reads hold with ⟨e, pc, hctl⟩
    rw [(keeps_step hs (hplaced.channel f ch e pc hctl)).fd] at hfile
    cases file_step hs hfile with
    | inl hold' => exact h.reads f ch hold hold'
    | inr hopens => exact hok.reads _ hopens f (fiber_lt hplaced hctl) ch hold rfl
  . rw [(keeps_step hs (hplaced.channel f ch e _ hctl)).fd] at hfile
    exact hset hfile
  . rcases io_of_tests htests with ⟨e, pc, hctl⟩
    rw [(keeps_step hs (hplaced.channel f ch e pc hctl)).fd, hsame] at hfile
    exact h.tests f ch htests (hok.exchanged ch hexchange hflag) hfile

-- A channel that was tested or in the table is trusted no sooner than its file is in the mode
theorem trusts_agree (hb : s.core.Bounded) (hs : Step s act t) (hlt : ch < s.io.channels)
    (htrusts : t.Trusts ch) (h : s.Trusts ch → s.file (s.io.channel ch).fd ≠ some false)
    (hopens : (s.io.channel ch).fd ∈ opens act → ¬s.Trusts ch)
    : t.file (t.io.channel ch).fd ≠ some false := by
  intro hfile
  rw [(keeps_step hs hlt).fd] at hfile
  cases trusts_step hb hs hlt htrusts with
  | inl hold =>
    cases file_step hs hfile with
    | inl hfile' => exact h hold hfile'
    | inr hopen => exact hopens hopen hold
  | inr hset => exact hset hfile

theorem agrees_step (hb : s.core.Bounded) (hplaced : s.Placed) (htabled : s.Tabled)
    (h : s.Agrees) (hok : Unraced s act) (hs : Step s act t)
    : t.Agrees where
  reads := fun f ch hreads => reads_agree hplaced h hok hs hreads
  tests := by
    intro f ch htests htrusts
    have htable : ∀ k : Nat, s.io.chs[k]? = some (some ch) →
        t.file (t.io.channel ch).fd ≠ some false := by
      intro k hk
      have hown := htabled.own k ch hk
      apply trusts_agree hb hs (hplaced.bound k ch hk) htrusts
      . rw [hown]
        exact h.table k ch hk
      . intro hopens
        exact hok.table k (hown ▸ hopens) ch (by simp [hk])
    rcases tests_step hs htests with hold | ⟨_, k, hk⟩ | hflag
    . rcases io_of_tests hold with ⟨e, pc, hctl⟩
      apply trusts_agree hb hs (hplaced.channel f ch e pc hctl) htrusts (h.tests f ch hold)
      intro hopens
      exact hok.tests _ hopens f (fiber_lt hplaced hctl) ch hold rfl
    . exact htable k hk
    . rw [htrusts.flag] at hflag
      cases hflag
  table := by
    intro k ch hk htrusts
    rcases table_step hs hk with hold | ⟨_, _, i, f, b, e, _, _, _, _, hnew⟩
    . have hown := htabled.own k ch hold
      have hlt := hplaced.bound k ch hold
      have := trusts_agree hb hs hlt htrusts (by rw [hown]; exact h.table k ch hold) (by
        intro hopens
        exact hok.table k (hown ▸ hopens) ch (by simp [hold]))
      rwa [(keeps_step hs hlt).fd, hown] at this
    . have := htrusts.flag
      rw [hnew] at this
      cases this

theorem agrees_start : (State.start n).Agrees := by
  constructor <;>
    simp [State.start, Ctl.reads, Ctl.tests, IOManager.Channels.State.start]

theorem reachable_agrees (h : (machine n).Reach Unraced s) : s.Agrees := by
  apply h.invariant_with (J := fun s => (machine n).Reach Unraced s)
  . intro s hs
    exact hs
  . intro s hs
    rw [hs]
    exact agrees_start
  . intro s act t hreach hs hok hat
    exact agrees_step (Run.reachable_bounded (reachable_core hreach)) (reachable_placed hreach)
      (reachable_tabled hreach) hs hok (Step.of_step hat)

/--
As long as no fiber overtakes another one's `fcntl` and no file comes under a descriptor that is still
taken to be in `O_NONBLOCK` mode, `sys_func` is called on files in this mode only.
-/
theorem neverBlocks_of_unraced (h : (machine n).Reach Unraced s) : s.NeverBlocks := by
  intro i f ch e hrun
  rcases running_eq_some hrun with ⟨b, _, hctl⟩
  apply (reachable_agrees h).reads f ch
  rw [hctl]
  rfl

-- Two fibers read from one descriptor, one after the other
def readsInTurn : List (Action 1) :=
  ([.openFile 5 false, .submit 0, .submit 0] : List (Action 1)) ++ enter 0 ++ callRead 0 5
    ++ ([.setNonBlocking 0, .call 0 false, .finish 0] : List (Action 1)) ++ leave 0 ++ enter 0
    ++ callRead 0 5

theorem neverBlocks_of_unraced_readsInTurn
    : ∃ s,
        (machine 1).exec (State.start 1) readsInTurn = some s
          ∧
        s.running 0 = some (1, .io 0 .kRead .call) ∧ s.file 5 = some true ∧ s.NeverBlocks := by
  have h : ((machine 1).exec (State.start 1) readsInTurn).any (fun s =>
      s.running 0 = some (1, .io 0 .kRead .call) ∧ s.file 5 = some true) = true := by
    decide +kernel
  simp only [Option.any_eq_true, decide_eq_true_eq] at h
  rcases h with ⟨s, hexec, hrun, hfile⟩
  exact ⟨s, hexec, hrun, hfile,
    neverBlocks_of_unraced (Machine.Reach.of_exec _ rfl hexec (by decide +kernel))⟩

-- Worker 1 comes between the `exchange` and the `fcntl` of worker 0
def readsAtOnce : List (Action 2) :=
  ([.openFile 5 false, .submit 0, .submit 1] : List (Action 2)) ++ enter 0 ++ callRead 0 5
    ++ enter 1 ++ callRead 1 5

theorem not_neverBlocks_readsAtOnce : ¬∀ s, (machine 2).Reachable s → s.NeverBlocks := by
  intro hall
  have h : ((machine 2).exec (State.start 2) readsAtOnce).any (fun s =>
      s.running 1 = some (1, .io 0 .kRead .call) ∧ s.file (s.io.channel 0).fd = some false)
      = true := by
    decide +kernel
  simp only [Option.any_eq_true, decide_eq_true_eq] at h
  rcases h with ⟨s, hexec, hrun, hfile⟩
  exact hall s (Machine.Reachable.of_exec _ rfl hexec) 1 1 0 .kRead hrun hfile

end Hook
end Koro
