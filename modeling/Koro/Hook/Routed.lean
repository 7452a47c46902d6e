import Koro.Hook.Table

/-!
This module contains the way of an event from the epoller to a channel. The event carries a descriptor
only, and is for whatever channel the table has for it when the event is dispatched.
-/

namespace Koro
namespace Hook

open Function (update)
open IOManager (Channels.State)

variable {n : Nat} {s t : State n} {act : Action n}

-- The events not looked up yet
def Dispatch.rest : Dispatch → List Ready
  | .none => []
  | .events evs => evs
  | .handle _ _ _ evs => evs
  | .push _ _ _ _ evs => evs

-- The event in hand and the channel it is dispatched to
def Dispatch.current : Dispatch → Option (ChannelId × Ready)
  | .handle ch ev _ _ => some (ch, ev)
  | .push ch ev _ _ _ => some (ch, ev)
  | _ => Option.none

-- The descriptor that `bindTaskQueue` makes a channel for
def State.binds (s : State n) : Action n → Option Nat
  | .bindTaskQueue i =>
    match s.running i with
    | some (_, .bind fd _) =>
      match s.io.chs[fd]? with
      | some (some _) => none
      | _ => some fd
    | _ => none
  | _ => none

-- The channel whose entry in the epoller `epoll_ctl` changes
def State.updates (s : State n) : Action n → Option ChannelId
  | .registerEvent i true =>
    match s.running i with
    | some (_, .io ch _ _) => some ch
    | _ => none
  | .unregisterEvent i true =>
    match s.running i with
    | some (_, .io ch _ _) => some ch
    | _ => none
  | _ => none

-- No event of the descriptor is there or can come
structure State.Silent (s : State n) (fd : Nat) : Prop where
  interest : ∀ i, s.io.interest i fd = none
  rest : ∀ i, ∀ ev ∈ (s.dispatch i).rest, ev.fd ≠ fd

instance (s : State n) (fd : Nat) : Decidable (s.Silent fd) :=
  decidable_of_iff
    ((∀ i, s.io.interest i fd = none) ∧ ∀ i, ∀ ev ∈ (s.dispatch i).rest, ev.fd ≠ fd)
    ⟨fun ⟨h₁, h₂⟩ => ⟨h₁, h₂⟩, fun h => ⟨h.interest, h.rest⟩⟩

/--
A channel is made for a descriptor only after all events of its former channels, and only the channel
in the table, if there is one, has its registration changed.
-/
structure Unaliased (s : State n) (act : Action n) : Prop where
  bound : ∀ fd ∈ s.binds act, s.Silent fd
  updated : ∀ ch ∈ s.updates act,
    s.io.chs[(s.io.channel ch).fd]? = some (some ch) ∨ s.io.chs[(s.io.channel ch).fd]? = some none
      ∨ s.io.chs[(s.io.channel ch).fd]? = none

instance (s : State n) (act : Action n) : Decidable (Unaliased s act) :=
  decidable_of_iff
    ((∀ fd ∈ s.binds act, s.Silent fd)
      ∧ ∀ ch ∈ s.updates act, s.io.chs[(s.io.channel ch).fd]? = some (some ch)
        ∨ s.io.chs[(s.io.channel ch).fd]? = some none ∨ s.io.chs[(s.io.channel ch).fd]? = none)
    ⟨fun ⟨h₁, h₂⟩ => ⟨h₁, h₂⟩, fun h => ⟨h.bound, h.updated⟩⟩

-- Events go to the channel they come from, and its callbacks into the worker's own queue
def State.Routed (s : State n) : Prop :=
  ∀ i ch ev, (s.dispatch i).current = some (ch, ev) →
    ev.source = some ch ∧ ∀ q, (s.io.channel ch).taskQueue = some q → q = i

-- Whichever event of worker `i` for the descriptor comes from channel `ch`, it finds this channel
structure State.Source (s : State n) (i : Fin n) (fd : Nat) (ch : ChannelId) : Prop where
  lt : ch < s.io.channels
  descriptor : (s.io.channel ch).fd = fd
  queue : ∀ q, (s.io.channel ch).taskQueue = some q → q = i
  table : ∀ ch', s.io.chs[fd]? = some (some ch') → ch' = ch

structure State.Sourced (s : State n) : Prop where
  owner : ∀ i fd, (s.io.interest i fd).isSome = true →
    ∃ ch, s.owner i fd = some ch ∧ s.Source i fd ch
  rest : ∀ i, ∀ ev ∈ (s.dispatch i).rest, ∃ ch, ev.source = some ch ∧ s.Source i ev.fd ch
  current : ∀ i ch ev, (s.dispatch i).current = some (ch, ev) →
    ev.source = some ch ∧ ch < s.io.channels
      ∧ ∀ q, (s.io.channel ch).taskQueue = some q → q = i

theorem queue_step (hs : Step s act t) (hlt : ch < s.io.channels)
    (h : ∀ q, (s.io.channel ch).taskQueue = some q → q = i)
    : ∀ q, (t.io.channel ch).taskQueue = some q → q = i := by
  intro q hq
  rcases (keeps_step hs hlt).taskQueue with hsame | ⟨hnone, _⟩
  . exact h q (hsame ▸ hq)
  . rw [hnone] at hq
    cases hq

theorem mem_binds (hi : s.core.worker i = .running f b) (hctl : s.ctl f = .bind fd e)
    (hnone : ∀ c, s.io.chs[fd]? ≠ some (some c))
    : fd ∈ s.binds (.bindTaskQueue i) := by
  simp only [State.binds, State.running, hi, hctl]
  rfl

theorem source_step (hplaced : s.Placed) (h : s.Source i fd ch) (hs : Step s act t)
    (hbinds : fd ∉ s.binds act)
    : t.Source i fd ch where
  lt := Nat.lt_of_lt_of_le h.lt (bound_step hplaced.bound hs).right
  descriptor := by rw [(keeps_step hs h.lt).fd, h.descriptor]
  queue := queue_step hs h.lt h.queue
  table := by
    intro ch' hch'
    rcases table_step hs hch' with hold | ⟨_, _, j, f, b, e, rfl, hj, hctl, hnone, _⟩
    . exact h.table ch' hold
    . exact absurd (mem_binds hj hctl hnone) hbinds

theorem own_eq (hq : (s.io.channel ch).taskQueue = some q)
    : s.own ch source ok i fd
        =
      if ok = true ∧ i = q ∧ fd = (s.io.channel ch).fd then source else s.owner i fd := by
  unfold State.own
  rw [hq]
  cases ok with
  | false => simp
  | true =>
    by_cases hiq : i = q
    . subst hiq
      by_cases hfd : fd = (s.io.channel ch).fd
      . simp [hfd]
      . simp [hfd]
    . simp [hiq]

theorem interest_update {io : Channels.State n WaitId} {c : Channel n WaitId}
    : (io.updateChannel q ch c ok).interest i fd
        =
      if ok = true ∧ i = q ∧ fd = c.fd then some c.events else io.interest i fd := by
  simp only [Channels.State.updateChannel, EpollPoller.interest_updateChannel]
  cases ok with
  | false =>
    by_cases hiq : i = q
    . simp [hiq]
    . simp [hiq]
  | true =>
    by_cases hiq : i = q
    . subst hiq
      by_cases hfd : fd = c.fd
      . simp [hfd]
      . simp [hfd]
    . simp [hiq]

-- The channel that a registration is for owns the entry from then on
theorem owner_update (hplaced : s.Placed) {c : Channel n WaitId}
    (hq : (s.io.channel ch).taskQueue = some q) (hctl : s.ctl f = .io ch e pc)
    (hfd : c.fd = (s.io.channel ch).fd) (hupdates : ok = true → ch ∈ s.updates act)
    (h : ((s.io.updateChannel q ch c ok).interest i fd).isSome = true)
    : (s.io.interest i fd).isSome = true ∧ s.own ch (some ch) ok i fd = s.owner i fd
        ∨
      ∃ ch' ∈ s.updates act, s.own ch (some ch) ok i fd = some ch' ∧ ch' < s.io.channels
        ∧ (s.io.channel ch').fd = fd ∧ (s.io.channel ch').taskQueue = some i := by
  rw [interest_update, hfd] at h
  rw [own_eq hq]
  by_cases hentry : ok = true ∧ i = q ∧ fd = (s.io.channel ch).fd
  . right
    rw [if_pos hentry]
    rcases hentry with ⟨hok, rfl, hsame⟩
    exact ⟨ch, hupdates hok, rfl, hplaced.channel f ch e pc hctl, hsame.symm, hq⟩
  . left
    rw [if_neg hentry] at h ⊢
    exact ⟨h, rfl⟩

theorem owner_remove {io : Channels.State n WaitId} (hio : s.io.removeFromEpoll ch ok = some io)
    (h : (io.interest i fd).isSome = true)
    : (s.io.interest i fd).isSome = true
        ∧ (if (s.io.channel ch).inEpoll then s.own ch none ok else s.owner) i fd = s.owner i fd := by
  unfold Channels.State.removeFromEpoll EpollPoller.removeChannel at hio
  split at hio
  . split at hio
    . cases hio
    . next hin =>
      cases hio
      simpa [hin] using h
  . next q hq =>
    split at hio
    . next hin =>
      simp only [Option.map_eq_some_iff] at hio
      rcases hio with ⟨⟨interest, c⟩, hc, rfl⟩
      rw [if_pos hin, own_eq hq]
      by_cases hiq : i = q
      . subst hiq
        cases ok with
        | true =>
          simp only [hin, ↓reduceIte, Option.some.injEq, Prod.mk.injEq] at hc
          rw [← hc.left] at h
          by_cases hfd : fd = (s.io.channel ch).fd
          . subst hfd
            simp at h
          . simpa [hfd] using h
        | false =>
          simp only [hin, ↓reduceIte, Bool.false_eq_true, Option.some.injEq, Prod.mk.injEq] at hc
          rw [← hc.left] at h
          simpa using h
      . simpa [hiq] using h
    . next hin =>
      cases hio
      simpa [hin] using h

-- Entries of an epoller change hands by registrations only
theorem owner_step (hplaced : s.Placed) (hs : Step s act t)
    (h : (t.io.interest i fd).isSome = true)
    : (s.io.interest i fd).isSome = true ∧ t.owner i fd = s.owner i fd
        ∨
      ∃ ch ∈ s.updates act, t.owner i fd = some ch ∧ ch < s.io.channels
        ∧ (s.io.channel ch).fd = fd ∧ (s.io.channel ch).taskQueue = some i := by
  cases hs with
  | bind j f b fd' e io ch hj hctl hio =>
    left
    simp only [Channels.State.bindTaskQueue] at hio
    split at hio <;> cases hio <;> exact ⟨h, rfl⟩
  | registerEvent j ok f b ch e io hj hctl hio =>
    rcases IOManager.Channels.registerLocked_eq_some hio with ⟨q, c, hq, hc, rfl⟩
    apply owner_update hplaced hq hctl (IOManager.Channels.register_keeps hc).left _ h
    intro hok
    simp [State.updates, State.running, hj, hctl, hok]
  | unregisterEvent j ok f b ch e w io hj hctl hio =>
    unfold Channels.State.unregisterLocked at hio
    split at hio
    . cases hio
    . next q hq =>
      cases hio
      apply owner_update hplaced hq hctl
        (IOManager.Channels.unregister_keeps (s.io.channel ch) e).left _ h
      intro hok
      simp [State.updates, State.running, hj, hctl, hok]
  | remove j ok f b fd' ch io hj hctl hio => exact .inl (owner_remove hio h)
  | sysClose j ok f b fd' hj hctl =>
    left
    simp only [Channels.State.sysClose] at h ⊢
    by_cases hfd : fd = fd'
    . simp [hfd] at h
    . simpa [hfd] using h
  | _ => exact .inl ⟨h, rfl⟩

theorem rest_step (hs : Step s act t) (h : ev ∈ (t.dispatch i).rest)
    : ev ∈ (s.dispatch i).rest
        ∨ ev.source = s.owner i ev.fd ∧ (s.io.interest i ev.fd).isSome = true := by
  cases hs with
  | poll j evs ready hj hd hready =>
    by_cases hij : i = j
    . subst hij
      simp only [Function.update_self] at h
      exact .inr (hready ev h)
    . exact .inl (by simpa [hij] using h)
  | turn j d d' hd hturn =>
    left
    by_cases hij : i = j
    . subst hij
      simp only [Function.update_self] at h
      rw [hd]
      cases hturn <;> simp_all [Dispatch.rest]
    . simpa [hij] using h
  | pushCopy j ch ev' cb triggers evs q core hd hq hcore =>
    left
    by_cases hij : i = j
    . subst hij
      simpa [hd, Dispatch.rest] using h
    . simpa [hij] using h
  | _ => exact .inl h

theorem dispatching_step (hs : Step s act t) (h : (t.dispatch i).current = some (ch, ev))
    : (s.dispatch i).current = some (ch, ev)
        ∨ ev ∈ (s.dispatch i).rest ∧ s.io.chs[ev.fd]? = some (some ch) := by
  cases hs with
  | poll j evs ready hj hd hready =>
    by_cases hij : i = j
    . subst hij
      simp [Dispatch.current] at h
    . exact .inl (by simpa [hij] using h)
  | turn j d d' hd hturn =>
    by_cases hij : i = j
    . subst hij
      simp only [Function.update_self] at h
      rw [hd]
      cases hturn <;> simp_all [Dispatch.current, Dispatch.rest]
    . exact .inl (by simpa [hij] using h)
  | pushCopy j ch' ev' cb triggers evs q core hd hq hcore =>
    left
    by_cases hij : i = j
    . subst hij
      simpa [hd, Dispatch.current] using h
    . simpa [hij] using h
  | _ => exact .inl h

theorem not_binds (h : ch ∈ s.updates act) : fd ∉ s.binds act := by
  cases act <;> simp_all [State.updates, State.binds]

theorem sourced_step (hplaced : s.Placed) (h : s.Sourced) (hok : Unaliased s act)
    (hs : Step s act t)
    : t.Sourced where
  owner := by
    intro i fd hinterest
    rcases owner_step hplaced hs hinterest with ⟨hold, howner⟩ | ⟨ch, hch, howner, hlt, hfd, hq⟩
    . rcases h.owner i fd hold with ⟨ch, hch, hsource⟩
      refine ⟨ch, howner.trans hch, source_step hplaced hsource hs ?_⟩
      intro hbinds
      simp [(hok.bound fd hbinds).interest i] at hold
    . refine ⟨ch, howner, source_step hplaced ⟨hlt, hfd, ?_, ?_⟩ hs ?_⟩
      . intro q hq'
        rw [hq] at hq'
        exact (Option.some.inj hq').symm
      . intro ch' hch'
        have := hok.updated ch hch
        rw [hfd, hch'] at this
        simpa using this
      . exact not_binds hch
  rest := by
    intro i ev hev
    have hsilent : ∀ fd ∈ s.binds act, s.Silent fd := hok.bound
    rcases rest_step hs hev with hold | ⟨hsource, hinterest⟩
    . rcases h.rest i ev hold with ⟨ch, hch, hsource⟩
      refine ⟨ch, hch, source_step hplaced hsource hs ?_⟩
      intro hbinds
      exact (hsilent ev.fd hbinds).rest i ev hold rfl
    . rcases h.owner i ev.fd hinterest with ⟨ch, hch, hsource'⟩
      refine ⟨ch, hsource.trans hch, source_step hplaced hsource' hs ?_⟩
      intro hbinds
      simp [(hsilent ev.fd hbinds).interest i] at hinterest
  current := by
    intro i ch ev hcurrent
    rcases dispatching_step hs hcurrent with hold | ⟨hev, hch⟩
    . rcases h.current i ch ev hold with ⟨hsource, hlt, hqueue⟩
      exact ⟨hsource, Nat.lt_of_lt_of_le hlt (bound_step hplaced.bound hs).right,
        queue_step hs hlt hqueue⟩
    . rcases h.rest i ev hev with ⟨ch', hsource, hsource'⟩
      have hsame := hsource'.table ch hch
      subst hsame
      exact ⟨hsource, Nat.lt_of_lt_of_le hsource'.lt (bound_step hplaced.bound hs).right,
        queue_step hs hsource'.lt hsource'.queue⟩

theorem sourced_start : (State.start n).Sourced := by
  constructor <;>
    simp [State.start, Dispatch.rest, Dispatch.current, IOManager.Channels.State.start]

theorem reachable_sourced (h : (machine n).Reach Unaliased s) : s.Sourced := by
  apply h.invariant_with (J := State.Placed)
  . intro s hs
    exact reachable_placed hs
  . intro s hs
    rw [hs]
    exact sourced_start
  . intro s act t hplaced hs hok hat
    exact sourced_step hplaced hs hok (Step.of_step hat)

/--
As long as descriptors are not reused under the eyes of an epoller, every event that is dispatched goes
to the channel whose registration it comes from, and what it triggers into the worker's own queue.
-/
theorem routed_of_unaliased (h : (machine n).Reach Unaliased s) : s.Routed := by
  intro i ch ev hcurrent
  rcases (reachable_sourced h).current i ch ev hcurrent with ⟨hsource, _, hqueue⟩
  exact ⟨hsource, hqueue⟩

-- A fiber waits to read, and the event is dispatched
def readReady : List (Action 2) :=
  ([.openFile 5 false, .submit 0] : List (Action 2)) ++ enter 0 ++ callRead 0 5
    ++ ([.setNonBlocking 0] : List (Action 2)) ++ register 0
    ++ ([.addPending 0, .hold 0] : List (Action 2)) ++ leave 0
    ++ ([.run (.pop 0), .run (.steal 0 true), .run (.steal 0 true),
         .run (.idle 0)] : List (Action 2))
    ++ ([.poll 0 [(5, EPOLLIN)]] : List (Action 2))

theorem routed_of_unaliased_readReady
    : ∃ s,
        (machine 2).exec (State.start 2) (readReady ++ [.dispatchNext 0, .dispatchNext 0]) = some s
          ∧
        (s.dispatch 0).current = some (0, { fd := 5, events := EPOLLIN, source := some 0 })
          ∧
        s.Routed := by
  have h : ((machine 2).exec (State.start 2) (readReady ++ [.dispatchNext 0, .dispatchNext 0])).any
      (fun s => (s.dispatch 0).current
        = some (0, { fd := 5, events := EPOLLIN, source := some 0 })) = true := by
    decide +kernel
  simp only [Option.any_eq_true, decide_eq_true_eq] at h
  rcases h with ⟨s, hexec, hcurrent⟩
  exact ⟨s, hexec, hcurrent,
    routed_of_unaliased (Machine.Reach.of_exec _ rfl hexec (by decide +kernel))⟩

-- Between the poll and the dispatch the descriptor is closed, opened again and registered with the other
-- worker
def reopened : List (Action 2) :=
  readReady ++ (.submit 1 :: enter 1 : List (Action 2)) ++ closeFile 1 5
    ++ (.openFile 5 false :: callRead 1 5 : List (Action 2))
    ++ (.setNonBlocking 1 :: register 1 : List (Action 2))
    ++ ([.dispatchNext 0, .dispatchNext 0] : List (Action 2))

theorem not_routed_reopened : ¬∀ s, (machine 2).Reachable s → s.Routed := by
  intro hall
  have h : ((machine 2).exec (State.start 2) reopened).any (fun s =>
      (s.dispatch 0).current = some (1, { fd := 5, events := EPOLLIN, source := some 0 })
        ∧ (s.io.channel 1).taskQueue = some 1) = true := by
    decide +kernel
  simp only [Option.any_eq_true, decide_eq_true_eq] at h
  rcases h with ⟨s, hexec, hcurrent, hq⟩
  have hqueue := (hall s (Machine.Reachable.of_exec _ rfl hexec) 0 1 _ hcurrent).right 1 hq
  cases hqueue

end Hook
end Koro
