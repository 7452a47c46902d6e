import Koro.Hook.Waits

/-!
This module contains what keeps a fiber that waits in `do_io` from being forgotten: its callback is
installed, or a copy of it is under way. A slot of a channel has room for one callback, so whoever
registers or unregisters the same event of the descriptor, or closes it, takes it away.
-/

namespace Koro

namespace Hook

open Function (update)

variable {n : Nat} {s t : State n} {act : Action n}

-- Somebody changes the callback of the event, or what the epoller has for the descriptor, so that it
-- does not report the event
def State.touches (s : State n) (ch' : ChannelId) (e' : Event) (ok armed : Bool) (ch : ChannelId)
    (e : Event)
    : Bool :=
  if ch' = ch then e' = e else s.io.sameEntry ch' ch && ok && !armed

def State.disturbs (s : State n) (act : Action n) (ch : ChannelId) (e : Event) : Bool :=
  match act with
  | .registerEvent i ok =>
    match s.running i with
    | some (_, .io ch' e' _) =>
      s.touches ch' e' ok (e' = e || (s.io.channel ch').armed e) ch e
    | _ => false
  | .unregisterEvent i ok =>
    match s.running i with
    | some (_, .io ch' e' _) =>
      s.touches ch' e' ok (e' ≠ e && (s.io.channel ch').armed e) ch e
    | _ => false
  | .close i ok =>
    match s.running i with
    | some (_, .close _ (.clear ch')) => ch' = ch
    | some (_, .close _ (.remove ch')) =>
      ch' = ch || s.io.sameEntry ch' ch && (s.io.channel ch').inEpoll && ok
    | some (_, .close fd .sysClose) => (s.io.channel ch).fd = fd
    | _ => false
  | _ => false

/--
A step disturbs no waiting fiber that depends on its registration, which is one whose entry has not
been pushed and of whose callback there is no copy, and the `epoll_ctl` of a registration succeeds.
-/
structure Undisturbed (s : State n) (act : Action n) : Prop where
  registered : ∀ i ok, act = .registerEvent i ok → ok = true
  depends : ∀ f < s.core.fibers, ∀ x ∈ s.waiting f,
    (s.wait x.2.2).pushes = 0 → ¬s.Copied x.2.2 → s.disturbs act x.1 x.2.1 = false

def Action.ok : Action n → Bool
  | .registerEvent _ ok => ok
  | _ => true

instance (s : State n) (act : Action n) : Decidable (Undisturbed s act) :=
  decidable_of_iff
    (act.ok = true ∧ ∀ f < s.core.fibers, ∀ x ∈ s.waiting f,
      (s.wait x.2.2).pushes = 0 → ¬s.Copied x.2.2 → s.disturbs act x.1 x.2.1 = false)
    ⟨fun ⟨h₁, h₂⟩ => ⟨fun i ok hact => by subst hact; exact h₁, h₂⟩,
      fun h => ⟨by
        cases act with
        | registerEvent i ok => exact h.registered i ok rfl
        | _ => rfl, h.depends⟩⟩

-- The callback is where it can still be executed, and has its `exchange` or its push to come
def State.Tends (s : State n) (ch : ChannelId) (e : Event) (w : WaitId) : Prop :=
  (s.wait w).triggered = false ∧ (s.io.Serves ch e w ∨ s.Flying w ∨ s.Queued w) ∨ s.Pushing w

def State.Tended (s : State n) : Prop :=
  ∀ f ch e w, s.waiting f = some (ch, e, w) → (s.wait w).pushes = 0 → s.Tends ch e w

theorem touches_eq_false (h : s.touches ch' e' ok armed ch e = false)
    : ¬(ch' = ch ∧ e' = e)
        ∧ (ch' ≠ ch → s.io.sameEntry ch' ch = true → ok = true → armed = true) := by
  unfold State.touches at h
  split at h
  . next hch =>
    simp only [decide_eq_false_iff_not] at h
    exact ⟨fun hslot => h hslot.right, fun hne => absurd hch hne⟩
  . next hch =>
    refine ⟨fun hslot => hch hslot.left, ?_⟩
    intro _ hentry hok
    simpa [hentry, hok] using h

-- Nobody else takes the registration away
theorem serves_step (hs : Step s act t) (hch : ch < s.io.channels) (h : s.io.Serves ch e w)
    (hdisturbs : s.disturbs act ch e = false)
    : t.io.Serves ch e w := by
  cases hs with
  | bind i g b fd e' io ch' hi hg hio => exact IOManager.Channels.serves_bind h hch hio
  | sysNonBlock i g b ch' e' pc hi hg hpc => exact IOManager.Channels.serves_sysNonBlock h ch'
  | registerEvent i ok g b ch' e' io hi hg hio =>
    simp only [State.disturbs, State.running, hi, hg] at hdisturbs
    rcases touches_eq_false hdisturbs with ⟨hslot, hentry⟩
    apply IOManager.Channels.serves_register_other h hio hslot
    intro hne hsame hok
    simpa using hentry hne hsame hok
  | unregisterEvent i ok g b ch' e' w' io hi hg hio =>
    simp only [State.disturbs, State.running, hi, hg] at hdisturbs
    rcases touches_eq_false hdisturbs with ⟨hslot, hentry⟩
    apply IOManager.Channels.serves_unregister_other h hio hslot
    intro hne hsame hok
    simpa using hentry hne hsame hok
  | addPending i g b ch' e' w' hi hg => exact h.keep rfl (fun _ _ hreports => hreports)
  | subPending i g b ch' e' hi hg => exact h.keep rfl (fun _ _ hreports => hreports)
  | reset i ok g b fd ch' hi hg => exact h.keep rfl (fun _ _ hreports => hreports)
  | clear i ok g b fd ch' hi hg =>
    simp only [State.disturbs, State.running, hi, hg, decide_eq_false_iff_not] at hdisturbs
    exact IOManager.Channels.serves_clear_other h hdisturbs
  | remove i ok g b fd ch' io hi hg hio =>
    simp only [State.disturbs, State.running, hi, hg, Bool.or_eq_false_iff,
      decide_eq_false_iff_not] at hdisturbs
    apply IOManager.Channels.serves_remove_other h hio hdisturbs.left
    intro hin hok
    simpa [hin, hok] using hdisturbs.right
  | sysClose i ok g b fd hi hg =>
    simp only [State.disturbs, State.running, hi, hg, decide_eq_false_iff_not] at hdisturbs
    exact IOManager.Channels.serves_sysClose h hdisturbs
  | _ => exact h

-- A wait that goes on
theorem tends_step (hb : s.core.Bounded) (hex : s.core.Exclusive) (hissued : s.core.Issued)
    (hplaced : s.Placed) (hok : Undisturbed s act) (hs : Step s act t)
    (hwaiting : s.waiting f = some (ch, e, w)) (hpushes : (t.wait w).pushes = 0)
    (h : (s.wait w).pushes = 0 → s.Tends ch e w)
    : t.Tends ch e w := by
  have hwait := wait_of_waiting hwaiting
  rcases hplaced.wait f ch e w hwait with ⟨hlt, hfiber⟩
  rcases wait_keeps hs hlt with ⟨_, _, hle, htriggered⟩
  have hpushes' : (s.wait w).pushes = 0 := Nat.le_zero.mp (hpushes ▸ hle)
  have hpushing : s.Pushing w → t.Pushing w := by
    intro hpush
    have howned : s.owned (s.wait w).fiber = true := by
      rw [hfiber]
      exact owned_of_wait hwait
    cases pushing_step hs howned hpush with
    | inl hpush => exact hpush
    | inr hpos => omega
  rcases h hpushes' with ⟨hfalse, hplace⟩ | hpush
  . rcases htriggered with hsame | hpush
    . have hcopied : s.Copied w → t.Flying w ∨ t.Queued w ∨ t.Pushing w := by
        intro hcopied
        rcases hcopied with hflying | hqueued | hpush
        . cases flying_step hissued hs hflying with
          | inl hflying => exact .inl hflying
          | inr hqueued => exact .inr (.inl hqueued)
        . exact .inr (queued_step hb hex hplaced.fresh hs hqueued hfalse)
        . exact .inr (.inr (hpushing hpush))
      have htends : t.Flying w ∨ t.Queued w ∨ t.Pushing w → t.Tends ch e w := by
        intro hplace
        rcases hplace with hflying | hqueued | hpush
        . exact .inl ⟨hsame.trans hfalse, .inr (.inl hflying)⟩
        . exact .inl ⟨hsame.trans hfalse, .inr (.inr hqueued)⟩
        . exact .inr hpush
      by_cases hc : s.Copied w
      . exact htends (hcopied hc)
      . rcases hplace with hserves | hflying | hqueued
        . rcases io_of_wait hwait with ⟨pc, hctl⟩
          have hdisturbs := hok.depends f (waiting_lt hplaced hwait) _ hwaiting hpushes' hc
          have hserves' := serves_step hs (hplaced.channel f ch e pc hctl) hserves hdisturbs
          exact .inl ⟨hsame.trans hfalse, .inl hserves'⟩
        . exact absurd (.inl hflying) hc
        . exact absurd (.inr (.inl hqueued)) hc
    . exact .inr hpush
  . exact .inr (hpushing hpush)

theorem tended_step (hb : s.core.Bounded) (hex : s.core.Exclusive) (hissued : s.core.Issued)
    (hplaced : s.Placed) (h : s.Tended) (hok : Undisturbed s act) (hs : Step s act t)
    : t.Tended := by
  intro f ch e w hwaiting hpushes
  rcases waiting_step hs hwaiting with hold | ⟨i, ok, io, rfl, hio, rfl, _, _, hnew⟩
  . exact tends_step hb hex hissued hplaced hok hs hold hpushes (h f ch e w hold)
  . have := hok.registered i ok rfl
    subst this
    exact .inl ⟨by rw [hnew], .inl (IOManager.Channels.serves_register hio)⟩

theorem tended_start : (State.start n).Tended := by
  intro f ch e w hwaiting
  cases hwaiting

theorem reachable_tended (h : (machine n).Reach Undisturbed s) : s.Tended := by
  apply h.invariant_with (J := fun s => (machine n).Reach Undisturbed s)
  . intro s hs
    exact hs
  . intro s hs
    rw [hs]
    exact tended_start
  . intro s act t hreach hs hok hat
    have hcore := reachable_core hreach
    exact tended_step (Run.reachable_bounded hcore) (Run.reachable_exclusive hcore)
      (Run.reachable_issued hcore) (reachable_placed hreach) hs hok (Step.of_step hat)

/--
As long as nobody disturbs a fiber that depends on its registration, the callback of each wait that
has not pushed its fiber is installed and the event reported, or a copy of it is under way.
-/
theorem waiter_tended (h : (machine n).Reach Undisturbed s) (hwaiting : s.waiting f = some (ch, e, w))
    (hpushes : (s.wait w).pushes = 0)
    : s.io.Serves ch e w ∨ s.Copied w := by
  rcases reachable_tended h f ch e w hwaiting hpushes with ⟨_, hplace⟩ | hpush
  . rcases hplace with hserves | hflying | hqueued
    . exact .inl hserves
    . exact .inr (.inl hflying)
    . exact .inr (.inr (.inl hqueued))
  . exact .inr (.inr (.inr hpush))

-- A fiber waits to read, the event comes, and the copy of its callback is pushed
def readOnce : List (Action 1) :=
  ([.openFile 5 false, .submit 0] : List (Action 1)) ++ enter 0 ++ callRead 0 5
    ++ ([.setNonBlocking 0] : List (Action 1)) ++ register 0
    ++ ([.addPending 0, .hold 0] : List (Action 1)) ++ leave 0
    ++ ([.run (.pop 0), .run (.steal 0 true), .run (.idle 0), .poll 0 [(5,
         EPOLLIN)]] : List (Action 1))
    ++ (List.replicate 3 (.dispatchNext 0) : List (Action 1))

theorem waiter_tended_readOnce
    : ∃ s,
        (machine 1).exec (State.start 1) readOnce = some s ∧ s.waiting 0 = some (0, .kRead, 0)
          ∧
        (s.io.Serves 0 .kRead 0 ∨ s.Copied 0) := by
  have h : ((machine 1).exec (State.start 1) readOnce).any (fun s =>
      s.waiting 0 = some (0, .kRead, 0) ∧ (s.wait 0).pushes = 0) = true := by
    decide +kernel
  simp only [Option.any_eq_true, decide_eq_true_eq] at h
  rcases h with ⟨s, hexec, hwaiting, hpushes⟩
  refine ⟨s, hexec, hwaiting, ?_⟩
  exact waiter_tended (Machine.Reach.of_exec _ rfl hexec (by decide +kernel)) hwaiting hpushes

-- Two fibers read from one descriptor
def readTwice : List (Action 1) :=
  ([.openFile 5 false, .submit 0, .submit 0] : List (Action 1)) ++ enter 0 ++ callRead 0 5
    ++ ([.setNonBlocking 0] : List (Action 1)) ++ register 0
    ++ ([.addPending 0, .hold 0] : List (Action 1)) ++ leave 0 ++ enter 0 ++ callRead 0 5
    ++ register 0

theorem not_tended_readTwice
    : ¬∀ s, (machine 1).Reachable s → ∀ f ch e w, s.waiting f = some (ch, e, w) →
        (s.wait w).pushes = 0 → s.io.Serves ch e w ∨ s.Copied w := by
  intro hall
  have h : ((machine 1).exec (State.start 1) readTwice).any (fun s =>
      s.waiting 0 = some (0, .kRead, 0) ∧ (s.wait 0).pushes = 0
        ∧ (s.io.channel 0).callback .kRead = some 1 ∧ ¬s.Copied 0) = true := by
    decide +kernel
  simp only [Option.any_eq_true, decide_eq_true_eq] at h
  rcases h with ⟨s, hexec, hwaiting, hpushes, hcallback, hcopied⟩
  cases hall s (Machine.Reachable.of_exec _ rfl hexec) 0 0 .kRead 0 hwaiting hpushes with
  | inl hserves =>
    have := hserves.callback
    rw [hcallback] at this
    cases this
  | inr hc => exact hcopied hc

end Hook
end Koro
