import Koro.IOManager.Growth

/-!
This module contains what the channel table keeps over any sequence of operations: an entry goes when
`removeChannel` is called on a channel of the same descriptor, whichever channel this is.

`returned` are the answers of `bindTaskQueue` so far, `removed` the channels that `removeChannel` has
been called on.
-/

namespace Koro
namespace IOManager
namespace Channels
namespace Forgets

open Function (update)

structure State (n : Nat) (κ : Type u) where
  io : Channels.State n κ
  returned : List (Nat × ChannelId)
  removed : List ChannelId

variable {n : Nat} {κ : Type u}

def State.start (n : Nat) (κ : Type u) : State n κ where
  io := Channels.State.start n κ
  returned := []
  removed := []

def step (s : State n κ) (a : Action n κ) : Option (State n κ) :=
  match a with
  | .bindTaskQueue taskQueue fd =>
    (s.io.bindTaskQueue taskQueue fd).map fun bound =>
      { s with io := bound.1, returned := (fd, bound.2) :: s.returned }
  | .removeChannel ch _ =>
    (Channels.step s.io a).map fun io => { s with io, removed := ch :: s.removed }
  | _ => (Channels.step s.io a).map fun io => { s with io }

def machine (n : Nat) (κ : Type u) : Machine (State n κ) (Action n κ) where
  init s := s = State.start n κ
  step := step

/--
A channel that `bindTaskQueue` has returned for a descriptor is its entry until it is removed itself.
-/
def Remembers (s : State n κ) : Prop :=
  ∀ fd ch, (fd, ch) ∈ s.returned → ch ∉ s.removed → s.io.entry fd = some ch

/--
`bindTaskQueue` returns the entry there is, and an entry that holds a channel stays but where
`removeChannel` is called on this channel.
-/
structure Told (s : State n κ) (a : Action n κ) (t : State n κ) : Prop where
  bound : ∀ q fd ch, a = .bindTaskQueue q fd → s.io.entry fd = some ch → t.returned.head? = some (fd, ch)
  kept : ∀ fd ch, s.io.entry fd = some ch → (∀ ok, a ≠ .removeChannel ch ok) → t.io.entry fd = some ch

/--
Where `removeChannel` does anything, the entry for the descriptor of the channel, if there is one, is
the channel.
-/
def Current (s : State n κ) : Action n κ → Prop
  | .removeChannel ch _ =>
    (s.io.channel ch).taskQueue = none ∨ ∀ c, s.io.entry (s.io.channel ch).fd = some c → c = ch
  | _ => True

structure Tabled (s : State n κ) : Prop where
  table : ∀ k ch, s.io.entry k = some ch → (k, ch) ∈ s.returned ∧ ch ∉ s.removed
  queued : ∀ k ch, s.io.entry k = some ch → (s.io.channel ch).taskQueue ≠ none
  returned : ∀ k ch, (k, ch) ∈ s.returned → (s.io.channel ch).fd = k ∧ ch < s.io.channels
  removed : ∀ ch ∈ s.removed, ch < s.io.channels

section Operations

variable {s t : Channels.State n κ} {ch : ChannelId} {e : Event}

theorem bind_cases (h : s.bindTaskQueue q fd = some (t, ch))
    : (s.entry fd = some ch ∧ t.channel = s.channel ∧ t.channels = s.channels)
        ∨
      (ch = s.channels ∧ t.channels = s.channels + 1
        ∧ ∃ q', t.channel = update s.channel ch (Channel.new fd (some q'))) := by
  unfold State.bindTaskQueue at h
  dsimp only at h
  split at h
  . next c hc =>
    cases h
    left
    refine ⟨?_, rfl, rfl⟩
    unfold State.entry
    rw [← entry_grow (m := fd), hc]
    rfl
  . split at h
    . cases h
      exact .inr ⟨rfl, rfl, _, rfl⟩
    . split at h
      . cases h
        exact .inr ⟨rfl, rfl, _, rfl⟩
      . cases h

-- An operation that leaves the table and what channels say of it alone
structure Same (s t : Channels.State n κ) : Prop where
  chs : t.chs = s.chs
  channels : t.channels = s.channels
  fd : ∀ c, (t.channel c).fd = (s.channel c).fd
  taskQueue : ∀ c, (t.channel c).taskQueue = (s.channel c).taskQueue

theorem same_updateChannel (q : Fin n) (c : Channel n κ) (ok : Bool)
    (hfd : c.fd = (s.channel ch).fd) (hq : c.taskQueue = (s.channel ch).taskQueue)
    : Same s (s.updateChannel q ch c ok) := by
  constructor
  . rfl
  . rfl
  . intro c'
    simp only [State.updateChannel, EpollPoller.updateChannel_eq, Function.update_apply]
    split
    . next h => rw [h, hfd]
    . rfl
  . intro c'
    simp only [State.updateChannel, EpollPoller.updateChannel_eq, Function.update_apply]
    split
    . next h => rw [h, hq]
    . rfl

theorem same_registerEvent (h : s.registerEvent ch e cb et ok = some (t, ret)) : Same s t := by
  rw [registerEvent_eq] at h
  unfold State.registerLocked at h
  split at h
  . cases h
  . next q hq =>
    rw [Channel.register_eq, Option.map_some, Option.map_some] at h
    cases h
    have hsame : Same s (s.updateChannel q ch { (s.channel ch).setCallback e cb with
        errorCallback := some ch
        events := if et then (s.channel ch).events ||| e.value ||| EPOLLET
          else (s.channel ch).events ||| e.value } ok) :=
      same_updateChannel q _ ok (by cases e <;> rfl) (by cases e <;> rfl)
    exact ⟨hsame.chs, hsame.channels, hsame.fd, hsame.taskQueue⟩

theorem same_unregisterEvent (h : s.unregisterEvent ch e ok = some t) : Same s t := by
  rw [unregisterEvent_eq] at h
  unfold State.unregisterLocked at h
  split at h
  . cases h
  . next q hq =>
    cases h
    have hsame : Same s (s.updateChannel q ch ((s.channel ch).unregister e).1 ok) :=
      same_updateChannel q _ ok (by cases e <;> rfl) (by cases e <;> rfl)
    exact ⟨hsame.chs, hsame.channels, hsame.fd, hsame.taskQueue⟩

-- Past its test `removeChannel` clears the entry for the descriptor and changes no other channel
theorem remove_cases (h : s.removeChannel ch ok = some t)
    : ((s.channel ch).taskQueue = none ∧ t = s)
        ∨
      ((s.channel ch).taskQueue ≠ none
        ∧ (∀ k, t.entry k = if k = (s.channel ch).fd then none else s.entry k)
        ∧ (∀ c, c ≠ ch → t.channel c = s.channel c)
        ∧ (t.channel ch).fd = (s.channel ch).fd ∧ t.channels = s.channels) := by
  have hentry : ∀ k, (if (s.channel ch).fd < s.chs.length then s.chs.set (s.channel ch).fd none
      else s.chs)[k]?.join = if k = (s.channel ch).fd then none else s.entry k := by
    intro k
    unfold State.entry
    split
    . rw [List.getElem?_set]
      by_cases hk : (s.channel ch).fd = k
      . rw [if_pos hk, if_pos hk.symm]
        split <;> rfl
      . rw [if_neg hk, if_neg (Ne.symm hk)]
    . next hlt =>
      by_cases hk : k = (s.channel ch).fd
      . rw [if_pos hk, List.getElem?_eq_none (by omega)]
        rfl
      . rw [if_neg hk]
  unfold State.removeChannel at h
  split at h
  . next hq =>
    cases h
    exact .inl ⟨hq, rfl⟩
  . next q hq =>
    right
    refine ⟨by rw [hq]; exact Option.some_ne_none q, ?_⟩
    dsimp only at h
    split at h
    . split at h
      . cases h
      . next interest c hremove =>
        have hfd : c.fd = (s.channel ch).fd := by
          rw [EpollPoller.fd_removeChannel hremove]
        cases h
        refine ⟨hentry, ?_, ?_, rfl⟩
        . intro c' hc'
          exact Function.update_of_ne hc' _ _
        . simp only [Function.update_self]
          exact hfd
    . cases h
      refine ⟨hentry, ?_, ?_, rfl⟩
      . intro c' hc'
        exact Function.update_of_ne hc' _ _
      . simp only [Function.update_self]

end Operations

variable {s t : State n κ} {a : Action n κ}

theorem tabled_same {io : Channels.State n κ} (h : Tabled s) (hsame : Same s.io io)
    : Tabled { s with io } := by
  have hentry : ∀ k, io.entry k = s.io.entry k := by
    intro k
    unfold Channels.State.entry
    rw [hsame.chs]
  constructor
  . intro k ch hk
    exact h.table k ch (by rw [← hentry]; exact hk)
  . intro k ch hk
    rw [hsame.taskQueue]
    exact h.queued k ch (by rw [← hentry]; exact hk)
  . intro k ch hmem
    rw [hsame.fd, hsame.channels]
    exact h.returned k ch hmem
  . intro ch hmem
    rw [hsame.channels]
    exact h.removed ch hmem

theorem tabled_bind {io : Channels.State n κ} (h : Tabled s)
    (hio : s.io.bindTaskQueue q fd = some (io, ch))
    : Tabled { s with io, returned := (fd, ch) :: s.returned } := by
  rcases entry_bindTaskQueue hio with ⟨_, hbound, hothers, _⟩
  have hold : ∀ k c, io.entry k = some c → (k = fd ∧ c = ch) ∨ s.io.entry k = some c := by
    intro k c hk
    by_cases heq : k = fd
    . rw [heq, hbound] at hk
      exact .inl ⟨heq, (Option.some.inj hk).symm⟩
    . exact .inr (by rw [← hothers k heq]; exact hk)
  rcases bind_cases hio with ⟨hentry, hchannel, hchannels⟩ | ⟨rfl, hchannels, q', hchannel⟩
  . -- The entry there is
    have hentry' : ∀ k c, io.entry k = some c → s.io.entry k = some c := by
      intro k c hk
      rcases hold k c hk with ⟨rfl, rfl⟩ | hk
      . exact hentry
      . exact hk
    constructor
    . intro k c hk
      have hc := h.table k c (hentry' k c hk)
      exact ⟨List.mem_cons_of_mem _ hc.left, hc.right⟩
    . intro k c hk
      simp only [hchannel]
      exact h.queued k c (hentry' k c hk)
    . intro k c hmem
      simp only [hchannel, hchannels]
      apply h.returned k c
      rcases List.mem_cons.mp hmem with heq | hmem
      . cases heq
        exact (h.table fd ch hentry).left
      . exact hmem
    . intro c hmem
      simp only [hchannels]
      exact h.removed c hmem
  . -- A new channel, which has been neither returned nor removed
    have hne : ∀ k c, (k, c) ∈ s.returned → c ≠ s.io.channels := by
      intro k c hmem
      exact Nat.ne_of_lt (h.returned k c hmem).2
    constructor
    . intro k c hk
      rcases hold k c hk with ⟨rfl, rfl⟩ | hk
      . refine ⟨List.mem_cons_self, ?_⟩
        intro hmem
        exact absurd (h.removed _ hmem) (Nat.lt_irrefl _)
      . have hc := h.table k c hk
        exact ⟨List.mem_cons_of_mem _ hc.left, hc.right⟩
    . intro k c hk
      simp only [hchannel]
      rcases hold k c hk with ⟨rfl, rfl⟩ | hk
      . simp [Channel.new]
      . rw [Function.update_of_ne (hne k c (h.table k c hk).left)]
        exact h.queued k c hk
    . intro k c hmem
      simp only [hchannel, hchannels]
      rcases List.mem_cons.mp hmem with heq | hmem
      . cases heq
        rw [Function.update_self]
        exact ⟨rfl, Nat.lt_succ_self _⟩
      . rw [Function.update_of_ne (hne k c hmem)]
        have hc := h.returned k c hmem
        exact ⟨hc.left, Nat.lt_succ_of_lt hc.right⟩
    . intro c hmem
      simp only [hchannels]
      exact Nat.lt_succ_of_lt (h.removed c hmem)

theorem tabled_remove {io : Channels.State n κ} (h : Tabled s) (hch : ch < s.io.channels)
    (hio : s.io.removeChannel ch ok = some io)
    : Tabled { s with io, removed := ch :: s.removed } := by
  rcases remove_cases hio with ⟨hq, rfl⟩ | ⟨_, hentry, hchannel, hfd, hchannels⟩
  . constructor
    . intro k c hk
      refine ⟨(h.table k c hk).left, ?_⟩
      intro hmem
      rcases List.mem_cons.mp hmem with rfl | hmem
      . exact h.queued k c hk hq
      . exact (h.table k c hk).right hmem
    . exact h.queued
    . exact h.returned
    . intro c hmem
      rcases List.mem_cons.mp hmem with rfl | hmem
      . exact hch
      . exact h.removed c hmem
  . have hold : ∀ k c, io.entry k = some c → s.io.entry k = some c ∧ c ≠ ch := by
      intro k c hk
      rw [hentry] at hk
      split at hk
      . cases hk
      . next hne =>
        refine ⟨hk, ?_⟩
        rintro rfl
        exact hne (h.returned k c (h.table k c hk).left).1.symm
    constructor
    . intro k c hk
      rcases hold k c hk with ⟨hk, hne⟩
      refine ⟨(h.table k c hk).left, ?_⟩
      intro hmem
      rcases List.mem_cons.mp hmem with heq | hmem
      . exact hne heq
      . exact (h.table k c hk).right hmem
    . intro k c hk
      rcases hold k c hk with ⟨hk, hne⟩
      simp only [hchannel c hne]
      exact h.queued k c hk
    . intro k c hmem
      simp only [hchannels]
      rw [← (h.returned k c hmem).1]
      refine ⟨?_, (h.returned k c hmem).2⟩
      by_cases hne : c = ch
      . rw [hne, hfd]
      . rw [hchannel c hne]
    . intro c hmem
      simp only [hchannels]
      rcases List.mem_cons.mp hmem with rfl | hmem
      . exact hch
      . exact h.removed c hmem

theorem tabled_step (h : Tabled s) (hs : step s a = some t) : Tabled t := by
  cases a with
  | bindTaskQueue q fd =>
    simp only [step, Option.map_eq_some_iff] at hs
    rcases hs with ⟨⟨io, ch⟩, hio, rfl⟩
    exact tabled_bind h hio
  | registerEvent ch e cb et ok =>
    simp only [step, Channels.step, Option.map_eq_some_iff, Option.ite_none_right_eq_some] at hs
    rcases hs with ⟨io, ⟨_, ⟨io', ret⟩, hio, rfl⟩, rfl⟩
    exact tabled_same h (same_registerEvent hio)
  | unregisterEvent ch e ok =>
    simp only [step, Channels.step, Option.map_eq_some_iff, Option.ite_none_right_eq_some] at hs
    rcases hs with ⟨io, ⟨_, hio⟩, rfl⟩
    exact tabled_same h (same_unregisterEvent hio)
  | removeChannel ch ok =>
    simp only [step, Channels.step, Option.map_eq_some_iff, Option.ite_none_right_eq_some] at hs
    rcases hs with ⟨io, ⟨hch, hio⟩, rfl⟩
    exact tabled_remove h hch hio

-- What any step but the removal of a channel does to the table and the record
theorem entry_step (hs : step s a = some t) (hne : ∀ ch ok, a ≠ .removeChannel ch ok)
    : t.removed = s.removed
        ∧ ((∀ k, t.io.entry k = s.io.entry k) ∧ t.returned = s.returned ∧ (∀ q fd, a ≠ .bindTaskQueue q fd)
          ∨ ∃ q fd ch, a = .bindTaskQueue q fd ∧ t.returned = (fd, ch) :: s.returned
            ∧ t.io.entry fd = some ch ∧ (∀ k, k ≠ fd → t.io.entry k = s.io.entry k)
            ∧ ∀ c, s.io.entry fd = some c → c = ch) := by
  have hsame : ∀ io, Same s.io io → ∀ k, io.entry k = s.io.entry k := by
    intro io hio k
    unfold Channels.State.entry
    rw [hio.chs]
  cases a with
  | bindTaskQueue q fd =>
    simp only [step, Option.map_eq_some_iff] at hs
    rcases hs with ⟨⟨io, ch⟩, hio, rfl⟩
    rcases entry_bindTaskQueue hio with ⟨_, hbound, hothers, hold⟩
    exact ⟨rfl, .inr ⟨q, fd, ch, rfl, rfl, hbound, hothers, hold⟩⟩
  | registerEvent ch e cb et ok =>
    simp only [step, Channels.step, Option.map_eq_some_iff, Option.ite_none_right_eq_some] at hs
    rcases hs with ⟨io, ⟨_, ⟨io', ret⟩, hio, rfl⟩, rfl⟩
    exact ⟨rfl, .inl ⟨hsame _ (same_registerEvent hio), rfl, fun _ _ => nofun⟩⟩
  | unregisterEvent ch e ok =>
    simp only [step, Channels.step, Option.map_eq_some_iff, Option.ite_none_right_eq_some] at hs
    rcases hs with ⟨io, ⟨_, hio⟩, rfl⟩
    exact ⟨rfl, .inl ⟨hsame _ (same_unregisterEvent hio), rfl, fun _ _ => nofun⟩⟩
  | removeChannel ch ok => exact absurd rfl (hne ch ok)

theorem told_step (hs : step s a = some t) (hne : ∀ ch ok, a ≠ .removeChannel ch ok) : Told s a t := by
  rcases (entry_step hs hne).2 with ⟨hentry, _, hbind⟩ | ⟨q, fd, ch, rfl, hreturned, hbound, hothers, hold⟩
  . constructor
    . intro q fd _ heq
      exact absurd heq (hbind q fd)
    . intro fd ch hch _
      rw [hentry, hch]
  . constructor
    . intro q' fd' c heq hc
      cases heq
      rw [hreturned, hold c hc]
      rfl
    . intro fd' c hc _
      by_cases heq : fd' = fd
      . subst heq
        rw [hbound, hold c hc]
      . rw [hothers fd' heq, hc]

theorem remembers_step (h : Remembers s) (hs : step s a = some t)
    (hne : ∀ ch ok, a ≠ .removeChannel ch ok)
    : Remembers t := by
  rcases entry_step hs hne with ⟨hremoved, hor⟩
  intro fd ch hmem hnot
  rw [hremoved] at hnot
  rcases hor with ⟨hentry, hreturned, _⟩ | ⟨q, fd', ch', _, hreturned, hbound, hothers, hold⟩
  . rw [hentry]
    exact h fd ch (by rw [← hreturned]; exact hmem) hnot
  . rw [hreturned] at hmem
    rcases List.mem_cons.mp hmem with heq | hmem
    . cases heq
      exact hbound
    . have hch := h fd ch hmem hnot
      by_cases heq : fd = fd'
      . subst heq
        rw [hbound, hold ch hch]
      . rw [hothers fd heq, hch]

-- The removal of a channel leaves the entries of others alone just where the channel is current
theorem kept_remove {io : Channels.State n κ} (hio : s.io.removeChannel ch ok = some io)
    : (∀ fd c, s.io.entry fd = some c → c ≠ ch → io.entry fd = some c)
        ↔
      Current s (.removeChannel ch ok) := by
  unfold Current
  rcases remove_cases hio with ⟨hq, rfl⟩ | ⟨hq, hentry, _⟩
  . exact iff_of_true (fun _ _ hc _ => hc) (.inl hq)
  . simp only [hq, false_or]
    constructor
    . intro hkept c hc
      apply Classical.byContradiction
      intro hne
      have := hkept _ c hc hne
      rw [hentry, if_pos rfl] at this
      cases this
    . intro hcurrent fd c hc hne
      rw [hentry, if_neg, hc]
      rintro rfl
      exact hne (hcurrent c hc)

theorem told_iff (hs : step s a = some t) : Told s a t ↔ Current s a := by
  cases a with
  | removeChannel ch ok =>
    simp only [step, Channels.step, Option.map_eq_some_iff, Option.ite_none_right_eq_some] at hs
    rcases hs with ⟨io, ⟨_, hio⟩, rfl⟩
    rw [← kept_remove hio]
    constructor
    . intro htold fd c hc hne
      apply htold.kept fd c hc
      intro ok' heq
      cases heq
      exact hne rfl
    . intro hkept
      constructor
      . intro q fd c heq
        cases heq
      . intro fd c hc hne
        apply hkept fd c hc
        rintro rfl
        exact hne ok rfl
  | _ => exact iff_of_true (told_step hs nofun) trivial

theorem remembers_iff (h : Tabled s) (hremembers : Remembers s) (hs : step s a = some t)
    : Remembers t ↔ Current s a := by
  cases a with
  | removeChannel ch ok =>
    simp only [step, Channels.step, Option.map_eq_some_iff, Option.ite_none_right_eq_some] at hs
    rcases hs with ⟨io, ⟨_, hio⟩, rfl⟩
    rw [← kept_remove hio]
    constructor
    . intro hrem fd c hc hne
      rcases h.table fd c hc with ⟨hreturned, hnot⟩
      apply hrem fd c hreturned
      intro hmem
      rcases List.mem_cons.mp hmem with heq | hmem
      . exact hne heq
      . exact hnot hmem
    . intro hkept fd c hmem hnot
      have hne : c ≠ ch := by
        rintro rfl
        exact hnot List.mem_cons_self
      have hc := hremembers fd c hmem (fun hremoved => hnot (List.mem_cons_of_mem _ hremoved))
      exact hkept fd c hc hne
  | _ => exact iff_of_true (remembers_step hremembers hs nofun) trivial

theorem tabled_start : Tabled (State.start n κ) := by
  have hentry : ∀ k, (State.start n κ).io.entry k = none := fun _ => rfl
  constructor
  . intro k ch hk
    rw [hentry] at hk
    cases hk
  . intro k ch hk
    rw [hentry] at hk
    cases hk
  . intro k ch hmem
    cases hmem
  . intro ch hmem
    cases hmem

/--
The table forgets nothing that it is not told to forget just as long as every channel that is removed
is the entry for its descriptor, or has been removed already while an epoller had it.
-/
theorem forgets_iff_current (as : List (Action n κ))
    : (machine n κ).Always Remembers (State.start n κ) as
          ∧ (machine n κ).Meets (fun s a => ∀ t, step s a = some t → Told s a t) (State.start n κ) as
        ↔
      (machine n κ).Meets Current (State.start n κ) as := by
  have halways : (machine n κ).Always Remembers (State.start n κ) as
      ↔ (machine n κ).Meets Current (State.start n κ) as := by
    apply Machine.always_iff_meets (I := Tabled)
    . intro s a t h hrem hs
      exact ⟨tabled_step h hs, remembers_iff h hrem hs⟩
    . exact tabled_start
    . intro fd ch hmem
      cases hmem
  rw [halways, and_iff_left_iff_imp]
  intro hmeets
  apply Machine.Meets.mono as hmeets
  intro s a hcurrent t hs
  exact (told_iff hs).mpr hcurrent

-- Two calls of `close` for descriptor 3, with the number bound again in between
def reused : List (Action 1 Nat) :=
  [.bindTaskQueue (some 0) 3, .removeChannel 0 true, .bindTaskQueue (some 0) 3, .removeChannel 0 true]

theorem not_remembers_reused
    : ¬∀ s, (machine 1 Nat).Reachable s → Remembers s := by
  intro h
  have hexec : (machine 1 Nat).exec (State.start 1 Nat) reused = some _ := rfl
  have := h _ (Machine.Reachable.of_exec reused rfl hexec) 3 1 (by decide) (by decide)
  cases this

end Forgets
end Channels
end IOManager
end Koro
