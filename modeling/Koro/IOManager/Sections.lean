import Koro.IOManager.Channels

/-!
This module contains the steps that `registerEvent`, `unregisterEvent`, `removeChannel` and `close`
fall into where other threads come in between, and what they leave of the registration that somebody
relies on.
-/

namespace Koro
namespace IOManager
namespace Channels

open Function (update)

variable {n : Nat} {κ : Type u}

namespace State

-- `Channel::update`, where the channel is already `c`
def updateChannel (s : State n κ) (q : Fin n) (ch : ChannelId) (c : Channel n κ) (ok : Bool)
    : State n κ :=
  let (interest, c) := EpollPoller.updateChannel (s.interest q) c ok
  { s with
    channel := update s.channel ch c
    interest := update s.interest q interest
  }

-- `registerEvent` while it has the mutex of the channel
def registerLocked (s : State n κ) (ch : ChannelId) (e : Event) (cb : Option κ) (useET ok : Bool)
    : Option (State n κ) :=
  match (s.channel ch).taskQueue with
  | none => none
  | some q => ((s.channel ch).register ch e cb useET).map fun c => s.updateChannel q ch c ok

-- `unregisterEvent` while it has the mutex of the channel
def unregisterLocked (s : State n κ) (ch : ChannelId) (e : Event) (ok : Bool)
    : Option (State n κ) :=
  match (s.channel ch).taskQueue with
  | none => none
  | some q => some (s.updateChannel q ch ((s.channel ch).unregister e).1 ok)

def addPending (s : State n κ) : State n κ :=
  { s with pendingEventCount := s.pendingEventCount + 1 }

def subPending (s : State n κ) : State n κ :=
  { s with pendingEventCount := s.pendingEventCount - 1 }

-- `removeChannel` while it has the mutex of the channel table
def resetEntry (s : State n κ) (ch : ChannelId) : State n κ :=
  let fd := (s.channel ch).fd
  { s with chs := if fd < s.chs.length then s.chs.set fd none else s.chs }

def clearCallbacks (s : State n κ) (ch : ChannelId) : State n κ :=
  { s with
    channel := update s.channel ch
      { s.channel ch with readCallback := none, writeCallback := none, errorCallback := none }
  }

-- The rest of `removeChannel`
def removeFromEpoll (s : State n κ) (ch : ChannelId) (ok : Bool) : Option (State n κ) :=
  match (s.channel ch).taskQueue with
  | none => if (s.channel ch).inEpoll then none else some s
  | some q =>
    if (s.channel ch).inEpoll then
      let c := { s.channel ch with events := 0 }
      (EpollPoller.removeChannel (s.interest q) c ok).map fun (interest, c) =>
        { s with
          channel := update s.channel ch { c with taskQueue := none }
          interest := update s.interest q interest
        }
    else
      some s

-- The system call, after which no epoller has the descriptor
def sysClose (s : State n κ) (fd : Nat) : State n κ :=
  { s with interest := fun q => update (s.interest q) fd none }

end State

section Whole

variable {s : State n κ} {ch : ChannelId} {e : Event} {cb : Option κ} {et ok : Bool}

-- Without anybody in between the steps make up the operations

theorem registerEvent_eq
    : s.registerEvent ch e cb et ok
        =
      (s.registerLocked ch e cb et ok).map fun t => (t.addPending, true) := by
  unfold State.registerEvent State.registerLocked
  cases (s.channel ch).taskQueue with
  | none => rfl
  | some q =>
    rw [Channel.register_eq]
    rfl

theorem unregisterEvent_eq
    : s.unregisterEvent ch e ok = (s.unregisterLocked ch e ok).map State.subPending := by
  unfold State.unregisterEvent State.unregisterLocked
  cases (s.channel ch).taskQueue with
  | none => rfl
  | some q =>
    rw [Channel.unregister_eq]
    rfl

theorem removeChannel_eq (h : (s.channel ch).taskQueue ≠ none)
    : s.removeChannel ch ok = ((s.resetEntry ch).clearCallbacks ch).removeFromEpoll ch ok := by
  cases hq : (s.channel ch).taskQueue with
  | none => exact absurd hq h
  | some q =>
    cases hin : (s.channel ch).inEpoll <;> cases ok <;>
      simp [State.removeChannel, State.removeFromEpoll, State.clearCallbacks, State.resetEntry,
        EpollPoller.removeChannel, hq, hin]

end Whole

-- The epoller of worker `q` is to report the event
def State.Reports (s : State n κ) (q : Fin n) (fd : Nat) (e : Event) : Prop :=
  ∃ mask, s.interest q fd = some mask ∧ mask &&& e.value ≠ 0

-- The callback is installed for the event, and the epoller of the channel reports the event
structure State.Serves (s : State n κ) (ch : ChannelId) (e : Event) (cb : κ) : Prop where
  callback : (s.channel ch).callback e = some cb
  armed : (s.channel ch).armed e = true
  inEpoll : (s.channel ch).inEpoll = true
  interest : ∃ q, (s.channel ch).taskQueue = some q ∧ s.Reports q (s.channel ch).fd e

-- Both channels are for one descriptor in one epoller
def State.sameEntry (s : State n κ) (ch ch' : ChannelId) : Bool :=
  (s.channel ch).fd = (s.channel ch').fd ∧ (s.channel ch).taskQueue = (s.channel ch').taskQueue

section Serves

variable {s t : State n κ} {ch ch' : ChannelId} {e e' : Event} {cb cb' : κ} {ok et : Bool}

theorem State.Serves.keep (h : s.Serves ch e cb) (hchannel : t.channel ch = s.channel ch)
    (hinterest : ∀ q, (s.channel ch).taskQueue = some q → s.Reports q (s.channel ch).fd e →
      t.Reports q (s.channel ch).fd e)
    : t.Serves ch e cb := by
  rcases h with ⟨hcb, harmed, hin, q, hq, hreports⟩
  constructor
  . rwa [hchannel]
  . rwa [hchannel]
  . rwa [hchannel]
  . rw [hchannel]
    exact ⟨q, hq, hinterest q hq hreports⟩

-- Another channel for the descriptor overwrites the entry, with its own mask
theorem serves_update_other (h : s.Serves ch e cb) {q : Fin n} {c : Channel n κ} (hne : ch ≠ ch')
    (hq : (s.channel ch').taskQueue = some q) (hfd : c.fd = (s.channel ch').fd)
    (hentry : s.sameEntry ch' ch = true → ok = true → c.armed e = true)
    : (s.updateChannel q ch' c ok).Serves ch e cb := by
  apply h.keep
  . exact Function.update_of_ne hne _ _
  . intro p hp hreports
    simp only [State.Reports, State.updateChannel, EpollPoller.interest_updateChannel] at hreports ⊢
    by_cases hpq : p = q
    . subst hpq
      simp only [Function.update_self]
      cases ok with
      | true =>
        by_cases hsame : (s.channel ch).fd = c.fd
        . have harmed := hentry (by simp [State.sameEntry, hsame, hfd, hp, hq]) rfl
          refine ⟨c.events, ?_, ?_⟩
          . simp only [↓reduceIte, hsame, Function.update_self]
          . simpa [Channel.armed] using harmed
        . simpa only [↓reduceIte, Function.update_of_ne hsame] using hreports
      | false => exact hreports
    . simpa only [Function.update_of_ne hpq] using hreports

theorem serves_update_self {q : Fin n} {c : Channel n κ} (hcb : c.callback e = some cb)
    (harmed : c.armed e = true) (hin : (c.inEpoll || ok) = true) (hq : c.taskQueue = some q)
    (hinterest : ok = false → s.Reports q c.fd e)
    : (s.updateChannel q ch c ok).Serves ch e cb := by
  have hchannel : (s.updateChannel q ch c ok).channel ch = { c with inEpoll := c.inEpoll || ok } := by
    simp only [State.updateChannel, EpollPoller.updateChannel_eq, Function.update_self]
  constructor
  . rw [hchannel, ← hcb]
    cases e <;> rfl
  . rw [hchannel]
    exact harmed
  . rw [hchannel]
    exact hin
  . rw [hchannel]
    refine ⟨q, hq, ?_⟩
    simp only [State.Reports, State.updateChannel, EpollPoller.interest_updateChannel,
      Function.update_self]
    cases ok with
    | true =>
      refine ⟨c.events, ?_, ?_⟩
      . simp only [↓reduceIte, Function.update_self]
      . simpa [Channel.armed] using harmed
    | false => exact hinterest rfl

theorem registerLocked_eq_some (h : s.registerLocked ch e (some cb) et ok = some t)
    : ∃ q c,
        (s.channel ch).taskQueue = some q ∧ (s.channel ch).register ch e (some cb) et = some c
          ∧
        t = s.updateChannel q ch c ok := by
  unfold State.registerLocked at h
  split at h
  . cases h
  . next q hq =>
    simp only [Option.map_eq_some_iff] at h
    rcases h with ⟨c, hc, rfl⟩
    exact ⟨q, c, hq, hc, rfl⟩

theorem register_keeps {c c' : Channel n κ} (h : c.register ch e (some cb) et = some c')
    : c'.fd = c.fd ∧ c'.taskQueue = c.taskQueue ∧ c'.inEpoll = c.inEpoll := by
  rw [Channel.register_eq, Option.some.injEq] at h
  subst h
  cases e <;> exact ⟨rfl, rfl, rfl⟩

theorem unregister_keeps (c : Channel n κ) (e : Event)
    : (c.unregister e).1.fd = c.fd ∧ (c.unregister e).1.taskQueue = c.taskQueue
        ∧ (c.unregister e).1.inEpoll = c.inEpoll := by
  rw [Channel.unregister_eq]
  cases e <;> exact ⟨rfl, rfl, rfl⟩

theorem serves_register (h : s.registerLocked ch e (some cb) et true = some t)
    : t.Serves ch e cb := by
  rcases registerLocked_eq_some h with ⟨q, c, hq, hc, rfl⟩
  apply serves_update_self
  . rw [Channel.callback_register hc, if_pos rfl]
  . simp [Channel.armed_register hc]
  . simp
  . rw [(register_keeps hc).right.left, hq]
  . simp

-- Whoever registers or unregisters something else leaves the registration as it is

theorem serves_update (h : s.Serves ch e cb) {q : Fin n} {c : Channel n κ}
    (hq : (s.channel ch').taskQueue = some q)
    (hkeeps : c.fd = (s.channel ch').fd ∧ c.taskQueue = (s.channel ch').taskQueue
      ∧ c.inEpoll = (s.channel ch').inEpoll)
    (hself : ch' = ch → c.callback e = (s.channel ch').callback e ∧ c.armed e = (s.channel ch').armed e)
    (hentry : ch' ≠ ch → s.sameEntry ch' ch = true → ok = true → c.armed e = true)
    : (s.updateChannel q ch' c ok).Serves ch e cb := by
  rcases hkeeps with ⟨hfd, htask, hin⟩
  by_cases hch : ch' = ch
  . subst hch
    rcases h with ⟨hcb, harmed, hepoll, p, hp, hreports⟩
    apply serves_update_self
    . rw [(hself rfl).left, hcb]
    . rw [(hself rfl).right, harmed]
    . simp [hin, hepoll]
    . rw [htask, hq]
    . intro _
      rw [hp, Option.some.injEq] at hq
      subst hq
      rwa [hfd]
  . exact serves_update_other h (Ne.symm hch) hq hfd (hentry hch)

theorem serves_register_other (h : s.Serves ch e cb)
    (hio : s.registerLocked ch' e' (some cb') et ok = some t) (hslot : ¬(ch' = ch ∧ e' = e))
    (hentry : ch' ≠ ch → s.sameEntry ch' ch = true → ok = true →
      e' = e ∨ (s.channel ch').armed e = true)
    : t.Serves ch e cb := by
  rcases registerLocked_eq_some hio with ⟨q, c, hq, hc, rfl⟩
  apply serves_update h hq (register_keeps hc)
  . intro hch
    have he : e ≠ e' := by
      intro he
      exact hslot ⟨hch, he.symm⟩
    rw [Channel.callback_register hc, if_neg he]
    simp [Channel.armed_register hc, he]
  . intro hch hsame hok
    cases hentry hch hsame hok with
    | inl he => simp [Channel.armed_register hc, he]
    | inr harmed => simp [Channel.armed_register hc, harmed]

theorem serves_unregister_other (h : s.Serves ch e cb)
    (hio : s.unregisterLocked ch' e' ok = some t) (hslot : ¬(ch' = ch ∧ e' = e))
    (hentry : ch' ≠ ch → s.sameEntry ch' ch = true → ok = true →
      e' ≠ e ∧ (s.channel ch').armed e = true)
    : t.Serves ch e cb := by
  unfold State.unregisterLocked at hio
  split at hio
  . cases hio
  . next q hq =>
    cases hio
    apply serves_update h hq (unregister_keeps (s.channel ch') e')
    . intro hch
      have he : e ≠ e' := by
        intro he
        exact hslot ⟨hch, he.symm⟩
      rw [Channel.callback_unregister, if_neg he]
      simp [Channel.armed_unregister, he]
    . intro hch hsame hok
      rcases hentry hch hsame hok with ⟨he, harmed⟩
      simp [Channel.armed_unregister, harmed, Ne.symm he]

theorem serves_clear_other (h : s.Serves ch e cb) (hne : ch' ≠ ch)
    : (s.clearCallbacks ch').Serves ch e cb := by
  apply h.keep
  . exact Function.update_of_ne (Ne.symm hne) _ _
  . intro q _ hreports
    exact hreports

theorem serves_remove_other (h : s.Serves ch e cb) (hio : s.removeFromEpoll ch' ok = some t)
    (hne : ch' ≠ ch) (hentry : (s.channel ch').inEpoll = true → ok = true → s.sameEntry ch' ch = false)
    : t.Serves ch e cb := by
  unfold State.removeFromEpoll EpollPoller.removeChannel at hio
  split at hio
  . split at hio
    . cases hio
    . cases hio
      exact h
  . next q hq =>
    split at hio
    . next hin =>
      simp only [Option.map_eq_some_iff] at hio
      rcases hio with ⟨⟨interest, c⟩, hc, rfl⟩
      apply h.keep
      . exact Function.update_of_ne (Ne.symm hne) _ _
      . intro p hp hreports
        simp only [State.Reports] at hreports ⊢
        by_cases hpq : p = q
        . subst hpq
          cases ok with
          | true =>
            have hother : (s.channel ch).fd ≠ (s.channel ch').fd := by
              intro hsame
              have := hentry hin rfl
              simp [State.sameEntry, hsame, hp, hq] at this
            simp only [hin, ↓reduceIte, Option.some.injEq, Prod.mk.injEq] at hc
            rw [← hc.left]
            simpa only [Function.update_self, Function.update_of_ne hother] using hreports
          | false =>
            simp only [hin, ↓reduceIte, Bool.false_eq_true, Option.some.injEq, Prod.mk.injEq] at hc
            rw [← hc.left]
            simpa only [Function.update_self] using hreports
        . simpa only [Function.update_of_ne hpq] using hreports
    . cases hio
      exact h

theorem serves_sysClose (h : s.Serves ch e cb) (hfd : (s.channel ch).fd ≠ fd)
    : (s.sysClose fd).Serves ch e cb := by
  apply h.keep
  . rfl
  . intro q _ hreports
    simpa only [State.Reports, State.sysClose, Function.update_of_ne hfd] using hreports

theorem serves_sysNonBlock (h : s.Serves ch e cb) (ch' : ChannelId)
    : { s with
        channel := update s.channel ch' { s.channel ch' with sysNonBlock := true } }.Serves
          ch e cb := by
  by_cases hch : ch = ch'
  . subst hch
    rcases h with ⟨hcb, harmed, hin, hinterest⟩
    constructor
    . simp only [Function.update_self]
      rw [← hcb]
      cases e <;> rfl
    . simpa [Channel.armed] using harmed
    . simpa using hin
    . simpa [State.Reports] using hinterest
  . apply h.keep
    . exact Function.update_of_ne hch _ _
    . intro q _ hreports
      exact hreports

theorem serves_bind (h : s.Serves ch e cb) (hch : ch < s.channels)
    (hio : s.bindTaskQueue (some q) fd = some (t, ch'))
    : t.Serves ch e cb := by
  have hne : ch ≠ s.channels := Nat.ne_of_lt hch
  simp only [State.bindTaskQueue] at hio
  split at hio
  . cases hio
    exact h.keep rfl (fun _ _ hreports => hreports)
  . cases hio
    apply h.keep
    . exact Function.update_of_ne hne _ _
    . intro _ _ hreports
      exact hreports

end Serves

-- The channels in the table exist
def State.Bound (s : State n κ) : Prop :=
  ∀ (fd : Nat) (ch : ChannelId), s.chs[fd]? = some (some ch) → ch < s.channels

theorem grow_eq_some {chs : List (Option ChannelId)} {k : Nat} (h : (grow chs fd)[k]? = some (some ch))
    : chs[k]? = some (some ch) := by
  unfold grow at h
  split at h
  . by_cases hk : k < chs.length
    . rwa [List.getElem?_append_left hk] at h
    . rw [List.getElem?_append_right (Nat.le_of_not_lt hk), List.getElem?_replicate] at h
      split at h <;> cases h
  . exact h

theorem bound_bind {s t : State n κ} (h : s.Bound)
    (hio : s.bindTaskQueue (some q) fd = some (t, ch))
    : t.Bound ∧ ch < t.channels ∧ s.channels ≤ t.channels := by
  simp only [State.bindTaskQueue] at hio
  split at hio
  . next ch' hch =>
    cases hio
    have hbound : ∀ (k : Nat) (c : ChannelId), (grow s.chs fd)[k]? = some (some c) →
        c < s.channels := by
      intro k c hc
      exact h k c (grow_eq_some hc)
    exact ⟨hbound, hbound fd ch hch, Nat.le_refl _⟩
  . cases hio
    refine ⟨?_, Nat.lt_succ_self _, Nat.le_succ _⟩
    intro k c hc
    rw [List.getElem?_set] at hc
    split at hc
    . split at hc
      . cases hc
        exact Nat.lt_succ_self _
      . cases hc
    . exact Nat.lt_succ_of_lt (h k c (grow_eq_some hc))

theorem bound_reset {s : State n κ} (h : s.Bound) (ch : ChannelId) : (s.resetEntry ch).Bound := by
  intro fd c hc
  simp only [State.resetEntry] at hc
  split at hc
  . rw [List.getElem?_set] at hc
    split at hc
    . cases hc
    . exact h fd c hc
  . exact h fd c hc

theorem table_register {s t : State n κ} (h : s.registerLocked ch e (some cb) et ok = some t)
    : t.chs = s.chs ∧ t.channels = s.channels := by
  rcases registerLocked_eq_some h with ⟨q, c, hq, hc, rfl⟩
  exact ⟨rfl, rfl⟩

theorem table_unregister {s t : State n κ} (h : s.unregisterLocked ch e ok = some t)
    : t.chs = s.chs ∧ t.channels = s.channels := by
  unfold State.unregisterLocked at h
  split at h
  . cases h
  . cases h
    exact ⟨rfl, rfl⟩

theorem table_remove {s t : State n κ} (h : s.removeFromEpoll ch ok = some t)
    : t.chs = s.chs ∧ t.channels = s.channels := by
  unfold State.removeFromEpoll at h
  split at h
  . split at h
    . cases h
    . cases h
      exact ⟨rfl, rfl⟩
  . split at h
    . simp only [Option.map_eq_some_iff] at h
      rcases h with ⟨_, _, rfl⟩
      exact ⟨rfl, rfl⟩
    . cases h
      exact ⟨rfl, rfl⟩

theorem callbacks_remove {s t : State n κ} (h : s.removeFromEpoll ch ok = some t) (ch' : ChannelId)
    : (∀ e, (t.channel ch').callback e = (s.channel ch').callback e)
        ∧ (t.channel ch').errorCallback = (s.channel ch').errorCallback := by
  unfold State.removeFromEpoll EpollPoller.removeChannel at h
  split at h
  . split at h <;> cases h
    exact ⟨fun _ => rfl, rfl⟩
  . split at h
    . next hin =>
      simp only [Option.map_eq_some_iff] at h
      rcases h with ⟨⟨interest, c⟩, hc, rfl⟩
      by_cases hch : ch' = ch
      . subst hch
        simp only [Function.update_self]
        cases ok <;> simp only [hin, ↓reduceIte, Bool.false_eq_true, Option.some.injEq,
          Prod.mk.injEq] at hc <;> rw [← hc.right] <;>
          exact ⟨fun e => by cases e <;> rfl, rfl⟩
      . simp [Function.update_of_ne hch]
    . cases h
      exact ⟨fun _ => rfl, rfl⟩

end Channels
end IOManager
end Koro
