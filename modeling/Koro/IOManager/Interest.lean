import Koro.IOManager.Sections

/-!
This module contains what `registerEvent` says of the interest list of the kernel, and what it leaves
behind where `epoll_ctl` fails.
-/

namespace Koro

open Function (update)

namespace IOManager
namespace Channels

variable {n : Nat} {κ : Type u} {s t : State n κ} {ch : ChannelId} {e : Event} {q : Fin n}

/--
`registerEvent` returns true exactly when the kernel watches for the event afterwards, and nothing has
changed when `epoll_ctl` fails.
-/
structure Reported (s t : State n κ) (q : Fin n) (ch : ChannelId) (e : Event) (ok ret : Bool)
    : Prop where
  returned : ret = true ↔ t.Reports q (s.channel ch).fd e
  failed : ok = false →
    ret = false ∧ t.channel ch = s.channel ch ∧ t.pendingEventCount = s.pendingEventCount

theorem registerEvent_of_taskQueue (hq : (s.channel ch).taskQueue = some q) (e : Event) (cb : Option κ)
    (et ok : Bool)
    : ∃ c, (s.channel ch).register ch e cb et = some c ∧ c.fd = (s.channel ch).fd
        ∧ s.registerEvent ch e cb et ok = some ((s.updateChannel q ch c ok).addPending, true) := by
  rw [registerEvent_eq]
  unfold State.registerLocked
  rw [hq, Channel.register_eq]
  refine ⟨_, rfl, ?_, rfl⟩
  cases e <;> rfl

theorem interest_updateChannel (ch : ChannelId) (c : Channel n κ)
    : (s.updateChannel q ch c true).interest q c.fd = some c.events := by
  simp only [State.updateChannel, EpollPoller.interest_updateChannel, Function.update_self, ↓reduceIte]

theorem reports_register {c c' : Channel n κ} (h : c'.register ch e cb et = some c)
    : (s.updateChannel q ch c true).addPending.Reports q c.fd e := by
  refine ⟨c.events, interest_updateChannel ch c, ?_⟩
  have harmed : c.armed e = (decide (e = e) || c'.armed e) := Channel.armed_register h
  simpa [Channel.armed] using harmed

-- Descriptor 3 has been bound to the only worker
def opened : State 1 Nat :=
  { State.start 1 Nat with
    channel := update (State.start 1 Nat).channel 0 (Channel.new 3 (some 0))
    channels := 1
    chs := [none, none, none, some 0]
  }

/--
The result of `registerEvent` is right, and its failures leave nothing behind, just when `epoll_ctl`
succeeds.
-/
theorem reported_iff (hq : (s.channel ch).taskQueue = some q) (e : Event) (cb : Option κ)
    (et ok : Bool)
    : (∃ t ret, s.registerEvent ch e cb et ok = some (t, ret) ∧ Reported s t q ch e ok ret)
        ↔
      ok = true := by
  rcases registerEvent_of_taskQueue hq e cb et ok with ⟨c, hc, hfd, heq⟩
  rw [heq]
  constructor
  . intro h
    rcases h with ⟨t, ret, hret, hreported⟩
    cases hret
    cases ok with
    | true => rfl
    | false => exact absurd (hreported.failed rfl).1 Bool.noConfusion
  . intro hok
    subst hok
    refine ⟨_, true, rfl, ?_, ?_⟩
    . rw [← hfd]
      exact iff_of_true rfl (reports_register hc)
    . exact Bool.noConfusion

theorem reported_iff_opened
    : (∃ t ret, opened.registerEvent 0 .kRead (some 7) true true = some (t, ret)
        ∧ Reported opened t 0 0 .kRead true ret)
        ↔
      true = true :=
  reported_iff rfl .kRead (some 7) true true

-- `epoll_ctl` fails to add the descriptor
theorem not_reported_failed
    : ¬∃ t ret, opened.registerEvent 0 .kRead (some 7) true false = some (t, ret)
        ∧ Reported opened t 0 0 .kRead false ret := by
  intro h
  rcases h with ⟨t, ret, hret, hreported⟩
  cases hret
  exact absurd (hreported.failed rfl).1 Bool.noConfusion

end Channels
end IOManager
end Koro
