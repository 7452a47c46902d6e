import Koro.IOManager.Channels
import Koro.Data.Counter
import Koro.Machine.Tally

/-!
This module contains what `pending_event_count_` tells about channels: it is the number of installed
read and write callbacks as long as registrations and deregistrations of an event alternate and no
channel is removed while it has a callback.
-/

namespace Koro

open Function (update)

namespace Channel

variable {n : Nat} {κ : Type u} {c c' : Channel n κ}

def installed (c : Channel n κ) : Nat :=
  (c.callback .kRead).isSome.toNat + (c.callback .kWrite).isSome.toNat

theorem installed_setCallback
    (h : ∀ e', c'.callback e' = if e' = e then cb else c.callback e')
    : c'.installed + (c.callback e).isSome.toNat = c.installed + cb.isSome.toNat := by
  unfold installed
  rw [h, h]
  cases e with
  | kRead =>
    simp only [↓reduceIte, reduceCtorEq]
    omega
  | kWrite =>
    simp only [↓reduceIte, reduceCtorEq]
    omega

end Channel

namespace IOManager
namespace Channels

variable {n : Nat} {κ : Type u} {s t : State n κ}

def State.installed (s : State n κ) : Nat :=
  ∑ ch ∈ Finset.range s.channels, (s.channel ch).installed

def State.Counted (s : State n κ) : Prop :=
  s.pendingEventCount.toNat = s.installed

instance (s : State n κ) : Decidable s.Counted :=
  inferInstanceAs (Decidable (_ = _))

-- Registrations and deregistrations of an event alternate, and no channel is removed in between
def Paired (s : State n κ) : Action n κ → Prop
  | .registerEvent ch e cb _ _ =>
    cb ≠ none ∧ (s.channel ch).callback e = none ∧ s.installed + 1 < 2 ^ 64
  | .unregisterEvent ch e _ => (s.channel ch).callback e ≠ none
  | .removeChannel ch _ =>
    (s.channel ch).taskQueue = none ∨ ∀ e, (s.channel ch).callback e = none
  | .bindTaskQueue .. => True

theorem installed_update {c : Channel n κ} (hch : ch < s.channels)
    : ∑ ch' ∈ Finset.range s.channels, (update s.channel ch c ch').installed
        + (s.channel ch).installed
        =
      s.installed + c.installed := by
  have hother : ∀ ch' ∈ Finset.range s.channels, ch' ≠ ch →
      (update s.channel ch c ch').installed = (s.channel ch').installed := by
    intro ch' _ hne
    rw [Function.update_of_ne hne]
  have := Tally.sum_change (Finset.mem_range.mpr hch) hother
  rwa [Function.update_self] at this

theorem installed_bind (fd : Nat) (q : Option (Fin n))
    : ∑ ch ∈ Finset.range (s.channels + 1),
        (update s.channel s.channels (Channel.new fd q) ch).installed
        =
      s.installed := by
  rw [Finset.sum_range_succ, Function.update_self]
  have : (Channel.new (κ := κ) fd q).installed = 0 := rfl
  rw [this, Nat.add_zero]
  apply Finset.sum_congr rfl
  intro ch hch
  rw [Function.update_of_ne (Nat.ne_of_lt (Finset.mem_range.mp hch))]

-- One callback of one channel is set to `cb`
theorem installed_slot {c : Channel n κ} (hch : ch < s.channels)
    (h : ∀ e', c.callback e' = if e' = e then cb else (s.channel ch).callback e')
    : ∑ ch' ∈ Finset.range s.channels, (update s.channel ch c ch').installed
        + ((s.channel ch).callback e).isSome.toNat
        =
      s.installed + cb.isSome.toNat := by
  have hslot := Channel.installed_setCallback h
  have hsum := installed_update (c := c) hch
  omega

theorem counted_registerEvent (hch : ch < s.channels) (h : s.Counted)
    (hs : (s.registerEvent ch e cb et ok).map Prod.fst = some t)
    : t.Counted ↔ Paired s (.registerEvent ch e cb et ok) := by
  unfold State.registerEvent at hs
  split at hs
  . cases hs
  . next q hq =>
    split at hs
    . next hreg =>
      rw [Channel.register_eq] at hreg
      cases hreg
    . next c hreg =>
      simp only [Option.map_some, Option.some.injEq] at hs
      subst hs
      have hcallback : ∀ e', (EpollPoller.updateChannel (s.interest q) c ok).2.callback e'
          = if e' = e then cb else (s.channel ch).callback e' := by
        intro e'
        rw [EpollPoller.callback_updateChannel, Channel.callback_register hreg]
      have hslot := installed_slot hch hcallback
      simp only [State.Counted, State.installed, Paired] at h hslot ⊢
      cases cb with
      | none =>
        simp only [ne_eq, not_true_eq_false, false_and, iff_false]
        cases hold : (s.channel ch).callback e with
        | none =>
          simp only [hold, Option.isSome_none, Bool.toNat_false, Nat.add_zero] at hslot
          rw [hslot]
          exact Counter.add_one_ne h
        | some old =>
          simp only [hold, Option.isSome_none, Option.isSome_some, Bool.toNat_false,
            Bool.toNat_true, Nat.add_zero] at hslot
          rw [← hslot] at h
          exact Counter.add_one_ne_of_succ h
      | some cb =>
        cases hold : (s.channel ch).callback e with
        | none =>
          simp only [hold, Option.isSome_none, Option.isSome_some, Bool.toNat_false,
            Bool.toNat_true, Nat.add_zero] at hslot
          rw [hslot, Counter.add_one h]
          simp
        | some old =>
          simp only [hold, Option.isSome_some, Bool.toNat_true, Nat.add_right_cancel_iff] at hslot
          rw [hslot]
          simp only [Counter.add_one_ne h, reduceCtorEq, false_and, and_false]

theorem counted_unregisterEvent (hch : ch < s.channels) (h : s.Counted)
    (hs : s.unregisterEvent ch e ok = some t)
    : t.Counted ↔ Paired s (.unregisterEvent ch e ok) := by
  unfold State.unregisterEvent at hs
  split at hs
  . cases hs
  . next q hq =>
    have hban : ((s.channel ch).unregister e).2 = 1 := by rw [Channel.unregister_eq]
    simp only [hban, gt_iff_lt, Nat.zero_lt_one, ↓reduceIte, Option.some.injEq] at hs
    subst hs
    have hcallback : ∀ e', (EpollPoller.updateChannel (s.interest q)
          ((s.channel ch).unregister e).1 ok).2.callback e'
        = if e' = e then none else (s.channel ch).callback e' := by
      intro e'
      rw [EpollPoller.callback_updateChannel, Channel.callback_unregister]
    have hslot := installed_slot hch hcallback
    simp only [State.Counted, State.installed, Paired] at h hslot ⊢
    simp only [Option.isSome_none, Bool.toNat_false, Nat.add_zero] at hslot
    have hone : UInt64.ofNat 1 = 1 := rfl
    cases hold : (s.channel ch).callback e with
    | none =>
      simp only [hold, Option.isSome_none, Bool.toNat_false, Nat.add_zero] at hslot
      rw [hslot, hone]
      simp [Counter.sub_one_ne h]
    | some old =>
      simp only [hold, Option.isSome_some, Bool.toNat_true] at hslot
      rw [← hslot] at h
      rw [hone, Counter.sub_one h]
      simp

theorem installed_eq_zero {c : Channel n κ} : c.installed = 0 ↔ ∀ e, c.callback e = none := by
  unfold Channel.installed
  constructor
  . intro h e
    cases hread : c.callback .kRead <;> cases hwrite : c.callback .kWrite <;> cases e <;>
      simp_all
  . intro h
    simp [h]

theorem counted_removeChannel (hch : ch < s.channels) (h : s.Counted)
    (hs : s.removeChannel ch ok = some t)
    : t.Counted ↔ Paired s (.removeChannel ch ok) := by
  -- With its callbacks gone the channel counts for nothing
  have hclear : ∀ {c : Channel n κ}, (∀ e, c.callback e = none) → t.channels = s.channels →
      t.pendingEventCount = s.pendingEventCount → t.channel = update s.channel ch c →
      (t.Counted ↔ ∀ e, (s.channel ch).callback e = none) := by
    intro c hc hchannels hpending hchannel
    have hsum := installed_update (c := c) hch
    rw [installed_eq_zero.mpr hc] at hsum
    rw [← installed_eq_zero]
    unfold State.Counted at h ⊢
    unfold State.installed at h hsum ⊢
    rw [hpending, hchannels, hchannel]
    omega
  unfold State.removeChannel at hs
  split at hs
  . next hq =>
    cases hs
    simp [h, Paired, hq]
  . next q hq =>
    simp only [Paired, hq, reduceCtorEq, false_or]
    dsimp only at hs
    split at hs
    . split at hs
      . cases hs
      . next interest c hremove =>
        cases hs
        apply hclear (c := { c with taskQueue := none }) _ rfl rfl rfl
        intro e
        have := EpollPoller.callback_removeChannel (e := e) hremove
        cases e <;> exact this
    . cases hs
      apply hclear (c := { s.channel ch with
        readCallback := none, writeCallback := none, errorCallback := none }) _ rfl rfl rfl
      intro e
      cases e <;> rfl

theorem counted_bindTaskQueue (h : s.Counted)
    (hs : (s.bindTaskQueue q fd).map Prod.fst = some t)
    : t.Counted := by
  unfold State.Counted at h ⊢
  rw [Option.map_eq_some_iff] at hs
  rcases hs with ⟨⟨r, ch⟩, hs, rfl⟩
  unfold State.bindTaskQueue at hs
  dsimp only at hs ⊢
  split at hs
  . cases hs
    exact h
  . split at hs
    . next q =>
      cases hs
      rw [h]
      exact (installed_bind fd (some q)).symm
    . split at hs
      . cases hs
        rw [h]
        exact (installed_bind fd _).symm
      . cases hs

theorem counted_step (h : s.Counted) (hs : step s a = some t) : t.Counted ↔ Paired s a := by
  cases a with
  | bindTaskQueue q fd => simp only [counted_bindTaskQueue h hs, Paired]
  | registerEvent ch e cb et ok =>
    simp only [step, Option.ite_none_right_eq_some] at hs
    exact counted_registerEvent hs.left h hs.right
  | unregisterEvent ch e ok =>
    simp only [step, Option.ite_none_right_eq_some] at hs
    exact counted_unregisterEvent hs.left h hs.right
  | removeChannel ch ok =>
    simp only [step, Option.ite_none_right_eq_some] at hs
    exact counted_removeChannel hs.left h hs.right

/--
The counter tells the number of installed callbacks in every state of a run just as long as
registrations and deregistrations are paired.
-/
theorem counted_iff_paired (as : List (Action n κ))
    : (machine n κ).Always State.Counted (State.start n κ) as
        ↔
      (machine n κ).Meets Paired (State.start n κ) as := by
  apply Machine.always_iff_meets (I := fun _ => True)
  . intro s a t _ h hat
    exact ⟨trivial, counted_step h hat⟩
  . trivial
  . rfl

-- A descriptor is closed while a fiber waits to read from it
def closed : List (Action 1 Nat) :=
  [.bindTaskQueue (some 0) 3, .registerEvent 0 .kRead (some 0) true true, .removeChannel 0 true]

theorem not_counted_closed : ¬∀ s, (machine 1 Nat).Reachable s → s.Counted := by
  intro h
  have hexec : (machine 1 Nat).exec (State.start 1 Nat) closed = some _ := rfl
  have := h _ (Machine.Reachable.of_exec closed rfl hexec)
  exact absurd this (by decide)

end Channels
end IOManager
end Koro
