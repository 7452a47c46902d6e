import Koro.TimerManager.Entries

/-!
This module contains the proof that timers fire exactly when they are due. Next to the entries it
follows the history of a run: which timers were enqueued, and which were cancelled.
-/

namespace Koro
namespace TimerManager

open Function (update)

variable {n : Nat} {κ : Type u} {s t : State n κ}

structure State.History (s : State n κ) : Prop where
  serial : ∀ p ∈ s.registered, p.serial < s.registered.length
  small : ∀ p ∈ s.registered, p.addr < uintptrMax
  nodup : s.registered.Nodup
  fired : ∀ p ∈ s.fired, p ∈ s.registered
  cancelled : ∀ p ∈ s.cancelled, p ∈ s.registered
  waiting : ∀ w, ∀ e ∈ (s.tm w).timers, (s.timer e.timer).repeats = false → e.timer ∉ s.fired
  once : ∀ p, (s.timer p).repeats = false → s.fired.count p ≤ 1
  disabled : ∀ w, ∀ e ∈ (s.tm w).entries, e.timer ∈ s.cancelled → (s.timer e.timer).on = false
  enabled : ∀ w, ∀ e ∈ (s.tm w).entries, e.timer ∉ s.cancelled → (s.timer e.timer).on = true

theorem State.History.next (h : s.History) : s.next addr ∉ s.registered := by
  intro hp
  have := h.serial _ hp
  simp [State.next] at this

theorem history_start [Inhabited κ] : (State.start n κ).History where
  serial := by simp [State.start]
  small := by simp [State.start]
  nodup := by simp [State.start]
  fired := by simp [State.start]
  cancelled := by simp [State.start]
  waiting := by simp [State.start]
  once := by simp [State.start]
  disabled := by simp [State.start]
  enabled := by simp [State.start, TimerManager.new, entries, OrderedSet.empty]

variable {timer timer' : TimerPtr → Timer κ} {timers timers' : OrderedSet Entry.key}
  {active : List Entry}

theorem rearm_keeps (h : Ready timer timers active)
    (hrearm : rearm timer timers active = (timer', timers')) (p : TimerPtr)
    : (timer' p).on = (timer p).on ∧ (timer' p).repeats = (timer p).repeats
        ∧ (timer' p).interval = (timer p).interval
        ∧ (timer' p).onTimeCallback = (timer p).onTimeCallback := by
  cases rearm_timer h hrearm p with
  | inl hin =>
    rcases hin with ⟨_, _, _, _, ht⟩
    simp [ht, Timer.repeated]
  | inr hout => simp [hout.right]

section Register

variable {w : Fin n} {addr : Nat} {timestamp : Int} {fd : TimerFd} {fresh : Timer κ}

theorem mem_timers_register (hfresh : ∀ w, ∀ e ∈ (s.tm w).entries, e.timer.addr ≠ addr)
    (he : e ∈ (update s.tm w { s.tm w with
      timers := (s.tm w).timers.insert ⟨timestamp, s.next addr⟩, fd } w').timers)
    : e.timer = s.next addr ∨ e ∈ (s.tm w').timers := by
  by_cases hw : w' = w
  . subst hw
    rw [Function.update_self] at he
    rw [mem_insert_entry] at he
    . cases he with
      | inl he => left; rw [he]
      | inr he => exact .inr he
    . intro e' he'
      apply hfresh w' e'
      rw [mem_entries]
      exact .inl he'
  . rw [Function.update_of_ne hw] at he
    exact .inr he

theorem mem_entries_register (hfresh : ∀ w, ∀ e ∈ (s.tm w).entries, e.timer.addr ≠ addr)
    (he : e ∈ (update s.tm w { s.tm w with
      timers := (s.tm w).timers.insert ⟨timestamp, s.next addr⟩, fd } w').entries)
    : e.timer = s.next addr ∨ e ∈ (s.tm w').entries := by
  rw [mem_entries] at he
  cases he with
  | inl he =>
    cases mem_timers_register hfresh he with
    | inl he => exact .inl he
    | inr he => rw [mem_entries]; exact .inr (.inl he)
  | inr he =>
    rw [mem_entries]
    by_cases hw : w' = w
    . subst hw
      rw [Function.update_self] at he
      exact .inr (.inr he)
    . rw [Function.update_of_ne hw] at he
      exact .inr (.inr he)

theorem history_register (h : s.History) (hwf : s.Wellformed)
    (hmax : addr < uintptrMax) (hfresh : ∀ w, ∀ e ∈ (s.tm w).entries, e.timer.addr ≠ addr)
    (hon : fresh.on = true)
    : State.History { s with
        tm := update s.tm w { s.tm w with
          timers := (s.tm w).timers.insert ⟨timestamp, s.next addr⟩, fd }
        timer := update s.timer (s.next addr) fresh
        registered := s.registered ++ [s.next addr] } where
  serial := by
    intro p hp
    simp only [List.mem_append, List.mem_singleton, List.length_append,
      List.length_singleton] at hp ⊢
    cases hp with
    | inl hp => exact Nat.lt_succ_of_lt (h.serial p hp)
    | inr hp => rw [hp]; exact Nat.lt_succ_self _
  small := by
    intro p hp
    simp only [List.mem_append, List.mem_singleton] at hp
    cases hp with
    | inl hp => exact h.small p hp
    | inr hp => rw [hp]; exact hmax
  nodup := by
    rw [List.nodup_append]
    refine ⟨h.nodup, List.nodup_singleton _, ?_⟩
    intro p hp q hq heq
    rw [List.mem_singleton.mp hq] at heq
    exact h.next (heq ▸ hp)
  fired := by
    intro p hp
    exact List.mem_append_left _ (h.fired p hp)
  cancelled := by
    intro p hp
    exact List.mem_append_left _ (h.cancelled p hp)
  waiting := by
    intro w' e he hrepeats hfired
    have hp : e.timer ≠ s.next addr := by
      intro hp
      exact h.next (hp ▸ h.fired _ hfired)
    cases mem_timers_register hfresh he with
    | inl he => exact hp he
    | inr he =>
      simp only [Function.update_of_ne hp] at hrepeats
      exact h.waiting w' e he hrepeats hfired
  once := by
    intro p hrepeats
    by_cases hp : p = s.next addr
    . have : p ∉ s.fired := by
        intro hfired
        exact h.next (hp ▸ h.fired p hfired)
      simp [List.count_eq_zero.mpr this]
    . simp only [Function.update_of_ne hp] at hrepeats
      exact h.once p hrepeats
  disabled := by
    intro w' e he hcancelled
    have hp : e.timer ≠ s.next addr := by
      intro hp
      exact h.next (hp ▸ h.cancelled _ hcancelled)
    cases mem_entries_register hfresh he with
    | inl he => exact absurd he hp
    | inr he =>
      simp only [Function.update_of_ne hp]
      exact h.disabled w' e he hcancelled
  enabled := by
    intro w' e he hcancelled
    cases mem_entries_register hfresh he with
    | inl he => simp [he, hon]
    | inr he =>
      have hp : e.timer ≠ s.next addr := by
        intro hp
        exact h.next (hp ▸ hwf.known w' e he)
      simp only [Function.update_of_ne hp]
      exact h.enabled w' e he hcancelled

end Register

theorem history_cancel (h : s.History) (hp : p ∈ s.registered) (timer : TimerPtr → Timer κ)
    (hrepeats : ∀ q, (timer q).repeats = (s.timer q).repeats)
    (hother : ∀ w, ∀ e ∈ (s.tm w).entries, e.timer ≠ p →
      (timer e.timer).on = (s.timer e.timer).on)
    (hthis : ∀ w, ∀ e ∈ (s.tm w).entries, e.timer = p → (timer e.timer).on = false)
    : State.History { s with timer, cancelled := s.cancelled ++ [p] } where
  serial := h.serial
  small := h.small
  nodup := h.nodup
  fired := h.fired
  cancelled := by
    intro q hq
    cases List.mem_append.mp hq with
    | inl hq => exact h.cancelled q hq
    | inr hq => rw [List.mem_singleton.mp hq]; exact hp
  waiting := by
    intro w e he hr
    rw [hrepeats] at hr
    exact h.waiting w e he hr
  once := by
    intro q hr
    rw [hrepeats] at hr
    exact h.once q hr
  disabled := by
    intro w e he hcancelled
    by_cases hep : e.timer = p
    . exact hthis w e he hep
    . rw [List.mem_append, List.mem_singleton] at hcancelled
      cases hcancelled with
      | inl hcancelled => rw [hother w e he hep]; exact h.disabled w e he hcancelled
      | inr hcancelled => exact absurd hcancelled hep
  enabled := by
    intro w e he hcancelled
    rw [List.mem_append, List.mem_singleton, not_or] at hcancelled
    rw [hother w e he hcancelled.right]
    exact h.enabled w e he hcancelled.left

section Trigger

variable {w : Fin n} {now : Int}

-- The timers that `triggerTimer` enqueues, in the order in which it does
def due (s : State n κ) (w : Fin n) (now : Int) : List Entry :=
  ((s.tm w).timers.upTo (toLex (now, uintptrMax))).filter fun e => (s.timer e.timer).on

theorem le_key_iff {e : Entry} (h : e.timer.addr < uintptrMax)
    : e.key ≤ toLex (now, uintptrMax) ↔ e.expiration ≤ now := by
  unfold Entry.key
  rw [Prod.Lex.toLex_le_toLex]
  simp only
  omega

theorem mem_due (hmax : ∀ e ∈ (s.tm w).timers, e.timer.addr < uintptrMax)
    : e ∈ due s w now ↔ e ∈ (s.tm w).timers ∧ e.expiration ≤ now ∧ (s.timer e.timer).on = true := by
  unfold due
  rw [List.mem_filter, OrderedSet.mem_upTo]
  constructor
  . intro h
    exact ⟨h.left.left, (le_key_iff (hmax e h.left.left)).mp h.left.right, h.right⟩
  . intro h
    exact ⟨⟨h.left, (le_key_iff (hmax e h.left)).mpr h.right.left⟩, h.right.right⟩

theorem due_subset (he : e ∈ due s w now) : e ∈ (s.tm w).timers := by
  unfold due at he
  rw [List.mem_filter, OrderedSet.mem_upTo] at he
  exact he.left.left

theorem sorted_due : (due s w now).Pairwise fun e e' => e.key < e'.key :=
  OrderedSet.sorted_upTo.sublist List.filter_sublist

theorem nodup_due (hwf : s.Wellformed) : ((due s w now).map Entry.timer).Nodup := by
  rw [List.Nodup, List.pairwise_map]
  apply sorted_due.imp_of_mem
  intro e e' he he' hlt heq
  have he := mem_entries.mpr (.inl (due_subset he))
  have he' := mem_entries.mpr (.inl (due_subset he'))
  rw [(hwf.same_timer he he' heq).right] at hlt
  exact lt_irrefl _ hlt

theorem mem_entries_trigger {k : Int ×ₗ Nat} {fd : TimerFd}
    (he : e ∈ (update s.tm w {
      timers := (s.tm w).timers.eraseUpTo k
      activeTimers := (s.tm w).activeTimers ++ (s.tm w).timers.upTo k
      triggering := true
      fd } w').entries)
    : e ∈ (s.tm w').entries := by
  by_cases hw : w' = w
  . subst hw
    rw [Function.update_self, mem_entries, List.mem_append, OrderedSet.mem_eraseUpTo,
      OrderedSet.mem_upTo] at he
    rw [mem_entries]
    tauto
  . rw [Function.update_of_ne hw] at he
    exact he

theorem history_trigger (h : s.History) (hwf : s.Wellformed) (tasks : Fin n → List κ) (fd : TimerFd)
    : State.History { s with
        tm := update s.tm w {
          timers := (s.tm w).timers.eraseUpTo (toLex (now, uintptrMax))
          activeTimers :=
            (s.tm w).activeTimers ++ (s.tm w).timers.upTo (toLex (now, uintptrMax))
          triggering := true
          fd }
        tasks
        fired := s.fired ++ (due s w now).map Entry.timer } where
  serial := h.serial
  small := h.small
  nodup := h.nodup
  fired := by
    intro p hp
    cases List.mem_append.mp hp with
    | inl hp => exact h.fired p hp
    | inr hp =>
      rcases List.mem_map.mp hp with ⟨e, he, rfl⟩
      exact hwf.known w e (mem_entries.mpr (.inl (due_subset he)))
  cancelled := h.cancelled
  waiting := by
    intro w' e he hrepeats hfired
    have htimers : e ∈ (s.tm w').timers ∧ (w' = w → toLex (now, uintptrMax) < e.key) := by
      by_cases hw : w' = w
      . subst hw
        simp only [Function.update_self] at he
        rw [OrderedSet.mem_eraseUpTo] at he
        exact ⟨he.left, fun _ => he.right⟩
      . simp only [Function.update_of_ne hw] at he
        exact ⟨he, fun hw' => absurd hw' hw⟩
    cases List.mem_append.mp hfired with
    | inl hfired => exact h.waiting w' e htimers.left hrepeats hfired
    | inr hfired =>
      rcases List.mem_map.mp hfired with ⟨e', he', heq⟩
      have hsame := hwf.same_timer (mem_entries.mpr (.inl (due_subset he')))
        (mem_entries.mpr (.inl htimers.left)) heq
      unfold due at he'
      rw [List.mem_filter, OrderedSet.mem_upTo, hsame.right] at he'
      exact absurd he'.left.right (not_le_of_gt (htimers.right hsame.left.symm))
  once := by
    intro p hrepeats
    simp only [List.count_append]
    by_cases hp : p ∈ (due s w now).map Entry.timer
    . have hnotfired : p ∉ s.fired := by
        rcases List.mem_map.mp hp with ⟨e, he, rfl⟩
        exact h.waiting w e (due_subset he) hrepeats
      rw [List.count_eq_zero.mpr hnotfired, Nat.zero_add]
      exact List.nodup_iff_count_le_one.mp (nodup_due hwf) p
    . rw [List.count_eq_zero.mpr hp, Nat.add_zero]
      exact h.once p hrepeats
  disabled := by
    intro w' e he
    exact h.disabled w' e (mem_entries_trigger he)
  enabled := by
    intro w' e he
    exact h.enabled w' e (mem_entries_trigger he)

end Trigger

theorem history_reset (h : s.History) (hwf : s.Wellformed) (fd : TimerFd)
    (hrearm : rearm s.timer (s.tm w).timers (s.tm w).activeTimers = (timer, timers))
    : State.History { s with
        tm := update s.tm w { timers, activeTimers := [], triggering := false, fd }
        timer } := by
  have hready := hwf.ready w
  have hkeeps := rearm_keeps hready hrearm
  -- An entry left was waiting before, or its timer repeats
  have hfrom : ∀ w', ∀ e ∈ (update s.tm w { timers, activeTimers := [], triggering := false, fd }
        w').entries,
      ∃ e' ∈ (s.tm w').entries, e'.timer = e.timer
        ∧ ((s.timer e.timer).repeats = false → e ∈ (s.tm w').timers ∨ e ∈ (s.tm w').activeTimers)
    := by
    intro w' e he
    by_cases hw : w' = w
    . subst hw
      rw [Function.update_self, mem_entries, mem_rearm hready hrearm] at he
      simp only [List.not_mem_nil, or_false] at he
      cases he with
      | inl he => exact ⟨e, mem_entries.mpr (.inl he), rfl, fun _ => .inl he⟩
      | inr he =>
        rcases he with ⟨e', he', hrepeat, rfl⟩
        refine ⟨e', mem_entries.mpr (.inr he'), rfl, ?_⟩
        intro hr
        simp [again, hrepeat.right] at hr
    . rw [Function.update_of_ne hw] at he
      exact ⟨e, he, rfl, fun _ => mem_entries.mp he⟩
  exact {
    serial := h.serial
    small := h.small
    nodup := h.nodup
    fired := h.fired
    cancelled := h.cancelled
    waiting := by
      intro w' e he hrepeats
      simp only [(hkeeps e.timer).right.left] at hrepeats
      by_cases hw : w' = w
      . subst hw
        simp only [Function.update_self] at he
        rw [mem_rearm hready hrearm] at he
        cases he with
        | inl he => exact h.waiting w' e he hrepeats
        | inr he =>
          rcases he with ⟨e', _, hrepeat, rfl⟩
          simp [again, hrepeat.right] at hrepeats
      . simp only [Function.update_of_ne hw] at he
        exact h.waiting w' e he hrepeats
    once := by
      intro p hrepeats
      simp only [(hkeeps p).right.left] at hrepeats
      exact h.once p hrepeats
    disabled := by
      intro w' e he hcancelled
      rcases hfrom w' e he with ⟨e', he', heq, _⟩
      simp only [(hkeeps e.timer).left]
      rw [← heq] at hcancelled ⊢
      exact h.disabled w' e' he' hcancelled
    enabled := by
      intro w' e he hcancelled
      rcases hfrom w' e he with ⟨e', he', heq, _⟩
      simp only [(hkeeps e.timer).left]
      rw [← heq] at hcancelled ⊢
      exact h.enabled w' e' he' hcancelled
  }

theorem history_step (h : s.History) (hwf : s.Wellformed) (hs : Step s a t) : t.History := by
  cases hs with
  | registerFirst w addr timestamp cb interval now settime hw hmax hfresh hfirst =>
    exact history_register h hwf hmax hfresh rfl
  | registerLater w addr timestamp cb interval now settime hw hmax hfresh e he hle =>
    exact history_register h hwf hmax hfresh rfl
  | cancelNone => exact h
  | cancelDead p hp hdead =>
    apply history_cancel h hp
    . intro q
      rfl
    . intro w e he hep
      rfl
    . intro w e he hep
      exact absurd hep (hdead w e he)
  | cancel p hp =>
    apply history_cancel h hp
    . intro q
      rw [Function.update_apply]
      split
      . next hq => rw [hq]; rfl
      . rfl
    . intro w e he hep
      rw [Function.update_of_ne hep]
    . intro w e he hep
      rw [hep, Function.update_self]
      rfl
  | triggerTimer w now hw active on hactive hon =>
    have hdue : on = due s w now := by
      rw [hon, hactive, hwf.idle w hw]
      rfl
    rw [hdue, hactive]
    exact history_trigger h hwf _ _
  | resetTimer w now settime hw timer timers fd hrearm hnone hsome =>
    exact history_reset h hwf fd hrearm
  | expire w now deadline hfd hle =>
    have htimers : ∀ w', (update s.tm w { s.tm w with fd := .readable } w').timers
        = (s.tm w').timers := by
      intro w'
      by_cases hw : w' = w
      . rw [hw, Function.update_self]
      . rw [Function.update_of_ne hw]
    have hentries : ∀ w', (update s.tm w { s.tm w with fd := .readable } w').entries
        = (s.tm w').entries := by
      intro w'
      by_cases hw : w' = w
      . rw [hw, Function.update_self]
        rfl
      . rw [Function.update_of_ne hw]
    exact {
      serial := h.serial
      small := h.small
      nodup := h.nodup
      fired := h.fired
      cancelled := h.cancelled
      waiting := by simpa only [htimers] using h.waiting
      once := h.once
      disabled := by simpa only [hentries] using h.disabled
      enabled := by simpa only [hentries] using h.enabled
    }

variable [Inhabited κ]

-- Between the two loops of `triggerTimer` on worker `w`
def Between (w : Fin n) (_ : State n κ) (a : Action n κ) : Prop :=
  ∀ now settime, a ≠ .resetTimer w now settime

structure Waits (s : State n κ) (w : Fin n) (r : State n κ) : Prop where
  triggering : (r.tm w).triggering = true
  timers : (r.tm w).timers = (s.tm w).timers
  active : (r.tm w).activeTimers = (s.tm w).activeTimers
  timer : ∀ e ∈ (s.tm w).entries, (r.timer e.timer).repeats = (s.timer e.timer).repeats
    ∧ (r.timer e.timer).interval = (s.timer e.timer).interval

omit [Inhabited κ] in
theorem Waits.entries (h : Waits s w r) : (r.tm w).entries = (s.tm w).entries := by
  unfold TimerManager.entries
  rw [h.timers, h.active]

omit [Inhabited κ] in
theorem Waits.keep (h : Waits s w r) (htm : t.tm w = r.tm w)
    (htimer : ∀ e ∈ (s.tm w).entries, (t.timer e.timer).repeats = (r.timer e.timer).repeats
      ∧ (t.timer e.timer).interval = (r.timer e.timer).interval)
    : Waits s w t where
  triggering := by
    rw [htm]
    exact h.triggering
  timers := by
    rw [htm]
    exact h.timers
  active := by
    rw [htm]
    exact h.active
  timer := by
    intro e he
    rw [(htimer e he).left, (htimer e he).right]
    exact h.timer e he

omit [Inhabited κ] in
theorem waits_step (h : Waits s w r) (hwf : r.Wellformed) (hok : Between w r a) (hs : Step r a t)
    : Waits s w t := by
  have hother : ∀ {w' : Fin n} {tm' : TimerManager}, (r.tm w').triggering = false →
      update r.tm w' tm' w = r.tm w := by
    intro w' tm' hw
    rw [Function.update_of_ne]
    intro hw'
    rw [← hw', h.triggering] at hw
    contradiction
  have hregister : ∀ {addr : Nat} {fresh : Timer κ},
      (∀ w, ∀ e ∈ (r.tm w).entries, e.timer.addr ≠ addr) →
      ∀ e ∈ (s.tm w).entries, update r.timer (r.next addr) fresh e.timer = r.timer e.timer := by
    intro addr fresh hfresh e he
    rw [Function.update_of_ne]
    intro hp
    rw [← h.entries] at he
    exact hfresh w e he (congrArg TimerPtr.addr hp)
  cases hs with
  | registerFirst w' addr timestamp cb interval now settime hw hmax hfresh hfirst =>
    apply h.keep (hother hw)
    intro e he
    simp only [hregister hfresh e he, and_self]
  | registerLater w' addr timestamp cb interval now settime hw hmax hfresh e he hle =>
    apply h.keep (hother hw)
    intro e he
    simp only [hregister hfresh e he, and_self]
  | cancelNone => exact h
  | cancelDead p hp hdead => exact { h with }
  | cancel p hp =>
    refine h.keep rfl ?_
    intro e he
    simp only [Function.update_apply]
    split
    . next hep => rw [hep]; exact ⟨rfl, rfl⟩
    . exact ⟨rfl, rfl⟩
  | triggerTimer w' now hw active on hactive hon =>
    apply h.keep (hother hw)
    intro e he
    exact ⟨rfl, rfl⟩
  | resetTimer w' now settime hw timer timers fd hrearm hnone hsome =>
    have hne : w ≠ w' := by
      intro hw'
      exact hok now settime (by rw [hw'])
    have hkeeps := rearm_keeps (hwf.ready w') hrearm
    apply h.keep (Function.update_of_ne hne _ _)
    intro e he
    exact ⟨(hkeeps e.timer).right.left, (hkeeps e.timer).right.right.left⟩
  | expire w' now deadline hfd hle =>
    by_cases hw : w = w'
    . subst hw
      exact {
        triggering := by simp only [Function.update_self]; exact h.triggering
        timers := by simp only [Function.update_self]; exact h.timers
        active := by simp only [Function.update_self]; exact h.active
        timer := h.timer
      }
    . apply h.keep (Function.update_of_ne hw _ _)
      intro e he
      exact ⟨rfl, rfl⟩

end TimerManager
end Koro
