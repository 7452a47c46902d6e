import Koro.TimerManager.Step

/-!
This module contains the invariant of the entries of all `TimerManager`s: every entry has its timer's
expiration as its key, and no timer is in two entries. It rests on the addresses of timers that are
still owned being different.
-/

namespace Koro
namespace TimerManager

open Function (update)

variable {n : Nat} {κ : Type u}

def repeating (timer : TimerPtr → Timer κ) (e : Entry) : Prop :=
  (timer e.timer).on = true ∧ (timer e.timer).repeats = true

-- The entry that `resetTimer` makes of `e`
def again (timer : TimerPtr → Timer κ) (e : Entry) : Entry :=
  { e with expiration := e.expiration + (timer e.timer).interval }

section Rearm

variable {timer timer' : TimerPtr → Timer κ} {timers timers' : OrderedSet Entry.key}
  {active : List Entry}

-- What `rearm` finds: no two of the entries concern one timer, and the keys are right
structure Ready (timer : TimerPtr → Timer κ) (timers : OrderedSet Entry.key) (active : List Entry)
    : Prop where
  keyed : ∀ e ∈ active, (timer e.timer).expiration = e.expiration
  apart : active.Pairwise fun e e' => e.timer.addr ≠ e'.timer.addr
  absent : ∀ e ∈ timers, ∀ e' ∈ active, e.timer.addr ≠ e'.timer.addr

theorem mem_insert_entry {e : Entry} (h : ∀ e' ∈ timers, e'.timer.addr ≠ e.timer.addr)
    : e' ∈ timers.insert e ↔ e' = e ∨ e' ∈ timers := by
  apply OrderedSet.mem_insert
  intro c hc heq
  exact h c hc (congrArg (fun k => (ofLex k).2) heq)

theorem ready_tail (h : Ready timer timers (e :: active)) : Ready timer timers active where
  keyed := by
    intro e' he'
    exact h.keyed e' (List.mem_cons_of_mem e he')
  apart := (List.pairwise_cons.mp h.apart).right
  absent := by
    intro e' he' e'' he''
    exact h.absent e' he' e'' (List.mem_cons_of_mem e he'')

theorem timer_ne (h : Ready timer timers (e :: active)) (he' : e' ∈ active)
    : e'.timer ≠ e.timer := by
  intro heq
  apply (List.pairwise_cons.mp h.apart).left e' he'
  rw [heq]

theorem ready_again (h : Ready timer timers (e :: active))
    : Ready (update timer e.timer (timer e.timer).repeated) (timers.insert (again timer e))
        active where
  keyed := by
    intro e' he'
    rw [Function.update_of_ne (timer_ne h he')]
    exact (ready_tail h).keyed e' he'
  apart := (ready_tail h).apart
  absent := by
    have hnew : ∀ c ∈ timers, c.timer.addr ≠ (again timer e).timer.addr := by
      intro c hc
      exact h.absent c hc e List.mem_cons_self
    intro c hc e' he'
    cases (mem_insert_entry hnew).mp hc with
    | inl hc =>
      rw [hc]
      exact (List.pairwise_cons.mp h.apart).left e' he'
    | inr hc => exact h.absent c hc e' (List.mem_cons_of_mem e he')

theorem insert_again (h : Ready timer timers (e :: active))
    : (insert (update timer e.timer (timer e.timer).repeated) timers e.timer).2
        =
      timers.insert (again timer e) := by
  simp only [insert, Function.update_self, again, Timer.repeated,
    h.keyed e List.mem_cons_self]

theorem mem_rearm (h : Ready timer timers active)
    (hrearm : rearm timer timers active = (timer', timers'))
    : c ∈ timers' ↔ c ∈ timers ∨ ∃ e ∈ active, repeating timer e ∧ c = again timer e := by
  induction active generalizing timer timers with
  | nil =>
    simp only [rearm, Prod.mk.injEq] at hrearm
    simp [hrearm.right]
  | cons e active ih =>
    simp only [rearm] at hrearm
    split at hrearm
    . next hon =>
      have hsame : ∀ e' ∈ active, update timer e.timer (timer e.timer).repeated e'.timer
          = timer e'.timer := by
        intro e' he'
        rw [Function.update_of_ne (timer_ne h he')]
      have hnew : ∀ c ∈ timers, c.timer.addr ≠ (again timer e).timer.addr := by
        intro c hc
        exact h.absent c hc e List.mem_cons_self
      rw [insert_again h] at hrearm
      rw [ih (ready_again h) hrearm, mem_insert_entry hnew]
      simp only [List.mem_cons, exists_eq_or_imp]
      have hrest : (∃ e' ∈ active, repeating (update timer e.timer (timer e.timer).repeated) e'
            ∧ c = again (update timer e.timer (timer e.timer).repeated) e')
          ↔ ∃ e' ∈ active, repeating timer e' ∧ c = again timer e' := by
        apply exists_congr
        intro e'
        apply and_congr_right
        intro he'
        simp only [repeating, again, hsame e' he']
      have hthis : repeating timer e := hon
      rw [hrest]
      tauto
    . next hoff =>
      rw [ih (ready_tail h) hrearm]
      simp only [List.mem_cons, exists_eq_or_imp]
      have hthis : ¬repeating timer e := hoff
      tauto

theorem rearm_timer (h : Ready timer timers active)
    (hrearm : rearm timer timers active = (timer', timers')) (p : TimerPtr)
    : (∃ e ∈ active, e.timer = p ∧ repeating timer e ∧ timer' p = (timer p).repeated)
        ∨
      (∀ e ∈ active, e.timer = p → ¬repeating timer e) ∧ timer' p = timer p := by
  induction active generalizing timer timers with
  | nil =>
    simp only [rearm, Prod.mk.injEq] at hrearm
    simp [hrearm.left]
  | cons e active ih =>
    simp only [rearm] at hrearm
    split at hrearm
    . next hon =>
      rw [insert_again h] at hrearm
      by_cases hp : e.timer = p
      . left
        refine ⟨e, List.mem_cons_self, hp, hon, ?_⟩
        cases ih (ready_again h) hrearm with
        | inl hin =>
          rcases hin with ⟨e', he', hep, _⟩
          exact absurd (hep.trans hp.symm) (timer_ne h he')
        | inr hout => rw [hout.right, ← hp, Function.update_self]
      . have hrep : ∀ e' ∈ active,
            repeating (update timer e.timer (timer e.timer).repeated) e' ↔ repeating timer e' := by
          intro e' he'
          simp only [repeating, Function.update_of_ne (timer_ne h he')]
        have hsame : update timer e.timer (timer e.timer).repeated p = timer p := by
          rw [Function.update_of_ne (Ne.symm hp)]
        cases ih (ready_again h) hrearm with
        | inl hin =>
          rcases hin with ⟨e', he', hep, hrepeat, ht⟩
          left
          rw [hsame] at ht
          exact ⟨e', List.mem_cons_of_mem e he', hep, (hrep e' he').mp hrepeat, ht⟩
        | inr hout =>
          right
          rw [hsame] at hout
          refine ⟨?_, hout.right⟩
          intro e' he' hep
          cases List.mem_cons.mp he' with
          | inl he' => exact absurd (he' ▸ hep) hp
          | inr he' => exact fun hr => hout.left e' he' hep ((hrep e' he').mpr hr)
    . next hoff =>
      cases ih (ready_tail h) hrearm with
      | inl hin =>
        rcases hin with ⟨e', he', hrest⟩
        exact .inl ⟨e', List.mem_cons_of_mem e he', hrest⟩
      | inr hout =>
        right
        refine ⟨?_, hout.right⟩
        intro e' he' hep
        cases List.mem_cons.mp he' with
        | inl he' => rw [he']; exact hoff
        | inr he' => exact hout.left e' he' hep

end Rearm

structure Wellformed (tm : Fin n → TimerManager) (timer : TimerPtr → Timer κ)
    (registered : List TimerPtr) : Prop where
  keyed : ∀ w, ∀ e ∈ (tm w).entries, (timer e.timer).expiration = e.expiration
  apart : ∀ w w', ∀ e ∈ (tm w).entries, ∀ e' ∈ (tm w').entries,
    e.timer.addr = e'.timer.addr → w = w' ∧ e = e'
  active : ∀ w, (tm w).activeTimers.Pairwise fun e e' => e.timer.addr ≠ e'.timer.addr
  absent : ∀ w, ∀ e ∈ (tm w).timers, ∀ e' ∈ (tm w).activeTimers, e.timer.addr ≠ e'.timer.addr
  known : ∀ w, ∀ e ∈ (tm w).entries, e.timer ∈ registered
  idle : ∀ w, (tm w).triggering = false → (tm w).activeTimers = []

theorem mem_entries {tm : TimerManager} : e ∈ tm.entries ↔ e ∈ tm.timers ∨ e ∈ tm.activeTimers := by
  unfold entries
  rw [List.mem_append, OrderedSet.mem_toList]

namespace Wellformed

variable {tm : Fin n → TimerManager} {timer timer' : TimerPtr → Timer κ}
  {registered registered' : List TimerPtr} {tm' : TimerManager}

theorem ready (h : Wellformed tm timer registered) (w : Fin n)
    : Ready timer (tm w).timers (tm w).activeTimers where
  keyed := by
    intro e he
    apply h.keyed w
    rw [mem_entries]
    exact .inr he
  apart := h.active w
  absent := h.absent w

theorem same_timer (h : Wellformed tm timer registered) (he : e ∈ (tm w).entries)
    (he' : e' ∈ (tm w').entries) (heq : e.timer = e'.timer)
    : w = w' ∧ e = e' :=
  h.apart w w' e he e' he' (congrArg TimerPtr.addr heq)

-- The manager of worker `w` changes: the timers it owns were its own before, or are new
theorem change (h : Wellformed tm timer registered) (w : Fin n)
    (hother : ∀ w', w' ≠ w → ∀ e ∈ (tm w').entries,
      (timer' e.timer).expiration = (timer e.timer).expiration)
    (hkeyed : ∀ e ∈ tm'.entries, (timer' e.timer).expiration = e.expiration)
    (hown : ∀ e ∈ tm'.entries, (∃ e' ∈ (tm w).entries, e'.timer = e.timer)
      ∨ ∀ w', ∀ e' ∈ (tm w').entries, e'.timer.addr ≠ e.timer.addr)
    (hapart : ∀ e ∈ tm'.entries, ∀ e' ∈ tm'.entries, e.timer.addr = e'.timer.addr → e = e')
    (hactive : tm'.activeTimers.Pairwise fun e e' => e.timer.addr ≠ e'.timer.addr)
    (habsent : ∀ e ∈ tm'.timers, ∀ e' ∈ tm'.activeTimers, e.timer.addr ≠ e'.timer.addr)
    (hknown : ∀ e ∈ tm'.entries, e.timer ∈ registered')
    (hsubset : ∀ p ∈ registered, p ∈ registered')
    (hidle : tm'.triggering = false → tm'.activeTimers = [])
    : Wellformed (update tm w tm') timer' registered' where
  keyed := by
    intro w' e he
    by_cases hw : w' = w
    . rw [hw, Function.update_self] at he
      exact hkeyed e he
    . rw [Function.update_of_ne hw] at he
      rw [hother w' hw e he]
      exact h.keyed w' e he
  apart := by
    -- An entry of `w` and one of another worker never share an address
    have hcross : ∀ e ∈ tm'.entries, ∀ w', w' ≠ w → ∀ e' ∈ (tm w').entries,
        e.timer.addr ≠ e'.timer.addr := by
      intro e he w' hw e' he' haddr
      cases hown e he with
      | inl hold =>
        rcases hold with ⟨e₀, he₀, heq⟩
        have := h.apart w' w e' he' e₀ he₀ (by rw [heq, haddr])
        exact hw this.left
      | inr hnew => exact hnew w' e' he' haddr.symm
    intro w₁ w₂ e₁ he₁ e₂ he₂ haddr
    by_cases hw₁ : w₁ = w
    . rw [hw₁, Function.update_self] at he₁
      by_cases hw₂ : w₂ = w
      . rw [hw₂, Function.update_self] at he₂
        exact ⟨hw₁.trans hw₂.symm, hapart e₁ he₁ e₂ he₂ haddr⟩
      . rw [Function.update_of_ne hw₂] at he₂
        exact absurd haddr (hcross e₁ he₁ w₂ hw₂ e₂ he₂)
    . rw [Function.update_of_ne hw₁] at he₁
      by_cases hw₂ : w₂ = w
      . rw [hw₂, Function.update_self] at he₂
        exact absurd haddr.symm (hcross e₂ he₂ w₁ hw₁ e₁ he₁)
      . rw [Function.update_of_ne hw₂] at he₂
        exact h.apart w₁ w₂ e₁ he₁ e₂ he₂ haddr
  active := by
    intro w'
    by_cases hw : w' = w
    . rw [hw, Function.update_self]
      exact hactive
    . rw [Function.update_of_ne hw]
      exact h.active w'
  absent := by
    intro w'
    by_cases hw : w' = w
    . rw [hw, Function.update_self]
      exact habsent
    . rw [Function.update_of_ne hw]
      exact h.absent w'
  known := by
    intro w' e he
    by_cases hw : w' = w
    . rw [hw, Function.update_self] at he
      exact hknown e he
    . rw [Function.update_of_ne hw] at he
      exact hsubset _ (h.known w' e he)
  idle := by
    intro w'
    by_cases hw : w' = w
    . rw [hw, Function.update_self]
      exact hidle
    . rw [Function.update_of_ne hw]
      exact h.idle w'

theorem set_timer (h : Wellformed tm timer registered)
    (htimer : ∀ p, (timer' p).expiration = (timer p).expiration)
    : Wellformed tm timer' registered where
  keyed := by
    intro w e he
    rw [htimer]
    exact h.keyed w e he
  apart := h.apart
  active := h.active
  absent := h.absent
  known := h.known
  idle := h.idle

theorem set_fd (h : Wellformed tm timer registered) (w : Fin n) (fd : TimerFd)
    : Wellformed (update tm w { tm w with fd }) timer registered := by
  apply h.change w
  . intro _ _ _ _
    rfl
  . exact h.keyed w
  . intro e he
    exact .inl ⟨e, he, rfl⟩
  . intro e he e' he' haddr
    exact (h.apart w w e he e' he' haddr).right
  . exact h.active w
  . exact h.absent w
  . exact h.known w
  . intro p hp
    exact hp
  . exact h.idle w

theorem register (h : Wellformed tm timer registered) (w : Fin n) (p : TimerPtr)
    (fresh : Timer κ) (fd : TimerFd) (hw : (tm w).triggering = false)
    (hfresh : ∀ w, ∀ e ∈ (tm w).entries, e.timer.addr ≠ p.addr)
    : Wellformed
        (update tm w { tm w with timers := (tm w).timers.insert ⟨fresh.expiration, p⟩, fd })
        (update timer p fresh) (registered ++ [p]) := by
  have hold : ∀ w, ∀ e ∈ (tm w).entries, update timer p fresh e.timer = timer e.timer := by
    intro w e he
    rw [Function.update_of_ne]
    intro hp
    exact hfresh w e he (congrArg TimerPtr.addr hp)
  have hactive : (tm w).activeTimers = [] := h.idle w hw
  have hmem : ∀ e, e ∈ (tm w).timers.insert ⟨fresh.expiration, p⟩
      ↔ e = ⟨fresh.expiration, p⟩ ∨ e ∈ (tm w).entries := by
    intro e
    rw [mem_insert_entry]
    . simp [mem_entries, hactive]
    . intro e' he'
      apply hfresh w e'
      rw [mem_entries]
      exact .inl he'
  have hentries : ∀ e, e ∈ TimerManager.entries
        { tm w with timers := (tm w).timers.insert ⟨fresh.expiration, p⟩, fd }
      ↔ e = ⟨fresh.expiration, p⟩ ∨ e ∈ (tm w).entries := by
    intro e
    simp [mem_entries, hmem, hactive]
  apply h.change w
  . intro w' _ e he
    rw [hold w' e he]
  . intro e he
    cases (hentries e).mp he with
    | inl he => simp [he]
    | inr he => rw [hold w e he]; exact h.keyed w e he
  . intro e he
    cases (hentries e).mp he with
    | inl he => rw [he]; exact .inr hfresh
    | inr he => exact .inl ⟨e, he, rfl⟩
  . intro e he e' he' haddr
    cases (hentries e).mp he with
    | inl he =>
      cases (hentries e').mp he' with
      | inl he' => rw [he, he']
      | inr he' => rw [he] at haddr; exact absurd haddr.symm (hfresh w e' he')
    | inr he =>
      cases (hentries e').mp he' with
      | inl he' => rw [he'] at haddr; exact absurd haddr (hfresh w e he)
      | inr he' => exact (h.apart w w e he e' he' haddr).right
  . exact h.active w
  . simp [hactive]
  . intro e he
    cases (hentries e).mp he with
    | inl he => simp [he]
    | inr he => exact List.mem_append_left _ (h.known w e he)
  . intro q hq
    exact List.mem_append_left _ hq
  . exact h.idle w

theorem trigger (h : Wellformed tm timer registered) (w : Fin n) (k : Int ×ₗ Nat) (fd : TimerFd)
    (hw : (tm w).triggering = false)
    : Wellformed
        (update tm w {
          timers := (tm w).timers.eraseUpTo k
          activeTimers := (tm w).activeTimers ++ (tm w).timers.upTo k
          triggering := true
          fd })
        timer registered := by
  have hactive : (tm w).activeTimers = [] := h.idle w hw
  have hentries : ∀ e, e ∈ TimerManager.entries {
        timers := (tm w).timers.eraseUpTo k
        activeTimers := (tm w).activeTimers ++ (tm w).timers.upTo k
        triggering := true
        fd } ↔ e ∈ (tm w).entries := by
    intro e
    have hcut : e ∈ (tm w).timers ↔ e ∈ (tm w).timers.upTo k ∨ e ∈ (tm w).timers.eraseUpTo k :=
      OrderedSet.mem_iff_upTo_or_eraseUpTo
    simp only [mem_entries, hactive, List.nil_append, List.not_mem_nil, or_false, hcut]
    apply or_comm
  have hmem : ∀ e, e ∈ (tm w).timers → e ∈ (tm w).entries := by
    intro e he
    rw [mem_entries]
    exact .inl he
  apply h.change w
  . intro _ _ _ _
    rfl
  . intro e he
    exact h.keyed w e ((hentries e).mp he)
  . intro e he
    exact .inl ⟨e, (hentries e).mp he, rfl⟩
  . intro e he e' he' haddr
    exact (h.apart w w e ((hentries e).mp he) e' ((hentries e').mp he') haddr).right
  . simp only [hactive, List.nil_append]
    have hsorted := OrderedSet.sorted_upTo (s := (tm w).timers) (k := k)
    apply hsorted.imp_of_mem
    intro e e' he he' hlt haddr
    have heq := (h.apart w w e (hmem e (OrderedSet.mem_upTo.mp he).left) e'
      (hmem e' (OrderedSet.mem_upTo.mp he').left) haddr).right
    rw [heq] at hlt
    exact lt_irrefl _ hlt
  . simp only [hactive, List.nil_append]
    intro e he e' he' haddr
    rw [OrderedSet.mem_eraseUpTo] at he
    rw [OrderedSet.mem_upTo] at he'
    have heq := (h.apart w w e (hmem e he.left) e' (hmem e' he'.left) haddr).right
    rw [heq] at he
    exact absurd he'.right (not_le_of_gt he.right)
  . intro e he
    exact h.known w e ((hentries e).mp he)
  . intro p hp
    exact hp
  . simp

theorem reset (h : Wellformed tm timer registered) (w : Fin n) (fd : TimerFd)
    (hrearm : rearm timer (tm w).timers (tm w).activeTimers = (timer', timers'))
    : Wellformed
        (update tm w { timers := timers', activeTimers := [], triggering := false, fd })
        timer' registered := by
  have hready := h.ready w
  have htimers : ∀ e ∈ (tm w).timers, e ∈ (tm w).entries := by
    intro e he
    rw [mem_entries]
    exact .inl he
  have hactive : ∀ e ∈ (tm w).activeTimers, e ∈ (tm w).entries := by
    intro e he
    rw [mem_entries]
    exact .inr he
  have hentries : ∀ e, e ∈ TimerManager.entries
        { timers := timers', activeTimers := [], triggering := false, fd }
      ↔ e ∈ (tm w).timers ∨ ∃ e' ∈ (tm w).activeTimers, repeating timer e' ∧ e = again timer e' := by
    intro e
    rw [mem_entries]
    simp [mem_rearm hready hrearm]
  -- Every entry left comes from one that was there before, for the same timer
  have hfrom : ∀ e, e ∈ TimerManager.entries
        { timers := timers', activeTimers := [], triggering := false, fd } →
      ∃ e' ∈ (tm w).entries, e'.timer = e.timer := by
    intro e he
    cases (hentries e).mp he with
    | inl he => exact ⟨e, htimers e he, rfl⟩
    | inr he =>
      rcases he with ⟨e', he', _, rfl⟩
      exact ⟨e', hactive e' he', rfl⟩
  apply h.change w
  . intro w' hw e he
    cases rearm_timer hready hrearm e.timer with
    | inl hin =>
      rcases hin with ⟨e', he', heq, _⟩
      exact absurd (h.same_timer (hactive e' he') he heq).left.symm hw
    | inr hout => rw [hout.right]
  . intro e he
    cases (hentries e).mp he with
    | inl he =>
      cases rearm_timer hready hrearm e.timer with
      | inl hin =>
        rcases hin with ⟨e', he', heq, _⟩
        exact absurd (congrArg TimerPtr.addr heq.symm) (h.absent w e he e' he')
      | inr hout => rw [hout.right]; exact h.keyed w e (htimers e he)
    | inr he =>
      rcases he with ⟨e', he', hrepeat, rfl⟩
      cases rearm_timer hready hrearm e'.timer with
      | inl hin =>
        rcases hin with ⟨_, _, _, _, ht⟩
        simp [again, ht, Timer.repeated, hready.keyed e' he']
      | inr hout => exact absurd hrepeat (hout.left e' he' rfl)
  . intro e he
    exact .inl (hfrom e he)
  . intro e he e' he' haddr
    cases (hentries e).mp he with
    | inl he =>
      cases (hentries e').mp he' with
      | inl he' => exact (h.apart w w e (htimers e he) e' (htimers e' he') haddr).right
      | inr he' =>
        rcases he' with ⟨e'', he'', _, rfl⟩
        exact absurd haddr (h.absent w e he e'' he'')
    | inr he =>
      rcases he with ⟨e₁, he₁, _, rfl⟩
      cases (hentries e').mp he' with
      | inl he' => exact absurd haddr.symm (h.absent w e' he' e₁ he₁)
      | inr he' =>
        rcases he' with ⟨e₂, he₂, _, rfl⟩
        have := (h.apart w w e₁ (hactive e₁ he₁) e₂ (hactive e₂ he₂) haddr).right
        rw [this]
  . exact List.Pairwise.nil
  . simp
  . intro e he
    rcases hfrom e he with ⟨e', he', heq⟩
    rw [← heq]
    exact h.known w e' he'
  . intro p hp
    exact hp
  . simp

end Wellformed

def State.Wellformed (s : State n κ) : Prop :=
  TimerManager.Wellformed s.tm s.timer s.registered

variable {s t : State n κ}

theorem wellformed_start [Inhabited κ] : (State.start n κ).Wellformed where
  keyed := by simp [State.start, TimerManager.new, entries, OrderedSet.empty]
  apart := by simp [State.start, TimerManager.new, entries, OrderedSet.empty]
  active := by simp [State.start, TimerManager.new]
  absent := by simp [State.start, TimerManager.new]
  known := by simp [State.start, TimerManager.new, entries, OrderedSet.empty]
  idle := by simp [State.start, TimerManager.new]

theorem wellformed_step (h : s.Wellformed) (hs : Step s a t) : t.Wellformed := by
  unfold State.Wellformed at *
  cases hs with
  | registerFirst w addr timestamp cb interval now settime hw hmax hfresh hfirst =>
    exact h.register w (s.next addr) ((Timer.new timestamp cb interval).enable true) _ hw hfresh
  | registerLater w addr timestamp cb interval now settime hw hmax hfresh e he hle =>
    exact h.register w (s.next addr) ((Timer.new timestamp cb interval).enable true) _ hw hfresh
  | cancelNone => exact h
  | cancelDead p hp hdead => exact h
  | cancel p hp =>
    apply h.set_timer
    intro q
    simp only [Function.update_apply]
    split
    . next hq => rw [hq]; rfl
    . rfl
  | triggerTimer w now hw active on hactive hon =>
    rw [hactive]
    exact h.trigger w _ _ hw
  | resetTimer w now settime hw timer timers fd hrearm hnone hsome => exact h.reset w fd hrearm
  | expire w now deadline hfd hle => exact h.set_fd w .readable

end TimerManager
end Koro
