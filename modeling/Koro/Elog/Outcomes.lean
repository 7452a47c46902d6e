import Koro.Elog.Lifetime
import Koro.Machine.Tally

/-!
This module contains what becomes of the statements that are executed while threads turn the asynchronous
logging on and off. Each comes to one end, all are printed before and after the life of the logging, and
one is lost just if it is on its way to the logger when that is destroyed.
-/

namespace Koro
namespace Elog
namespace Lifetime

open Function (update)

variable {n : Nat} {s t : State n} {act : Action n}

-- The statement that a thread is about to put somewhere
def Pc.statement : Pc → Option StatementId
  | .print m => some m
  | .append m => some m
  | .push m => some m
  | .pushing m => some m
  | _ => none

-- It is on its way to the logger
def Pc.async : Pc → Bool
  | .append _ => true
  | .push _ => true
  | .pushing _ => true
  | _ => false

def Pc.puts (m : StatementId) (pc : Pc) : Bool :=
  pc.statement = some m

def State.places (s : State n) (m : StatementId) : Nat :=
  (s.outcomes.map Prod.fst).count m + ∑ i, ((s.thread i).puts m).toNat

def State.Kept (s : State n) : Prop :=
  ∀ m, s.places m = if m < s.statements then 1 else 0

theorem places_goto (s : State n) (m : StatementId) (hpc : pc.statement = (s.thread i).statement)
    : (s.goto i pc).places m = s.places m := by
  have hsame : (pc.puts m).toNat = ((s.thread i).puts m).toNat := by
    rw [Pc.puts, Pc.puts, hpc]
  have hsum : ∑ j, ((update s.thread i pc j).puts m).toNat = ∑ j, ((s.thread j).puts m).toNat :=
    Tally.sum_update_of_eq (w := fun pc : Pc => (pc.puts m).toNat) hsame
  exact congrArg ((s.outcomes.map Prod.fst).count m + ·) hsum

theorem places_begin (s : State n) (m : StatementId) (hi : (s.thread i).statement = none)
    (hpc : pc.statement = some k)
    : (s.goto i pc).places m = s.places m + (decide (k = m)).toNat := by
  have hsum := Tally.sum_update (fun pc : Pc => (pc.puts m).toNat) s.thread i pc
  have hout : (s.thread i).puts m = false := by simp [Pc.puts, hi]
  have hin : pc.puts m = decide (k = m) := by simp [Pc.puts, hpc]
  rw [hout, hin, Bool.toNat_false, Nat.add_zero] at hsum
  show (s.outcomes.map Prod.fst).count m + ∑ j, ((update s.thread i pc j).puts m).toNat = _
  rw [hsum, ← Nat.add_assoc]
  rfl

theorem places_ends (s : State n) (m : StatementId) (hi : (s.thread i).statement = some k)
    : (s.ends i k outcome).places m = s.places m := by
  have hsum := Tally.sum_update (fun pc : Pc => (pc.puts m).toNat) s.thread i .out
  have hin : (s.thread i).puts m = decide (k = m) := by simp [Pc.puts, hi]
  have hout : Pc.out.puts m = false := rfl
  have hcount : (s.outcomes.map Prod.fst ++ [k]).count m
      = (s.outcomes.map Prod.fst).count m + (decide (k = m)).toNat := by
    rw [List.count_append, List.count_singleton]
    by_cases hk : k = m <;> simp [hk]
  rw [hin, hout, Bool.toNat_false, Nat.add_zero] at hsum
  show ((s.outcomes ++ [(k, outcome)]).map Prod.fst).count m
    + ∑ j, ((update s.thread i .out j).puts m).toNat = _
  rw [List.map_append, List.map_cons, List.map_nil, hcount, State.places]
  omega

theorem kept_step (h : s.Kept) (hs : Step s act t) : t.Kept := by
  intro m
  have hm := h m
  have hgoto : ∀ i pc, pc.statement = (s.thread i).statement → t.places m = (s.goto i pc).places m →
      t.statements = s.statements → t.places m = if m < t.statements then 1 else 0 := by
    intro i pc hpc hplaces hstatements
    rw [hplaces, places_goto s m hpc, hstatements, hm]
  have hbegin : ∀ {i pc}, s.thread i = .out → pc.statement = some s.statements →
      t.places m = (s.goto i pc).places m → t.statements = s.statements + 1 →
      t.places m = if m < t.statements then 1 else 0 := by
    intro i pc hi hpc hplaces hstatements
    rw [hplaces, places_begin s m (by rw [hi]; rfl) hpc, hstatements, hm]
    by_cases heq : s.statements = m
    . simp [heq]
    . have hlt : (m < s.statements + 1) = (m < s.statements) :=
        propext ⟨fun h => Nat.lt_of_le_of_ne (Nat.le_of_lt_succ h) (Ne.symm heq), Nat.lt_succ_of_lt⟩
      simp [heq, hlt]
  have hends : ∀ {i k outcome}, (s.thread i).statement = some k →
      (s.ends i k outcome).places m = if m < s.statements then 1 else 0 := by
    intro i k outcome hi
    rw [places_ends s m hi, hm]
  cases hs with
  | initSeen i hi hseen => exact hm
  | shutdownSeen i hi hseen => exact hm
  | logConsole i hi hseen => exact hbegin hi rfl rfl rfl
  | logAsync i hi hseen => exact hbegin hi rfl rfl rfl
  | print i k hi => exact hends (by rw [hi]; rfl)
  | drop i k hi hseen => exact hends (by rw [hi]; rfl)
  | pushNull i k hi hlogging => exact hends (by rw [hi]; rfl)
  | pushed i k hi hlogging => exact hends (by rw [hi]; rfl)
  | pushGone i k hi hlogging => exact hends (by rw [hi]; rfl)
  | init i hi => exact hgoto i .initOnce (by rw [hi]; rfl) rfl rfl
  | shutdown i hi => exact hgoto i .shutdownOnce (by rw [hi]; rfl) rfl rfl
  | initFirst i hi hflag => exact hgoto i .make (by rw [hi]; rfl) rfl rfl
  | initAgain i hi hflag => exact hgoto i .out (by rw [hi]; rfl) rfl rfl
  | make i hi => exact hgoto i .enable (by rw [hi]; rfl) rfl rfl
  | enable i hi => exact hgoto i .out (by rw [hi]; rfl) rfl rfl
  | shutdownFirst i hi hflag => exact hgoto i .reset (by rw [hi]; rfl) rfl rfl
  | shutdownAgain i hi hflag => exact hgoto i .out (by rw [hi]; rfl) rfl rfl
  | reset i hi => exact hgoto i .disable (by rw [hi]; rfl) rfl rfl
  | disable i hi => exact hgoto i .out (by rw [hi]; rfl) rfl rfl
  | append i k hi hseen => exact hgoto i (.push k) (by rw [hi]; rfl) rfl rfl
  | push i k hi hlogging => exact hgoto i (.pushing k) (by rw [hi]; rfl) rfl rfl

theorem kept_start : (State.start n).Kept := by
  intro m
  simp [State.places, State.start, Pc.puts, Pc.statement]

-- `shutdownAsyncLogging` has destroyed the logger
def State.gone (s : State n) : Bool :=
  s.shutdownFlag ≠ .fresh && !s.hasLogging

/--
No statement is on its way to the logger when `async_logging_` is reset, and none looks at
`async_enabled_` between that and the store that follows.
-/
def Quiet (s : State n) : Action n → Prop
  | .next i => s.thread i = .reset → ∀ j, (s.thread j).async = false
  | .log _ => s.asyncEnabled = true → s.hasLogging = true
  | _ => True

instance (s : State n) (act : Action n) : Decidable (Quiet s act) :=
  match act with
  | .next i => inferInstanceAs (Decidable (s.thread i = .reset → ∀ j, (s.thread j).async = false))
  | .log _ => inferInstanceAs (Decidable (s.asyncEnabled = true → s.hasLogging = true))
  | .initAsyncLogging _ => isTrue trivial
  | .shutdownAsyncLogging _ => isTrue trivial

theorem reachable_kept (h : (machine n).Reachable s) : s.Kept := by
  apply h.invariant
  . intro s hs
    rw [hs]
    exact kept_start
  . intro s act t hs _ hat
    exact kept_step hs (Step.of_step hat)

theorem State.Kept.lt_of_places (h : s.Kept) (hpos : 0 < s.places m) : m < s.statements := by
  rw [h m] at hpos
  split at hpos
  . assumption
  . cases hpos

theorem places_of_outcome (h : x ∈ s.outcomes) : 0 < s.places x.1 := by
  apply Nat.add_pos_left
  rw [List.count_pos_iff]
  exact List.mem_map_of_mem h

theorem places_of_thread (h : (s.thread i).statement = some m) : 0 < s.places m := by
  apply Nat.add_pos_right
  exact Tally.flag_pos (b := fun j => (s.thread j).puts m) (i := i) (by simp [Pc.puts, h])

-- Until the logging is on, everything is printed
def State.Early (s : State n) : Prop :=
  s.phase.rank < Phase.on.rank → ∀ x ∈ s.outcomes, x.2 = .printed

theorem early_step (h : s.Lives) (hearly : s.Early) (hs : Step s act t) : t.Early := by
  intro hlt
  have hlt' := Nat.lt_of_le_of_lt (rank_step h hs) hlt
  have hall := hearly hlt'
  have hasync : ∀ {i pc}, s.thread i = pc → ¬Phase.on.rank ≤ s.phase.rank :=
    fun _ => Nat.not_le.mpr hlt'
  have hends : ∀ {m}, ∀ x ∈ s.outcomes ++ [(m, Outcome.printed)], x.2 = .printed := by
    intro m x hx
    rw [List.mem_append, List.mem_singleton] at hx
    rcases hx with hx | rfl
    . exact hall x hx
    . rfl
  cases hs with
  | print i m hi => exact hends
  | drop i m hi hseen => exact absurd (h.allows hi) (hasync hi)
  | pushNull i m hi hlogging => exact absurd (h.allows hi) (hasync hi)
  | pushed i m hi hlogging => exact absurd (h.allows hi) (hasync hi)
  | pushGone i m hi hlogging => exact absurd (h.allows hi) (hasync hi)
  | _ => exact hall

-- Once it is off, statement `k` and those after it are printed
structure State.Late (s : State n) (k : StatementId) : Prop where
  phase : s.phase = .off
  le : k ≤ s.statements
  thread : ∀ i m, (s.thread i).statement = some m → k ≤ m → s.thread i = .print m
  outcomes : ∀ x ∈ s.outcomes, k ≤ x.1 → x.2 = .printed

theorem statements_step (hs : Step s act t) : s.statements ≤ t.statements := by
  cases hs <;> first | exact Nat.le_refl _ | exact Nat.le_succ _

theorem late_step (h : s.Lives) (hlate : s.Late k) (hs : Step s act t) : t.Late k where
  phase := by
    have hnext := (lives_step h hs).right
    rw [hlate.phase] at hnext
    rcases hnext with hsame | hnext
    . exact hsame
    . cases hnext
  le := Nat.le_trans hlate.le (statements_step hs)
  thread := by
    intro j m hj hk
    have hold := hlate.thread
    have henabled : s.asyncEnabled = false := (h.at_phase hlate.phase).asyncEnabled
    cases hs <;> grind [Function.update_apply, Pc.statement]
  outcomes := by
    intro x hx hk
    have hends : ∀ {i m outcome}, s.thread i ≠ .print m ∨ outcome = .printed →
        (s.thread i).statement = some m → x ∈ s.outcomes ++ [(m, outcome)] → x.2 = .printed := by
      intro i m outcome hprint hi hmem
      rw [List.mem_append, List.mem_singleton] at hmem
      rcases hmem with hmem | rfl
      . exact hlate.outcomes x hmem hk
      . rcases hprint with hne | rfl
        . exact absurd (hlate.thread i m hi hk) hne
        . rfl
    cases hs with
    | print i m hi => exact hends (.inr rfl) (by rw [hi]; rfl) hx
    | drop i m hi hseen => exact hends (i := i) (.inl (by simp [hi])) (by rw [hi]; rfl) hx
    | pushNull i m hi hlogging => exact hends (i := i) (.inl (by simp [hi])) (by rw [hi]; rfl) hx
    | pushed i m hi hlogging => exact hends (i := i) (.inl (by simp [hi])) (by rw [hi]; rfl) hx
    | pushGone i m hi hlogging => exact hends (i := i) (.inl (by simp [hi])) (by rw [hi]; rfl) hx
    | _ => exact hlate.outcomes x hx hk

theorem late_of_done (h : (machine n).Reachable s) (hdone : s.shutdownFlag = .done)
    : s.Late s.statements := by
  have hlives := reachable_lives h
  have hkept := reachable_kept h
  refine ⟨?_, Nat.le_refl _, ?_, ?_⟩
  . have hflag := hlives.here.shutdownFlag
    rw [hdone] at hflag
    cases hp : s.phase <;> rw [hp] at hflag <;> first | rfl | cases hflag
  . intro i m hi hle
    exact absurd (hkept.lt_of_places (places_of_thread hi)) (Nat.not_lt.mpr hle)
  . intro x hx hle
    exact absurd (hkept.lt_of_places (places_of_outcome hx)) (Nat.not_lt.mpr hle)

/--
The asynchronous logging has one life: in every run its phases follow one another, it is made once at most,
and everything is printed before it is on. Once a call of `shutdownAsyncLogging` is through it stays off,
whoever calls `initAsyncLogging`, and every statement begun from then on is printed.
-/
theorem one_life (as : List (Action n)) (h : (machine n).Reachable s)
    (hexec : (machine n).exec s as = some t)
    : s.phase.rank ≤ t.phase.rank ∧ t.made ≤ 1
        ∧
      (t.phase.rank < Phase.on.rank → ∀ x ∈ t.outcomes, x.2 = .printed)
        ∧
      (s.shutdownFlag = .done →
        t.asyncEnabled = false ∧ t.hasLogging = false
          ∧
        ∀ x ∈ t.outcomes, s.statements ≤ x.1 → x.2 = .printed) := by
  have hsteps := Machine.Steps.of_exec as hexec (Machine.Meets.of_forall as fun _ _ _ => trivial)
  have hreach : (machine n).Reachable t := h.steps hsteps
  have hlives := reachable_lives hreach
  refine ⟨?_, ?_, ?_, ?_⟩
  . have hrank : (machine n).Reachable t ∧ s.phase.rank ≤ t.phase.rank := by
      apply hsteps.keeps
      . exact ⟨h, Nat.le_refl _⟩
      . rintro r act r' ⟨hr, hle⟩ hok hat
        exact ⟨hr.tail hok hat, Nat.le_trans hle (rank_step (reachable_lives hr) (Step.of_step hat))⟩
    exact hrank.right
  . rw [hlives.here.made]
    cases t.phase <;> decide
  . have hearly : t.Early := by
      apply hreach.invariant_with (J := State.Lives)
      . intro r hr
        exact reachable_lives hr
      . intro r hr
        rw [hr]
        intro _ x hx
        cases hx
      . intro r act r' hr hearly _ hat
        exact early_step hr hearly (Step.of_step hat)
    exact hearly
  . intro hdone
    have hlate : (machine n).Reachable t ∧ t.Late s.statements := by
      apply hsteps.keeps
      . exact ⟨h, late_of_done h hdone⟩
      . rintro r act r' ⟨hr, hlate⟩ hok hat
        exact ⟨hr.tail hok hat, late_step (reachable_lives hr) hlate (Step.of_step hat)⟩
    have hoff := hlives.at_phase hlate.right.phase
    exact ⟨hoff.asyncEnabled, hoff.hasLogging, hlate.right.outcomes⟩

def turnOn (i : Fin n) : List (Action n) :=
  .initAsyncLogging i :: List.replicate 3 (.next i)

def turnOff (i : Fin n) : List (Action n) :=
  .shutdownAsyncLogging i :: List.replicate 3 (.next i)

-- What is logged before, while and after the logging is on
def onAndOff : List (Action 2) :=
  ([.log 1, .next 1] : List (Action 2)) ++ turnOn 0 ++ (.log 1 :: List.replicate 3 (.next 1))
    ++ turnOff 0

def onAgain : List (Action 2) :=
  [.initAsyncLogging 1, .next 1, .log 1, .next 1]

theorem one_life_onAgain
    : ∃ s t,
        (machine 2).exec (State.start 2) onAndOff = some s ∧ s.outcomes = [(0, .printed), (1, .pushed)]
          ∧
        s.shutdownFlag = .done ∧ (machine 2).exec s onAgain = some t ∧ t.statements = 3
          ∧
        s.phase.rank ≤ t.phase.rank ∧ t.made ≤ 1
          ∧
        (t.phase.rank < Phase.on.rank → ∀ x ∈ t.outcomes, x.2 = .printed)
          ∧
        (s.shutdownFlag = .done →
          t.asyncEnabled = false ∧ t.hasLogging = false
            ∧
          ∀ x ∈ t.outcomes, s.statements ≤ x.1 → x.2 = .printed) := by
  have h : ((machine 2).exec (State.start 2) onAndOff).any (fun s =>
      s.outcomes = [(0, .printed), (1, .pushed)] ∧ s.shutdownFlag = .done
        ∧ ((machine 2).exec s onAgain).any (fun t => t.statements = 3) = true) = true := by
    decide +kernel
  simp only [Option.any_eq_true, decide_eq_true_eq] at h
  rcases h with ⟨s, hexec, houtcomes, hdone, t, hexec', hstatements⟩
  refine ⟨s, t, hexec, houtcomes, hdone, hexec', hstatements, ?_⟩
  exact one_life onAgain (Machine.Reachable.of_exec _ rfl hexec) hexec'

-- A statement that begins between `reset` and the store that follows
example
    : ((machine 2).exec (State.start 2)
        (turnOn 0 ++ (turnOff 0).take 3 ++ ([.log 1, .next 1, .next 1] : List (Action 2)))).map
        (fun t => t.outcomes) = some [(0, .undefined)] := by
  decide +kernel

end Lifetime
end Elog
end Koro
