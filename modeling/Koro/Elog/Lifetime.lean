import Koro.Machine.Basic
import Mathlib.Data.Fintype.Basic
import Mathlib.Logic.Function.Basic

/-!
This module contains how long the asynchronous logging lives while `n` threads log, turn it on and turn it
off, one load, store or section of `std::call_once` at a time.

`Pc` is the place of a thread, named by what it does next. `initOnce` and `shutdownOnce` are in
`call_once`, `make` and `enable` in what `initAsyncLogging` has called there, `reset` and `disable` in what
`shutdownAsyncLogging` has. `print`, `append`, `push` and `pushing` are in the destructor of a `LogStream`
that has been given something: at its `std::cout`, before the second look at `async_enabled_`, before
`async_logging_` is read, and in `pushMessage`. `hasLogging` says that `async_logging_` is not null.
`call_once` marks its flag along with the last step of what it has called.

Statements are named by the number of statements before them. What has become of a statement is kept in
`outcomes`; the code keeps neither this nor the number of loggers `made`. In `undefined` it has used a
logger that is not there, or has been destroyed meanwhile.
-/

namespace Koro
namespace Elog
namespace Lifetime

open Function (update)

abbrev StatementId := Nat

-- `std::once_flag`
inductive Once where
  | fresh
  | running
  | done
  deriving DecidableEq, Repr

inductive Outcome where
  | printed
  | pushed
  | dropped
  | undefined
  deriving DecidableEq, Repr

inductive Pc where
  | out
  | initOnce
  | make
  | enable
  | shutdownOnce
  | reset
  | disable
  | print (m : StatementId)
  | append (m : StatementId)
  | push (m : StatementId)
  | pushing (m : StatementId)
  deriving DecidableEq, Repr

structure State (n : Nat) where
  asyncEnabled : Bool
  hasLogging : Bool
  initFlag : Once
  shutdownFlag : Once
  thread : Fin n → Pc
  made : Nat
  statements : Nat
  outcomes : List (StatementId × Outcome)

def State.start (n : Nat) : State n where
  asyncEnabled := false
  hasLogging := false
  initFlag := .fresh
  shutdownFlag := .fresh
  thread := fun _ => .out
  made := 0
  statements := 0
  outcomes := []

namespace State

variable {n : Nat}

def goto (s : State n) (i : Fin n) (pc : Pc) : State n :=
  { s with thread := update s.thread i pc }

-- The statement of thread `i` is over
def ends (s : State n) (i : Fin n) (m : StatementId) (outcome : Outcome) : State n :=
  { s.goto i .out with outcomes := s.outcomes ++ [(m, outcome)] }

def initAsyncLogging (s : State n) (i : Fin n) : State n :=
  if s.asyncEnabled then s else s.goto i .initOnce

def shutdownAsyncLogging (s : State n) (i : Fin n) : State n :=
  if !s.asyncEnabled then s else s.goto i .shutdownOnce

-- The destructor of a `LogStream`, up to its look at `async_enabled_`
def log (s : State n) (i : Fin n) : State n :=
  let m := s.statements
  { s.goto i (if s.asyncEnabled then .append m else .print m) with statements := m + 1 }

-- The next step of a thread that is in one of the functions
def next (s : State n) (i : Fin n) : Option (State n) :=
  match s.thread i with
  | .out => none
  | .initOnce =>
    match s.initFlag with
    | .fresh => some { s.goto i .make with initFlag := .running }
    | .running => none
    | .done => some (s.goto i .out)
  | .make => some { s.goto i .enable with hasLogging := true, made := s.made + 1 }
  | .enable => some { s.goto i .out with asyncEnabled := true, initFlag := .done }
  | .shutdownOnce =>
    match s.shutdownFlag with
    | .fresh => some { s.goto i .reset with shutdownFlag := .running }
    | .running => none
    | .done => some (s.goto i .out)
  | .reset => some { s.goto i .disable with hasLogging := false }
  | .disable => some { s.goto i .out with asyncEnabled := false, shutdownFlag := .done }
  | .print m => some (s.ends i m .printed)
  | .append m => some (if !s.asyncEnabled then s.ends i m .dropped else s.goto i (.push m))
  | .push m => some (if s.hasLogging then s.goto i (.pushing m) else s.ends i m .undefined)
  | .pushing m => some (s.ends i m (if s.hasLogging then .pushed else .undefined))

end State

inductive Action (n : Nat) where
  | initAsyncLogging (i : Fin n)
  | shutdownAsyncLogging (i : Fin n)
  | log (i : Fin n)
  | next (i : Fin n)
  deriving DecidableEq, Repr

variable {n : Nat} {s t : State n} {act : Action n}

def step (s : State n) : Action n → Option (State n)
  | .initAsyncLogging i => if s.thread i = .out then some (s.initAsyncLogging i) else none
  | .shutdownAsyncLogging i => if s.thread i = .out then some (s.shutdownAsyncLogging i) else none
  | .log i => if s.thread i = .out then some (s.log i) else none
  | .next i => s.next i

def machine (n : Nat) : Machine (State n) (Action n) where
  init s := s = State.start n
  step := step

-- What a step does, by the place of the thread that takes it
inductive Step (s : State n) : Action n → State n → Prop where
  | initSeen (i : Fin n) (hi : s.thread i = .out) (h : s.asyncEnabled = true)
    : Step s (.initAsyncLogging i) s
  | init (i : Fin n) (hi : s.thread i = .out) (h : s.asyncEnabled = false)
    : Step s (.initAsyncLogging i) (s.goto i .initOnce)
  | shutdownSeen (i : Fin n) (hi : s.thread i = .out) (h : s.asyncEnabled = false)
    : Step s (.shutdownAsyncLogging i) s
  | shutdown (i : Fin n) (hi : s.thread i = .out) (h : s.asyncEnabled = true)
    : Step s (.shutdownAsyncLogging i) (s.goto i .shutdownOnce)
  | logConsole (i : Fin n) (hi : s.thread i = .out) (h : s.asyncEnabled = false)
    : Step s (.log i) { s.goto i (.print s.statements) with statements := s.statements + 1 }
  | logAsync (i : Fin n) (hi : s.thread i = .out) (h : s.asyncEnabled = true)
    : Step s (.log i) { s.goto i (.append s.statements) with statements := s.statements + 1 }
  | initFirst (i : Fin n) (hi : s.thread i = .initOnce) (h : s.initFlag = .fresh)
    : Step s (.next i) { s.goto i .make with initFlag := .running }
  | initAgain (i : Fin n) (hi : s.thread i = .initOnce) (h : s.initFlag = .done)
    : Step s (.next i) (s.goto i .out)
  | make (i : Fin n) (hi : s.thread i = .make)
    : Step s (.next i) { s.goto i .enable with hasLogging := true, made := s.made + 1 }
  | enable (i : Fin n) (hi : s.thread i = .enable)
    : Step s (.next i) { s.goto i .out with asyncEnabled := true, initFlag := .done }
  | shutdownFirst (i : Fin n) (hi : s.thread i = .shutdownOnce) (h : s.shutdownFlag = .fresh)
    : Step s (.next i) { s.goto i .reset with shutdownFlag := .running }
  | shutdownAgain (i : Fin n) (hi : s.thread i = .shutdownOnce) (h : s.shutdownFlag = .done)
    : Step s (.next i) (s.goto i .out)
  | reset (i : Fin n) (hi : s.thread i = .reset)
    : Step s (.next i) { s.goto i .disable with hasLogging := false }
  | disable (i : Fin n) (hi : s.thread i = .disable)
    : Step s (.next i) { s.goto i .out with asyncEnabled := false, shutdownFlag := .done }
  | print (i : Fin n) (m : StatementId) (hi : s.thread i = .print m)
    : Step s (.next i) (s.ends i m .printed)
  | drop (i : Fin n) (m : StatementId) (hi : s.thread i = .append m) (h : s.asyncEnabled = false)
    : Step s (.next i) (s.ends i m .dropped)
  | append (i : Fin n) (m : StatementId) (hi : s.thread i = .append m) (h : s.asyncEnabled = true)
    : Step s (.next i) (s.goto i (.push m))
  | push (i : Fin n) (m : StatementId) (hi : s.thread i = .push m) (h : s.hasLogging = true)
    : Step s (.next i) (s.goto i (.pushing m))
  | pushNull (i : Fin n) (m : StatementId) (hi : s.thread i = .push m) (h : s.hasLogging = false)
    : Step s (.next i) (s.ends i m .undefined)
  | pushed (i : Fin n) (m : StatementId) (hi : s.thread i = .pushing m) (h : s.hasLogging = true)
    : Step s (.next i) (s.ends i m .pushed)
  | pushGone (i : Fin n) (m : StatementId) (hi : s.thread i = .pushing m) (h : s.hasLogging = false)
    : Step s (.next i) (s.ends i m .undefined)

theorem Step.of_next (h : s.next i = some t) : Step s (.next i) t := by
  unfold State.next at h
  split at h
  . cases h
  . next hi =>
    split at h <;> cases h
    . exact .initFirst i hi ‹_›
    . exact .initAgain i hi ‹_›
  . next hi => cases h; exact .make i hi
  . next hi => cases h; exact .enable i hi
  . next hi =>
    split at h <;> cases h
    . exact .shutdownFirst i hi ‹_›
    . exact .shutdownAgain i hi ‹_›
  . next hi => cases h; exact .reset i hi
  . next hi => cases h; exact .disable i hi
  . next m hi => cases h; exact .print i m hi
  . next m hi =>
    cases henabled : s.asyncEnabled with
    | false => simp [henabled] at h; subst h; exact .drop i m hi henabled
    | true => simp [henabled] at h; subst h; exact .append i m hi henabled
  . next m hi =>
    cases hlogging : s.hasLogging with
    | false => simp [hlogging] at h; subst h; exact .pushNull i m hi hlogging
    | true => simp [hlogging] at h; subst h; exact .push i m hi hlogging
  . next m hi =>
    cases hlogging : s.hasLogging with
    | false => simp [hlogging] at h; subst h; exact .pushGone i m hi hlogging
    | true => simp [hlogging] at h; subst h; exact .pushed i m hi hlogging

theorem Step.of_step (h : step s act = some t) : Step s act t := by
  cases act with
  | next i => exact .of_next h
  | initAsyncLogging i =>
    simp only [step, Option.ite_none_right_eq_some, Option.some.injEq] at h
    rcases h with ⟨hi, rfl⟩
    unfold State.initAsyncLogging
    split
    . next henabled => exact .initSeen i hi henabled
    . next henabled => exact .init i hi (Bool.eq_false_iff.mpr henabled)
  | shutdownAsyncLogging i =>
    simp only [step, Option.ite_none_right_eq_some, Option.some.injEq] at h
    rcases h with ⟨hi, rfl⟩
    cases henabled : s.asyncEnabled with
    | false => simpa [State.shutdownAsyncLogging, henabled] using .shutdownSeen i hi henabled
    | true => simpa [State.shutdownAsyncLogging, henabled] using .shutdown i hi henabled
  | log i =>
    simp only [step, Option.ite_none_right_eq_some, Option.some.injEq] at h
    rcases h with ⟨hi, rfl⟩
    cases henabled : s.asyncEnabled with
    | false => simpa [State.log, henabled] using .logConsole i hi henabled
    | true => simpa [State.log, henabled] using .logAsync i hi henabled

section Goto

variable (s : State n) (i : Fin n) (pc : Pc) (m : StatementId) (outcome : Outcome)

@[simp, grind =]
theorem goto_thread (j : Fin n) : (s.goto i pc).thread j = update s.thread i pc j := rfl

@[simp, grind =]
theorem ends_thread (j : Fin n) : (s.ends i m outcome).thread j = update s.thread i .out j := rfl

@[simp, grind =]
theorem goto_outcomes : (s.goto i pc).outcomes = s.outcomes := rfl

@[simp, grind =]
theorem goto_hasLogging : (s.goto i pc).hasLogging = s.hasLogging := rfl

@[simp, grind =]
theorem ends_hasLogging : (s.ends i m outcome).hasLogging = s.hasLogging := rfl

@[simp, grind =]
theorem goto_shutdownFlag : (s.goto i pc).shutdownFlag = s.shutdownFlag := rfl

end Goto

-- The life of the asynchronous logging, which has each phase once
inductive Phase where
  | before
  | making
  | ready
  | on
  | stopping
  | cleared
  | off
  deriving DecidableEq, Repr

namespace Phase

def next : Phase → Option Phase
  | .before => some .making
  | .making => some .ready
  | .ready => some .on
  | .on => some .stopping
  | .stopping => some .cleared
  | .cleared => some .off
  | .off => none

def rank : Phase → Nat
  | .before => 0
  | .making => 1
  | .ready => 2
  | .on => 3
  | .stopping => 4
  | .cleared => 5
  | .off => 6

def enabled : Phase → Bool
  | .on => true
  | .stopping => true
  | .cleared => true
  | _ => false

def hasLogging : Phase → Bool
  | .ready => true
  | .on => true
  | .stopping => true
  | _ => false

def initFlag : Phase → Once
  | .before => .fresh
  | .making => .running
  | .ready => .running
  | _ => .done

def shutdownFlag : Phase → Once
  | .stopping => .running
  | .cleared => .running
  | .off => .done
  | _ => .fresh

def made : Phase → Nat
  | .before => 0
  | .making => 0
  | _ => 1

theorem rank_next {p q : Phase} (h : p.next = some q) : q.rank = p.rank + 1 := by
  cases p <;> cases h <;> rfl

end Phase

def State.phase (s : State n) : Phase :=
  match s.initFlag, s.shutdownFlag with
  | .fresh, _ => .before
  | .running, _ => if s.hasLogging then .ready else .making
  | .done, .fresh => .on
  | .done, .running => if s.hasLogging then .stopping else .cleared
  | .done, .done => .off

-- The phases in which a thread is somewhere
def Pc.allows : Pc → Phase → Prop
  | .make, p => p = .making
  | .enable, p => p = .ready
  | .reset, p => p = .stopping
  | .disable, p => p = .cleared
  | .shutdownOnce, p => Phase.on.rank ≤ p.rank
  | .append _, p => Phase.on.rank ≤ p.rank
  | .push _, p => Phase.on.rank ≤ p.rank
  | .pushing _, p => Phase.on.rank ≤ p.rank
  | _, _ => True

-- The thread is in what `call_once` has called
def Pc.calls : Pc → Bool
  | .make => true
  | .enable => true
  | .reset => true
  | .disable => true
  | _ => false

structure State.At (s : State n) (p : Phase) : Prop where
  asyncEnabled : s.asyncEnabled = p.enabled
  hasLogging : s.hasLogging = p.hasLogging
  initFlag : s.initFlag = p.initFlag
  shutdownFlag : s.shutdownFlag = p.shutdownFlag
  made : s.made = p.made

theorem State.At.phase (h : s.At p) : s.phase = p := by
  cases p <;> simp [State.phase, h.initFlag, h.shutdownFlag, h.hasLogging, Phase.initFlag,
    Phase.shutdownFlag, Phase.hasLogging]

theorem State.At.keep (h : s.At p) (hasyncEnabled : t.asyncEnabled = s.asyncEnabled)
    (hhasLogging : t.hasLogging = s.hasLogging) (hinitFlag : t.initFlag = s.initFlag)
    (hshutdownFlag : t.shutdownFlag = s.shutdownFlag) (hmade : t.made = s.made)
    : t.At p where
  asyncEnabled := hasyncEnabled.trans h.asyncEnabled
  hasLogging := hhasLogging.trans h.hasLogging
  initFlag := hinitFlag.trans h.initFlag
  shutdownFlag := hshutdownFlag.trans h.shutdownFlag
  made := hmade.trans h.made

structure State.Lives (s : State n) : Prop where
  here : s.At s.phase
  allowed : ∀ i, (s.thread i).allows s.phase
  unique : ∀ i j, (s.thread i).calls = true → (s.thread j).calls = true → i = j

theorem Pc.allows_mono {pc : Pc} {p q : Phase} (h : pc.allows p) (hcalls : pc.calls = false)
    (hle : p.rank ≤ q.rank)
    : pc.allows q := by
  cases pc <;> first | trivial | exact Nat.le_trans h hle

theorem State.Lives.on_le (h : s.Lives) (henabled : s.asyncEnabled = true)
    : Phase.on.rank ≤ s.phase.rank := by
  rw [h.here.asyncEnabled] at henabled
  cases hphase : s.phase <;> rw [hphase] at henabled <;> first | decide | cases henabled

-- Where the life goes on with a call of `call_once`, nobody is in one
theorem State.Lives.not_calls (h : s.Lives) (hphase : s.phase = .before ∨ s.phase = .on) (j : Fin n)
    : (s.thread j).calls = false := by
  have hj := h.allowed j
  rcases hphase with hphase | hphase <;> rw [hphase] at hj <;>
    cases hpc : s.thread j <;> rw [hpc] at hj <;> first | rfl | cases hj

theorem State.Lives.alone (h : s.Lives) (hi : (s.thread i).calls = true) (j : Fin n) (hj : j ≠ i)
    : (s.thread j).calls = false := by
  by_contra hcalls
  exact hj (h.unique j i (by simpa using hcalls) hi)

-- A thread moves, and the logging stays as it is
theorem State.Lives.stay (h : s.Lives) {i : Fin n} {pc : Pc} (hthread : t.thread = update s.thread i pc)
    (hpc : pc.allows s.phase) (hcalls : pc.calls = false) (hat : t.At s.phase)
    : t.Lives ∧ (t.phase = s.phase ∨ s.phase.next = some t.phase) := by
  have hsame : ∀ j, (t.thread j).calls = true → (s.thread j).calls = true := by
    intro j hj
    rw [hthread] at hj
    by_cases hji : j = i
    . subst hji
      rw [Function.update_self, hcalls] at hj
      cases hj
    . rwa [Function.update_of_ne hji] at hj
  refine ⟨⟨hat.phase.symm ▸ hat, ?_, fun j k hj hk => h.unique j k (hsame j hj) (hsame k hk)⟩,
    .inl hat.phase⟩
  intro j
  rw [hat.phase, hthread]
  by_cases hji : j = i
  . subst hji
    rwa [Function.update_self]
  . rw [Function.update_of_ne hji]
    exact h.allowed j

-- The logging goes on to its next phase, by the only thread that is in `call_once`
theorem State.Lives.advance (h : s.Lives) {i : Fin n} {pc : Pc} {p q : Phase} (hp : s.phase = p)
    (hnext : p.next = some q) (hothers : ∀ j, j ≠ i → (s.thread j).calls = false)
    (hthread : t.thread = update s.thread i pc) (hpc : pc.allows q) (hat : t.At q)
    : t.Lives ∧ (t.phase = s.phase ∨ s.phase.next = some t.phase) := by
  have hone : ∀ j, (t.thread j).calls = true → j = i := by
    intro j hj
    by_contra hji
    rw [hthread, Function.update_of_ne hji, hothers j hji] at hj
    cases hj
  have hle : s.phase.rank ≤ q.rank := by
    rw [hp, Phase.rank_next hnext]
    exact Nat.le_succ _
  refine ⟨⟨hat.phase.symm ▸ hat, ?_, fun j k hj hk => (hone j hj).trans (hone k hk).symm⟩,
    .inr (by rw [hp, hat.phase, hnext])⟩
  intro j
  rw [hat.phase, hthread]
  by_cases hji : j = i
  . subst hji
    rwa [Function.update_self]
  . rw [Function.update_of_ne hji]
    exact Pc.allows_mono (h.allowed j) (hothers j hji) hle

theorem State.Lives.allows (h : s.Lives) (hi : s.thread i = pc) : pc.allows s.phase :=
  hi ▸ h.allowed i

theorem State.Lives.at_phase (h : s.Lives) (hp : s.phase = p) : s.At p :=
  hp ▸ h.here

-- The logging lives on as it was, or goes on to its next phase
theorem lives_step (h : s.Lives) (hs : Step s act t)
    : t.Lives ∧ (t.phase = s.phase ∨ s.phase.next = some t.phase) := by
  have hstay : ∀ {i pc}, t.thread = update s.thread i pc → pc.allows s.phase → pc.calls = false →
      t.At s.phase → t.Lives ∧ (t.phase = s.phase ∨ s.phase.next = some t.phase) :=
    h.stay
  have hsame := h.here
  cases hs with
  | initSeen i hi hseen => exact ⟨h, .inl rfl⟩
  | shutdownSeen i hi hseen => exact ⟨h, .inl rfl⟩
  | init i hi hseen => exact hstay rfl trivial rfl (hsame.keep rfl rfl rfl rfl rfl)
  | shutdown i hi hseen => exact hstay rfl (h.on_le hseen) rfl (hsame.keep rfl rfl rfl rfl rfl)
  | initFirst i hi hflag =>
    have hp : s.phase = .before := by
      rw [State.phase, hflag]
    have hat := h.at_phase hp
    exact h.advance hp rfl (fun j _ => h.not_calls (.inl hp) j) rfl rfl
      ⟨hat.asyncEnabled, hat.hasLogging, rfl, hat.shutdownFlag, hat.made⟩
  | make i hi =>
    have hp : s.phase = .making := h.allows hi
    have hat := h.at_phase hp
    exact h.advance hp rfl (h.alone (by rw [hi]; rfl)) rfl rfl
      ⟨hat.asyncEnabled, rfl, hat.initFlag, hat.shutdownFlag, congrArg (· + 1) hat.made⟩
  | enable i hi =>
    have hp : s.phase = .ready := h.allows hi
    have hat := h.at_phase hp
    exact h.advance hp rfl (h.alone (by rw [hi]; rfl)) rfl trivial
      ⟨rfl, hat.hasLogging, rfl, hat.shutdownFlag, hat.made⟩
  | shutdownFirst i hi hflag =>
    have hp : s.phase = .on := by
      have hle : Phase.on.rank ≤ s.phase.rank := h.allows hi
      have := hsame.shutdownFlag
      rw [hflag] at this
      cases hphase : s.phase <;> rw [hphase] at this hle <;>
        first | rfl | exact absurd hle (by decide) | cases this
    have hat := h.at_phase hp
    exact h.advance hp rfl (fun j _ => h.not_calls (.inr hp) j) rfl rfl
      ⟨hat.asyncEnabled, hat.hasLogging, hat.initFlag, rfl, hat.made⟩
  | reset i hi =>
    have hp : s.phase = .stopping := h.allows hi
    have hat := h.at_phase hp
    exact h.advance hp rfl (h.alone (by rw [hi]; rfl)) rfl rfl
      ⟨hat.asyncEnabled, rfl, hat.initFlag, hat.shutdownFlag, hat.made⟩
  | disable i hi =>
    have hp : s.phase = .cleared := h.allows hi
    have hat := h.at_phase hp
    exact h.advance hp rfl (h.alone (by rw [hi]; rfl)) rfl trivial
      ⟨rfl, hat.hasLogging, hat.initFlag, rfl, hat.made⟩
  | logConsole i hi hseen => exact hstay rfl trivial rfl (hsame.keep rfl rfl rfl rfl rfl)
  | logAsync i hi hseen => exact hstay rfl (h.on_le hseen) rfl (hsame.keep rfl rfl rfl rfl rfl)
  | append i m hi hseen => exact hstay rfl (h.on_le hseen) rfl (hsame.keep rfl rfl rfl rfl rfl)
  | push i m hi hlogging =>
    have hle : Phase.on.rank ≤ s.phase.rank := h.allows hi
    exact hstay rfl hle rfl (hsame.keep rfl rfl rfl rfl rfl)
  | _ => exact hstay rfl trivial rfl (hsame.keep rfl rfl rfl rfl rfl)

theorem lives_start : (State.start n).Lives where
  here := ⟨rfl, rfl, rfl, rfl, rfl⟩
  allowed := fun _ => trivial
  unique := by
    intro i j hi
    cases hi

theorem reachable_lives (h : (machine n).Reachable s) : s.Lives := by
  apply h.invariant
  . intro s hs
    rw [hs]
    exact lives_start
  . intro s act t hs _ hat
    exact (lives_step hs (Step.of_step hat)).left

theorem rank_step (h : s.Lives) (hs : Step s act t) : s.phase.rank ≤ t.phase.rank := by
  rcases (lives_step h hs).right with hsame | hnext
  . rw [hsame]
  . rw [Phase.rank_next hnext]
    exact Nat.le_succ _

end Lifetime
end Elog
end Koro
