import Mathlib.Algebra.GroupWithZero.Nat
import Mathlib.Logic.Relation

/-!
This module contains machines: states, the actions that may happen in them, runs, and the rules by
which a fact about one step becomes a fact about every run.

A condition `ok : σ → α → Prop` singles out the runs whose every step takes an action that meets it
in the state before the step: `Steps ok s t` are such runs from `s` to `t`, `Reach ok t` says that
one leads from an initial state to `t`. `Always` and `Meets` speak about one run, given as the list
of its actions, and `Steps.project` carries runs of one machine to runs of another.
-/

/--
A machine is given by its initial states and by what an action does to a state, `none` where the
action cannot happen.
-/
structure Machine (σ : Type u) (α : Type v) where
  init : σ → Prop
  step : σ → α → Option σ

-- For the numerals of machines with one member or two
instance one_neZero : NeZero 1 :=
  ⟨by decide⟩

instance two_neZero : NeZero 2 :=
  ⟨by decide⟩

namespace Machine

variable {σ : Type u} {α : Type v} {τ : Type w} {β : Type x} (m : Machine σ α)

def Next (ok : σ → α → Prop) (s t : σ) : Prop :=
  ∃ a, ok s a ∧ m.step s a = some t

def Steps (ok : σ → α → Prop) : σ → σ → Prop :=
  Relation.ReflTransGen (m.Next ok)

def Reach (ok : σ → α → Prop) (t : σ) : Prop :=
  ∃ s, m.init s ∧ m.Steps ok s t

def free : σ → α → Prop :=
  fun _ _ => True

abbrev Reachable : σ → Prop :=
  m.Reach free

variable {m} {ok ok' : σ → α → Prop} {s t r : σ}

theorem Steps.refl (s : σ) : m.Steps ok s s :=
  Relation.ReflTransGen.refl

theorem Steps.tail (h : m.Steps ok s t) (ha : ok t a) (hs : m.step t a = some r) : m.Steps ok s r :=
  Relation.ReflTransGen.tail h ⟨a, ha, hs⟩

theorem Steps.trans (h : m.Steps ok s t) (h' : m.Steps ok t r) : m.Steps ok s r :=
  Relation.ReflTransGen.trans h h'

theorem Steps.keeps {I : σ → Prop} (h : m.Steps ok s t) (hs : I s)
    (hstep : ∀ s a t, I s → ok s a → m.step s a = some t → I t)
    : I t := by
  induction h with
  | refl => exact hs
  | tail _ hnext ih =>
    rcases hnext with ⟨a, ha, hat⟩
    exact hstep _ a _ ih ha hat

theorem Steps.mono (h : m.Steps ok s t) (hok : ∀ s a, ok s a → ok' s a) : m.Steps ok' s t := by
  apply Steps.keeps (I := m.Steps ok' s) h
  . exact Steps.refl s
  . intro s' a t' hs ha hstep
    exact hs.tail (hok _ _ ha) hstep

theorem Reach.start (h : m.init s) : m.Reach ok s :=
  ⟨s, h, Steps.refl s⟩

theorem Reach.steps (h : m.Reach ok s) (h' : m.Steps ok s t) : m.Reach ok t := by
  rcases h with ⟨r, hr, hrs⟩
  exact ⟨r, hr, hrs.trans h'⟩

theorem Reach.tail (h : m.Reach ok s) (ha : ok s a) (hs : m.step s a = some t) : m.Reach ok t :=
  h.steps ((Steps.refl s).tail ha hs)

theorem Reach.mono (h : m.Reach ok s) (hok : ∀ s a, ok s a → ok' s a) : m.Reach ok' s := by
  rcases h with ⟨r, hr, hrs⟩
  exact ⟨r, hr, hrs.mono hok⟩

/--
The rule of invariants: what holds initially and is kept by each step holds in every state reached.
-/
theorem Reach.invariant {I : σ → Prop} (h : m.Reach ok s) (hinit : ∀ s, m.init s → I s)
    (hstep : ∀ s a t, I s → ok s a → m.step s a = some t → I t)
    : I s := by
  rcases h with ⟨r, hr, hrs⟩
  exact hrs.keeps (hinit r hr) hstep

theorem Reach.invariant_with {I J : σ → Prop} (h : m.Reach ok s) (hJ : ∀ s, m.Reach ok s → J s)
    (hinit : ∀ s, m.init s → I s)
    (hstep : ∀ s a t, J s → I s → ok s a → m.step s a = some t → I t)
    : I s := by
  have : m.Reach ok s ∧ I s := by
    apply Reach.invariant (I := fun s => m.Reach ok s ∧ I s) h
    . intro r hr
      exact ⟨Reach.start hr, hinit r hr⟩
    . intro s a t hs ha hat
      exact ⟨hs.left.tail ha hat, hstep s a t (hJ s hs.left) hs.right ha hat⟩
  exact this.right

theorem Steps.project {m' : Machine τ β} {ok' : τ → β → Prop} (f : σ → τ) (h : m.Steps ok s t)
    (hstep : ∀ s a t, ok s a → m.step s a = some t → m'.Steps ok' (f s) (f t))
    : m'.Steps ok' (f s) (f t) := by
  induction h with
  | refl => exact Steps.refl _
  | tail _ hnext ih =>
    rcases hnext with ⟨a, ha, hat⟩
    exact ih.trans (hstep _ a _ ha hat)

theorem Reach.project {m' : Machine τ β} {ok' : τ → β → Prop} (f : σ → τ) (h : m.Reach ok s)
    (hinit : ∀ s, m.init s → m'.init (f s))
    (hstep : ∀ s a t, ok s a → m.step s a = some t → m'.Steps ok' (f s) (f t))
    : m'.Reach ok' (f s) := by
  rcases h with ⟨r, hr, hrs⟩
  exact ⟨f r, hinit r hr, hrs.project f hstep⟩

section Exec

variable (m)

def exec (s : σ) : List α → Option σ
  | [] => some s
  | a :: as => (m.step s a).bind fun t => exec t as

def Always (P : σ → Prop) (s : σ) : List α → Prop
  | [] => P s
  | a :: as => P s ∧ ∀ t, m.step s a = some t → Always P t as

def Meets (ok : σ → α → Prop) (s : σ) : List α → Prop
  | [] => True
  | a :: as => ∀ t, m.step s a = some t → ok s a ∧ Meets ok t as

instance Meets.decidable [∀ s a, Decidable (ok s a)] (s : σ) : (as : List α) → Decidable (m.Meets ok s as)
  | [] => instDecidableTrue
  | a :: as =>
    match h : m.step s a with
    | none => isTrue (fun t ht => by simp [h] at ht)
    | some t =>
      have := Meets.decidable t as
      decidable_of_iff (ok s a ∧ m.Meets ok t as) (by simp [Meets, h])

variable {m}

theorem Meets.of_forall (as : List α) (h : ∀ a ∈ as, ∀ s, ok s a) : m.Meets ok s as := by
  induction as generalizing s with
  | nil => trivial
  | cons a as ih =>
    intro t _
    refine ⟨h a List.mem_cons_self s, ?_⟩
    apply ih
    intro b hb
    exact h b (List.mem_cons_of_mem a hb)

theorem Meets.mono (as : List α) (h : m.Meets ok s as) (hok : ∀ s a, ok s a → ok' s a)
    : m.Meets ok' s as := by
  induction as generalizing s with
  | nil => trivial
  | cons a as ih =>
    intro t hat
    rcases h t hat with ⟨ha, hmeets⟩
    exact ⟨hok s a ha, ih hmeets⟩

/--
Every step of a run leads to what `P` says just if it takes an action that meets `ok`, as long as one step
does and such a step keeps the invariant.
-/
theorem ensures_iff_meets {I : σ → Prop} {P : σ → α → σ → Prop} (as : List α)
    (hinv : ∀ s a t, I s → ok s a → m.step s a = some t → I t)
    (hiff : ∀ s a t, I s → m.step s a = some t → (P s a t ↔ ok s a)) (hI : I s)
    : m.Meets (fun s a => ∀ t, m.step s a = some t → P s a t) s as ↔ m.Meets ok s as := by
  induction as generalizing s with
  | nil => rfl
  | cons a as ih =>
    apply forall_congr'
    intro t
    apply imp_congr_right
    intro hat
    have hensures : (∀ r, m.step s a = some r → P s a r) ↔ ok s a := by
      rw [← hiff s a t hI hat]
      constructor
      . intro h
        exact h t hat
      . intro h r har
        rw [show r = t from Option.some.inj (har.symm.trans hat)]
        exact h
    refine (and_congr_left' hensures).trans ?_
    apply and_congr_right
    intro hok
    exact ih (hinv s a t hI hok hat)

theorem Steps.of_exec (as : List α) (h : m.exec s as = some t) (hok : m.Meets ok s as)
    : m.Steps ok s t := by
  induction as generalizing s with
  | nil =>
    simp only [exec, Option.some.injEq] at h
    subst h
    exact Steps.refl s
  | cons a as ih =>
    simp only [exec, Option.bind_eq_some_iff] at h
    rcases h with ⟨r, hr, hrt⟩
    rcases hok r hr with ⟨ha, hmeets⟩
    have hsr : m.Steps ok s r := (Steps.refl s).tail ha hr
    exact hsr.trans (ih hrt hmeets)

theorem Reach.of_exec (as : List α) (hinit : m.init s) (h : m.exec s as = some t)
    (hok : m.Meets ok s as)
    : m.Reach ok t :=
  (Reach.start hinit).steps (Steps.of_exec as h hok)

theorem Reachable.of_exec (as : List α) (hinit : m.init s) (h : m.exec s as = some t)
    : m.Reachable t := by
  apply Reach.of_exec as hinit h
  apply Meets.of_forall
  intro _ _ _
  trivial

theorem always_iff_meets {I P : σ → Prop} (as : List α)
    (hstep : ∀ s a t, I s → P s → m.step s a = some t → I t ∧ (P t ↔ ok s a))
    (hI : I s) (hP : P s)
    : m.Always P s as ↔ m.Meets ok s as := by
  induction as generalizing s with
  | nil => simp [Always, Meets, hP]
  | cons a as ih =>
    simp only [Always, Meets, hP, true_and]
    apply forall_congr'
    intro t
    apply imp_congr_right
    intro hat
    rcases hstep s a t hI hP hat with ⟨hIt, hPt⟩
    rw [← hPt]
    constructor
    . intro h
      have hPt : P t := by
        cases as with
        | nil => exact h
        | cons => exact h.left
      exact ⟨hPt, (ih hIt hPt).mp h⟩
    . intro h
      exact (ih hIt h.left).mpr h.right

/--
What no step repairs is avoided by exactly the runs whose every step avoids it.
-/
theorem not_iff_meets {I Bad : σ → Prop} (as : List α) (hinv : ∀ s a t, I s → m.step s a = some t → I t)
    (hstep : ∀ s a t, I s → ok' s a → m.step s a = some t → (Bad t ↔ Bad s ∨ ¬ok s a))
    (hI : I s) (h : m.exec s as = some t) (hok : m.Meets ok' s as)
    : ¬Bad t ↔ ¬Bad s ∧ m.Meets ok s as := by
  induction as generalizing s with
  | nil =>
    simp only [exec, Option.some.injEq] at h
    simp [h, Meets]
  | cons a as ih =>
    simp only [exec, Option.bind_eq_some_iff] at h
    rcases h with ⟨r, hr, hrt⟩
    rcases hok r hr with ⟨ha, hmeets⟩
    have hbad := hstep s a r hI ha hr
    rw [ih (hinv s a r hI hr) hrt hmeets, hbad]
    simp only [Meets, hr, Option.some.injEq, forall_eq']
    rw [not_or, Classical.not_not, and_assoc]

end Exec

end Machine
