import Koro.InplaceFunction.Calls
import Koro.Data.Ledger

/-!
This module contains the account of the callable objects that wrappers construct and destroy, for
sequences of operations without `swap`: what each operation does to the ledger in which a wrapper with a
table holds the object in its buffer. A move makes an object and loses the one it moves from.
-/

namespace Koro
namespace InplaceFunction

open Function (update)

variable {κ : Type u} {τ : Type v}

def State.ledger (s : State κ τ) : Ledger WrapperId where
  held x := (s.wrapper x).bind Wrapper.held
  made := s.constructed
  gone := s.destroyed

def Action.swaps : Action κ → Bool
  | .swap _ _ => true
  | _ => false

/--
Nothing is moved from a wrapper that holds a callable, but to itself.
-/
def Unmoved (s : State κ τ) : Action κ → Prop
  | .moveConstruct _ y => s.history y = none
  | .moveAssign x y => y = x ∨ s.history y = none
  | _ => True

-- What an operation other than `swap` does to the ledger
def account (history : WrapperId → Option κ) (l : Ledger WrapperId) : Action κ → Ledger WrapperId
  | .default _ => l
  | .construct x _ => l.acquire x
  | .moveConstruct x y => if (history y).isSome then (l.acquire x).lose y else l
  | .moveAssign x y =>
    if y = x then
      l
    else if (history y).isSome then
      ((l.release x).acquire x).lose y
    else
      l.release x
  | .assignNull x => l.release x
  | .swap _ _ => l
  | .invoke _ _ => l
  | .destruct x => l.release x

theorem held_update (wrapper : WrapperId → Option (Wrapper κ τ)) (x : WrapperId) (w : Option (Wrapper κ τ))
    : (fun z => (update wrapper x w z).bind Wrapper.held)
        =
      update (fun z => (wrapper z).bind Wrapper.held) x (w.bind Wrapper.held) := by
  funext z
  by_cases hz : z = x
  . subst hz
    simp only [Function.update_self]
  . simp only [Function.update_of_ne hz]

theorem held_of_vtable {w : Wrapper κ τ} (h : w.vtable = none) : w.held = none := by
  simp [Wrapper.held, h]

theorem ledger_release {s : State κ τ} {w : Wrapper κ τ} (hw : s.wrapper x = some w) (w' : Option (Wrapper κ τ))
    (hw' : w'.bind Wrapper.held = none)
    : ({ s with wrapper := update s.wrapper x w', destroyed := w.held.toList ++ s.destroyed } : State κ τ).ledger
        =
      s.ledger.release x := by
  ext1
  . simp only [State.ledger, held_update, hw']
    rfl
  . rfl
  . simp only [State.ledger, Ledger.release, hw, Option.bind_some]

theorem sound_account {s : State κ τ} {a : Action κ} (h : s.ledger.Sound) : (account s.history s.ledger a).Sound := by
  cases a with
  | default x => exact h
  | construct x f => exact h.acquire x
  | moveConstruct x y =>
    simp only [account]
    split
    . exact (h.acquire x).lose y
    . exact h
  | moveAssign x y =>
    simp only [account]
    split
    . exact h
    . split
      . exact ((h.release x).acquire x).lose y
      . exact h.release x
  | assignNull x => exact h.release x
  | swap x y => exact h
  | invoke x after => exact h
  | destruct x => exact h.release x

-- Moving from `y` after the ledger has become `l`
theorem balanced_moved {l : Ledger WrapperId} {s : State κ τ} {x y : WrapperId} (hbalanced : l.Balanced) (hsound : l.Sound)
    (hne : y ≠ x) (hx : l.held x = none) (hy : l.held y = none ↔ s.history y = none)
    : (if (s.history y).isSome then (l.acquire x).lose y else l).Balanced ↔ s.history y = none := by
  cases hholds : s.history y with
  | none => simpa using hbalanced
  | some f =>
    rw [Option.isSome_some, if_pos rfl,
      Ledger.balanced_lose (hbalanced.acquire hsound hx) (hsound.acquire x), ← hholds, ← hy]
    simp only [Ledger.acquire, Function.update_of_ne hne]

variable [DecidableEq τ] (type : κ → τ)

def owning : Machine (State κ τ) (Action κ) where
  init s := s = State.start κ τ
  step s a := if a.swaps then none else step type s a

variable {type} {s t : State κ τ} {w other : Wrapper κ τ} {x y : WrapperId} {holds : Option κ}
  {a : Action κ}

theorem held_of_calls (h : Calls type w holds) : w.held = none ↔ holds = none := by
  cases holds with
  | none => exact iff_of_true (held_of_vtable (calls_none.mp h).1) rfl
  | some f =>
    rcases calls_some.mp h with ⟨hvtable, id, hbuffer⟩
    simp [Wrapper.held, hvtable, hbuffer]

theorem ledger_move (hheld : s.ledger.held x = none)
    (hother : Calls type other holds) (hs : s.move type x w y other = some t)
    : t.ledger = if holds.isSome then (s.ledger.acquire x).lose y else s.ledger := by
  cases holds with
  | none =>
    rw [move_of_calls_none hother, Option.some.injEq] at hs
    subst hs
    ext1
    . simp only [State.ledger, held_update, Option.bind_some, held_of_vtable]
      exact Function.update_eq_self_iff.mpr hheld.symm
    . rfl
    . rfl
  | some f =>
    rcases move_of_calls_some (s := s) (w := w) (x := x) (y := y) hother with ⟨o, _, _, heq⟩
    rw [heq, Option.some.injEq] at hs
    subst hs
    ext1
    . simp only [State.ledger, held_update, Option.bind_some]
      rfl
    . rfl
    . rfl

theorem ledger_perform (h : Faithful type s.wrapper s.history) (hswaps : a.swaps = false)
    (hs : s.perform type a = some t)
    : t.ledger = account s.history s.ledger a := by
  cases a with
  | default x =>
    simp only [State.perform, Option.ite_none_right_eq_some, Option.some.injEq] at hs
    rcases hs with ⟨hx, rfl⟩
    ext1
    . simp only [State.default, State.ledger, held_update]
      apply Function.update_eq_self_iff.mpr
      rw [hx]
      rfl
    . rfl
    . rfl
  | construct x f =>
    simp only [State.perform, Option.ite_none_right_eq_some, Option.some.injEq] at hs
    rcases hs with ⟨hx, rfl⟩
    ext1
    . simp only [State.construct, State.ledger, held_update]
      rfl
    . rfl
    . rfl
  | moveConstruct x y =>
    simp only [State.perform, Option.ite_none_right_eq_some, Option.bind_eq_some_iff] at hs
    rcases hs with ⟨⟨hx, hne⟩, other, hy, hs⟩
    have hheld : s.ledger.held x = none := by simp only [State.ledger, hx, Option.bind_none]
    exact ledger_move hheld (h y other hy) hs
  | moveAssign x y =>
    simp only [State.perform, State.moveAssign] at hs
    simp only [account]
    split at hs
    . next w other hx hy =>
      split at hs
      . next heq =>
        cases hs
        rw [if_pos heq]
      . next hne =>
        rw [if_neg hne]
        rcases destroy_of_calls hx (h x w hx) with ⟨w', _, hheld, hdestroy⟩
        rw [hdestroy, Option.bind_some] at hs
        have hrelease := ledger_release hx (some w') hheld
        have hmove := ledger_move (by rw [hrelease]; simp [Ledger.release]) (h y other hy) hs
        rw [hmove, hrelease]
    . cases hs
  | assignNull x =>
    simp only [State.perform, State.assignNull, Option.bind_eq_some_iff, Option.map_eq_some_iff] at hs
    rcases hs with ⟨w, hx, ⟨s', w'⟩, hdestroy, rfl⟩
    rcases destroy_of_calls hx (h x w hx) with ⟨w'', _, _, heq⟩
    rw [heq] at hdestroy
    cases hdestroy
    simp only [Function.update_idem]
    exact ledger_release hx _ (held_of_vtable rfl)
  | swap x y => cases hswaps
  | invoke x after =>
    rcases wrapper_invoke hs with ⟨w, hx, hor⟩
    rcases hor with ⟨_, rfl⟩ | ⟨f, _, _, rfl⟩
    . rfl
    . ext1
      . simp only [State.ledger, held_update]
        apply Function.update_eq_self_iff.mpr
        rw [hx]
        cases hbuffer : w.buffer <;> simp [Wrapper.held, hbuffer]
      . rfl
      . rfl
  | destruct x =>
    simp only [State.perform, State.destruct, Option.bind_eq_some_iff, Option.map_eq_some_iff] at hs
    rcases hs with ⟨w, hx, ⟨s', w'⟩, hdestroy, rfl⟩
    rcases destroy_of_calls hx (h x w hx) with ⟨w'', _, _, heq⟩
    rw [heq] at hdestroy
    cases hdestroy
    simp only [Function.update_idem]
    exact ledger_release hx none rfl

theorem balanced_perform (h : Faithful type s.wrapper s.history) (hsound : s.ledger.Sound)
    (hbalanced : s.ledger.Balanced) (hs : s.perform type a = some t)
    : (account s.history s.ledger a).Balanced ↔ Unmoved s a := by
  have hheld : ∀ z w, s.wrapper z = some w → (s.ledger.held z = none ↔ s.history z = none) := by
    intro z w hz
    rw [← held_of_calls (h z w hz)]
    simp only [State.ledger, hz, Option.bind_some]
  have hempty : ∀ z, s.wrapper z = none → s.ledger.held z = none := by
    intro z hz
    simp only [State.ledger, hz, Option.bind_none]
  cases a with
  | default x => exact iff_of_true hbalanced trivial
  | construct x f =>
    simp only [State.perform, Option.ite_none_right_eq_some] at hs
    exact iff_of_true (hbalanced.acquire hsound (hempty x hs.left)) trivial
  | moveConstruct x y =>
    simp only [State.perform, Option.ite_none_right_eq_some, Option.bind_eq_some_iff] at hs
    rcases hs with ⟨⟨hx, hne⟩, other, hy, _⟩
    exact balanced_moved hbalanced hsound hne (hempty x hx) (hheld y other hy)
  | moveAssign x y =>
    simp only [State.perform, State.moveAssign] at hs
    simp only [account, Unmoved]
    split at hs
    . next w other hx hy =>
      by_cases hne : y = x
      . rw [if_pos hne]
        exact iff_of_true hbalanced (.inl hne)
      . rw [if_neg hne]
        simp only [hne, false_or]
        apply balanced_moved (hbalanced.release hsound x) (hsound.release x) hne
        . simp only [Ledger.release, Function.update_self]
        . simp only [Ledger.release, Function.update_of_ne hne]
          exact hheld y other hy
    . cases hs
  | assignNull x => exact iff_of_true (hbalanced.release hsound x) trivial
  | swap x y => exact iff_of_true hbalanced trivial
  | invoke x after => exact iff_of_true hbalanced trivial
  | destruct x => exact iff_of_true (hbalanced.release hsound x) trivial

/--
The callable objects constructed and not destroyed are those of the wrappers with a table just as long
as nothing is moved from a wrapper that holds one.
-/
theorem balanced_iff_unmoved (as : List (Action κ))
    : (owning type).Always (fun s => s.ledger.Balanced) (State.start κ τ) as
        ↔
      (owning type).Meets Unmoved (State.start κ τ) as := by
  apply Machine.always_iff_meets (I := fun s => Faithful type s.wrapper s.history ∧ s.ledger.Sound)
  . intro s a t hI hbalanced hs
    rcases hI with ⟨h, hsound⟩
    simp only [owning, Option.ite_none_left_eq_some, Bool.not_eq_true] at hs
    rcases hs with ⟨hswaps, hs⟩
    simp only [step, Option.map_eq_some_iff] at hs
    rcases hs with ⟨t', hs, rfl⟩
    have hledger : ({ t' with history := record s.history a } : State κ τ).ledger
        = account s.history s.ledger a := by
      rw [← ledger_perform h hswaps hs]
      rfl
    have hnot : ∀ x y, a ≠ .swap x y := by
      rintro x y rfl
      cases hswaps
    have hfaithful := faithful_perform h hnot hs
    refine ⟨⟨hfaithful, ?_⟩, ?_⟩
    . rw [hledger]
      exact sound_account hsound
    . rw [hledger]
      exact balanced_perform h hsound hbalanced hs
  . constructor
    . intro x w hx
      cases hx
    . constructor
      . intro x y r hx
        cases hx
      . intro x r hx
        cases hx
      . intro r hr
        cases hr
      . exact List.nodup_nil
  . constructor
    . intro r
      simp [State.ledger, State.start]
    . exact List.nodup_nil

-- A task is constructed, moved into a deque and out of it again, and all three wrappers are destroyed
def queued : List (Action Nat) :=
  [.construct 0 7, .moveConstruct 1 0, .moveConstruct 2 1, .destruct 0, .destruct 1, .destruct 2]

theorem not_balanced_queued
    : ¬∀ s, (owning fun n : Nat => n).Reachable s → s.ledger.Balanced := by
  intro h
  have hexec : (owning fun n : Nat => n).exec (State.start Nat Nat) queued = some _ := rfl
  have hbalanced := h _ (Machine.Reachable.of_exec queued rfl hexec)
  rcases (hbalanced.held 0).mp (by decide) with ⟨x, hx⟩
  match x with
  | 0 => cases hx
  | 1 => cases hx
  | 2 => cases hx
  | x + 3 => cases hx

end InplaceFunction
end Koro
