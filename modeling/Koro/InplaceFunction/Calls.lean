import Koro.InplaceFunction

/-!
This module contains what wrappers call over any sequence of operations: what the operations on them
say, until `swap` exchanges the tables of two wrappers and not what is in their buffers.
-/

namespace Koro
namespace InplaceFunction

open Function (update)

variable {κ : Type u} {τ : Type v} [DecidableEq τ] (type : κ → τ)

/--
The table is there iff the buffer holds a callable, is then the one of its type, and invoking the
wrapper runs the callable that the operations say.
-/
structure Calls (w : Wrapper κ τ) (holds : Option κ) : Prop where
  live : w.vtable ≠ none ↔ ∃ o, w.buffer = some o ∧ o.movedFrom = false
  typed : ∀ t o, w.vtable = some t → w.buffer = some o → t = type o.callable
  runs : w.invoke type = some holds

def Faithful (wrapper : WrapperId → Option (Wrapper κ τ)) (history : WrapperId → Option κ) : Prop :=
  ∀ x w, wrapper x = some w → Calls type w (history x)

/--
`swap` is called on a wrapper and itself, or on two that hold the same.
-/
def Alike (s : State κ τ) : Action κ → Prop
  | .swap x y => y = x ∨ s.history x = s.history y
  | _ => True

variable {type}

-- What `Calls` says of the two fields
theorem calls_none {w : Wrapper κ τ}
    : Calls type w none ↔ w.vtable = none ∧ ∀ o, w.buffer = some o → o.movedFrom = true := by
  constructor
  . intro h
    have hvtable : w.vtable = none := by
      have hruns := h.runs
      unfold Wrapper.invoke at hruns
      split at hruns
      . next h => exact h
      . simp at hruns
    refine ⟨hvtable, ?_⟩
    intro o ho
    by_contra hmoved
    exact h.live.mpr ⟨o, ho, Bool.eq_false_iff.mpr hmoved⟩ hvtable
  . intro h
    rcases h with ⟨hvtable, hbuffer⟩
    constructor
    . constructor
      . intro hne
        exact absurd hvtable hne
      . intro hlive
        rcases hlive with ⟨o, ho, hmoved⟩
        rw [hbuffer o ho] at hmoved
        cases hmoved
    . intro t o ht
      rw [hvtable] at ht
      cases ht
    . simp only [Wrapper.invoke, hvtable]

theorem calls_some {w : Wrapper κ τ} {f : κ}
    : Calls type w (some f)
        ↔
      w.vtable = some (type f) ∧ ∃ id, w.buffer = some { id, callable := f, movedFrom := false } := by
  constructor
  . intro h
    have hruns := h.runs
    unfold Wrapper.invoke Wrapper.object at hruns
    split at hruns
    . simp at hruns
    . next t ht =>
      simp only [Option.map_eq_some_iff, Option.some.injEq, Option.filter_eq_some_iff,
        decide_eq_true_eq, Bool.not_eq_true'] at hruns
      rcases hruns with ⟨o, ⟨⟨ho, htype⟩, hmoved⟩, rfl⟩
      refine ⟨by rw [ht, htype], o.id, ?_⟩
      rw [ho, ← hmoved]
  . intro h
    rcases h with ⟨hvtable, id, hbuffer⟩
    constructor
    . simp [hvtable, hbuffer]
    . intro t o ht ho
      rw [hbuffer] at ho
      cases ho
      rw [hvtable] at ht
      exact (Option.some.inj ht).symm
    . have hobject : w.object type (type f) = some { id, callable := f, movedFrom := false } := by
        simp [Wrapper.object, hbuffer]
      simp only [Wrapper.invoke, hvtable, hobject]
      rfl

theorem object_of_calls {w : Wrapper κ τ} (h : Calls type w (some f))
    : ∃ id, w.buffer = some { id, callable := f, movedFrom := false }
        ∧ w.object type (type f) = some { id, callable := f, movedFrom := false } := by
  rcases (calls_some.mp h).2 with ⟨id, hbuffer⟩
  exact ⟨id, hbuffer, by simp [Wrapper.object, hbuffer]⟩

-- The object that is counted for a wrapper
def Wrapper.held (w : Wrapper κ τ) : Option Nat :=
  if w.vtable.isSome then w.buffer.map Object.id else none

variable {s t : State κ τ} {w other : Wrapper κ τ} {x y : WrapperId} {holds : Option κ}

theorem destroy_of_calls (hw : s.wrapper x = some w) (h : Calls type w holds)
    : ∃ w', Calls type { w' with vtable := none } none ∧ w'.held = none
        ∧ s.destroy type x w
            =
          some ({ s with
            wrapper := update s.wrapper x (some w')
            destroyed := w.held.toList ++ s.destroyed
          }, w') := by
  cases holds with
  | none =>
    rcases calls_none.mp h with ⟨hvtable, hbuffer⟩
    refine ⟨w, calls_none.mpr ⟨rfl, hbuffer⟩, by simp [Wrapper.held, hvtable], ?_⟩
    have hsame : update s.wrapper x (some w) = s.wrapper := by rw [← hw, Function.update_eq_self]
    simp [State.destroy, Wrapper.held, hvtable, hsame]
  | some f =>
    have hvtable := (calls_some.mp h).1
    rcases object_of_calls h with ⟨id, hbuffer, hobject⟩
    refine ⟨{ w with buffer := none }, calls_none.mpr ⟨rfl, nofun⟩, by simp [Wrapper.held], ?_⟩
    simp [State.destroy, Wrapper.held, hvtable, hobject, hbuffer]

theorem move_of_calls_none (h : Calls type other none)
    : s.move type x w y other
        =
      some { s with wrapper := update s.wrapper x (some { w with vtable := none }) } := by
  simp [State.move, (calls_none.mp h).1]

theorem move_of_calls_some (h : Calls type other (some f))
    : ∃ o : Object κ, o.callable = f ∧ other.held = some o.id
        ∧ s.move type x w y other
            =
          some { s with
            wrapper := update
              (update s.wrapper x
                (some { buffer := some { o with id := s.constructed, movedFrom := false }, vtable := some (type f) }))
              y (some { buffer := some { o with movedFrom := true }, vtable := none })
            constructed := s.constructed + 1
          } := by
  have hvtable := (calls_some.mp h).1
  rcases object_of_calls h with ⟨id, hbuffer, hobject⟩
  refine ⟨{ id, callable := f, movedFrom := false }, rfl, ?_, ?_⟩
  . simp [Wrapper.held, hvtable, hbuffer]
  . simp [State.move, hvtable, hobject]

section Faithful

variable {wrapper : WrapperId → Option (Wrapper κ τ)} {history : WrapperId → Option κ}

-- Whatever has been at `x` before
theorem Faithful.set (h : Faithful type (Function.update wrapper x none) history)
    (hw : Calls type w holds)
    : Faithful type (Function.update wrapper x (some w)) (Function.update history x holds) := by
  intro z w' hz
  by_cases hzx : z = x
  . subst hzx
    rw [Function.update_self, Option.some.injEq] at hz
    rw [Function.update_self, ← hz]
    exact hw
  . rw [Function.update_of_ne hzx] at hz
    rw [Function.update_of_ne hzx]
    apply h z w'
    rw [Function.update_of_ne hzx, hz]

theorem Faithful.erase (h : Faithful type wrapper history) (x : WrapperId)
    : Faithful type (Function.update wrapper x none) history := by
  intro z w' hz
  by_cases hzx : z = x
  . subst hzx
    rw [Function.update_self] at hz
    cases hz
  . rw [Function.update_of_ne hzx] at hz
    exact h z w' hz

end Faithful

theorem wrapper_invoke (h : s.invoke type x after = some t)
    : ∃ w, s.wrapper x = some w
        ∧ ((w.invoke type = some none ∧ t = s)
          ∨ ∃ f, w.invoke type = some (some f) ∧ type after = type f
            ∧ t = { s with
              wrapper := update s.wrapper x
                (some { w with buffer := w.buffer.map fun o => { o with callable := after } })
            }) := by
  simp only [State.invoke, Option.bind_eq_some_iff] at h
  rcases h with ⟨w, hw, ran, hran, h⟩
  refine ⟨w, hw, ?_⟩
  cases ran with
  | none =>
    cases h
    exact .inl ⟨hran, rfl⟩
  | some f =>
    simp only [Option.ite_none_right_eq_some] at h
    rcases h with ⟨htype, h⟩
    cases h
    exact .inr ⟨f, hran, htype, rfl⟩

theorem faithful_move {w' : Wrapper κ τ} (h : Faithful type (update s.wrapper x none) s.history)
    (hne : y ≠ x) (hy : s.wrapper y = some other) (hempty : Calls type { w' with vtable := none } none)
    (hs : s.move type x w' y other = some t)
    : Faithful type t.wrapper (update (update s.history x (s.history y)) y none) := by
  have hother : Calls type other (s.history y) := by
    apply h y other
    rw [Function.update_of_ne hne, hy]
  cases hholds : s.history y with
  | none =>
    rw [hholds] at hother
    rw [move_of_calls_none hother, Option.some.injEq] at hs
    subst hs
    have hkeep : update (update s.history x none) y none = update s.history x none := by
      rw [Function.update_eq_self_iff, Function.update_of_ne hne, hholds]
    rw [hkeep]
    exact h.set hempty
  | some f =>
    rw [hholds] at hother
    rcases move_of_calls_some (s := s) (w := w') (x := x) (y := y) hother with ⟨o, rfl, _, heq⟩
    rw [heq, Option.some.injEq] at hs
    subst hs
    apply Faithful.set
    . apply Faithful.erase
      apply h.set
      exact calls_some.mpr ⟨rfl, _, rfl⟩
    . exact calls_none.mpr ⟨rfl, fun o' ho' => by cases ho'; rfl⟩

theorem faithful_perform (h : Faithful type s.wrapper s.history) (hswap : ∀ x y, a ≠ .swap x y)
    (hs : s.perform type a = some t)
    : Faithful type t.wrapper (record s.history a) := by
  have hnew : Calls type ({ buffer := none, vtable := none } : Wrapper κ τ) none :=
    calls_none.mpr ⟨rfl, nofun⟩
  cases a with
  | default x =>
    simp only [State.perform, Option.ite_none_right_eq_some, Option.some.injEq] at hs
    rcases hs with ⟨_, rfl⟩
    exact (h.erase x).set hnew
  | construct x f =>
    simp only [State.perform, Option.ite_none_right_eq_some, Option.some.injEq] at hs
    rcases hs with ⟨_, rfl⟩
    exact (h.erase x).set (calls_some.mpr ⟨rfl, _, rfl⟩)
  | moveConstruct x y =>
    simp only [State.perform, Option.ite_none_right_eq_some, Option.bind_eq_some_iff] at hs
    rcases hs with ⟨⟨_, hne⟩, other, hy, hs⟩
    exact faithful_move (h.erase x) hne hy hnew hs
  | moveAssign x y =>
    simp only [State.perform, State.moveAssign] at hs
    simp only [record]
    split at hs
    . next w other hx hy =>
      split at hs
      . next heq =>
        cases hs
        rw [if_pos heq]
        exact h
      . next hne =>
        rw [if_neg hne]
        rcases destroy_of_calls hx (h x w hx) with ⟨w', hempty, _, hdestroy⟩
        rw [hdestroy, Option.bind_some] at hs
        apply faithful_move _ hne _ hempty hs
        . rw [Function.update_idem]
          exact h.erase x
        . simp only [Function.update_of_ne hne]
          exact hy
    . cases hs
  | assignNull x =>
    simp only [State.perform, State.assignNull, Option.bind_eq_some_iff, Option.map_eq_some_iff] at hs
    rcases hs with ⟨w, hx, ⟨s', w'⟩, hdestroy, rfl⟩
    rcases destroy_of_calls hx (h x w hx) with ⟨w'', hempty, _, heq⟩
    rw [heq] at hdestroy
    cases hdestroy
    simp only [record, Function.update_idem]
    exact (h.erase x).set hempty
  | swap x y => exact absurd rfl (hswap x y)
  | invoke x after =>
    rcases wrapper_invoke hs with ⟨w, hx, hor⟩
    have hcalls := h x w hx
    have hholds : w.invoke type = some (s.history x) := hcalls.runs
    rcases hor with ⟨hinvoke, rfl⟩ | ⟨f, hinvoke, htype, rfl⟩
    . rw [hinvoke, Option.some.injEq] at hholds
      have hkeep : record t.history (.invoke x after) = t.history := by
        simp only [record, ← hholds, Option.map_none]
        rw [hholds, Function.update_eq_self]
      rw [hkeep]
      exact h
    . rw [hinvoke, Option.some.injEq] at hholds
      rw [← hholds] at hcalls
      rcases calls_some.mp hcalls with ⟨hvtable, id, hbuffer⟩
      simp only [record, ← hholds, Option.map_some]
      apply (h.erase x).set
      exact calls_some.mpr ⟨by rw [hvtable, htype], id, by simp only [hbuffer, Option.map_some]⟩
  | destruct x =>
    simp only [State.perform, State.destruct, Option.bind_eq_some_iff, Option.map_eq_some_iff] at hs
    rcases hs with ⟨w, hx, ⟨s', w'⟩, hdestroy, rfl⟩
    rcases destroy_of_calls hx (h x w hx) with ⟨w'', hempty, _, heq⟩
    rw [heq] at hdestroy
    cases hdestroy
    simp only [record, Function.update_idem]
    intro z w hz
    have hne : z ≠ x := by
      rintro rfl
      rw [Function.update_self] at hz
      cases hz
    rw [Function.update_of_ne hne] at hz ⊢
    exact h z w hz

theorem faithful_swap {a b : Option κ} {other : Wrapper κ τ} (hw : Calls type w a)
    (hother : Calls type other b)
    : Calls type { w with vtable := other.vtable } b ↔ a = b := by
  cases a with
  | none =>
    cases b with
    | none => exact iff_of_true (calls_none.mpr ⟨(calls_none.mp hother).1, (calls_none.mp hw).2⟩) rfl
    | some g =>
      refine iff_of_false ?_ nofun
      intro h
      rcases (calls_some.mp h).2 with ⟨id, hbuffer⟩
      have := (calls_none.mp hw).2 _ hbuffer
      cases this
  | some f =>
    rcases calls_some.mp hw with ⟨hvtable, id, hbuffer⟩
    cases b with
    | none =>
      refine iff_of_false ?_ nofun
      intro h
      have := (calls_none.mp h).2 _ hbuffer
      cases this
    | some g =>
      rw [calls_some, hbuffer]
      have hvtable' := (calls_some.mp hother).1
      constructor
      . intro h
        rcases h.2 with ⟨id', hid⟩
        cases hid
        rfl
      . intro h
        cases h
        exact ⟨hvtable', id, rfl⟩

theorem faithful_step (h : Faithful type s.wrapper s.history) (hs : step type s a = some t)
    : Faithful type t.wrapper t.history ↔ Alike s a := by
  simp only [step, Option.map_eq_some_iff] at hs
  rcases hs with ⟨t, hs, rfl⟩
  cases a with
  | swap x y =>
    simp only [State.perform, State.swap] at hs
    simp only [Alike, record]
    split at hs
    . next w other hx hy =>
      have hw := h x w hx
      have hother := h y other hy
      split at hs
      . next heq =>
        cases hs
        subst heq
        refine iff_of_true ?_ (.inl rfl)
        rw [Function.update_idem, Function.update_eq_self]
        exact h
      . next hne =>
        cases hs
        simp only [hne, false_or]
        rw [← faithful_swap hw hother]
        constructor
        . intro hfaithful
          have := hfaithful x { w with vtable := other.vtable }
          rw [Function.update_of_ne (Ne.symm hne), Function.update_self,
            Function.update_of_ne (Ne.symm hne), Function.update_self] at this
          exact this rfl
        . intro hcalls
          have heq := (faithful_swap hw hother).mp hcalls
          apply Faithful.set
          . apply Faithful.erase
            apply Faithful.set (h.erase x)
            exact hcalls
          . exact (faithful_swap hother hw).mpr heq.symm
    . cases hs
  | _ => exact iff_of_true (faithful_perform h (by simp) hs) trivial

/--
Every wrapper calls what the operations say just as long as `swap` is called on wrappers that hold the
same.
-/
theorem faithful_iff_alike (as : List (Action κ))
    : (machine type).Always (fun s => Faithful type s.wrapper s.history) (State.start κ τ) as
        ↔
      (machine type).Meets Alike (State.start κ τ) as := by
  apply Machine.always_iff_meets (I := fun _ => True)
  . intro s a t _ h hs
    exact ⟨trivial, faithful_step h hs⟩
  . trivial
  . intro x w hx
    cases hx

-- Callables of two types, the even and the odd numbers
def exchanged : List (Action Nat) :=
  [.construct 0 2, .construct 1 3, .swap 0 1]

theorem not_faithful_exchanged
    : ¬∀ s, (machine (· % 2)).Reachable s → Faithful (· % 2) s.wrapper s.history := by
  intro h
  have hexec : (machine (· % 2)).exec (State.start Nat Nat) exchanged = some _ := rfl
  have hfaithful := h _ (Machine.Reachable.of_exec exchanged rfl hexec)
  have := (hfaithful 0 _ rfl).typed 1 _ rfl rfl
  cases this

end InplaceFunction
end Koro
