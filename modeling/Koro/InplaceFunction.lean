import Koro.Machine.Basic
import Mathlib.Logic.Function.Basic

/-!
This module contains `InplaceFunction`: wrappers with a buffer and a pointer to the table of functions
for what is in the buffer, used by one thread.

Callables are of any type `κ`, and `type` gives the C++ type of each; the table for a type is named by
the type. A wrapper is named by a number, as is each callable object that is ever constructed in a
buffer. A function of a table needs an object of its type in the buffer; what it does to anything else is
undefined, `none`. A callable may change when it is invoked, though not in its type. `history` is what
each wrapper would hold if it held what the operations on it say.
-/

namespace Koro
namespace InplaceFunction

open Function (update)

abbrev WrapperId := Nat

structure Object (κ : Type u) where
  id : Nat
  callable : κ
  movedFrom : Bool
  deriving DecidableEq, Repr

structure Wrapper (κ : Type u) (τ : Type v) where
  buffer : Option (Object κ)
  vtable : Option τ
  deriving DecidableEq, Repr

structure State (κ : Type u) (τ : Type v) where
  wrapper : WrapperId → Option (Wrapper κ τ)
  constructed : Nat
  destroyed : List Nat
  history : WrapperId → Option κ

def State.start (κ : Type u) (τ : Type v) : State κ τ where
  wrapper := fun _ => none
  constructed := 0
  destroyed := []
  history := fun _ => none

variable {κ : Type u} {τ : Type v} [DecidableEq τ] (type : κ → τ)

-- What the functions of a table for `t` find in the buffer
def Wrapper.object (w : Wrapper κ τ) (t : τ) : Option (Object κ) :=
  w.buffer.filter fun o => type o.callable = t

namespace State

-- `InplaceFunction()` and `InplaceFunction(std::nullptr_t)`
def default (s : State κ τ) (x : WrapperId) : State κ τ :=
  { s with wrapper := update s.wrapper x (some { buffer := none, vtable := none }) }

-- `InplaceFunction(F&& f)`
def construct (s : State κ τ) (x : WrapperId) (f : κ) : State κ τ :=
  { s with
    wrapper := update s.wrapper x (some {
      buffer := some { id := s.constructed, callable := f, movedFrom := false }
      vtable := some (type f)
    })
    constructed := s.constructed + 1
  }

-- `if (vtable_) vtable_->destroy(buffer_)`
def destroy (s : State κ τ) (x : WrapperId) (w : Wrapper κ τ) : Option (State κ τ × Wrapper κ τ) :=
  match w.vtable with
  | none => some (s, w)
  | some t =>
    (w.object type t).map fun o =>
      let w := { w with buffer := none }
      ({ s with wrapper := update s.wrapper x (some w), destroyed := o.id :: s.destroyed }, w)

-- The rest of the move constructor and of the move assignment, where `w` is `*this`
def move (s : State κ τ) (x : WrapperId) (w : Wrapper κ τ) (y : WrapperId) (other : Wrapper κ τ)
    : Option (State κ τ) :=
  match other.vtable with
  | some t =>
    (other.object type t).map fun o =>
      let w := { buffer := some { o with id := s.constructed }, vtable := some t }
      let other := { buffer := some { o with movedFrom := true }, vtable := none }
      { s with
        wrapper := update (update s.wrapper x (some w)) y (some other)
        constructed := s.constructed + 1
      }
  | none => some { s with wrapper := update s.wrapper x (some { w with vtable := none }) }

def moveAssign (s : State κ τ) (x y : WrapperId) : Option (State κ τ) :=
  match s.wrapper x, s.wrapper y with
  | some w, some other =>
    if y = x then
      some s
    else
      (s.destroy type x w).bind fun (s, w) => s.move type x w y other
  | _, _ => none

def assignNull (s : State κ τ) (x : WrapperId) : Option (State κ τ) :=
  (s.wrapper x).bind fun w =>
    (s.destroy type x w).map fun (s, w) =>
      { s with wrapper := update s.wrapper x (some { w with vtable := none }) }

def swap (s : State κ τ) (x y : WrapperId) : Option (State κ τ) :=
  match s.wrapper x, s.wrapper y with
  | some w, some other =>
    if y = x then
      some s
    else
      some { s with
        wrapper := update (update s.wrapper x (some { w with vtable := other.vtable }))
          y (some { other with vtable := w.vtable })
      }
  | _, _ => none

-- `~InplaceFunction()`
def destruct (s : State κ τ) (x : WrapperId) : Option (State κ τ) :=
  (s.wrapper x).bind fun w =>
    (s.destroy type x w).map fun (s, _) => { s with wrapper := update s.wrapper x none }

end State

-- The callable that `operator()` runs, if any; that of an object moved from is unspecified
def Wrapper.invoke (w : Wrapper κ τ) : Option (Option κ) :=
  match w.vtable with
  | none => some none
  | some t => ((w.object type t).filter fun o => !o.movedFrom).map fun o => some o.callable

-- `operator()`, where the callable run is `after` afterwards
def State.invoke (s : State κ τ) (x : WrapperId) (after : κ) : Option (State κ τ) :=
  (s.wrapper x).bind fun w =>
    (w.invoke type).bind fun ran =>
      match ran with
      | none => some s
      | some f =>
        if type after = type f then
          some { s with
            wrapper := update s.wrapper x
              (some { w with buffer := w.buffer.map fun o => { o with callable := after } })
          }
        else
          none

inductive Action (κ : Type u) where
  | default (x : WrapperId)
  | construct (x : WrapperId) (f : κ)
  | moveConstruct (x y : WrapperId)
  | moveAssign (x y : WrapperId)
  | assignNull (x : WrapperId)
  | swap (x y : WrapperId)
  | invoke (x : WrapperId) (after : κ)
  | destruct (x : WrapperId)
  deriving DecidableEq, Repr

-- What the wrappers hold after an operation
def record (history : WrapperId → Option κ) : Action κ → WrapperId → Option κ
  | .default x => update history x none
  | .construct x f => update history x (some f)
  | .moveConstruct x y => update (update history x (history y)) y none
  | .moveAssign x y => if y = x then history else update (update history x (history y)) y none
  | .assignNull x => update history x none
  | .swap x y => update (update history x (history y)) y (history x)
  | .invoke x after => update history x ((history x).map fun _ => after)
  | .destruct x => update history x none

-- A wrapper is constructed where there is none
def State.perform (s : State κ τ) : Action κ → Option (State κ τ)
  | .default x => if s.wrapper x = none then some (s.default x) else none
  | .construct x f => if s.wrapper x = none then some (s.construct type x f) else none
  | .moveConstruct x y =>
    if s.wrapper x = none ∧ y ≠ x then
      (s.wrapper y).bind fun other =>
        s.move type x { buffer := none, vtable := none } y other
    else
      none
  | .moveAssign x y => s.moveAssign type x y
  | .assignNull x => s.assignNull type x
  | .swap x y => s.swap x y
  | .invoke x after => s.invoke type x after
  | .destruct x => s.destruct type x

def step (s : State κ τ) (a : Action κ) : Option (State κ τ) :=
  (s.perform type a).map fun t => { t with history := record s.history a }

def machine : Machine (State κ τ) (Action κ) where
  init s := s = State.start κ τ
  step := step type

end InplaceFunction
end Koro
