import Mathlib.Logic.Function.Basic

/-!
This module contains `FixedBuffer`: a pointer to an array of `N` contexts and the number of those in
use. The arrays are kept apart in a `Heap`, as moving a buffer moves the pointer and leaves a null
pointer behind, and reusing one leaves the old contexts in its array. An array is named by the number
of arrays allocated before it.
-/

namespace Koro
namespace Elog

open Function (update)

-- What `new Context[N]` and `delete[]` have done
structure Heap (α : Type) where
  cells : Nat → Nat → α
  arrays : Nat
  freed : List Nat

structure FixedBuffer where
  ctxs : Option Nat
  index : Nat
  deriving DecidableEq, Repr

namespace FixedBuffer

-- What a move leaves behind
def null : FixedBuffer where
  ctxs := none
  index := 0

def check (b : FixedBuffer) : Bool :=
  b.ctxs.isSome

def empty (b : FixedBuffer) : Bool :=
  b.index = 0

def full (N : Nat) (b : FixedBuffer) : Bool :=
  b.index = N

def reset (b : FixedBuffer) : FixedBuffer :=
  { b with index := 0 }

-- How many times the array is the buffer's own
def owns (b : FixedBuffer) (a : Nat) : Nat :=
  (decide (b.ctxs = some a)).toNat

end FixedBuffer

namespace Heap

variable {α : Type}

def new [Inhabited α] (h : Heap α) : FixedBuffer × Heap α :=
  ({ ctxs := some h.arrays, index := 0 },
    { h with
      cells := update h.cells h.arrays fun _ => default
      arrays := h.arrays + 1
    })

def allocated (h : Heap α) (a : Nat) : Nat :=
  (decide (a < h.arrays)).toNat

def destroy (h : Heap α) (bs : List FixedBuffer) : Heap α :=
  { h with freed := h.freed ++ bs.filterMap FixedBuffer.ctxs }

-- `none` is where the assertion fails
def push (N : Nat) (h : Heap α) (b : FixedBuffer) (ctx : α) : Option (FixedBuffer × Heap α) :=
  match b.ctxs with
  | none => none
  | some a =>
    if b.full N then
      some (b, h)
    else
      some ({ b with index := b.index + 1 },
        { h with cells := update h.cells a (update (h.cells a) b.index ctx) })

-- From `begin` to `end`
def contents (h : Heap α) (b : FixedBuffer) : List α :=
  match b.ctxs with
  | none => []
  | some a => (List.range b.index).map (h.cells a)

variable {N : Nat} {h h' : Heap α} {b b' c : FixedBuffer} {ctx : α}

theorem allocated_new [Inhabited α] (a : Nat)
    : h.new.2.allocated a = h.allocated a + h.new.1.owns a := by
  unfold allocated new FixedBuffer.owns
  by_cases hlt : a < h.arrays
  . have hne : h.arrays ≠ a := Nat.ne_of_gt hlt
    simp [hlt, hne, Nat.lt_succ_of_lt hlt]
  . by_cases heq : h.arrays = a
    . simp [heq]
    . have : ¬a < h.arrays + 1 := by omega
      simp [hlt, heq, this]

theorem allocated_destroy (bs : List FixedBuffer) (a : Nat)
    : (h.destroy bs).allocated a = h.allocated a :=
  rfl

theorem freed_destroy (bs : List FixedBuffer)
    : (h.destroy bs).freed = h.freed ++ bs.filterMap FixedBuffer.ctxs :=
  rfl

theorem contents_of_index (hb : b.index = 0) : h.contents b = [] := by
  unfold contents
  split
  . rfl
  . simp [hb]

theorem contents_new [Inhabited α] (hb : b.ctxs ≠ some h.arrays)
    : h.new.2.contents b = h.contents b := by
  unfold contents new
  cases ha : b.ctxs with
  | none => rfl
  | some a =>
    have hne : a ≠ h.arrays := by
      rintro rfl
      exact hb ha
    simp only [Function.update_of_ne hne]

theorem push_ne_none (hb : b.check = true) : h.push N b ctx ≠ none := by
  rw [FixedBuffer.check, Option.isSome_iff_exists] at hb
  rcases hb with ⟨a, ha⟩
  unfold push
  simp only [ha]
  split <;> simp

theorem push_arrays (hpush : h.push N b ctx = some (b', h'))
    : b'.ctxs = b.ctxs ∧ h'.arrays = h.arrays ∧ h'.freed = h.freed := by
  unfold push at hpush
  split at hpush
  . cases hpush
  . split at hpush
    . cases hpush
      exact ⟨rfl, rfl, rfl⟩
    . cases hpush
      exact ⟨rfl, rfl, rfl⟩

theorem push_eq_some (hfull : b.full N = false) (hpush : h.push N b ctx = some (b', h'))
    : ∃ a,
        b.ctxs = some a
          ∧
        b' = { b with index := b.index + 1 }
          ∧
        h' = { h with cells := update h.cells a (update (h.cells a) b.index ctx) } := by
  unfold push at hpush
  cases ha : b.ctxs with
  | none => simp [ha] at hpush
  | some a =>
    simp only [ha, hfull, Bool.false_eq_true, ↓reduceIte, Option.some.injEq, Prod.mk.injEq] at hpush
    exact ⟨a, rfl, hpush.left.symm, hpush.right.symm⟩

theorem contents_push (hfull : b.full N = false) (hpush : h.push N b ctx = some (b', h'))
    : h'.contents b' = h.contents b ++ [ctx] := by
  rcases push_eq_some hfull hpush with ⟨a, ha, rfl, rfl⟩
  simp only [contents, ha, Function.update_self, List.range_succ, List.map_append, List.map_cons,
    List.map_nil, List.append_cancel_right_eq]
  apply List.map_congr_left
  intro k hk
  have hlt : k < b.index := List.mem_range.mp hk
  rw [Function.update_of_ne (Nat.ne_of_lt hlt)]

-- The array is no other buffer's
theorem contents_push_other (hfull : b.full N = false) (hpush : h.push N b ctx = some (b', h'))
    (hc : c.ctxs ≠ b.ctxs)
    : h'.contents c = h.contents c := by
  rcases push_eq_some hfull hpush with ⟨a, ha, _, rfl⟩
  unfold contents
  cases hca : c.ctxs with
  | none => rfl
  | some a' =>
    have hne : a' ≠ a := by
      rintro rfl
      exact hc (by rw [hca, ha])
    simp only [Function.update_of_ne hne]

end Heap

end Elog
end Koro
