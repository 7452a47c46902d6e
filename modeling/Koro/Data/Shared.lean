import Mathlib.Data.List.Basic

/-!
This module contains lists that several writers append to in turn.

Each element carries the writer it comes from. `whole` is what a reader who does not see the writers
finds, and `part k` is what the writer `k` has written. The whole is the part of one writer just if no
other writer has written anything.
-/

namespace Koro
namespace Shared

variable {κ : Type u} {α : Type v}

def whole (l : List (κ × α)) : List α :=
  l.map Prod.snd

def write (l : List (κ × α)) (k : κ) (xs : List α) : List (κ × α) :=
  l ++ xs.map fun x => (k, x)

theorem whole_write (l : List (κ × α)) (k : κ) (xs : List α) : whole (write l k xs) = whole l ++ xs := by
  simp [whole, write, Function.comp_def]

variable [DecidableEq κ]

def part (k : κ) (l : List (κ × α)) : List α :=
  whole (l.filter fun x => x.1 = k)

@[simp]
theorem part_nil (k : κ) : part k ([] : List (κ × α)) = [] :=
  rfl

theorem part_cons_self (k : κ) (a : α) (l : List (κ × α)) : part k ((k, a) :: l) = a :: part k l := by
  simp [part, whole]

theorem part_cons_of_ne {j k : κ} (h : j ≠ k) (a : α) (l : List (κ × α))
    : part k ((j, a) :: l) = part k l := by
  simp [part, whole, h]

theorem part_write_self (l : List (κ × α)) (k : κ) (xs : List α)
    : part k (write l k xs) = part k l ++ xs := by
  simp [part, whole, write, List.filter_map, Function.comp_def]

theorem part_write_of_ne {j k : κ} (h : j ≠ k) (l : List (κ × α)) (xs : List α)
    : part k (write l j xs) = part k l := by
  simp [part, whole, write, List.filter_map, Function.comp_def, h]

theorem length_part_le (k : κ) (l : List (κ × α)) : (part k l).length ≤ (whole l).length := by
  simp only [part, whole, List.length_map]
  exact List.length_filter_le _ l

/--
The whole is the part of `k` just if nobody else has written anything.
-/
theorem whole_eq_part_iff (k : κ) (l : List (κ × α))
    : whole l = part k l ↔ ∀ j, j ≠ k → part j l = [] := by
  induction l with
  | nil =>
    exact iff_of_true rfl (fun _ _ => rfl)
  | cons x l ih =>
    rcases x with ⟨j, a⟩
    by_cases h : j = k
    . subst h
      rw [part_cons_self, show whole ((j, a) :: l) = a :: whole l from rfl, List.cons.injEq, ih]
      constructor
      . intro hothers i hi
        rw [part_cons_of_ne (Ne.symm hi)]
        exact hothers.2 i hi
      . intro hothers
        refine ⟨rfl, ?_⟩
        intro i hi
        rw [← part_cons_of_ne (Ne.symm hi) a]
        exact hothers i hi
    . -- The writer `j` has written `a`, which the part of `k` lacks
      refine iff_of_false ?_ ?_
      . intro heq
        have hlength := congrArg List.length heq
        have hle := length_part_le k l
        rw [part_cons_of_ne h, show whole ((j, a) :: l) = a :: whole l from rfl,
          List.length_cons] at hlength
        omega
      . intro hothers
        have := hothers j h
        rw [part_cons_self] at this
        cases this

end Shared
end Koro
