import Mathlib.Data.List.Nodup
import Mathlib.Logic.Function.Basic

/-!
This module contains reference counts: each object is made with one reference to it, further references
are copied from those there are, and an object is freed when the last one goes.

The counts only see how many references are made and given up. `Exact made refs` says of them that they
tell how many references `refs` there really are to each object that has been `made`.
-/

namespace Koro

structure RefCounts (κ : Type u) where
  strong : κ → Nat
  freed : List κ

namespace RefCounts

open Function (update)

variable {κ : Type u} (c : RefCounts κ)

def empty : RefCounts κ where
  strong := fun _ => 0
  freed := []

variable [DecidableEq κ]

def make (k : κ) : RefCounts κ :=
  { c with strong := update c.strong k 1 }

def share (k : κ) : RefCounts κ :=
  { c with strong := update c.strong k (c.strong k + 1) }

def release (k : κ) : RefCounts κ where
  strong := update c.strong k (c.strong k - 1)
  freed := if c.strong k = 1 then k :: c.freed else c.freed

-- The references to `j` that one to `k` counts for
def one (k j : κ) : Nat :=
  if j = k then 1 else 0

@[simp]
theorem one_self (k : κ) : one k k = 1 :=
  if_pos rfl

theorem one_of_ne {j k : κ} (h : j ≠ k) : one k j = 0 :=
  if_neg h

/--
An object is freed once there is no reference to it any more, and once only.
-/
structure Exact (made : κ → Prop) (refs : κ → Nat) : Prop where
  strong : ∀ k, c.strong k = refs k
  known : ∀ k, refs k ≠ 0 → made k
  freed : ∀ k, k ∈ c.freed ↔ made k ∧ refs k = 0
  once : c.freed.Nodup

variable {c} {made made' : κ → Prop} {refs refs' : κ → Nat} {k : κ}

omit [DecidableEq κ] in
theorem exact_empty (hmade : ∀ k, ¬made k) (hrefs : ∀ k, refs k = 0)
    : (empty : RefCounts κ).Exact made refs where
  strong := fun k => (hrefs k).symm
  known := fun k hk => absurd (hrefs k) hk
  freed := by simp [empty, hmade]
  once := List.nodup_nil

namespace Exact

omit [DecidableEq κ] in
theorem not_freed (h : c.Exact made refs) (hk : refs k ≠ 0) : k ∉ c.freed := by
  intro hfreed
  exact hk ((h.freed k).mp hfreed).right

omit [DecidableEq κ] in
theorem stay (h : c.Exact made refs) (hrefs : ∀ j, refs' j = refs j) : c.Exact made refs' := by
  rw [show refs' = refs from funext hrefs]
  exact h

theorem make (h : c.Exact made refs) (hk : ¬made k) (hmade : ∀ j, made' j ↔ made j ∨ j = k)
    (hrefs : ∀ j, refs' j = refs j + one k j)
    : (c.make k).Exact made' refs' := by
  have hnone : refs k = 0 := by
    by_contra hne
    exact hk (h.known k hne)
  constructor
  . intro j
    change update c.strong k 1 j = refs' j
    by_cases hj : j = k
    . rw [hj, Function.update_self, hrefs, hnone, one_self]
    . rw [Function.update_of_ne hj, hrefs, one_of_ne hj, h.strong]
      rfl
  . intro j hne
    rw [hmade]
    by_cases hj : j = k
    . exact .inr hj
    . rw [hrefs, one_of_ne hj] at hne
      exact .inl (h.known j hne)
  . intro j
    change j ∈ c.freed ↔ made' j ∧ refs' j = 0
    rw [h.freed, hmade, hrefs]
    by_cases hj : j = k
    . simp [hj, hk]
    . simp [hj, one_of_ne hj]
  . exact h.once

theorem share (h : c.Exact made refs) (hk : refs k ≠ 0) (hrefs : ∀ j, refs' j = refs j + one k j)
    : (c.share k).Exact made refs' := by
  constructor
  . intro j
    change update c.strong k (c.strong k + 1) j = refs' j
    by_cases hj : j = k
    . rw [hj, Function.update_self, hrefs, one_self, h.strong]
    . rw [Function.update_of_ne hj, hrefs, one_of_ne hj, h.strong]
      rfl
  . intro j hne
    by_cases hj : j = k
    . rw [hj]
      exact h.known k hk
    . rw [hrefs, one_of_ne hj] at hne
      exact h.known j hne
  . intro j
    change j ∈ c.freed ↔ made j ∧ refs' j = 0
    rw [h.freed, hrefs]
    by_cases hj : j = k
    . simp [hj, hk]
    . simp [one_of_ne hj]
  . exact h.once

theorem release (h : c.Exact made refs) (hrefs : ∀ j, refs' j + one k j = refs j)
    : (c.release k).Exact made refs' := by
  have hk : refs' k + 1 = refs k := by
    rw [← hrefs k, one_self]
  have hother : ∀ j, j ≠ k → refs' j = refs j := by
    intro j hj
    rw [← hrefs j, one_of_ne hj]
    rfl
  have hmade : made k := h.known k (by omega)
  have hfresh : k ∉ c.freed := h.not_freed (by omega)
  constructor
  . intro j
    change update c.strong k (c.strong k - 1) j = refs' j
    by_cases hj : j = k
    . rw [hj, Function.update_self, h.strong, ← hk]
      rfl
    . rw [Function.update_of_ne hj, hother j hj, h.strong]
  . intro j hne
    by_cases hj : j = k
    . rw [hj]
      exact hmade
    . rw [hother j hj] at hne
      exact h.known j hne
  . intro j
    change j ∈ (if c.strong k = 1 then k :: c.freed else c.freed) ↔ made j ∧ refs' j = 0
    rw [h.strong]
    by_cases hj : j = k
    . subst hj
      split
      . next hlast =>
        have : refs' j = 0 := by omega
        simp [hmade, this]
      . next hmore =>
        have : refs' j ≠ 0 := by omega
        simp [hfresh, this]
    . rw [hother j hj, ← h.freed]
      split
      . rw [List.mem_cons]
        exact or_iff_right hj
      . rfl
  . change (if c.strong k = 1 then k :: c.freed else c.freed).Nodup
    split
    . exact List.nodup_cons.mpr ⟨hfresh, h.once⟩
    . exact h.once

end Exact
end RefCounts
end Koro
