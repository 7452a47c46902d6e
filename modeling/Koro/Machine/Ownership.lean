import Mathlib.Logic.Function.Basic

/-!
This module contains the discipline of locks that are taken by a compare-and-set of a flag and given
back by clearing it: `own i` is the lock that thread `i` has taken and not yet given back, `flag k`
is the flag of lock `k`. As long as threads take only locks whose flag is clear, and clear only
flags of locks they own, no two threads own one lock.
-/

structure Ownership (own : ι → Option κ) (flag : κ → Bool) : Prop where
  set : ∀ i k, own i = some k → flag k = true
  unique : ∀ i j k, own i = some k → own j = some k → i = j

namespace Ownership

open Function (update)

variable {own : ι → Option κ} {flag : κ → Bool}

theorem none (h : ∀ i, own i = Option.none) : Ownership own flag where
  set := by simp [h]
  unique := by simp [h]

theorem free (h : Ownership own flag) (hk : flag k = false) (i : ι) : own i ≠ some k := by
  intro hi
  simp [h.set i k hi] at hk

variable [DecidableEq ι] [DecidableEq κ]

theorem acquire (h : Ownership own flag) (i : ι) (k : κ) (hk : ∀ j, own j ≠ some k)
    : Ownership (update own i (some k)) (update flag k true) where
  set := by
    intro j l hj
    by_cases hl : l = k
    . simp [hl]
    . simp only [hl, ne_eq, not_false_eq_true, Function.update_of_ne]
      by_cases hji : j = i
      . simp [hji, Ne.symm hl] at hj
      . rw [Function.update_of_ne hji] at hj
        exact h.set j l hj
  unique := by
    intro a b l ha hb
    by_cases hai : a = i <;> by_cases hbi : b = i
    . rw [hai, hbi]
    . simp only [hai, Function.update_self, Option.some.injEq] at ha
      rw [Function.update_of_ne hbi, ← ha] at hb
      exact absurd hb (hk b)
    . simp only [hbi, Function.update_self, Option.some.injEq] at hb
      rw [Function.update_of_ne hai, ← hb] at ha
      exact absurd ha (hk a)
    . rw [Function.update_of_ne hai] at ha
      rw [Function.update_of_ne hbi] at hb
      exact h.unique a b l ha hb

theorem release (h : Ownership own flag) (i : ι) (k : κ) (hi : own i = some k)
    : Ownership (update own i Option.none) (update flag k false) where
  set := by
    intro j l hj
    by_cases hji : j = i
    . simp [hji] at hj
    . rw [Function.update_of_ne hji] at hj
      have : l ≠ k := by
        intro hl
        rw [hl] at hj
        exact hji (h.unique j i k hj hi)
      rw [Function.update_of_ne this]
      exact h.set j l hj
  unique := by
    intro a b l ha hb
    by_cases hai : a = i
    . simp [hai] at ha
    . by_cases hbi : b = i
      . simp [hbi] at hb
      . rw [Function.update_of_ne hai] at ha
        rw [Function.update_of_ne hbi] at hb
        exact h.unique a b l ha hb

omit [DecidableEq ι] in
theorem reset (h : Ownership own flag) (k : κ) (b : Bool) (hk : ∀ j, own j ≠ some k)
    : Ownership own (update flag k b) where
  set := by
    intro j l hj
    have : l ≠ k := by
      intro hl
      rw [hl] at hj
      exact hk j hj
    rw [Function.update_of_ne this]
    exact h.set j l hj
  unique := h.unique

end Ownership
