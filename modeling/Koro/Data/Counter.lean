import Mathlib.Data.UInt

/-!
This module contains what it takes for a counter of 64 bits to go on telling how many things there
are: one more is counted by adding 1 as long as the number fits, and nothing else is.
-/

namespace Counter

variable {c : UInt64} {k : Nat}

theorem add_one (h : c.toNat = k) : (c + 1).toNat = k + 1 ↔ k + 1 < 2 ^ 64 := by
  rw [UInt64.toNat_add, h]
  have : (1 : UInt64).toNat = 1 := rfl
  omega

theorem add_one_ne (h : c.toNat = k) : (c + 1).toNat ≠ k := by
  rw [UInt64.toNat_add, h]
  have : (1 : UInt64).toNat = 1 := rfl
  omega

theorem add_one_ne_of_succ (h : c.toNat = k + 1) : (c + 1).toNat ≠ k := by
  rw [UInt64.toNat_add, h]
  have : (1 : UInt64).toNat = 1 := rfl
  omega

theorem sub_one (h : c.toNat = k + 1) : (c - 1).toNat = k := by
  have hlt := c.toNat_lt
  rw [UInt64.toNat_sub, h]
  have : (1 : UInt64).toNat = 1 := rfl
  omega

theorem sub_one_ne (h : c.toNat = k) : (c - 1).toNat ≠ k := by
  have hlt := c.toNat_lt
  rw [UInt64.toNat_sub, h]
  have : (1 : UInt64).toNat = 1 := rfl
  omega

end Counter
