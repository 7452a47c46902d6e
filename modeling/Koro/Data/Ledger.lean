import Mathlib.Data.List.Nodup
import Mathlib.Logic.Function.Basic

/-!
This module contains ledgers: resources, numbered in the order in which they are made, that are each
held in one slot until they are given back.

A ledger is sound where no resource is held twice or given back twice, and balanced where in addition
every resource that has not been given back is held. Making a resource and giving one back keep both;
to lose one, to empty its slot without giving it back, keeps a ledger sound and not balanced.
-/

namespace Koro

@[ext]
structure Ledger (ι : Type u) where
  held : ι → Option Nat
  made : Nat
  gone : List Nat

namespace Ledger

open Function (update)

variable {ι : Type u} [DecidableEq ι] (l : Ledger ι)

def acquire (i : ι) : Ledger ι where
  held := update l.held i (some l.made)
  made := l.made + 1
  gone := l.gone

def release (i : ι) : Ledger ι where
  held := update l.held i none
  made := l.made
  gone := (l.held i).toList ++ l.gone

def lose (i : ι) : Ledger ι :=
  { l with held := update l.held i none }

structure Sound : Prop where
  distinct : ∀ i j r, l.held i = some r → l.held j = some r → i = j
  held : ∀ i r, l.held i = some r → r < l.made ∧ r ∉ l.gone
  gone : ∀ r ∈ l.gone, r < l.made
  once : l.gone.Nodup

/--
What has been made and not been given back is what is held, and nothing has been given back twice.
-/
structure Balanced : Prop where
  held : ∀ r, r < l.made ∧ r ∉ l.gone ↔ ∃ i, l.held i = some r
  once : l.gone.Nodup

variable {l} {i : ι}

theorem held_empty {j : ι} {r : Nat} (h : update l.held i none j = some r) : j ≠ i ∧ l.held j = some r := by
  by_cases hj : j = i
  . subst hj
    rw [Function.update_self] at h
    cases h
  . rw [Function.update_of_ne hj] at h
    exact ⟨hj, h⟩

theorem held_acquire {j : ι} {r : Nat} (h : (l.acquire i).held j = some r)
    : j = i ∧ r = l.made ∨ j ≠ i ∧ l.held j = some r := by
  by_cases hj : j = i
  . subst hj
    simp only [acquire, Function.update_self, Option.some.injEq] at h
    exact .inl ⟨rfl, h.symm⟩
  . simp only [acquire, Function.update_of_ne hj] at h
    exact .inr ⟨hj, h⟩

theorem Sound.acquire (h : l.Sound) (i : ι) : (l.acquire i).Sound := by
  constructor
  . intro j k r hj hk
    rcases held_acquire hj with ⟨hji, hr⟩ | ⟨_, hold⟩
    . rcases held_acquire hk with ⟨hki, _⟩ | ⟨_, hold⟩
      . rw [hji, hki]
      . exact absurd (h.held k r hold).1 (Nat.not_lt_of_ge (Nat.le_of_eq hr.symm))
    . rcases held_acquire hk with ⟨_, hr⟩ | ⟨_, hold'⟩
      . exact absurd (h.held j r hold).1 (Nat.not_lt_of_ge (Nat.le_of_eq hr.symm))
      . exact h.distinct j k r hold hold'
  . intro j r hj
    rcases held_acquire hj with ⟨rfl, rfl⟩ | ⟨_, hj⟩
    . refine ⟨Nat.lt_succ_self _, ?_⟩
      intro hgone
      exact absurd (h.gone _ hgone) (Nat.lt_irrefl _)
    . exact ⟨Nat.lt_succ_of_lt (h.held j r hj).1, (h.held j r hj).2⟩
  . intro r hr
    exact Nat.lt_succ_of_lt (h.gone r hr)
  . exact h.once

theorem Sound.lose (h : l.Sound) (i : ι) : (l.lose i).Sound := by
  constructor
  . intro j k r hj hk
    exact h.distinct j k r (held_empty hj).2 (held_empty hk).2
  . intro j r hj
    exact h.held j r (held_empty hj).2
  . exact h.gone
  . exact h.once

theorem Sound.release (h : l.Sound) (i : ι) : (l.release i).Sound := by
  constructor
  . intro j k r hj hk
    exact h.distinct j k r (held_empty hj).2 (held_empty hk).2
  . intro j r hj
    rcases held_empty hj with ⟨hne, hj⟩
    refine ⟨(h.held j r hj).1, ?_⟩
    intro hmem
    simp only [Ledger.release, List.mem_append, Option.mem_toList] at hmem
    rcases hmem with hi | hgone
    . exact hne (h.distinct j i r hj hi)
    . exact (h.held j r hj).2 hgone
  . intro r hmem
    simp only [Ledger.release, List.mem_append, Option.mem_toList] at hmem
    rcases hmem with hi | hgone
    . exact (h.held i r hi).1
    . exact h.gone r hgone
  . simp only [Ledger.release]
    cases hi : l.held i with
    | none => exact h.once
    | some r => exact List.nodup_cons.mpr ⟨(h.held i r hi).2, h.once⟩

omit [DecidableEq ι] in
theorem balanced_iff (h : l.Sound)
    : l.Balanced ↔ ∀ r, r < l.made → r ∉ l.gone → ∃ i, l.held i = some r := by
  constructor
  . intro hbalanced r hr hgone
    exact (hbalanced.held r).mp ⟨hr, hgone⟩
  . intro hheld
    constructor
    . intro r
      constructor
      . intro hr
        exact hheld r hr.1 hr.2
      . intro hi
        rcases hi with ⟨i, hi⟩
        exact h.held i r hi
    . exact h.once

theorem Balanced.acquire (h : l.Balanced) (hsound : l.Sound) (hi : l.held i = none)
    : (l.acquire i).Balanced := by
  rw [balanced_iff (hsound.acquire i)]
  intro r hr hgone
  rcases Nat.lt_succ_iff_lt_or_eq.mp hr with hr | hr
  . rcases (h.held r).mp ⟨hr, hgone⟩ with ⟨j, hj⟩
    have hne : j ≠ i := by
      rintro rfl
      rw [hi] at hj
      cases hj
    exact ⟨j, by simp only [Ledger.acquire, Function.update_of_ne hne, hj]⟩
  . exact ⟨i, by simp only [Ledger.acquire, Function.update_self, hr]⟩

theorem Balanced.release (h : l.Balanced) (hsound : l.Sound) (i : ι) : (l.release i).Balanced := by
  rw [balanced_iff (hsound.release i)]
  intro r hr hgone
  simp only [Ledger.release, List.mem_append, Option.mem_toList, not_or] at hgone
  rcases (h.held r).mp ⟨hr, hgone.right⟩ with ⟨j, hj⟩
  have hne : j ≠ i := by
    rintro rfl
    exact hgone.left hj
  exact ⟨j, by simp only [Ledger.release, Function.update_of_ne hne, hj]⟩

/--
A resource that has been lost is neither held nor given back.
-/
theorem balanced_lose (h : l.Balanced) (hsound : l.Sound) : (l.lose i).Balanced ↔ l.held i = none := by
  constructor
  . intro hlose
    by_contra hne
    rcases Option.ne_none_iff_exists'.mp hne with ⟨r, hr⟩
    rcases (hlose.held r).mp (hsound.held i r hr) with ⟨j, hj⟩
    rcases held_empty hj with ⟨hji, hj⟩
    exact hji (hsound.distinct j i r hj hr)
  . intro hnone
    have hsame : l.lose i = l := by
      unfold lose
      rw [← hnone, Function.update_eq_self]
    rw [hsame]
    exact h

end Ledger
end Koro
