import Mathlib.Order.Lattice
import Mathlib.Data.List.Basic
import Mathlib.Data.List.Pairwise
import Mathlib.Data.List.TakeWhile

/-!
This module contains sets that are kept in the order of their elements' keys, with at most one
element for each key, and the operations of such a set that depend on the order: its first element,
and cutting off everything up to a key.
-/

structure OrderedSet {α : Type u} {κ : Type v} [LinearOrder κ] (key : α → κ) where
  toList : List α
  sorted : toList.Pairwise fun a b => key a < key b

namespace OrderedSet

variable {α : Type u} {κ : Type v} [LinearOrder κ] {key : α → κ}

instance : Membership α (OrderedSet key) where
  mem s a := a ∈ s.toList

theorem mem_toList {s : OrderedSet key} : a ∈ s.toList ↔ a ∈ s :=
  Iff.rfl

def empty : OrderedSet key where
  toList := []
  sorted := List.Pairwise.nil

def isEmpty (s : OrderedSet key) : Bool :=
  s.toList.isEmpty

def first (s : OrderedSet key) : Option α :=
  s.toList.head?

-- An element whose key is present already is not inserted
def insertList (key : α → κ) (a : α) : List α → List α
  | [] => [a]
  | b :: l =>
    if key a < key b then
      a :: b :: l
    else if key b < key a then
      b :: insertList key a l
    else
      b :: l

theorem mem_insertList_imp (h : b ∈ insertList key a l) : b = a ∨ b ∈ l := by
  induction l with
  | nil =>
    simp only [insertList, List.mem_singleton] at h
    exact .inl h
  | cons c l ih =>
    simp only [insertList] at h
    split at h
    . simpa using h
    . split at h
      . cases List.mem_cons.mp h with
        | inl h => simp [h]
        | inr h => cases ih h with
          | inl h => exact .inl h
          | inr h => simp [h]
      . exact .inr h

theorem mem_insertList (h : ∀ c ∈ l, key c ≠ key a)
    : b ∈ insertList key a l ↔ b = a ∨ b ∈ l := by
  induction l with
  | nil => simp [insertList]
  | cons c l ih =>
    have hl : ∀ d ∈ l, key d ≠ key a := by
      intro d hd
      exact h d (List.mem_cons_of_mem c hd)
    simp only [insertList]
    split
    . simp
    . next hac =>
      split
      . rw [List.mem_cons, List.mem_cons, ih hl]
        tauto
      . next hca =>
        have := h c List.mem_cons_self
        have := lt_or_gt_of_ne this
        tauto

theorem sorted_insertList (h : l.Pairwise fun a b => key a < key b)
    : (insertList key a l).Pairwise fun a b => key a < key b := by
  induction l with
  | nil => simp [insertList]
  | cons c l ih =>
    rw [List.pairwise_cons] at h
    simp only [insertList]
    split
    . next hac =>
      rw [List.pairwise_cons]
      constructor
      . intro d hd
        cases List.mem_cons.mp hd with
        | inl hd => rwa [hd]
        | inr hd => exact lt_trans hac (h.left d hd)
      . rw [List.pairwise_cons]
        exact h
    . split
      . next hca =>
        rw [List.pairwise_cons]
        constructor
        . intro d hd
          cases mem_insertList_imp hd with
          | inl hd => rwa [hd]
          | inr hd => exact h.left d hd
        . exact ih h.right
      . rw [List.pairwise_cons]
        exact h

def insert (s : OrderedSet key) (a : α) : OrderedSet key where
  toList := insertList key a s.toList
  sorted := sorted_insertList s.sorted

theorem mem_insert {s : OrderedSet key} (h : ∀ c ∈ s, key c ≠ key a)
    : b ∈ s.insert a ↔ b = a ∨ b ∈ s :=
  mem_insertList h

theorem isEmpty_insert {s : OrderedSet key} : (s.insert a).isEmpty = false := by
  cases h : s.toList with
  | nil => simp [isEmpty, insert, h, insertList]
  | cons b l =>
    simp only [isEmpty, insert, h, insertList]
    split
    . rfl
    . split <;> rfl

theorem isEmpty_iff {s : OrderedSet key} : s.isEmpty = true ↔ ∀ a, a ∉ s := by
  simp only [isEmpty, List.isEmpty_iff, List.eq_nil_iff_forall_not_mem, mem_toList]

-- From the first element up to the upper bound of `k`
def upTo (s : OrderedSet key) (k : κ) : List α :=
  s.toList.takeWhile fun a => decide (key a ≤ k)

def eraseUpTo (s : OrderedSet key) (k : κ) : OrderedSet key where
  toList := s.toList.dropWhile fun a => decide (key a ≤ k)
  sorted := s.sorted.sublist (List.dropWhile_sublist _)

theorem sorted_upTo {s : OrderedSet key} : (s.upTo k).Pairwise fun a b => key a < key b :=
  s.sorted.sublist (List.takeWhile_sublist _)

theorem lt_of_mem_dropWhile {l : List α} (h : l.Pairwise fun a b => key a < key b)
    (ha : a ∈ l.dropWhile fun a => decide (key a ≤ k))
    : k < key a := by
  induction l with
  | nil => simp at ha
  | cons b l ih =>
    rw [List.pairwise_cons] at h
    rw [List.dropWhile_cons] at ha
    split at ha
    . exact ih h.right ha
    . next hb =>
      have hk : k < key b := by simpa using hb
      cases List.mem_cons.mp ha with
      | inl ha => rwa [ha]
      | inr ha => exact lt_trans hk (h.left a ha)

theorem mem_iff_upTo_or_eraseUpTo {s : OrderedSet key}
    : a ∈ s ↔ a ∈ s.upTo k ∨ a ∈ s.eraseUpTo k := by
  rw [← mem_toList, ← mem_toList]
  unfold upTo eraseUpTo
  rw [← List.mem_append, List.takeWhile_append_dropWhile]

theorem mem_eraseUpTo {s : OrderedSet key} : a ∈ s.eraseUpTo k ↔ a ∈ s ∧ k < key a := by
  constructor
  . intro h
    exact ⟨mem_iff_upTo_or_eraseUpTo.mpr (.inr h), lt_of_mem_dropWhile s.sorted h⟩
  . intro h
    cases mem_iff_upTo_or_eraseUpTo.mp h.left with
    | inl hup =>
      have : key a ≤ k := by simpa using List.mem_takeWhile_imp hup
      exact absurd h.right (not_lt_of_ge this)
    | inr herase => exact herase

theorem mem_upTo {s : OrderedSet key} : a ∈ s.upTo k ↔ a ∈ s ∧ key a ≤ k := by
  constructor
  . intro h
    exact ⟨mem_iff_upTo_or_eraseUpTo.mpr (.inl h), by simpa using List.mem_takeWhile_imp h⟩
  . intro h
    cases mem_iff_upTo_or_eraseUpTo.mp h.left with
    | inl hup => exact hup
    | inr herase => exact absurd h.right (not_le_of_gt (mem_eraseUpTo.mp herase).right)

theorem first_mem {s : OrderedSet key} (h : s.first = some a) : a ∈ s :=
  List.mem_of_head? h

theorem first_le {s : OrderedSet key} (h : s.first = some a) (hb : b ∈ s) : key a ≤ key b := by
  cases hs : s.toList with
  | nil => simp [first, hs] at h
  | cons c l =>
    have hsorted := s.sorted
    rw [hs, List.pairwise_cons] at hsorted
    simp only [first, hs, List.head?_cons, Option.some.injEq] at h
    rw [← mem_toList, hs, List.mem_cons] at hb
    cases hb with
    | inl hb => rw [hb, ← h]
    | inr hb => rw [← h]; exact le_of_lt (hsorted.left b hb)

theorem first_none {s : OrderedSet key} : s.first = none ↔ ∀ a, a ∉ s := by
  rw [← isEmpty_iff]
  cases hs : s.toList <;> simp [first, isEmpty, hs]

end OrderedSet
