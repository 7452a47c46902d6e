import Mathlib.Algebra.BigOperators.Group.Finset.Basic
import Mathlib.Algebra.BigOperators.Fin
import Mathlib.Algebra.Order.BigOperators.Group.Finset

/-!
This module contains the counting of tokens that are spread over a finite family: what becomes of
the count when one member changes, and what a count of one says.
-/

namespace Tally

open Function (update)

variable {ι : Type u} {α : Type v} {s : Finset ι} {w w' : ι → Nat}

theorem sum_change [DecidableEq ι] {i : ι} (hi : i ∈ s) (h : ∀ j ∈ s, j ≠ i → w' j = w j)
    : ∑ j ∈ s, w' j + w i = ∑ j ∈ s, w j + w' i := by
  rw [← Finset.add_sum_erase s w' hi]
  rw [← Finset.add_sum_erase s w hi]
  have : ∑ j ∈ s.erase i, w' j = ∑ j ∈ s.erase i, w j := by
    apply Finset.sum_congr rfl
    intro j hj
    rw [Finset.mem_erase] at hj
    apply h j hj.right hj.left
  omega

theorem sum_update [Fintype ι] [DecidableEq ι] (w : α → Nat) (g : ι → α) (i : ι) (a : α)
    : ∑ j, w (update g i a j) + w (g i) = ∑ j, w (g j) + w a := by
  have hw : ∀ j ∈ Finset.univ, j ≠ i → w (update g i a j) = w (g j) := by
    intro j _ hj
    rw [Function.update_of_ne hj]
  have := sum_change (Finset.mem_univ i) hw
  rwa [Function.update_self] at this

theorem sum_update_of_eq [Fintype ι] [DecidableEq ι] {w : α → Nat} {g : ι → α} {i : ι} {a : α}
    (h : w a = w (g i))
    : ∑ j, w (update g i a j) = ∑ j, w (g j) := by
  have := sum_update w g i a
  omega

theorem le_sum {i : ι} (hi : i ∈ s) : w i ≤ ∑ j ∈ s, w j := by
  apply Finset.single_le_sum _ hi
  intro j _
  apply Nat.zero_le

theorem pair_le_sum [DecidableEq ι] {i j : ι} (hi : i ∈ s) (hj : j ∈ s) (hij : i ≠ j)
    : w i + w j ≤ ∑ k ∈ s, w k := by
  rw [← Finset.sum_pair hij]
  apply Finset.sum_le_sum_of_subset
  intro k hk
  simp only [Finset.mem_insert, Finset.mem_singleton] at hk
  cases hk with
  | inl hk => rwa [hk]
  | inr hk => rwa [hk]

theorem exists_of_sum_pos (h : 0 < ∑ i ∈ s, w i) : ∃ i ∈ s, 0 < w i := by
  have := Finset.exists_ne_zero_of_sum_ne_zero (Nat.ne_of_gt h)
  simpa [Nat.pos_iff_ne_zero] using this

theorem eq_of_sum_le_one [DecidableEq ι] {i j : ι} (h : ∑ k ∈ s, w k ≤ 1) (hi : i ∈ s)
    (hj : j ∈ s) (hwi : 0 < w i) (hwj : 0 < w j)
    : i = j := by
  by_cases hij : i = j
  . exact hij
  . have := pair_le_sum (w := w) hi hj hij
    omega

theorem countP_pos_of_getElem? {p : α → Bool} {l : List α} {k : Nat} {a : α}
    (hk : l[k]? = some a) (ha : p a = true)
    : 0 < l.countP p := by
  rw [List.countP_pos_iff]
  exact ⟨a, List.mem_of_getElem? hk, ha⟩

theorem eq_of_countP_le_one {p : α → Bool} {l : List α} {j k : Nat} {a b : α}
    (h : l.countP p ≤ 1) (hj : l[j]? = some a) (hk : l[k]? = some b) (ha : p a = true)
    (hb : p b = true)
    : j = k := by
  have key : ∀ {j k : Nat} {a b : α}, l[j]? = some a → l[k]? = some b → p a = true → p b = true →
      ¬j < k := by
    intro j k a b hj hk ha hb hjk
    have hleft : 0 < (l.take k).countP p := by
      apply countP_pos_of_getElem? (k := j) _ ha
      rw [List.getElem?_take_of_lt hjk]
      exact hj
    have hright : 0 < (l.drop k).countP p := by
      apply countP_pos_of_getElem? (k := 0) _ hb
      rw [List.getElem?_drop]
      exact hk
    have : l.countP p = (l.take k).countP p + (l.drop k).countP p := by
      rw [← List.countP_append, List.take_append_drop]
    omega
  have hjk := key hj hk ha hb
  have hkj := key hk hj hb ha
  omega

section Family

variable [Fintype ι] {l : ι → List α} {p : α → Bool} {b : ι → Bool}

theorem entry_pos {q : ι} {k : Nat} {a : α} (hk : (l q)[k]? = some a) (ha : p a = true)
    : 0 < ∑ j, (l j).countP p := by
  have hle := le_sum (w := fun j => (l j).countP p) (Finset.mem_univ q)
  exact Nat.lt_of_lt_of_le (countP_pos_of_getElem? hk ha) hle

theorem exists_entry (h : 0 < ∑ j, (l j).countP p)
    : ∃ q, ∃ k : Nat, ∃ a, (l q)[k]? = some a ∧ p a = true := by
  rcases exists_of_sum_pos h with ⟨q, _, hq⟩
  rw [List.countP_pos_iff] at hq
  rcases hq with ⟨a, ha, hp⟩
  rcases List.getElem?_of_mem ha with ⟨k, hk⟩
  exact ⟨q, k, a, hk, hp⟩

theorem entry_unique [DecidableEq ι] {q r : ι} {k m : Nat} {a c : α} (h : ∑ j, (l j).countP p ≤ 1)
    (hk : (l q)[k]? = some a) (ha : p a = true) (hm : (l r)[m]? = some c) (hc : p c = true)
    : q = r ∧ k = m := by
  have hqr : q = r := by
    apply eq_of_sum_le_one h (Finset.mem_univ q) (Finset.mem_univ r)
    . exact countP_pos_of_getElem? hk ha
    . exact countP_pos_of_getElem? hm hc
  subst hqr
  have hle := le_sum (w := fun j => (l j).countP p) (Finset.mem_univ q)
  exact ⟨rfl, eq_of_countP_le_one (Nat.le_trans hle h) hk hm ha hc⟩

theorem flag_pos {i : ι} (hi : b i = true) : 0 < ∑ j, (b j).toNat := by
  have hle := le_sum (w := fun j => (b j).toNat) (Finset.mem_univ i)
  simp only [hi, Bool.toNat_true] at hle
  exact hle

theorem exists_flag (h : 0 < ∑ j, (b j).toNat) : ∃ i, b i = true := by
  rcases exists_of_sum_pos h with ⟨i, _, hi⟩
  rw [Nat.pos_iff_ne_zero, ne_eq, Bool.toNat_eq_zero, Bool.not_eq_false] at hi
  exact ⟨i, hi⟩

theorem flag_unique [DecidableEq ι] {i j : ι} (h : ∑ k, (b k).toNat ≤ 1) (hi : b i = true)
    (hj : b j = true)
    : i = j := by
  apply eq_of_sum_le_one h (Finset.mem_univ i) (Finset.mem_univ j)
  . simp [hi]
  . simp [hj]

end Family

theorem countP_eq_iff {p q : α → Bool} {l : List α} (h : ∀ a ∈ l, q a = true → p a = true)
    : l.countP q = l.countP p ↔ ∀ a ∈ l, p a = true → q a = true := by
  induction l with
  | nil => simp
  | cons b l ih =>
    have hl : ∀ a ∈ l, q a = true → p a = true := by
      intro a ha
      exact h a (List.mem_cons_of_mem b ha)
    have hle : l.countP q ≤ l.countP p := List.countP_mono_left hl
    have hb := h b List.mem_cons_self
    rw [List.forall_mem_cons, ← ih hl, List.countP_cons, List.countP_cons]
    cases hp : p b <;> cases hq : q b <;> simp_all
    omega

theorem countP_remove [DecidableEq α] {p : α → Bool} {l : List α} {a : α} (hl : l.Nodup)
    (ha : a ∈ l) (hp : p a = true)
    : l.countP (fun b => p b && decide (b ≠ a)) + 1 = l.countP p := by
  induction l with
  | nil => simp at ha
  | cons b l ih =>
    rw [List.nodup_cons] at hl
    rw [List.countP_cons, List.countP_cons]
    cases List.mem_cons.mp ha with
    | inl hab =>
      subst hab
      have : l.countP (fun b => p b && decide (b ≠ a)) = l.countP p := by
        apply List.countP_congr
        intro b hb
        have : b ≠ a := by
          intro hba
          exact hl.left (hba ▸ hb)
        simp [this]
      rw [this]
      simp [hp]
    | inr hmem =>
      have hba : b ≠ a := by
        intro hba
        exact hl.left (hba ▸ hmem)
      have := ih hl.right hmem
      simp only [ne_eq, hba, not_false_eq_true, decide_true, Bool.and_true] at this ⊢
      omega

end Tally
