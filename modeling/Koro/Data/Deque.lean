import Koro.Machine.Basic
import Mathlib.Data.List.Infix

/-!
This module contains queues whose owner takes the first element and from which others take the last one,
while elements are put at the end. What the owner takes comes in the order in which it has been put there,
and an element waits for no more of the owner's turns than there are elements before it.

`ops op s as` are the operations on such a queue that a machine carries out in a run.
-/

namespace Deque

variable {α : Type u} {σ : Type v} {β : Type w}

inductive Op (α : Type u) where
  | pushBack (a : α)
  | popFront
  | popBack

def Op.apply : Op α → List α → List α
  | .pushBack a, l => l ++ [a]
  | .popFront, l => l.tail
  | .popBack, l => l.dropLast

def run : List (Op α) → List α → List α
  | [], l => l
  | op :: ops, l => run ops (op.apply l)

-- What the owner takes
def served : List (Op α) → List α → List α
  | [], _ => []
  | .popFront :: ops, l => l.head?.toList ++ served ops l.tail
  | op :: ops, l => served ops (op.apply l)

def pushed : List (Op α) → List α
  | [] => []
  | .pushBack a :: ops => a :: pushed ops
  | _ :: ops => pushed ops

def pops : List (Op α) → Nat
  | [] => 0
  | .popFront :: ops => pops ops + 1
  | _ :: ops => pops ops

theorem served_sublist (ops : List (Op α)) (l : List α)
    : (served ops l ++ run ops l).Sublist (l ++ pushed ops) := by
  induction ops generalizing l with
  | nil => simp [served, run, pushed]
  | cons op ops ih =>
    cases op with
    | pushBack a =>
      have hrest := ih (l ++ [a])
      rw [List.append_assoc] at hrest
      exact hrest
    | popFront =>
      cases l with
      | nil => exact ih []
      | cons a l => exact (ih l).cons_cons a
    | popBack => exact (ih l.dropLast).trans ((List.dropLast_sublist l).append_right _)

-- What there was is in front of what has come since, without as many elements as there were turns
theorem run_split (ops : List (Op α)) (l : List α)
    : ∃ kept later, run ops l = kept ++ later ∧ kept <+: l.drop (pops ops)
        ∧ later.Sublist (pushed ops) := by
  induction ops generalizing l with
  | nil => exact ⟨l, [], by simp [run, pops, pushed]⟩
  | cons op ops ih =>
    rcases ih (op.apply l) with ⟨kept, later, hrun, hkept, hlater⟩
    cases op with
    | pushBack a =>
      rw [Op.apply, List.drop_append] at hkept
      by_cases hlt : pops ops ≤ l.length
      . rw [Nat.sub_eq_zero_of_le hlt, List.drop_zero, List.prefix_concat_iff] at hkept
        rcases hkept with rfl | hkept
        . refine ⟨l.drop (pops ops), a :: later, ?_, List.prefix_refl _, hlater.cons_cons a⟩
          rw [run, hrun, List.append_assoc, List.singleton_append]
        . exact ⟨kept, later, hrun, hkept, hlater.cons a⟩
      . have hnil : [a].drop (pops ops - l.length) = [] := by
          apply List.drop_eq_nil_of_le
          rw [List.length_singleton]
          omega
        rw [hnil, List.append_nil] at hkept
        exact ⟨kept, later, hrun, hkept, hlater.cons a⟩
    | popFront =>
      rw [Op.apply, List.drop_tail] at hkept
      exact ⟨kept, later, hrun, hkept, hlater⟩
    | popBack =>
      exact ⟨kept, later, hrun, hkept.trans (List.IsPrefix.drop (List.dropLast_prefix l) _), hlater⟩

theorem run_append (ops ops' : List (Op α)) (l : List α) : run (ops ++ ops') l = run ops' (run ops l) := by
  induction ops generalizing l with
  | nil => rfl
  | cons op ops ih => exact ih (op.apply l)

theorem pops_append (ops ops' : List (Op α)) : pops (ops ++ ops') = pops ops + pops ops' := by
  induction ops with
  | nil => simp [pops]
  | cons op ops ih => cases op <;> simp [pops, ih, Nat.add_right_comm]

theorem pushed_append (ops ops' : List (Op α)) : pushed (ops ++ ops') = pushed ops ++ pushed ops' := by
  induction ops with
  | nil => rfl
  | cons op ops ih => cases op <;> simp [pushed, ih]

-- Of elements that are named by how many have come before
theorem exists_range {l : List Nat} {n : Nat} (h : l <+: List.range n) : ∃ k ≤ n, l = List.range k := by
  have hle : l.length ≤ n := by
    simpa using h.length_le
  have htake := List.prefix_iff_eq_take.mp h
  rw [List.take_range, Nat.min_eq_left hle] at htake
  exact ⟨l.length, hle, htake⟩

section Machine

variable {m : Machine σ β} {view : σ → List α} {op : σ → β → Option (Op α)} {s t : σ}

variable (m view op) in
structure Views : Prop where
  step : ∀ s a t, m.step s a = some t → view t = run (op s a).toList (view s)

variable (m op) in
def ops (s : σ) : List β → List (Op α)
  | [] => []
  | a :: as =>
    (op s a).toList ++
      match m.step s a with
      | none => []
      | some t => ops t as

theorem Views.exec (h : Views m view op) (as : List β) (hexec : m.exec s as = some t)
    : view t = run (ops m op s as) (view s) := by
  induction as generalizing s with
  | nil =>
    cases hexec
    rfl
  | cons a as ih =>
    simp only [Machine.exec, Option.bind_eq_some_iff] at hexec
    rcases hexec with ⟨r, hr, hrt⟩
    rw [ih hrt, h.step s a r hr, ops, hr, run_append]

-- The owner's turns are the actions `b`
theorem pops_ops [DecidableEq β] (b : β) (as : List β) (hexec : m.exec s as = some t)
    (hop : ∀ s a, pops (op s a).toList = if a = b then 1 else 0)
    : pops (ops m op s as) = as.count b := by
  induction as generalizing s with
  | nil => rfl
  | cons a as ih =>
    simp only [Machine.exec, Option.bind_eq_some_iff] at hexec
    rcases hexec with ⟨r, hr, hrt⟩
    rw [ops, hr, pops_append, hop, ih hrt, List.count_cons, Nat.add_comm]
    simp

end Machine

end Deque
