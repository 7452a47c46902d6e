import Koro.IOManager.Sections

/-!
This module contains the growth loop of `bindTaskQueue` for descriptors that are any `int`.

The loop compares the descriptor, converted to `size_t`, with the size of the table, and takes the new
size from a `double` and an `int`. What C++ gives no value, signed overflow and a `double` whose
truncation no `size_t` is, ends the loop with a `Fault`. `resize` gets the memory for every size up to
`max_size`.
-/

namespace Koro
namespace IOManager
namespace Channels

variable {n : Nat} {κ : Type u} {chs : List (Option ChannelId)} {fd : Int32}

inductive Fault where
  | undefined
  | lengthError
  | outOfRange
  deriving DecidableEq, Repr

-- `max_size` of a vector of `std::shared_ptr<Channel>`, which take 16 bytes each
def maxSize : Nat := (2 ^ 63 - 1) / 16

-- The conversion of an `int` to `size_t`
def toSize (i : Int) : Nat :=
  (i % 2 ^ 64).toNat

-- The conversion of the `double` that is half of `i` to `size_t`
def halfToSize (i : Int) : Option Nat :=
  if 0 ≤ i.tdiv 2 ∧ i.tdiv 2 < 2 ^ 64 then
    some (i.tdiv 2).toNat
  else
    none

def addInt (i j : Int) : Option Int :=
  if -2 ^ 31 ≤ i + j ∧ i + j < 2 ^ 31 then
    some (i + j)
  else
    none

-- `std::max<size_t>(fd * 1.5, fd + 16)`, where the product is exact
def newSize (fd : Int32) : Option Nat := do
  let product ← halfToSize (fd.toInt * 3)
  let sum ← addInt fd.toInt 16
  some (max product (toSize sum))

def resize (chs : List (Option ChannelId)) (size : Nat) : Except Fault (List (Option ChannelId)) :=
  if size ≤ maxSize then
    .ok (chs.take size ++ List.replicate (size - chs.length) none)
  else
    .error .lengthError

-- `none` where the loop goes on for more than the given number of tests
def growLoop (fd : Int32) : Nat → List (Option ChannelId) → Option (Except Fault (List (Option ChannelId)))
  | 0, _ => none
  | fuel + 1, chs =>
    if toSize fd.toInt ≥ chs.length then
      match newSize fd with
      | none => some (.error .undefined)
      | some size =>
        match resize chs size with
        | .error fault => some (.error fault)
        | .ok chs => growLoop fd fuel chs
    else
      some (.ok chs)

namespace State

-- Without workers, `% threads_.size()` is undefined
def bindTaskQueueInt (s : State n κ) (taskQueue : Option (Fin n)) (fd : Int32) (fuel : Nat)
    : Option (Except Fault (State n κ × ChannelId)) :=
  match growLoop fd fuel s.chs with
  | none => none
  | some (.error fault) => some (.error fault)
  | some (.ok chs) =>
    if toSize fd.toInt < chs.length then
      match { s with chs }.bindTaskQueue taskQueue (toSize fd.toInt) with
      | none => some (.error .undefined)
      | some bound => some (.ok bound)
    else
      some (.error .outOfRange)

-- The channel at an index of the table, null past the end
def entry (s : State n κ) (k : Nat) : Option ChannelId :=
  s.chs[k]?.join

end State

/--
The descriptor is inside the table afterwards, at its index is the channel returned, and no other entry
has changed.
-/
structure Binds (s : State n κ) (fd : Int32) (t : State n κ) (ch : ChannelId) : Prop where
  inside : 0 ≤ fd.toInt ∧ fd.toInt < t.chs.length
  bound : t.entry fd.toInt.toNat = some ch
  others : ∀ k, k ≠ fd.toInt.toNat → t.entry k = s.entry k

/--
The descriptor is not negative, and inside the table or so far from `INT_MAX` that `fd + 16` does not
overflow.
-/
def Growable (s : State n κ) (fd : Int32) : Prop :=
  0 ≤ fd.toInt ∧ (fd.toInt < s.chs.length ∨ fd.toInt + 16 < 2 ^ 31)

instance (s : State n κ) (fd : Int32) : Decidable (Growable s fd) :=
  inferInstanceAs (Decidable (_ ∧ _))

theorem toSize_eq (h : 0 ≤ fd.toInt) : toSize fd.toInt = fd.toInt.toNat := by
  have := fd.toInt_lt
  unfold toSize
  omega

-- No table covers a negative descriptor, whatever size the conversions lead to
theorem length_le_toSize (h : fd.toInt < 0) (hsize : chs.length ≤ maxSize)
    : chs.length ≤ toSize fd.toInt := by
  have := fd.le_toInt
  unfold maxSize at hsize
  unfold toSize
  omega

theorem newSize_eq (h : 0 ≤ fd.toInt) (hsum : fd.toInt + 16 < 2 ^ 31)
    : newSize fd = some (max (fd.toInt.toNat * 3 / 2) (fd.toInt.toNat + 16)) := by
  have hproduct : halfToSize (fd.toInt * 3) = some (fd.toInt.toNat * 3 / 2) := by
    unfold halfToSize
    rw [Int.tdiv_eq_ediv_of_nonneg (by omega), if_pos (by omega)]
    congr 1
    omega
  have hadd : addInt fd.toInt 16 = some (fd.toInt + 16) := by
    unfold addInt
    rw [if_pos (by omega)]
  have hto : toSize (fd.toInt + 16) = fd.toInt.toNat + 16 := by
    unfold toSize
    omega
  simp only [newSize, hproduct, hadd, hto, Option.bind_eq_bind, Option.bind_some]

theorem newSize_of_neg (h : fd.toInt < 0) : newSize fd = none := by
  have hproduct : halfToSize (fd.toInt * 3) = none := by
    unfold halfToSize
    rw [if_neg]
    intro hnonneg
    have : (fd.toInt * 3).tdiv 2 < 0 := by
      rw [← Int.neg_neg (fd.toInt * 3), Int.neg_tdiv, Int.tdiv_eq_ediv_of_nonneg (by omega)]
      omega
    omega
  simp only [newSize, hproduct, Option.bind_eq_bind, Option.bind_none]

theorem newSize_of_overflow (h : 2 ^ 31 ≤ fd.toInt + 16) : newSize fd = none := by
  have hadd : addInt fd.toInt 16 = none := by
    unfold addInt
    rw [if_neg (by omega)]
  simp only [newSize, hadd, Option.bind_eq_bind, Option.bind_none, Option.bind_fun_none]

theorem growLoop_eq (h : 0 ≤ fd.toInt) (hfd : fd.toInt < chs.length ∨ fd.toInt + 16 < 2 ^ 31)
    : growLoop fd 2 chs = some (.ok (grow chs fd.toInt.toNat)) := by
  have := fd.toInt_lt
  unfold growLoop
  rw [toSize_eq h]
  by_cases hlt : fd.toInt.toNat ≥ chs.length
  . have hsum : fd.toInt + 16 < 2 ^ 31 := by omega
    have hle : max (fd.toInt.toNat * 3 / 2) (fd.toInt.toNat + 16) ≤ maxSize := by
      unfold maxSize
      omega
    rw [if_pos hlt, newSize_eq h hsum]
    simp only [resize, hle, ↓reduceIte]
    -- The second test ends the loop
    have htake : chs.take (max (fd.toInt.toNat * 3 / 2) (fd.toInt.toNat + 16)) = chs := by
      apply List.take_of_length_le
      omega
    unfold growLoop grow
    rw [toSize_eq h, if_pos hlt, htake, if_neg]
    simp only [List.length_append, List.length_replicate]
    omega
  . unfold grow
    rw [if_neg hlt, if_neg hlt]

theorem growLoop_undefined (h : newSize fd = none) (hfd : toSize fd.toInt ≥ chs.length)
    : growLoop fd (fuel + 1) chs = some (.error .undefined) := by
  unfold growLoop
  rw [if_pos hfd, h]

-- Outside of its condition the loop meets arithmetic without a value before it ends
theorem growLoop_not_growable (h : ¬(0 ≤ fd.toInt ∧ (fd.toInt < chs.length ∨ fd.toInt + 16 < 2 ^ 31)))
    (hsize : chs.length ≤ maxSize)
    : growLoop fd (fuel + 1) chs = some (.error .undefined) := by
  by_cases hneg : fd.toInt < 0
  . exact growLoop_undefined (newSize_of_neg hneg) (length_le_toSize hneg hsize)
  . apply growLoop_undefined
    . apply newSize_of_overflow
      omega
    . rw [toSize_eq (by omega)]
      omega

theorem entry_grow (k : Nat) : (grow chs m)[k]?.join = chs[k]?.join := by
  unfold grow
  split
  . by_cases hk : k < chs.length
    . rw [List.getElem?_append_left hk]
    . rw [List.getElem?_append_right (Nat.le_of_not_lt hk), List.getElem?_replicate,
        List.getElem?_eq_none (Nat.le_of_not_lt hk)]
      split <;> rfl
  . rfl

theorem lt_length_grow (m : Nat) : m < (grow chs m).length := by
  unfold grow
  split
  . simp only [List.length_append, List.length_replicate]
    omega
  . omega

theorem entry_set (hm : m < chs.length) (k : Nat)
    : (chs.set m (some ch))[k]?.join = if k = m then some ch else chs[k]?.join := by
  rw [List.getElem?_set]
  by_cases hk : m = k
  . subst hk
    simp [hm]
  . simp [hk, Ne.symm hk]

variable {s t : State n κ} {q : Option (Fin n)}

theorem entry_bindTaskQueue (h : s.bindTaskQueue q m = some (t, ch))
    : m < t.chs.length ∧ t.entry m = some ch ∧ (∀ k, k ≠ m → t.entry k = s.entry k)
        ∧ ∀ c, s.entry m = some c → c = ch := by
  have hlt : m < (grow s.chs m).length := lt_length_grow m
  have hgrow : ∀ k, (grow s.chs m)[k]?.join = s.chs[k]?.join := entry_grow
  have hnew : ∀ c, m < ((grow s.chs m).set m (some c)).length
      ∧ ((grow s.chs m).set m (some c))[m]?.join = some c
      ∧ ∀ k, k ≠ m → ((grow s.chs m).set m (some c))[k]?.join = s.chs[k]?.join := by
    intro c
    refine ⟨by simpa using hlt, ?_, ?_⟩
    . rw [entry_set hlt, if_pos rfl]
    . intro k hk
      rw [entry_set hlt, if_neg hk, hgrow]
  unfold State.entry
  unfold State.bindTaskQueue at h
  dsimp only at h
  split at h
  . next c hc =>
    cases h
    have hjoin : s.chs[m]?.join = some ch := by rw [← hgrow, hc]; rfl
    refine ⟨hlt, by rw [hgrow, hjoin], fun k _ => hgrow k, ?_⟩
    intro c hc
    rw [hjoin] at hc
    exact (Option.some.inj hc).symm
  . next hnone =>
    have habsent : ∀ c, s.chs[m]?.join ≠ some c := by
      intro c hc
      rw [← hgrow, Option.join_eq_some_iff] at hc
      exact hnone c hc
    split at h
    . cases h
      exact ⟨(hnew _).1, (hnew _).2.1, (hnew _).2.2, fun c hc => absurd hc (habsent c)⟩
    . split at h
      . cases h
        exact ⟨(hnew _).1, (hnew _).2.1, (hnew _).2.2, fun c hc => absurd hc (habsent c)⟩
      . cases h

theorem bindTaskQueue_isSome (hn : 0 < n) (m : Nat) : (s.bindTaskQueue q m).isSome := by
  unfold State.bindTaskQueue
  dsimp only
  split
  . rfl
  . split
    . rfl
    . rw [dif_pos hn]
      rfl

theorem binds_of_growable (hn : 0 < n) (h : Growable s fd)
    : ∃ t ch, s.bindTaskQueueInt q fd 2 = some (.ok (t, ch)) ∧ Binds s fd t ch := by
  have hlt : fd.toInt.toNat < (grow s.chs fd.toInt.toNat).length := lt_length_grow _
  unfold State.bindTaskQueueInt
  rw [growLoop_eq h.left h.right]
  dsimp only
  rw [toSize_eq h.left, if_pos hlt]
  have hsome := bindTaskQueue_isSome (s := { s with chs := grow s.chs fd.toInt.toNat }) (q := q) hn
    fd.toInt.toNat
  rw [Option.isSome_iff_exists] at hsome
  rcases hsome with ⟨⟨t, ch⟩, hbind⟩
  rcases entry_bindTaskQueue hbind with ⟨hinside, hbound, hothers, _⟩
  refine ⟨t, ch, by rw [hbind], ?_⟩
  constructor
  . have := h.left
    omega
  . exact hbound
  . intro k hk
    rw [hothers k hk]
    exact entry_grow k

theorem bindTaskQueueInt_not_growable (h : ¬Growable s fd) (hsize : s.chs.length ≤ maxSize)
    : s.bindTaskQueueInt q fd (fuel + 1) = some (.error .undefined) := by
  unfold State.bindTaskQueueInt
  rw [growLoop_not_growable h hsize]

end Channels
end IOManager
end Koro
