import Koro.Elog.AsyncLogging
import Mathlib.Algebra.GroupWithZero.Nat

/-!
This module contains what `AsyncLogging` keeps about its buffers: who owns which array, and which of
them are empty. A move assignment forgets the array of its target, so that no array is lost only as long as
the target has none.
-/

namespace Koro
namespace Elog

variable {a : Nat} {b : FixedBuffer} {bs cs : List FixedBuffer}

-- How many of the buffers own an array
def ownsAll (bs : List FixedBuffer) (a : Nat) : Nat :=
  (bs.map fun b => b.owns a).sum

@[simp]
theorem ownsAll_nil : ownsAll [] a = 0 :=
  rfl

@[simp]
theorem ownsAll_cons : ownsAll (b :: bs) a = b.owns a + ownsAll bs a :=
  List.sum_cons

@[simp]
theorem ownsAll_append : ownsAll (bs ++ cs) a = ownsAll bs a + ownsAll cs a := by
  simp [ownsAll]

theorem ownsAll_take_drop (bs : List FixedBuffer) (k : Nat)
    : ownsAll (bs.take k) a + ownsAll (bs.drop k) a = ownsAll bs a := by
  rw [← ownsAll_append, List.take_append_drop]

theorem count_filterMap_ctxs : (bs.filterMap FixedBuffer.ctxs).count a = ownsAll bs a := by
  induction bs with
  | nil => rfl
  | cons b bs ih =>
    rw [ownsAll_cons, ← ih]
    cases h : b.ctxs with
    | none => simp [h, FixedBuffer.owns]
    | some a' =>
      rw [List.filterMap_cons_some h, List.count_cons]
      by_cases ha : a' = a <;> simp [h, ha, FixedBuffer.owns]
      omega

theorem owns_null : FixedBuffer.null.owns a = 0 :=
  rfl

theorem owns_of_not_check (h : b.check = false) : b.owns a = 0 := by
  simp_all [FixedBuffer.check, FixedBuffer.owns]

theorem owns_of_ctxs (h : b.ctxs = some a) : b.owns a = 1 := by
  simp [FixedBuffer.owns, h]

theorem owns_le_ownsAll (h : b ∈ bs) : b.owns a ≤ ownsAll bs a := by
  induction h with
  | head bs => exact Nat.le_add_right ..
  | tail c _ ih => exact Nat.le_trans ih (Nat.le_add_left ..)

theorem owns_congr {c : FixedBuffer} (h : b.ctxs = c.ctxs) : b.owns a = c.owns a := by
  rw [FixedBuffer.owns, FixedBuffer.owns, h]

theorem check_congr {c : FixedBuffer} (h : b.ctxs = c.ctxs) : b.check = c.check := by
  rw [FixedBuffer.check, FixedBuffer.check, h]

namespace AsyncLogging

-- The worker has taken a batch and not cleared it yet
def Pc.busy : Pc → Bool
  | .taken => true
  | .write _ _ => true
  | .recycle => true
  | _ => false

def State.owned (s : State) (a : Nat) : Nat :=
  s.curBuf.owns a + s.nextBuf.owns a + s.newBuf1.owns a + s.newBuf2.owns a + ownsAll s.bufs a
    + ownsAll s.buf2write a

structure State.Wf (s : State) : Prop where
  sound : s.aborted = false
  owned : ∀ a, s.owned a + s.heap.freed.count a = s.heap.allocated a
  cur : s.curBuf.check = true
  next : s.nextBuf.check = false → s.bufs ≠ []
  new1 : s.worker ≠ .returned → s.buf2write = [] → s.newBuf1.check = true
  new2 : s.worker ≠ .returned → s.buf2write = [] → s.newBuf2.check = true
  exited : s.worker = .returned → ∀ a, s.newBuf1.owns a = 0 ∧ s.newBuf2.owns a = 0
  batch : s.worker.busy = false → s.buf2write = []
  bufs : ∀ b ∈ s.bufs, b.check = true
  buf2write : ∀ b ∈ s.buf2write, b.check = true
  next_index : s.nextBuf.index = 0
  new1_index : s.newBuf1.index = 0
  new2_index : s.newBuf2.index = 0

theorem wf_start : State.start.Wf := by
  constructor
  . rfl
  . intro a
    match a with
    | 0 | 1 | 2 | 3 => rfl
    | a + 4 =>
      have : ¬a + 4 < 4 := Nat.not_lt.mpr (Nat.le_add_left 4 a)
      simp [State.start, State.owned, FixedBuffer.owns, Heap.allocated, this]
  . rfl
  . simp [State.start, FixedBuffer.check]
  . simp [State.start, FixedBuffer.check]
  . simp [State.start, FixedBuffer.check]
  . simp [State.start]
  . simp [State.start]
  . simp [State.start]
  . simp [State.start]
  . rfl
  . rfl
  . rfl

variable {N : Nat} {s t : State}

theorem State.Wf.owned_le (h : s.Wf) (a : Nat) : s.owned a ≤ 1 := by
  have := h.owned a
  have := Bool.toNat_le (decide (a < s.heap.arrays))
  unfold Heap.allocated at *
  omega

-- The buffer that is written to shares its array with no other one
theorem State.Wf.other (h : s.Wf) (hb : ∀ a, b.owns a + s.curBuf.owns a ≤ s.owned a)
    : b.ctxs ≠ s.curBuf.ctxs := by
  intro hsame
  have hcheck := h.cur
  rw [FixedBuffer.check, Option.isSome_iff_exists] at hcheck
  rcases hcheck with ⟨a, ha⟩
  have hle := Nat.le_trans (hb a) (h.owned_le a)
  rw [owns_of_ctxs ha, owns_of_ctxs (hsame.trans ha)] at hle
  omega

theorem State.Wf.bufs_ne (h : s.Wf) (hb : b ∈ s.bufs) : b.ctxs ≠ s.curBuf.ctxs := by
  apply h.other
  intro a
  have := owns_le_ownsAll (a := a) hb
  unfold State.owned
  omega

theorem State.Wf.buf2write_ne (h : s.Wf) (hb : b ∈ s.buf2write) : b.ctxs ≠ s.curBuf.ctxs := by
  apply h.other
  intro a
  have := owns_le_ownsAll (a := a) hb
  unfold State.owned
  omega

theorem pushCur_eq (N : Nat) (h : s.Wf)
    : ∃ curBuf heap,
        s.heap.push N s.curBuf s.accepted = some (curBuf, heap)
          ∧
        s.pushCur N = { s with curBuf, heap, accepted := s.accepted + 1 } := by
  unfold State.pushCur
  cases hpush : s.heap.push N s.curBuf s.accepted with
  | none => exact absurd hpush (Heap.push_ne_none h.cur)
  | some p => exact ⟨_, _, rfl, rfl⟩

theorem wf_pushCur (N : Nat) (h : s.Wf) : (s.pushCur N).Wf := by
  rcases pushCur_eq N h with ⟨curBuf, heap, hpush, heq⟩
  rcases Heap.push_arrays hpush with ⟨hctxs, harrays, hfreed⟩
  rw [heq]
  exact { h with
    owned := by
      intro a
      have := h.owned a
      have howns := owns_congr (a := a) hctxs
      simp only [State.owned, Heap.allocated, harrays, hfreed, howns] at this ⊢
      exact this
    cur := by
      rw [check_congr hctxs]
      exact h.cur
  }

theorem rotated_bufs (h : s.Wf) : ∀ b ∈ s.bufs ++ [s.curBuf], b.check = true := by
  intro b hb
  rw [List.mem_append, List.mem_singleton] at hb
  rcases hb with hb | rfl
  . exact h.bufs b hb
  . exact h.cur

theorem wf_rotate (h : s.Wf) : s.rotate.Wf := by
  unfold State.rotate
  cases hcheck : s.nextBuf.check with
  | true =>
    simp only [hcheck, ↓reduceIte]
    exact { h with
      owned := by
        intro a
        have := h.owned a
        simp only [State.owned, ownsAll_append, ownsAll_cons, ownsAll_nil, owns_null] at this ⊢
        omega
      cur := hcheck
      next := fun _ => List.append_ne_nil_of_right_ne_nil _ (List.cons_ne_nil _ _)
      bufs := rotated_bufs h
      next_index := rfl
    }
  | false =>
    simp only [hcheck, Bool.false_eq_true, ↓reduceIte]
    exact { h with
      owned := by
        intro a
        have := h.owned a
        have hnew := Heap.allocated_new (h := s.heap) a
        have hfreed : s.heap.new.2.freed = s.heap.freed := rfl
        simp only [State.owned, ownsAll_append, ownsAll_cons, ownsAll_nil, hfreed] at this ⊢
        omega
      cur := rfl
      next := fun _ => List.append_ne_nil_of_right_ne_nil _ (List.cons_ne_nil _ _)
      bufs := rotated_bufs h
    }

theorem wf_worker (h : s.Wf) (hret : s.worker ≠ .returned) {pc : Pc} (hpc : pc ≠ .returned)
    (hbatch : pc.busy = false → s.buf2write = [])
    : State.Wf { s with worker := pc } :=
  { h with
    new1 := fun _ => h.new1 hret
    new2 := fun _ => h.new2 hret
    exited := fun hexit => absurd hexit hpc
    batch := hbatch
  }

theorem wf_take (h : s.Wf) (hw : s.worker = .lock ∨ s.worker = .woken) : s.take.Wf := by
  have hbatch : s.buf2write = [] := by
    apply h.batch
    rcases hw with hw | hw <;> simp [hw, Pc.busy]
  have hret : s.worker ≠ .returned := by
    rcases hw with hw | hw <;> simp [hw]
  have hnew1 := h.new1 hret hbatch
  have hnew2 := h.new2 hret hbatch
  have hnext := h.next
  unfold State.take
  cases hempty : s.curBuf.empty <;> cases hcheck : s.nextBuf.check
  all_goals
    simp only [hcheck, Bool.false_eq_true, ↓reduceIte, hbatch]
    exact {
      sound := h.sound
      owned := by
        intro a
        have hnone : s.nextBuf.check = false → s.nextBuf.owns a = 0 := owns_of_not_check
        simp only [hcheck, Bool.true_eq_false, false_implies, forall_const] at hnone
        have := h.owned a
        simp only [State.owned, ownsAll_append, ownsAll_cons, ownsAll_nil, owns_null, hbatch] at this ⊢
        omega
      cur := by first | exact h.cur | exact hnew1
      next := by simp [hcheck, hnew2]
      new1 := by first | exact fun _ _ => hnew1 | simp
      -- Where `next_buf_` has taken the array of `new_buf2`, the batch is not empty
      new2 := by first | exact fun _ _ => hnew2 | simp [hnext hcheck]
      exited := nofun
      batch := by simp [Pc.busy]
      bufs := by simp
      buf2write := by first | exact rotated_bufs h | exact h.bufs
      next_index := by first | exact h.next_index | exact h.new2_index
      new1_index := by first | exact h.new1_index | rfl
      new2_index := by first | exact h.new2_index | rfl
    }

theorem wf_drop (h : s.Wf) (hw : s.worker = .taken) : s.drop.Wf := by
  have hret : s.worker ≠ .returned := by simp [hw]
  unfold State.drop
  split
  . next hempty => exact wf_worker h hret nofun (fun _ => List.isEmpty_iff.mp hempty)
  . split
    . next hempty hmany =>
      have hne : s.buf2write.take 2 ≠ [] := by
        rw [Ne, List.take_eq_nil_iff]
        grind
      exact { h with
        owned := by
          intro a
          have := h.owned a
          have htake := ownsAll_take_drop (a := a) s.buf2write 2
          simp only [State.owned, Heap.allocated_destroy, Heap.freed_destroy, List.count_append,
            count_filterMap_ctxs] at this ⊢
          omega
        new1 := fun _ hnil => absurd hnil hne
        new2 := fun _ hnil => absurd hnil hne
        exited := nofun
        batch := by simp [Pc.busy]
        buf2write := by
          intro b hb
          exact h.buf2write b (List.mem_of_mem_take hb)
      }
    . exact wf_worker h hret nofun (by simp [Pc.busy])

theorem wf_write (h : s.Wf) (hw : s.worker = .write k m) : (s.write k m).Wf := by
  have hret : s.worker ≠ .returned := by simp [hw]
  unfold State.write
  split
  . exact wf_worker h hret nofun (by simp [Pc.busy])
  . split
    . exact wf_worker h hret nofun (by simp [Pc.busy])
    . have h : State.Wf { s with worker := .write k (m + 1) } :=
        wf_worker h hret nofun (by simp [Pc.busy])
      exact { h with }

theorem wf_resize (h : s.Wf) (hw : s.worker.busy = true) : s.resize.Wf := by
  unfold State.resize
  split
  . next hbatch =>
    exact { h with
      owned := by
        intro a
        have := h.owned a
        have hnew := Heap.allocated_new (h := s.heap) a
        have hnew2 := Heap.allocated_new (h := s.heap.new.2) a
        have hfreed : s.heap.new.2.new.2.freed = s.heap.freed := rfl
        simp only [State.owned, ownsAll_cons, ownsAll_nil, hfreed, hbatch] at this ⊢
        omega
      new1 := by simp
      new2 := by simp
      batch := by simp [hw]
      buf2write := by simp [Heap.new, FixedBuffer.check]
    }
  . next b0 hbatch =>
    exact { h with
      owned := by
        intro a
        have := h.owned a
        have hnew := Heap.allocated_new (h := s.heap) a
        have hfreed : s.heap.new.2.freed = s.heap.freed := rfl
        simp only [State.owned, ownsAll_cons, ownsAll_nil, hfreed, hbatch] at this ⊢
        omega
      new1 := by simp
      new2 := by simp
      batch := by simp [hw]
      buf2write := by
        have := h.buf2write b0
        simp_all [Heap.new, FixedBuffer.check]
    }
  . exact h

-- and there are two buffers then
theorem resize_eq_cons (s : State) : ∃ b0 b1 rest, s.resize.buf2write = b0 :: b1 :: rest := by
  unfold State.resize
  split
  . exact ⟨_, _, _, rfl⟩
  . exact ⟨_, _, _, rfl⟩
  . next hnil hone =>
    cases hbatch : s.buf2write with
    | nil => exact absurd hbatch hnil
    | cons b0 bs =>
      cases bs with
      | nil => exact absurd hbatch (hone b0)
      | cons b1 rest => exact ⟨b0, b1, rest, rfl⟩

theorem owns_reset : b.reset.owns a = b.owns a :=
  rfl

-- The buffer that takes the place of a full one is empty
theorem rotate_empty (h : s.Wf) : s.rotate.curBuf.index = 0 := by
  simp only [State.rotate]
  split
  . exact h.next_index
  . rfl

theorem rotate_not_full (h : s.Wf) (hN : 0 < N) : s.rotate.curBuf.full N = false := by
  simp only [FixedBuffer.full, rotate_empty h, decide_eq_false_iff_not]
  exact Nat.ne_of_lt hN

theorem wf_recycle (h : s.Wf) (hw : s.worker.busy = true) : s.recycle.Wf := by
  have h := wf_resize h hw
  unfold State.recycle
  rcases resize_eq_cons s with ⟨b0, b1, rest, hbatch⟩
  simp only [hbatch]
  have hb0 : b0.check = true := h.buf2write b0 (by simp [hbatch])
  have hb1 : b1.check = true := h.buf2write b1 (by simp [hbatch])
  cases hnew1 : s.resize.newBuf1.check <;> cases hnew2 : s.resize.newBuf2.check
  all_goals
    simp only [Bool.false_eq_true, ↓reduceIte]
    exact {
      sound := h.sound
      owned := by
        intro a
        have hnone1 : s.resize.newBuf1.check = false → s.resize.newBuf1.owns a = 0 := owns_of_not_check
        have hnone2 : s.resize.newBuf2.check = false → s.resize.newBuf2.owns a = 0 := owns_of_not_check
        simp only [hnew1, Bool.true_eq_false, false_implies, forall_const] at hnone1
        simp only [hnew2, Bool.true_eq_false, false_implies, forall_const] at hnone2
        have := h.owned a
        simp only [State.owned, Heap.allocated_destroy, Heap.freed_destroy, List.count_append,
          count_filterMap_ctxs, ownsAll_cons, ownsAll_nil, owns_null, owns_reset, hbatch] at this ⊢
        omega
      cur := h.cur
      next := h.next
      new1 := by first | exact fun _ _ => hnew1 | exact fun _ _ => hb0
      new2 := by first | exact fun _ _ => hnew2 | exact fun _ _ => hb1
      exited := nofun
      batch := by simp
      bufs := h.bufs
      buf2write := by simp
      next_index := h.next_index
      new1_index := by first | exact h.new1_index | rfl
      new2_index := by first | exact h.new2_index | rfl
    }

theorem wf_notifyOne (h : s.Wf) : s.notifyOne.Wf := by
  unfold State.notifyOne
  split
  . next hw =>
    apply wf_worker h
    . simp [hw]
    . nofun
    . exact fun _ => h.batch (by simp [hw, Pc.busy])
  . exact h

theorem wf_exit (h : s.Wf) (hw : s.worker = .flush) : s.exit.Wf := by
  have hbatch := h.batch (by simp [hw, Pc.busy])
  exact { h with
    owned := by
      intro a
      have := h.owned a
      simp only [State.exit, State.owned, Heap.allocated_destroy, Heap.freed_destroy, List.count_append,
        count_filterMap_ctxs, ownsAll_append, ownsAll_cons, ownsAll_nil, owns_null, hbatch] at this ⊢
      omega
    new1 := fun hret => absurd rfl hret
    new2 := fun hret => absurd rfl hret
    exited := fun _ _ => ⟨rfl, rfl⟩
    batch := fun _ => rfl
    buf2write := by simp [State.exit]
    new1_index := rfl
    new2_index := rfl
  }

theorem wf_step (h : s.Wf) (hs : Step N s act t) : t.Wf := by
  cases hs with
  | pushDone k hdone => exact h
  | pushMessage k hlatch hdone => exact { h with }
  | push k hw hfull =>
    have hframe : State.Wf { s with frame := Function.update s.frame k false } := { h with }
    exact wf_pushCur N hframe
  | rotate k hw hfull =>
    have hframe : State.Wf { s with frame := Function.update s.frame k false } := { h with }
    exact wf_notifyOne (wf_pushCur N (wf_rotate hframe))
  | take hw => exact wf_take h hw
  | drop hw => exact wf_drop h hw
  | write b k hw => exact wf_write h hw
  | recycle hw => exact wf_recycle h (by simp [hw, Pc.busy])
  | notify hd =>
    have h := wf_notifyOne h
    exact { h with }
  | test hw =>
    apply wf_worker h
    . simp [hw]
    . split <;> nofun
    . exact fun _ => h.batch (by simp [hw, Pc.busy])
  | lockEmpty hw hbufs =>
    have h : State.Wf { s with worker := .wait } :=
      wf_worker h (by simp [hw]) nofun (fun _ => h.batch (by simp [hw, Pc.busy]))
    exact { h with }
  | wait hw => exact wf_worker h (by simp [hw]) nofun (fun _ => h.batch (by simp [hw, Pc.busy]))
  | flush hw => exact wf_exit h hw
  | timeout hw => exact wf_worker h (by simp [hw]) nofun (fun _ => h.batch (by simp [hw, Pc.busy]))
  | _ => exact { h with }

theorem reachable_wf (h : (machine N).Reach ok s) : s.Wf := by
  apply h.invariant
  . intro s hs
    rw [hs]
    exact wf_start
  . intro s a t hs _ hat
    exact wf_step hs (Step.of_step hat)

/--
The buffer that is pushed to has an array, there are others to take its place, and each array allocated is
one buffer's or has been freed, once.
-/
structure State.Stored (s : State) : Prop where
  asserted : s.aborted = false
  cur : s.curBuf.check = true
  new1 : s.worker = .test ∨ s.worker = .lock → s.newBuf1.check = true
  next : s.nextBuf.check = false → s.bufs ≠ []
  sole : ∀ a, s.owned a ≤ 1
  kept : ∀ a, a < s.heap.arrays →
    s.owned a = 1 ∧ a ∉ s.heap.freed ∨ s.owned a = 0 ∧ s.heap.freed.count a = 1

theorem stored (h : (machine N).Reachable s) : s.Stored := by
  have hwf := reachable_wf h
  constructor
  . exact hwf.sound
  . exact hwf.cur
  . intro hw
    apply hwf.new1
    . rcases hw with hw | hw <;> simp [hw]
    . apply hwf.batch
      rcases hw with hw | hw <;> simp [hw, Pc.busy]
  . exact hwf.next
  . exact hwf.owned_le
  . intro a ha
    have howned := hwf.owned a
    simp only [Heap.allocated, ha, decide_true, Bool.toNat_true] at howned
    rw [← List.count_eq_zero]
    omega

-- Of the two buffers that the worker ends its cycle with, it keeps the one that it has written
def cycle : List Action :=
  (List.replicate 3 .work : List Action) ++ [.pushMessage 0, .lockPush 0, .timeout]
    ++ (List.replicate 6 .work : List Action)

theorem stored_cycle
    : ∃ s,
        (machine kLargeBuffer).exec State.start cycle = some s
          ∧
        s.worker = .test ∧ s.newBuf1.ctxs = some 0 ∧ s.heap.arrays = 5 ∧ s.heap.freed = [4] ∧ s.Stored := by
  have h : ((machine kLargeBuffer).exec State.start cycle).any (fun s =>
      s.worker = .test ∧ s.newBuf1.ctxs = some 0 ∧ s.heap.arrays = 5 ∧ s.heap.freed = [4]) = true := by
    decide +kernel
  simp only [Option.any_eq_true, decide_eq_true_eq] at h
  rcases h with ⟨s, hexec, hworker, hnew1, harrays, hfreed⟩
  exact ⟨s, hexec, hworker, hnew1, harrays, hfreed, stored (Machine.Reachable.of_exec _ rfl hexec)⟩

/--
Once the worker has returned, destroying the members leaves every array freed, once.
-/
theorem freed_destruct (h : (machine N).Reachable s) (hw : s.worker = .returned) (a : Nat)
    : s.destruct.freed.count a = s.heap.allocated a := by
  have hwf := reachable_wf h
  have hbatch := hwf.batch (by simp [hw, Pc.busy])
  rcases hwf.exited hw a with ⟨hnew1, hnew2⟩
  have howned := hwf.owned a
  simp only [State.owned, hnew1, hnew2, hbatch, ownsAll_nil] at howned
  simp only [State.destruct, Heap.freed_destroy, List.count_append, count_filterMap_ctxs, ownsAll_append,
    ownsAll_cons, ownsAll_nil]
  omega

end AsyncLogging
end Elog
end Koro
