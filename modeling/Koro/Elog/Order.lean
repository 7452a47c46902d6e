import Koro.Elog.Buffers
import Mathlib.Data.List.Nodup

/-!
This module contains the proof that the buffers of `AsyncLogging`, whichever way they are moved about,
are one queue: its worker writes the messages in the order in which they were accepted.
-/

namespace Koro
namespace Elog
namespace AsyncLogging

variable {N : Nat} {s t : State} {b : FixedBuffer}

def Entry.toMessage : Entry → Option Nat
  | .message m => some m
  | .notice _ => none

-- The notices left out
def State.written (s : State) : List Nat :=
  s.file.filterMap Entry.toMessage

-- The records of the buffers, without the first `k` of the first one
def remaining (h : Heap Nat) (k : Nat) : List FixedBuffer → List Nat
  | [] => []
  | buffer :: rest => (h.contents buffer).drop k ++ rest.flatMap h.contents

-- What is left of the batch
def State.unwritten (s : State) : List Nat :=
  match s.worker with
  | .taken => s.buf2write.flatMap s.heap.contents
  | .write b k => remaining s.heap k (s.buf2write.drop b)
  | _ => []

def State.pending (s : State) : List Nat :=
  s.bufs.flatMap s.heap.contents ++ s.heap.contents s.curBuf

-- The messages accepted, in lock order, that have not been discarded
def State.kept (s : State) : List Nat :=
  (List.range s.accepted).filter fun m => decide (m ∉ s.discarded)

structure State.Ordered (s : State) : Prop where
  fifo : s.written ++ s.unwritten ++ s.pending = s.kept
  discarded : ∀ m ∈ s.discarded, m < s.accepted

theorem ordered_start : State.start.Ordered := by
  constructor
  . rfl
  . simp [State.start]

theorem flatMap_contents {h h' : Heap Nat} {bs : List FixedBuffer}
    (hsame : ∀ b ∈ bs, h'.contents b = h.contents b)
    : bs.flatMap h'.contents = bs.flatMap h.contents :=
  List.flatMap_congr hsame

theorem remaining_congr {h h' : Heap Nat} {bs : List FixedBuffer}
    (hsame : ∀ b ∈ bs, h'.contents b = h.contents b)
    : remaining h' k bs = remaining h k bs := by
  cases bs with
  | nil => rfl
  | cons buffer rest =>
    rw [List.forall_mem_cons] at hsame
    rw [remaining, remaining, hsame.left, flatMap_contents hsame.right]

theorem unwritten_congr (hw : t.worker = s.worker) (hbatch : t.buf2write = s.buf2write)
    (hsame : ∀ b ∈ s.buf2write, t.heap.contents b = s.heap.contents b)
    : t.unwritten = s.unwritten := by
  unfold State.unwritten
  rw [hw, hbatch]
  cases s.worker with
  | taken => exact flatMap_contents hsame
  | write b k =>
    apply remaining_congr
    intro b' hb'
    exact hsame b' (List.mem_of_mem_drop hb')
  | _ => rfl

section Push

theorem unwritten_pushCur (h : s.Wf) (hfull : s.curBuf.full N = false)
    : (s.pushCur N).unwritten = s.unwritten := by
  rcases pushCur_eq N h with ⟨curBuf, heap, hpush, heq⟩
  rw [heq]
  apply unwritten_congr
  . rfl
  . rfl
  . intro b hb
    exact Heap.contents_push_other hfull hpush (h.buf2write_ne hb)

theorem pending_pushCur (h : s.Wf) (hfull : s.curBuf.full N = false)
    : (s.pushCur N).pending = s.pending ++ [s.accepted] := by
  rcases pushCur_eq N h with ⟨curBuf, heap, hpush, heq⟩
  have hbufs : s.bufs.flatMap heap.contents = s.bufs.flatMap s.heap.contents := by
    apply flatMap_contents
    intro b hb
    exact Heap.contents_push_other hfull hpush (h.bufs_ne hb)
  rw [heq]
  simp only [State.pending, hbufs, Heap.contents_push hfull hpush, List.append_assoc]

-- An array yet to be allocated is nobody's
theorem ctxs_fresh (h : s.Wf) (hb : ∀ a, b.owns a ≤ s.owned a) (hk : s.heap.arrays ≤ k)
    : b.ctxs ≠ some k := by
  intro ha
  have hone := hb k
  have hnone := h.owned k
  rw [owns_of_ctxs ha] at hone
  simp only [Heap.allocated, Nat.not_lt.mpr hk, decide_false, Bool.toNat_false] at hnone
  omega

theorem contents_fresh (h : s.Wf) (hb : ∀ a, b.owns a ≤ s.owned a)
    : s.heap.new.2.contents b = s.heap.contents b :=
  Heap.contents_new (ctxs_fresh h hb (Nat.le_refl _))

theorem owns_bufs (hb : b ∈ s.bufs) (a : Nat) : b.owns a ≤ s.owned a := by
  have := owns_le_ownsAll (a := a) hb
  unfold State.owned
  omega

theorem owns_buf2write (hb : b ∈ s.buf2write) (a : Nat) : b.owns a ≤ s.owned a := by
  have := owns_le_ownsAll (a := a) hb
  unfold State.owned
  omega

theorem owns_curBuf (a : Nat) : s.curBuf.owns a ≤ s.owned a := by
  unfold State.owned
  omega

theorem pending_congr (hbufs : t.bufs = s.bufs) (hcur : t.curBuf = s.curBuf)
    (hsame : ∀ b, (∀ a, b.owns a ≤ s.owned a) → t.heap.contents b = s.heap.contents b)
    : t.pending = s.pending := by
  unfold State.pending
  rw [hbufs, hcur, hsame s.curBuf owns_curBuf]
  rw [flatMap_contents fun b hb => hsame b (owns_bufs hb)]

theorem pending_rotate (h : s.Wf) : s.rotate.pending = s.pending := by
  have hcur : s.rotate.heap.contents s.rotate.curBuf = [] :=
    Heap.contents_of_index (rotate_empty h)
  unfold State.pending
  rw [hcur, List.append_nil]
  simp only [State.rotate]
  split
  . simp
  . rw [List.flatMap_append, List.flatMap_singleton, contents_fresh h owns_curBuf]
    rw [flatMap_contents fun b hb => contents_fresh h (owns_bufs hb)]

theorem unwritten_rotate (h : s.Wf) : s.rotate.unwritten = s.unwritten := by
  simp only [State.rotate]
  split
  . rfl
  . apply unwritten_congr
    . rfl
    . rfl
    . intro b hb
      exact contents_fresh h (owns_buf2write hb)

end Push

section Work

theorem unwritten_of_not_busy (hw : s.worker.busy = false) : s.unwritten = [] := by
  unfold State.unwritten
  cases h : s.worker <;> simp_all [Pc.busy]

-- The section moves what is pending into the batch
theorem unwritten_take (h : s.Wf) (hw : s.worker.busy = false)
    : s.take.unwritten = s.pending ∧ s.take.pending = [] := by
  have hbatch := h.batch hw
  have hnew1 := Heap.contents_of_index (h := s.heap) h.new1_index
  unfold State.take
  cases hempty : s.curBuf.empty <;> cases hcheck : s.nextBuf.check
  all_goals
    simp [hcheck, hbatch, State.unwritten, State.pending, hnew1]
  all_goals
    apply Heap.contents_of_index
    simpa [FixedBuffer.empty] using hempty

theorem remaining_zero (h : Heap Nat) (bs : List FixedBuffer)
    : remaining h 0 bs = bs.flatMap h.contents := by
  cases bs <;> rfl

theorem drop_of_getElem? {α : Type} {l : List α} {k : Nat} {a : α} (h : l[k]? = some a)
    : l.drop k = a :: l.drop (k + 1) := by
  rcases List.getElem?_eq_some_iff.mp h with ⟨hk, rfl⟩
  exact List.drop_eq_getElem_cons hk

-- One record goes from the batch to the file
theorem write_step {b k : Nat} (hw : s.worker = .write b k)
    : (s.write b k).written ++ (s.write b k).unwritten = s.written ++ s.unwritten
        ∧ (s.write b k).pending = s.pending := by
  unfold State.write
  cases hb : s.buf2write[b]? with
  | none =>
    have hdrop : s.buf2write.drop b = [] := List.drop_eq_nil_of_le (List.getElem?_eq_none_iff.mp hb)
    simp [State.written, State.unwritten, State.pending, hw, hdrop, remaining]
  | some buffer =>
    have hdrop := drop_of_getElem? hb
    cases hk : (s.heap.contents buffer)[k]? with
    | none =>
      have hend : (s.heap.contents buffer).drop k = [] :=
        List.drop_eq_nil_of_le (List.getElem?_eq_none_iff.mp hk)
      simp [State.written, State.unwritten, State.pending, hw, hdrop, remaining, hend, hk]
      rw [← remaining_zero]
      rfl
    | some m =>
      have hrest := drop_of_getElem? hk
      simp [State.written, State.unwritten, State.pending, hw, hdrop, remaining, hrest, hk,
        Entry.toMessage]

theorem drop_pending : s.drop.pending = s.pending := by
  unfold State.drop
  split
  . rfl
  . split <;> rfl

theorem resize_same (s : State)
    : s.resize.file = s.file ∧ s.resize.accepted = s.accepted ∧ s.resize.discarded = s.discarded := by
  unfold State.resize
  split <;> exact ⟨rfl, rfl, rfl⟩

theorem recycle_same (s : State)
    : s.recycle.file = s.file ∧ s.recycle.accepted = s.accepted ∧ s.recycle.discarded = s.discarded := by
  rcases resize_eq_cons s with ⟨b0, b1, rest, hbatch⟩
  have := resize_same s
  unfold State.recycle
  simp only [hbatch]
  exact this

theorem pending_resize (h : s.Wf) : s.resize.pending = s.pending := by
  unfold State.resize
  split
  . apply pending_congr
    . rfl
    . rfl
    . intro b hb
      have hfresh : b.ctxs ≠ some (s.heap.arrays + 1) := ctxs_fresh h hb (Nat.le_succ _)
      exact (Heap.contents_new (h := s.heap.new.2) hfresh).trans (contents_fresh h hb)
  . apply pending_congr
    . rfl
    . rfl
    . intro b hb
      exact contents_fresh h hb
  . rfl

theorem recycle_step (h : s.Wf) (hw : s.worker = .recycle)
    : s.recycle.written = s.written ∧ s.recycle.unwritten = s.unwritten
        ∧ s.recycle.pending = s.pending := by
  have hresize := pending_resize h
  rcases resize_eq_cons s with ⟨b0, b1, rest, hbatch⟩
  rw [← hresize]
  unfold State.recycle
  simp only [hbatch]
  refine ⟨?_, ?_, ?_⟩
  . exact congrArg (List.filterMap Entry.toMessage) (resize_same s).left
  . simp [State.unwritten, hw]
  . rfl

end Work

theorem kept_push (h : s.Ordered) (ht : t.accepted = s.accepted + 1) (hd : t.discarded = s.discarded)
    : t.kept = s.kept ++ [s.accepted] := by
  have hnew : s.accepted ∉ s.discarded := by
    intro hmem
    exact Nat.lt_irrefl _ (h.discarded _ hmem)
  unfold State.kept
  rw [ht, hd, List.range_succ, List.filter_append]
  simp [hnew]

theorem nodup_kept (s : State) : s.kept.Nodup :=
  List.Nodup.filter _ List.nodup_range

-- Of a list without repetitions a part is taken out by its members
theorem filter_middle {α : Type} [DecidableEq α] {x y z : List α} (h : (x ++ y ++ z).Nodup)
    : (x ++ y ++ z).filter (fun m => decide (m ∉ y)) = x ++ z := by
  rw [List.nodup_append, List.nodup_append] at h
  rcases h with ⟨⟨_, _, hxy⟩, _, hz⟩
  have hx : x.filter (fun m => decide (m ∉ y)) = x := by
    rw [List.filter_eq_self]
    intro m hm
    simpa using fun hy => hxy m hm m hy rfl
  have hy : y.filter (fun m => decide (m ∉ y)) = [] := by
    simp [List.filter_eq_nil_iff]
  have hz : z.filter (fun m => decide (m ∉ y)) = z := by
    rw [List.filter_eq_self]
    intro m hm
    simpa using fun hy => hz m (List.mem_append_right x hy) m hm rfl
  rw [List.filter_append, List.filter_append, hx, hy, hz, List.append_nil]

theorem State.Ordered.keep (h : s.Ordered)
    (hqueue : t.written ++ t.unwritten ++ t.pending = s.written ++ s.unwritten ++ s.pending)
    (ha : t.accepted = s.accepted) (hd : t.discarded = s.discarded)
    : t.Ordered where
  fifo := by
    rw [hqueue, h.fifo, State.kept, State.kept, ha, hd]
  discarded := by
    rw [ha, hd]
    exact h.discarded

-- What is taken out of the queue is discarded
theorem drop_fifo {x y z : List Nat} (hkept : x ++ y ++ z = s.kept)
    : x ++ z = (List.range s.accepted).filter (fun m => decide (m ∉ s.discarded ++ y)) := by
  rw [← filter_middle (hkept ▸ nodup_kept s), hkept, State.kept, List.filter_filter]
  apply List.filter_congr
  intro m _
  simp [and_comm, not_or]

theorem ordered_drop (h : s.Ordered) (hw : s.worker = .taken) : s.drop.Ordered := by
  have hunwritten : s.unwritten = s.buf2write.flatMap s.heap.contents := by
    simp [State.unwritten, hw]
  unfold State.drop
  split
  . next hempty =>
    rw [List.isEmpty_iff] at hempty
    refine State.Ordered.keep h ?_ rfl rfl
    rw [hunwritten, hempty]
    rfl
  . split
    . have hmany : s.buf2write.flatMap s.heap.contents
          = (s.buf2write.take 2).flatMap s.heap.contents
            ++ (s.buf2write.drop 2).flatMap s.heap.contents := by
        rw [← List.flatMap_append, List.take_append_drop]
      have hfifo := h.fifo
      rw [hunwritten, hmany, ← List.append_assoc] at hfifo
      have hwritten : (s.file ++ [Entry.notice (s.buf2write.length - 2)]).filterMap Entry.toMessage
          = s.written := by
        simp [State.written, Entry.toMessage]
      constructor
      . refine Eq.trans ?_ (drop_fifo hfifo)
        have htake := remaining_zero s.heap (s.buf2write.take 2)
        rw [← htake, ← hwritten]
        rfl
      . intro m hm
        rw [List.mem_append] at hm
        cases hm with
        | inl hold => exact h.discarded m hold
        | inr hnew =>
          have hkept : m ∈ s.kept := by
            rw [← hfifo, List.mem_append, List.mem_append]
            exact .inl (.inr hnew)
          exact List.mem_range.mp (List.mem_of_mem_filter hkept)
    . refine State.Ordered.keep h ?_ rfl rfl
      rw [hunwritten, ← remaining_zero]
      rfl

theorem ordered_pushCur (hwf : s.Wf) (h : s.Ordered) (hfull : s.curBuf.full N = false)
    : (s.pushCur N).Ordered := by
  have hunwritten := unwritten_pushCur hwf hfull
  have hpending := pending_pushCur hwf hfull
  rcases pushCur_eq N hwf with ⟨curBuf, heap, hpush, heq⟩
  constructor
  . have hkept : (s.pushCur N).kept = s.kept ++ [s.accepted] := by
      apply kept_push h <;> rw [heq]
    have hwritten : (s.pushCur N).written = s.written := by
      rw [heq]
      rfl
    rw [hwritten, hunwritten, hpending, hkept, ← h.fifo]
    exact (List.append_assoc ..).symm
  . rw [heq]
    intro m hm
    exact Nat.lt_succ_of_lt (h.discarded m hm)

theorem ordered_rotate (hwf : s.Wf) (h : s.Ordered) : s.rotate.Ordered := by
  have hsame : s.rotate.file = s.file ∧ s.rotate.accepted = s.accepted
      ∧ s.rotate.discarded = s.discarded := by
    simp only [State.rotate]
    split <;> exact ⟨rfl, rfl, rfl⟩
  refine State.Ordered.keep h ?_ hsame.right.left hsame.right.right
  rw [unwritten_rotate hwf, pending_rotate hwf, State.written, hsame.left]
  rfl

theorem ordered_notifyOne (h : s.Ordered) : s.notifyOne.Ordered := by
  unfold State.notifyOne
  split
  . next hw =>
    refine State.Ordered.keep h ?_ rfl rfl
    have hunwritten := unwritten_of_not_busy (s := s) (by simp [hw, Pc.busy])
    rw [hunwritten]
    rfl
  . exact h

theorem ordered_take (hwf : s.Wf) (h : s.Ordered) (hw : s.worker.busy = false) : s.take.Ordered := by
  have hsame : s.take.file = s.file ∧ s.take.accepted = s.accepted
      ∧ s.take.discarded = s.discarded := by
    cases hempty : s.curBuf.empty <;> cases hcheck : s.nextBuf.check <;>
      simp [State.take, hempty, hcheck]
  rcases unwritten_take hwf hw with ⟨hunwritten, hpending⟩
  refine State.Ordered.keep h ?_ hsame.right.left hsame.right.right
  rw [hunwritten, hpending, unwritten_of_not_busy hw, State.written, hsame.left]
  simp [State.written]

theorem ordered_step (hwf : s.Wf) (hN : 0 < N) (h : s.Ordered) (hs : Step N s act t) : t.Ordered := by
  have hmove : ∀ {pc : Pc}, pc.busy = false → s.worker.busy = false →
      ({ s with worker := pc } : State).Ordered := by
    intro pc hpc hw
    refine State.Ordered.keep h ?_ rfl rfl
    rw [unwritten_of_not_busy hw, unwritten_of_not_busy (by exact hpc)]
    rfl
  cases hs with
  | pushDone k hdone => exact h
  | push k hw hfull =>
    have hframe : State.Wf { s with frame := Function.update s.frame k false } := { hwf with }
    exact ordered_pushCur hframe (h.keep rfl rfl rfl) hfull
  | rotate k hw hfull =>
    have hframe : State.Wf { s with frame := Function.update s.frame k false } := { hwf with }
    apply ordered_notifyOne
    exact ordered_pushCur (wf_rotate hframe) (ordered_rotate hframe (h.keep rfl rfl rfl))
      (rotate_not_full hframe hN)
  | take hw =>
    apply ordered_take hwf h
    rcases hw with hw | hw <;> simp [hw, Pc.busy]
  | drop hw => exact ordered_drop h hw
  | write b k hw =>
    rcases write_step hw with ⟨hqueue, hpending⟩
    have hsame : (s.write b k).accepted = s.accepted ∧ (s.write b k).discarded = s.discarded := by
      unfold State.write
      split
      . exact ⟨rfl, rfl⟩
      . split <;> exact ⟨rfl, rfl⟩
    refine State.Ordered.keep h ?_ hsame.left hsame.right
    rw [hqueue, hpending]
  | recycle hw =>
    rcases recycle_step hwf hw with ⟨hwritten, hunwritten, hpending⟩
    refine State.Ordered.keep h ?_ (recycle_same s).right.left (recycle_same s).right.right
    rw [hwritten, hunwritten, hpending]
  | notify hd =>
    have hnotify := ordered_notifyOne h
    exact hnotify.keep rfl rfl rfl
  | test hw =>
    apply hmove
    . split <;> rfl
    . simp [hw, Pc.busy]
  | lockEmpty hw hbufs =>
    have hmoved : State.Ordered { s with worker := .wait } := hmove rfl (by simp [hw, Pc.busy])
    exact hmoved.keep rfl rfl rfl
  | wait hw => exact hmove rfl (by simp [hw, Pc.busy])
  | flush hw =>
    have hunwritten := unwritten_of_not_busy (s := s) (by simp [hw, Pc.busy])
    refine State.Ordered.keep h ?_ rfl rfl
    rw [hunwritten]
    rfl
  | timeout hw => exact hmove rfl (by simp [hw, Pc.busy])
  | _ => exact h.keep rfl rfl rfl

theorem reachable_ordered (hN : 0 < N) (h : (machine N).Reach ok s) : s.Ordered := by
  apply h.invariant_with (J := State.Wf)
  . intro s hs
    exact reachable_wf hs
  . intro s hs
    rw [hs]
    exact ordered_start
  . intro s a t hwf hs _ hat
    exact ordered_step hwf hN hs (Step.of_step hat)

-- A thread accepts a message
def accept (k : Nat) : List Action :=
  [.pushMessage k, .lockPush k]

end AsyncLogging
end Elog
end Koro
