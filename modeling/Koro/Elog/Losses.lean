import Koro.Elog.Order

/-!
This module contains the accounts of the messages that the worker of `AsyncLogging` erases: a notice tells
how many buffers they were in, and all of these but the last of a batch are full.
-/

namespace Koro
namespace Elog
namespace AsyncLogging

variable {N : Nat} {s t : State} {act : Action} {b : FixedBuffer}

def Entry.toDropped : Entry → Option Nat
  | .message _ => none
  | .notice dropped => some dropped

-- What the notices say
def State.dropped (s : State) : List Nat :=
  s.file.filterMap Entry.toDropped

-- A batch has full buffers, and at its end one that has something in it
structure Batch (N : Nat) (bs full last : List FixedBuffer) : Prop where
  split : bs = full ++ last
  full : ∀ b ∈ full, b.index = N
  one : last.length ≤ 1
  last : ∀ b ∈ last, 0 < b.index ∧ b.index ≤ N

structure State.Loaded (N : Nat) (s : State) : Prop where
  cur : s.curBuf.index ≤ N
  bufs : ∀ b ∈ s.bufs, b.index = N
  batch : s.worker = .taken → ∃ full last, Batch N s.buf2write full last

structure State.Accounted (N : Nat) (s : State) : Prop where
  nodup : s.discarded.Nodup
  le : s.discarded.length ≤ N * s.dropped.sum
  ge : N * s.dropped.sum + s.dropped.length ≤ s.discarded.length + N * s.dropped.length

theorem State.Loaded.congr (h : s.Loaded N) (hcur : t.curBuf = s.curBuf) (hbufs : t.bufs = s.bufs)
    (hw : t.worker ≠ .taken)
    : t.Loaded N where
  cur := by
    rw [hcur]
    exact h.cur
  bufs := by
    rw [hbufs]
    exact h.bufs
  batch := fun htaken => absurd htaken hw

-- Only the erasure of buffers adds to the accounts
theorem State.Accounted.congr (h : s.Accounted N) (hdiscarded : t.discarded = s.discarded)
    (hdropped : t.dropped = s.dropped)
    : t.Accounted N := by
  constructor
  . rw [hdiscarded]
    exact h.nodup
  . rw [hdiscarded, hdropped]
    exact h.le
  . rw [hdiscarded, hdropped]
    exact h.ge

end AsyncLogging
end Elog
end Koro
