import Koro.Elog.Archive
import Koro.Elog.Losses
import Koro.Elog.Shutdown

/-!
This module contains `AsyncLogging` together with the `LogFile` of its worker: what the worker appends in a
step goes to the files, and what can be read there when `wait4Done` has returned.

`ctx m` is the context of the message accepted as the `m`-th. An action says at which second `::time` is
called in the step, and at which microsecond `Timestamp::now` is, if they are.
-/

namespace Koro
namespace Elog

open Text

-- The worker only adds to the file
theorem AsyncLogging.file_step {N : Nat} {s t : AsyncLogging.State} {act : AsyncLogging.Action}
    (hs : AsyncLogging.Step N s act t)
    : s.file <+: t.file := by
  have hpush : ∀ s : AsyncLogging.State, (s.pushCur N).file = s.file := by
    intro s
    unfold State.pushCur
    split <;> rfl
  have hsame : t.file = s.file → s.file <+: t.file := by
    intro h
    rw [h]
  cases hs with
  | push k hw hfull => exact hsame (hpush _)
  | rotate k hw hfull =>
    apply hsame
    rw [State.notifyOne, hpush, State.rotate]
    dsimp only
    split <;> rfl
  | take hw =>
    apply hsame
    cases hempty : s.curBuf.empty <;> cases hcheck : s.nextBuf.check <;>
      simp [State.take, hempty, hcheck]
  | drop hw =>
    unfold State.drop
    split
    . exact List.prefix_refl _
    . split
      . exact List.prefix_append _ _
      . exact List.prefix_refl _
  | write b k hw =>
    unfold State.write
    split
    . exact List.prefix_refl _
    . split
      . exact List.prefix_refl _
      . exact List.prefix_append _ _
  | recycle hw => exact hsame (recycle_same s).left
  | _ => exact List.prefix_refl _

structure Backend where
  logging : AsyncLogging.State
  archive : Archive

namespace Backend

structure Action where
  act : AsyncLogging.Action
  now : Int
  us : Int

section

variable (N : Nat) (localtime : Int → Tm) (basename pre : List Char) (ctx : Nat → Context)

def record (us : Int) : AsyncLogging.Entry → Record
  | .message m => .message (ctx m)
  | .notice dropped => .notice us dropped

-- What the step does to the `LogFile`
def output (s t : AsyncLogging.State) (a : Action) : List Archive.Action :=
  (t.file.drop s.file.length).map (fun e => .append a.now (record ctx a.us e))
    ++ if a.act = .work ∧ (s.worker = .recycle ∨ s.worker = .flush) then [.flush] else []

def step (s : Backend) (a : Action) : Option Backend :=
  (AsyncLogging.step N s.logging a.act).bind fun logging =>
    ((Archive.machine localtime basename pre).exec s.archive (output ctx s.logging logging a)).map
      fun archive => { logging, archive }

def machine : Machine Backend Action where
  init s := s.logging = AsyncLogging.State.start ∧ (Archive.machine localtime basename pre).init s.archive
  step := step N localtime basename pre ctx

end

variable {N : Nat} {localtime : Int → Tm} {basename pre : List Char} {ctx : Nat → Context}
variable {s t : Backend} {a : Action}

-- `done_` is set while the worker is still to take the buffers, or they hold nothing of before
def Settled (s : Backend) (a : Action) : Prop :=
  AsyncLogging.Settled s.logging a.act

instance settled_decidable (s : AsyncLogging.State) (act : AsyncLogging.Action)
    : Decidable (AsyncLogging.Settled s act) :=
  inferInstanceAs (Decidable (act = .callDone → s.doDone = .store →
    s.worker.taking = true ∨ ∀ m ∈ s.pending, s.calledAt ≤ m))

end Backend
end Elog
end Koro
