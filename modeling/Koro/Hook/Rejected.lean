import Koro.IOManager.Growth
import Koro.Hook.Write

/-!
This module contains the hooked `read`, `write` and `accept` of a task fiber on any `int`: the binding
of the descriptor, then what `Write` says of `do_io`.

Binding again in the later calls of `do_io` of one `write` is left out: `write` comes to them only
after the kernel has taken bytes for the descriptor.
-/

namespace Koro
namespace IOManager
namespace Channels

open Write (Answer Env Errno Ret)

inductive Io where
  | read (nbytes : Nat)
  | write (n : Nat)
  | accept
  deriving DecidableEq, Repr

variable {n : Nat} {κ : Type u} {s : State n κ} {q : Option (Fin n)} {fd : Int32} {io : Io}

namespace State

-- `k` is given what `do_io` reads of the channel: `user_non_block_` and `sys_non_block_`
def bound (s : State n κ) (q : Option (Fin n)) (fd : Int32) (fuel : Nat)
    (k : Env → Bool → Option Ret)
    : Option (Except Fault (Option Ret)) :=
  match s.bindTaskQueueInt q fd fuel with
  | none => none
  | some (.error fault) => some (.error fault)
  | some (.ok (s, ch)) =>
    let env := { fiber := true, userNonBlock := (s.channel ch).userNonBlock }
    some (.ok (k env (s.channel ch).sysNonBlock))

def hooked (s : State n κ) (q : Option (Fin n)) (fd : Int32) (fuel : Nat) (script : List Answer)
    : Io → Option (Except Fault (Option Ret))
  | .read nbytes =>
    s.bound q fd fuel fun env sysNonBlock =>
      (Write.doIo env sysNonBlock .kRead 0 nbytes none script).2.map Prod.fst
  | .accept =>
    s.bound q fd fuel fun env sysNonBlock =>
      (Write.doIo env sysNonBlock .kRead 0 0 none script).2.map Prod.fst
  | .write n =>
    if n > 0 then
      s.bound q fd fuel fun env sysNonBlock => (Write.write env sysNonBlock n script).2
    else
      some (.ok (some ⟨0, none⟩))

end State

/--
`bindTaskQueue` ends with the descriptor in the table, and a call on a descriptor that the kernel
rejects with `rejects` ends with this error.
-/
structure Total (s : State n κ) (q : Option (Fin n)) (fd : Int32) (io : Io) (rejects : Option Nat)
    : Prop where
  binds : ∃ fuel t ch, s.bindTaskQueueInt q fd fuel = some (.ok (t, ch)) ∧ Binds s fd t ch
  rejected : ∀ code, rejects = some code → ∀ script,
    ∃ fuel, s.hooked q fd fuel (.error (.other code) :: script) io
      = some (.ok (some ⟨-1, some (.other code)⟩))

theorem doIo_rejected (env : Env) (b : Bool) (e : Event) (remain code : Nat) (script : List Answer)
    : (Write.doIo env b e 0 remain none (.error (.other code) :: script)).2
        =
      some (⟨-1, some (.other code)⟩, script) := by
  unfold Write.doIo
  split
  . rfl
  . simp [Write.doIo.loop, Answer.n, Answer.again, Answer.errno]

theorem write_rejected (env : Env) (b : Bool) (hm : m > 0) (code : Nat) (script : List Answer)
    : (Write.write env b m (.error (.other code) :: script)).2
        =
      some ⟨-1, some (.other code)⟩ := by
  unfold Write.write Write.write.loop
  rw [if_pos hm]
  split
  . next heq =>
    have := doIo_rejected env b .kWrite m code script
    simp [heq] at this
  . next ret rest heq =>
    have := doIo_rejected env b .kWrite m code script
    simp only [heq, Option.some.injEq, Prod.mk.injEq] at this
    simp [this.left]

theorem bound_of_growable (hn : 0 < n) (h : Growable s fd) {k : Env → Bool → Option Ret} {ret : Ret}
    (hk : ∀ env b, k env b = some ret)
    : s.bound q fd 2 k = some (.ok (some ret)) := by
  rcases binds_of_growable (q := q) hn h with ⟨t, ch, hbind, _⟩
  unfold State.bound
  rw [hbind]
  simp only [hk]

theorem hooked_rejected (hn : 0 < n) (h : Growable s fd) (hio : io ≠ .write 0) (code : Nat)
    (script : List Answer)
    : s.hooked q fd 2 (.error (.other code) :: script) io
        =
      some (.ok (some ⟨-1, some (.other code)⟩)) := by
  cases io with
  | read nbytes =>
    simp only [State.hooked]
    apply bound_of_growable hn h
    intro env b
    rw [doIo_rejected]
    rfl
  | accept =>
    simp only [State.hooked]
    apply bound_of_growable hn h
    intro env b
    rw [doIo_rejected]
    rfl
  | write m =>
    have hm : m > 0 := by
      apply Nat.pos_of_ne_zero
      intro hzero
      exact hio (congrArg Io.write hzero)
    simp only [State.hooked]
    rw [if_pos hm]
    apply bound_of_growable hn h
    intro env b
    exact write_rejected env b hm code script

/--
Binding is total, and the kernel's error comes through, for exactly the descriptors that the table can
grow to; a `write` of no bytes does not ask the kernel at all.
-/
theorem total_iff (hn : 0 < n) (hsize : s.chs.length ≤ maxSize) (rejects : Option Nat)
    : Total s q fd io rejects ↔ Growable s fd ∧ (rejects ≠ none → io ≠ .write 0) := by
  constructor
  . intro h
    constructor
    . rcases h.binds with ⟨fuel, t, ch, hbind, _⟩
      apply Classical.byContradiction
      intro hnot
      cases fuel with
      | zero => simp [State.bindTaskQueueInt, growLoop] at hbind
      | succ fuel => simp [bindTaskQueueInt_not_growable hnot hsize] at hbind
    . intro hrejects hio
      subst hio
      rcases Option.ne_none_iff_exists'.mp hrejects with ⟨code, hcode⟩
      rcases h.rejected code hcode [] with ⟨fuel, hret⟩
      simp [State.hooked] at hret
  . intro h
    rcases h with ⟨hgrow, hio⟩
    constructor
    . rcases binds_of_growable (q := q) hn hgrow with ⟨t, ch, hbind, hbinds⟩
      exact ⟨2, t, ch, hbind, hbinds⟩
    . intro code hcode script
      exact ⟨2, hooked_rejected hn hgrow (hio (by simp [hcode])) code script⟩

-- A `read` from the descriptor -1, which the kernel would reject with `EBADF`
theorem not_total_negative
    : ¬Total (State.start 1 Nat) (some 0) (-1) (.read 1) (some 9) := by
  intro h
  rcases h.binds with ⟨fuel, t, ch, hbind, _⟩
  cases fuel with
  | zero => cases hbind
  | succ fuel =>
    have : (State.start 1 Nat).bindTaskQueueInt (some 0) (-1) (fuel + 1) = some (.error .undefined) := by
      rfl
    rw [this] at hbind
    cases hbind

theorem total_iff_three
    : Total (State.start 1 Nat) (some 0) 3 (.read 1) (some 9)
        ↔
      Growable (State.start 1 Nat) 3 ∧ (some 9 ≠ none → Io.read 1 ≠ .write 0) :=
  total_iff (by decide) (by decide) (some 9)

end Channels
end IOManager
end Koro
