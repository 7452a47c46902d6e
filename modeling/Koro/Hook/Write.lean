import Koro.Channel

/-!
This module contains the hooked `write` and its `do_io` as one fiber goes through them, as functions of
what `sys_write` answers to one call after the other.

`Call` is what they call on the way: `sysFunc ptr remain ans` is the call of `sys_func` with `remain`
bytes from the place `ptr` of the buffer on, together with its answer, and `hold` ends when the fiber
is resumed. The result is `none` where the answers run out, before the next call of `sys_func`. The
`errno` passed on is the one left by the last call of `sys_func` that failed. A buffer has less than
`SSIZE_MAX` bytes, so that counts of them do not overflow.
-/

namespace Koro
namespace Write

-- `other` is any `errno` but these two
inductive Errno where
  | EAGAIN
  | EWOULDBLOCK
  | other (code : Nat)
  deriving DecidableEq, Repr

inductive Answer where
  | count (n : Nat)
  | error (errno : Errno)
  deriving DecidableEq, Repr

namespace Answer

def n : Answer → Int
  | .count n => n
  | .error _ => -1

def errno (ans : Answer) (before : Option Errno) : Option Errno :=
  match ans with
  | .count _ => before
  | .error errno => some errno

def again (ans : Answer) : Bool :=
  ans = .error .EAGAIN || ans = .error .EWOULDBLOCK

end Answer

inductive Call where
  | bindTaskQueue
  | setNonBlocking
  | sysFunc (ptr remain : Nat) (ans : Answer)
  | registerEvent (e : Event)
  | hold
  | unregisterEvent (e : Event)
  deriving DecidableEq, Repr

structure Ret where
  n : Int
  errno : Option Errno
  deriving DecidableEq, Repr

-- `fiber` says that the caller runs in a fiber that is not `t_thread_fiber`
structure Env where
  fiber : Bool
  userNonBlock : Bool
  deriving DecidableEq, Repr

-- What `registerEvent` returns
def registers (e : Event) : Bool :=
  e.value = 0x001 || e.value = 0x004

theorem register_isSome {κ : Type u} (ch : Channel n κ) (this : ChannelId) (e : Event)
    (cb : Option κ) (useET : Bool)
    : (ch.register this e cb useET).isSome = registers e := by
  cases e <;> rfl

def doIo.loop (env : Env) (e : Event) (ptr remain : Nat) (errno : Option Errno)
    : List Answer → List Call × Option (Ret × List Answer)
  | [] => ([], none)
  | ans :: script =>
    let errno := ans.errno errno
    if ans.n ≥ 0 ∨ ans.again = false then
      ([.sysFunc ptr remain ans], some (⟨ans.n, errno⟩, script))
    else if env.userNonBlock then
      ([.sysFunc ptr remain ans], some (⟨ans.n, errno⟩, script))
    else if registers e = false then
      ([.sysFunc ptr remain ans, .registerEvent e], some (⟨-1, errno⟩, script))
    else
      match loop env e ptr remain errno script with
      | (calls, res) =>
        (.sysFunc ptr remain ans :: .registerEvent e :: .hold :: .unregisterEvent e :: calls, res)

-- `sysNonBlock` is `sys_non_block_` of the channel before
def doIo (env : Env) (sysNonBlock : Bool) (e : Event) (ptr remain : Nat) (errno : Option Errno)
    (script : List Answer)
    : List Call × Option (Ret × List Answer) :=
  if env.fiber = false then
    match script with
    | [] => ([], none)
    | ans :: script => ([.sysFunc ptr remain ans], some (⟨ans.n, ans.errno errno⟩, script))
  else
    match doIo.loop env e ptr remain errno script with
    | (calls, res) =>
      (.bindTaskQueue :: (if sysNonBlock then [] else [.setNonBlocking]) ++ calls, res)

theorem loop_length (script : List Answer)
    (h : doIo.loop env e ptr remain errno script = (calls, some (ret, rest)))
    : rest.length < script.length := by
  induction script generalizing errno calls with
  | nil => simp [doIo.loop] at h
  | cons ans script ih =>
    simp only [doIo.loop] at h
    split at h
    . simp_all
    . split at h
      . simp_all
      . split at h
        . simp_all
        . simp only [Prod.mk.injEq] at h
          have hlt := ih (Prod.ext rfl h.right)
          exact Nat.lt_succ_of_lt hlt

theorem doIo_length (h : doIo env sysNonBlock e ptr remain errno script = (calls, some (ret, rest)))
    : rest.length < script.length := by
  unfold doIo at h
  split at h
  . cases script <;> simp_all
  . simp only [Prod.mk.injEq] at h
    exact loop_length script (Prod.ext rfl h.right)

def write.loop (env : Env) (sysNonBlock : Bool) (ptr remain : Nat) (total : Int)
    (errno : Option Errno) (script : List Answer)
    : List Call × Option Ret :=
  if remain > 0 then
    match h : doIo env sysNonBlock .kWrite ptr remain errno script with
    | (calls, none) => (calls, none)
    | (calls, some (ret, rest)) =>
      if ret.n < 0 then
        if total > 0 then
          (calls, some ⟨total, ret.errno⟩)
        else
          (calls, some ret)
      else if ret.n = 0 then
        (calls, some ⟨total, ret.errno⟩)
      else
        have := doIo_length h
        let k := ret.n.toNat
        match loop env true (ptr + k) (remain - k) (total + ret.n) ret.errno rest with
        | (more, res) => (calls ++ more, res)
  else
    ([], some ⟨total, errno⟩)
termination_by script.length

def write (env : Env) (sysNonBlock : Bool) (n : Nat) (script : List Answer)
    : List Call × Option Ret :=
  write.loop env sysNonBlock 0 n 0 none script

end Write
end Koro
