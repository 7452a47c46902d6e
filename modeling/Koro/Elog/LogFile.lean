import Koro.Machine.Basic
import Mathlib.Algebra.Group.Int.Defs

/-!
This module contains `LogFile` and its `FileAppender`, for files that open and writes that succeed.

Seconds are integers. `append` is given what `::time` returns to it, which it calls at most once. A record
is shorter than any object may be, so that `written_bytes_` does not overflow. `bytes` is what has been
appended to a file since it was opened and `opened` the second of this; `restarted` says that
`written_bytes_` has been reset after something was appended, and `opens` counts the files opened. An
operation is `none` where it dereferences `file_` while this is null.
-/

namespace Koro
namespace Elog

def kRollPerSeconds : Int := 24 * 60 * 60

structure FileAppender where
  writtenBytes : Nat
  bytes : Nat
  opened : Int
  restarted : Bool
  deriving DecidableEq, Repr

namespace FileAppender

def new (now : Int) : FileAppender where
  writtenBytes := 0
  bytes := 0
  opened := now
  restarted := false

def append (file : FileAppender) (len : Nat) : FileAppender :=
  if len = 0 then
    file
  else
    { file with writtenBytes := file.writtenBytes + len, bytes := file.bytes + len }

def resetWrittenBytes (file : FileAppender) : FileAppender :=
  { file with writtenBytes := 0, restarted := file.restarted || file.bytes ≠ 0 }

end FileAppender

structure LogFile where
  rollSize : Int32
  flushInterval : Int32
  checkPerCount : Int32
  count : Int
  file : Option FileAppender
  lastDay : Int
  lastRollSecond : Int
  lastFlushSecond : Int
  opens : Nat
  deriving DecidableEq

namespace LogFile

def day (now : Int) : Int :=
  now.tdiv kRollPerSeconds * kRollPerSeconds

def rollFile (s : LogFile) (now : Int) : LogFile :=
  if now > s.lastRollSecond then
    { s with
      lastRollSecond := now
      lastFlushSecond := now
      lastDay := day now
      file := some (FileAppender.new now)
      opens := s.opens + 1
    }
  else
    s

-- The members that the initializer list leaves out are what they happen to be
def members (rollSize flushInterval checkPerCount : Int32)
    (lastDay lastRollSecond lastFlushSecond : Int)
    : LogFile where
  rollSize
  flushInterval
  checkPerCount
  count := 0
  file := none
  lastDay
  lastRollSecond
  lastFlushSecond
  opens := 0

def new (rollSize flushInterval checkPerCount : Int32) (lastDay lastRollSecond lastFlushSecond : Int)
    (now : Int)
    : LogFile :=
  (members rollSize flushInterval checkPerCount lastDay lastRollSecond lastFlushSecond).rollFile now

-- The comparison of a `size_t` with an `int`
def exceeds (writtenBytes : Nat) (rollSize : Int32) : Bool :=
  writtenBytes > (rollSize.toInt % 2 ^ 64).toNat

def append (s : LogFile) (now : Int) (len : Nat) : Option LogFile :=
  match s.file with
  | none => none
  | some file =>
    let file := file.append len
    let s := { s with file := some file }
    if exceeds file.writtenBytes s.rollSize then
      let s := s.rollFile now
      s.file.map fun file => { s with file := some file.resetWrittenBytes }
    else
      let s := { s with count := s.count + 1 }
      if s.count ≥ s.checkPerCount.toInt then
        let s := { s with count := 0 }
        if day now ≠ s.lastDay then
          some (s.rollFile now)
        else if now - s.lastFlushSecond ≥ s.flushInterval.toInt then
          some { s with lastFlushSecond := now }
        else
          some s
      else
        some s

-- Flushing changes nothing that is modelled
def flush (s : LogFile) : Option LogFile :=
  s.file.map fun _ => s

inductive Action where
  | append (now : Int) (len : Nat)
  | flush
  deriving DecidableEq, Repr

def step (s : LogFile) : Action → Option LogFile
  | .append now len => s.append now len
  | .flush => s.flush

-- A `LogFile` after its constructor
def machine : Machine LogFile Action where
  init s := ∃ rollSize flushInterval checkPerCount lastDay lastRollSecond lastFlushSecond now,
    s = new rollSize flushInterval checkPerCount lastDay lastRollSecond lastFlushSecond now
  step := step

end LogFile
end Elog
end Koro
