import Koro.Machine.Basic
import Koro.Task
import Mathlib.Logic.Function.Basic

/-!
This module contains `Logger::LogStream` as the fibers of one thread use it.

A statement constructs a stream, gives it its operands and destroys it. What an operand's evaluation does
comes between: further statements of the same fiber, which are over before the operand is there, and
steps of other fibers. So an operand goes to the stream that its fiber has constructed last among those
that are left. `operands` is what a stream has been given, formatted. A statement below the minimal level
has a `NullLogger`, which does nothing. No other thread turns the asynchronous logging on or off while a
destructor runs. The time stamp, the thread's number and the colour are left out of the messages.
-/

namespace Koro
namespace Elog

open Function (update)

inductive LogLevel where
  | trace
  | debug
  | info
  | warn
  | error
  | fatal
  | off
  deriving DecidableEq, Repr

structure LogStream where
  id : Nat
  fiber : FiberId
  level : LogLevel
  file : List Char
  func : List Char
  line : Int32
  deriving DecidableEq

def LogStream.getShortName (file : List Char) : List Char :=
  (file.reverse.takeWhile (· ≠ '/')).reverse

inductive Sink where
  | async
  | console
  deriving DecidableEq, Repr

structure Message where
  sink : Sink
  level : LogLevel
  shortName : List Char
  line : Int32
  func : List Char
  text : List Char
  deriving DecidableEq

structure Logger where
  asyncEnabled : Bool
  initFlag : Bool
  shutdownFlag : Bool
  str : List Char
  streams : List LogStream
  constructed : Nat
  operands : Nat → List Char
  emitted : List Message

namespace Logger

def initAsyncLogging (s : Logger) : Logger :=
  if s.asyncEnabled then
    s
  else if s.initFlag then
    s
  else
    { s with initFlag := true, asyncEnabled := true }

def shutdownAsyncLogging (s : Logger) : Logger :=
  if !s.asyncEnabled then
    s
  else if s.shutdownFlag then
    s
  else
    { s with shutdownFlag := true, asyncEnabled := false }

def appendAsyncLog (s : Logger) (level : LogLevel) (message file func : List Char) (line : Int32)
    : Logger :=
  if !s.asyncEnabled then
    s
  else
    { s with
      emitted := s.emitted ++ [{
        sink := .async
        level
        shortName := LogStream.getShortName file
        line
        func
        text := message
      }]
    }

-- The stream that an operand of the fiber `f` goes to
def innermost (s : Logger) (f : FiberId) : Option LogStream :=
  s.streams.find? (·.fiber = f)

def construct (s : Logger) (f : FiberId) (level : LogLevel) (file func : List Char) (line : Int32)
    : Logger :=
  { s with
    streams := { id := s.constructed, fiber := f, level, file, func, line } :: s.streams
    constructed := s.constructed + 1
    operands := update s.operands s.constructed []
  }

-- The operator `<<`, where `val` is the operand as it is formatted
def insert (s : Logger) (f : FiberId) (val : List Char) : Option Logger :=
  (s.innermost f).map fun stream =>
    { s with
      str := s.str ++ val
      operands := update s.operands stream.id (s.operands stream.id ++ val)
    }

def print (s : Logger) (stream : LogStream) : Logger :=
  { s with
    emitted := s.emitted ++ [{
      sink := .console
      level := stream.level
      shortName := LogStream.getShortName stream.file
      line := stream.line
      func := stream.func
      text := s.str
    }]
  }

def destroy (s : Logger) (f : FiberId) : Option Logger :=
  (s.innermost f).map fun stream =>
    let s :=
      if s.str ≠ [] then
        if s.asyncEnabled then
          s.appendAsyncLog stream.level s.str stream.file stream.func stream.line
        else
          s.print stream
      else
        s
    { s with str := [], streams := s.streams.filter (·.id ≠ stream.id) }

inductive Action where
  | construct (f : FiberId) (level : LogLevel) (file func : List Char) (line : Int32)
  | insert (f : FiberId) (val : List Char)
  | destroy (f : FiberId)
  | initAsyncLogging
  | shutdownAsyncLogging
  deriving DecidableEq

def step (s : Logger) : Action → Option Logger
  | .construct f level file func line => some (s.construct f level file func line)
  | .insert f val => s.insert f val
  | .destroy f => s.destroy f
  | .initAsyncLogging => some s.initAsyncLogging
  | .shutdownAsyncLogging => some s.shutdownAsyncLogging

-- No statement has begun on the thread
def machine : Machine Logger Action where
  init s := s.str = [] ∧ s.streams = []
  step := step

end Logger
end Elog
end Koro
