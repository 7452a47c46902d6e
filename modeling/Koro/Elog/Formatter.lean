import Koro.Data.Text
import Koro.Elog.Logger
import Mathlib.Algebra.Group.Int.Defs

/-!
This module contains `Formatter` and `Timestamp::toFormattedString`, next to the line that a `LogStream`
prints itself when the asynchronous logging is off, and a reader of such lines.

`localtime` stands for `::localtime_r`. A time stamp is in microseconds; C strings are lists of
characters, and none is null.
-/

namespace Koro
namespace Elog

open Text

structure Tm where
  tmYear : Int
  tmMon : Int
  tmMday : Int
  tmHour : Int
  tmMin : Int
  tmSec : Int
  deriving DecidableEq, Repr

namespace Flags

def kDate : UInt8 := (1 : UInt8) <<< 0
def kTime : UInt8 := (1 : UInt8) <<< 1
def kFullName : UInt8 := (1 : UInt8) <<< 2
def kShortName : UInt8 := (1 : UInt8) <<< 3
def kLine : UInt8 := (1 : UInt8) <<< 4
def kFuncName : UInt8 := (1 : UInt8) <<< 5
def kThreadId : UInt8 := (1 : UInt8) <<< 6
def kStdFlags : UInt8 := kDate ||| kTime ||| kThreadId ||| kShortName ||| kLine ||| kFuncName

-- The conversion to `bool`
def toBool (flags : UInt8) : Bool :=
  flags != 0

end Flags

structure Context where
  timestamp : Int
  tid : UInt64
  level : UInt8
  line : Int32
  fullName : List Char
  shortName : List Char
  func : List Char
  text : List Char
  deriving DecidableEq

-- `us / 1'000'000` and `us % 1'000'000`, which round towards zero
def secs (us : Int) : Int :=
  us.tdiv 1000000

def micros (us : Int) : Int :=
  us.tmod 1000000

def toFormattedString (localtime : Int → Tm) (us : Int) (date time : Bool) : List Char :=
  if !date && !time then
    []
  else
    let tm := localtime (secs us)
    let day := paddedInt 4 (tm.tmYear + 1900) ++ '-' :: paddedInt 2 (tm.tmMon + 1)
      ++ '-' :: paddedInt 2 tm.tmMday
    let clock := paddedInt 2 tm.tmHour ++ ':' :: paddedInt 2 tm.tmMin ++ ':' :: paddedInt 2 tm.tmSec
      ++ '.' :: paddedInt 6 (micros us)
    if date && time then
      day ++ ' ' :: clock
    else if date then
      day
    else
      clock

namespace Formatter

def logLevel2String : Nat → List Char
  | 0 => "TRACE".toList
  | 1 => "DEBUG".toList
  | 2 => "INFO".toList
  | 3 => "WARN".toList
  | 4 => "ERROR".toList
  | 5 => "FATAL".toList
  | _ => "UNKNOWN".toList

def format (localtime : Int → Tm) (flags : UInt8) (ctx : Context) : List Char :=
  toFormattedString localtime ctx.timestamp (Flags.toBool (flags &&& Flags.kDate))
      (Flags.toBool (flags &&& Flags.kTime))
    ++ (if Flags.toBool (flags &&& Flags.kThreadId) then '[' :: padded 0 ctx.tid.toNat ++ [']'] else [])
    ++ logLevel2String ctx.level.toNat ++ [' ']
    ++ (if Flags.toBool (flags &&& Flags.kFullName) then
        ctx.fullName
      else if Flags.toBool (flags &&& Flags.kShortName) then
        ctx.shortName
      else
        [])
    ++ (if Flags.toBool (flags &&& Flags.kLine) then ':' :: paddedInt 0 ctx.line.toInt ++ [' '] else [])
    ++ (if Flags.toBool (flags &&& Flags.kFuncName) then ctx.func ++ "()".toList else [])
    ++ "-> ".toList ++ ctx.text ++ ['\n']

end Formatter

namespace LogLevel

def toUInt8 : LogLevel → UInt8
  | .trace => 0
  | .debug => 1
  | .info => 2
  | .warn => 3
  | .error => 4
  | .fatal => 5
  | .off => 6

def logLevel2String : LogLevel → List Char
  | .trace => "TRACE".toList
  | .debug => "DEBUG".toList
  | .info => "INFO".toList
  | .warn => "WARN".toList
  | .error => "ERROR".toList
  | .fatal => "FATAL".toList
  | .off => "UNKNOWN".toList

def logLevel2Color : LogLevel → List Char
  | .trace => '\x1b' :: "[90m".toList
  | .debug => '\x1b' :: "[36m".toList
  | .info => '\x1b' :: "[32m".toList
  | .warn => '\x1b' :: "[33m".toList
  | .error => '\x1b' :: "[31m".toList
  | .fatal => '\x1b' :: "[35m".toList
  | .off => '\x1b' :: "[0m".toList

end LogLevel

-- What `appendAsyncLog` pushes for a message of the file `file`
def Message.context (us : Int) (tid : UInt64) (file : List Char) (m : Message) : Context where
  timestamp := us
  tid
  level := m.level.toUInt8
  line := m.line
  fullName := file
  shortName := m.shortName
  func := m.func
  text := m.text

-- What the destructor of a `LogStream` prints for it
def Message.console (localtime : Int → Tm) (us : Int) (tid : UInt64) (m : Message) : List Char :=
  m.level.logLevel2Color ++ toFormattedString localtime us true true ++ '[' :: padded 0 tid.toNat
    ++ ']' :: m.level.logLevel2String ++ ' ' :: m.shortName ++ ':' :: paddedInt 0 m.line.toInt
    ++ ' ' :: m.func ++ "()-> ".toList ++ m.text ++ '\x1b' :: "[0m\n".toList

-- What a line of a log says
structure LogLine where
  tm : Tm
  micros : Int
  tid : Nat
  level : List Char
  shortName : List Char
  line : Int
  func : List Char
  text : List Char
  deriving DecidableEq

def Context.said (localtime : Int → Tm) (ctx : Context) : LogLine where
  tm := localtime (secs ctx.timestamp)
  micros := micros ctx.timestamp
  tid := ctx.tid.toNat
  level := Formatter.logLevel2String ctx.level.toNat
  shortName := ctx.shortName
  line := ctx.line.toInt
  func := ctx.func
  text := ctx.text

def readTm (l : List Char) : Option ((Tm × Int) × List Char) := do
  let (year, l) ← readInt l
  let l ← expect ['-'] l
  let (mon, l) ← readInt l
  let l ← expect ['-'] l
  let (mday, l) ← readInt l
  let l ← expect [' '] l
  let (hour, l) ← readInt l
  let l ← expect [':'] l
  let (min, l) ← readInt l
  let l ← expect [':'] l
  let (sec, l) ← readInt l
  let l ← expect ['.'] l
  let (us, l) ← readInt l
  let tm : Tm :=
    { tmYear := year - 1900, tmMon := mon - 1, tmMday := mday, tmHour := hour, tmMin := min,
      tmSec := sec }
  some ((tm, us), l)

-- A line that ends with `ending`
def readLine (ending l : List Char) : Option (LogLine × List Char) := do
  let ((tm, us), l) ← readTm l
  let l ← expect ['['] l
  let (tid, l) ← readNat l
  let l ← expect [']'] l
  let (level, l) ← upTo [' '] l
  let (shortName, l) ← upTo [':'] l
  let (line, l) ← readInt l
  let l ← expect [' '] l
  let (func, l) ← upTo "()-> ".toList l
  let (text, l) ← upTo ending l
  some ({ tm, micros := us, tid, level, shortName, line, func, text }, l)

def readConsole (l : List Char) : Option (LogLine × List Char) := do
  let (_, l) ← upTo ['m'] l
  readLine ('\x1b' :: "[0m\n".toList) l

/--
Nothing in the names and the text looks like what comes after it.
-/
structure Context.Plain (ctx : Context) : Prop where
  shortName : ':' ∉ ctx.shortName
  func : ¬"()-> ".toList <:+: ctx.func ++ "()->".toList
  text : '\n' ∉ ctx.text

theorem readTm_toFormattedString (localtime : Int → Tm) (us : Int) (h : Ends rest)
    : readTm (toFormattedString localtime us true true ++ rest)
        =
      some ((localtime (secs us), micros us), rest) := by
  have hdash : ∀ {l}, Ends ('-' :: l) := ends_cons rfl
  have hcolon : ∀ {l}, Ends (':' :: l) := ends_cons rfl
  have hblank : ∀ {l}, Ends (' ' :: l) := ends_cons rfl
  have hdot : ∀ {l}, Ends ('.' :: l) := ends_cons rfl
  simp [toFormattedString, readTm, readInt_padded hdash, readInt_padded hcolon, readInt_padded hblank,
    readInt_padded hdot, readInt_padded h, expect_cons]

theorem level_blank (level : Nat) : ' ' ∉ Formatter.logLevel2String level := by
  unfold Formatter.logLevel2String
  split <;> decide

-- The line of the standard flags without its end, in the order in which it is read
def Context.body (localtime : Int → Tm) (ctx : Context) : List Char :=
  toFormattedString localtime ctx.timestamp true true ++ '[' :: (padded 0 ctx.tid.toNat ++ ']' ::
    (Formatter.logLevel2String ctx.level.toNat ++ ' ' :: (ctx.shortName ++ ':' ::
    (paddedInt 0 ctx.line.toInt ++ ' ' :: (ctx.func ++ ("()-> ".toList ++ ctx.text))))))

theorem format_kStdFlags (localtime : Int → Tm) (ctx : Context)
    : Formatter.format localtime Flags.kStdFlags ctx = ctx.body localtime ++ ['\n'] := by
  have hdate : Flags.toBool (Flags.kStdFlags &&& Flags.kDate) = true := by decide
  have htime : Flags.toBool (Flags.kStdFlags &&& Flags.kTime) = true := by decide
  have hthread : Flags.toBool (Flags.kStdFlags &&& Flags.kThreadId) = true := by decide
  have hfull : Flags.toBool (Flags.kStdFlags &&& Flags.kFullName) = false := by decide
  have hshort : Flags.toBool (Flags.kStdFlags &&& Flags.kShortName) = true := by decide
  have hline : Flags.toBool (Flags.kStdFlags &&& Flags.kLine) = true := by decide
  have hfunc : Flags.toBool (Flags.kStdFlags &&& Flags.kFuncName) = true := by decide
  have harrow : "()".toList ++ "-> ".toList = "()-> ".toList := by decide
  rw [Context.body, ← harrow]
  simp only [Formatter.format, hdate, htime, hthread, hfull, hshort, hline, hfunc, ↓reduceIte,
    Bool.false_eq_true, List.append_assoc, List.cons_append, List.nil_append]

theorem format_ne_nil (localtime : Int → Tm) (ctx : Context)
    : Formatter.format localtime Flags.kStdFlags ctx ≠ [] := by
  rw [format_kStdFlags]
  simp

-- The end is found where it is, as the text has no newline
theorem readLine_body (localtime : Int → Tm) (ctx : Context) (h : ctx.Plain)
    (ending : List Char) (hending : ending ≠ []) (hlast : ending.getLast hending = '\n')
    (hdrop : '\n' ∉ ending.dropLast) (rest : List Char)
    : readLine ending (ctx.body localtime ++ (ending ++ rest)) = some (ctx.said localtime, rest) := by
  have hopen : ∀ {l}, Ends ('[' :: l) := ends_cons rfl
  have hclose : ∀ {l}, Ends (']' :: l) := ends_cons rfl
  have hblank : ∀ {l}, Ends (' ' :: l) := ends_cons rfl
  have hfunc : ∀ l, upTo "()-> ".toList (ctx.func ++ ("()-> ".toList ++ l)) = some (ctx.func, l) := by
    intro l
    rw [← List.append_assoc]
    exact upTo_append (by decide) h.func
  have htext : upTo ending (ctx.text ++ (ending ++ rest)) = some (ctx.text, rest) := by
    rw [← List.append_assoc]
    apply upTo_append hending
    intro hin
    have hmem : '\n' ∈ ctx.text ++ ending.dropLast := by
      apply hin.subset
      rw [← hlast]
      exact List.getLast_mem hending
    rcases List.mem_append.mp hmem with hmem | hmem
    . exact h.text hmem
    . exact hdrop hmem
  simp only [readLine, Context.body, List.append_assoc, List.cons_append,
    readTm_toFormattedString localtime ctx.timestamp hopen, expect_cons, readNat_padded hclose,
    upTo_char (level_blank ctx.level.toNat), upTo_char h.shortName, readInt_padded hblank, hfunc,
    htext, Option.bind_eq_bind, Option.bind_some]
  rfl

theorem readLine_format (localtime : Int → Tm) (ctx : Context) (h : ctx.Plain) (rest : List Char)
    : readLine ['\n'] (Formatter.format localtime Flags.kStdFlags ctx ++ rest)
        =
      some (ctx.said localtime, rest) := by
  rw [format_kStdFlags, List.append_assoc]
  exact readLine_body localtime ctx h _ (List.cons_ne_nil _ _) rfl List.not_mem_nil rest

theorem logLevel2String_toUInt8 (level : LogLevel)
    : Formatter.logLevel2String level.toUInt8.toNat = level.logLevel2String := by
  cases level <;> rfl

-- The line on the console is the line in the file, coloured
theorem console_eq (localtime : Int → Tm) (us : Int) (tid : UInt64) (file : List Char) (m : Message)
    : m.console localtime us tid
        =
      m.level.logLevel2Color
        ++ ((m.context us tid file).body localtime ++ '\x1b' :: "[0m\n".toList) := by
  simp [Message.console, Context.body, Message.context, logLevel2String_toUInt8]

theorem color_ends (level : LogLevel)
    : ∃ color, level.logLevel2Color = color ++ ['m'] ∧ 'm' ∉ color := by
  refine ⟨level.logLevel2Color.dropLast, ?_⟩
  cases level <;> decide

theorem readConsole_console (localtime : Int → Tm) (us : Int) (tid : UInt64) (file : List Char)
    (m : Message) (h : (m.context us tid file).Plain) (rest : List Char)
    : readConsole (m.console localtime us tid ++ rest)
        =
      some ((m.context us tid file).said localtime, rest) := by
  rcases color_ends m.level with ⟨color, hcolor, hnot⟩
  have hbody := readLine_body localtime (m.context us tid file) h ('\x1b' :: "[0m\n".toList)
    (by decide) (by decide) (by decide) rest
  rw [console_eq localtime us tid file, hcolor, List.append_assoc, List.append_assoc, List.append_assoc,
    List.singleton_append]
  simp only [readConsole, upTo_char hnot, Option.bind_eq_bind, Option.bind_some]
  exact hbody

-- A message, and where and when it is logged
structure Logged where
  us : Int
  tid : UInt64
  file : List Char
  message : Message

def Logged.context (e : Logged) : Context :=
  e.message.context e.us e.tid e.file

/--
What is logged reads back, from the file as well as from the console, if nothing in the names and texts
looks like what comes after it.
-/
theorem log_reads_back (localtime : Int → Tm) (log : List Logged) (h : ∀ e ∈ log, e.context.Plain)
    : readAll (readLine ['\n']) log.length
          (log.flatMap fun e => Formatter.format localtime Flags.kStdFlags e.context)
        = some (log.map fun e => e.context.said localtime)
      ∧
      readAll readConsole log.length
          (log.flatMap fun e => e.message.console localtime e.us e.tid)
        = some (log.map fun e => e.context.said localtime) := by
  constructor
  . apply readAll_flatMap
    . intro e _
      exact format_ne_nil localtime e.context
    . intro e he rest
      exact readLine_format localtime e.context (h e he) rest
    . exact Nat.le_refl _
  . apply readAll_flatMap
    . intro e _
      simp [Message.console]
    . intro e he rest
      exact readConsole_console localtime e.us e.tid e.file e.message (h e he) rest
    . exact Nat.le_refl _

-- On the first day there is
def utc (now : Int) : Tm where
  tmYear := 70
  tmMon := 0
  tmMday := 1
  tmHour := now / 3600 % 24
  tmMin := now / 60 % 60
  tmSec := now % 60

-- An error of thread 7, whose text has a colon and an arrow in it
def accepting : Logged where
  us := 1500000
  tid := 7
  file := "src/koro/hook.cpp".toList
  message := {
    sink := .console
    level := .error
    shortName := "hook.cpp".toList
    line := 42
    func := "accept".toList
    text := "fd: 3 -> 4".toList
  }

theorem log_reads_back_accepting
    : readAll (readLine ['\n']) 1
          (Formatter.format utc Flags.kStdFlags accepting.context)
        = some [accepting.context.said utc]
      ∧
      readAll readConsole 1 (accepting.message.console utc accepting.us accepting.tid)
        = some [accepting.context.said utc] := by
  have hplain : ∀ e ∈ [accepting], e.context.Plain := by
    intro e he
    cases List.mem_singleton.mp he
    exact ⟨by decide, by decide, by decide⟩
  simpa using log_reads_back utc [accepting] hplain

end Elog
end Koro
