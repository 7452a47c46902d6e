import Koro.Elog.Formatter
import Koro.Elog.Rolling

/-!
This module contains the files that a `LogFile` leaves on the disk: `getFilename`, what the worker of
`AsyncLogging` appends, and what the files say when they are read again.

A character stands for a byte. `disk` has what the file of a name contains; opening a file that there is
already goes on at its end. `appended` lists what has been appended, the second it was appended in, and
the second in which the file that it has gone to was opened: the code keeps no such list.
-/

namespace Koro
namespace Elog

open Text
open Function (update)

def Tm.stamp (tm : Tm) : List Char :=
  paddedInt 4 (tm.tmYear + 1900) ++ (paddedInt 2 (tm.tmMon + 1) ++ (paddedInt 2 tm.tmMday ++ '-' ::
    (paddedInt 2 tm.tmHour ++ (paddedInt 2 tm.tmMin ++ paddedInt 2 tm.tmSec))))

def getFilename (localtime : Int → Tm) (basename pre : List Char) (now : Int) : List Char :=
  basename ++ '/' :: (pre ++ '.' :: ((localtime now).stamp ++ ".log".toList))

-- What the worker appends
inductive Record where
  | message (ctx : Context)
  | notice (us : Int) (dropped : Nat)

def Record.text (localtime : Int → Tm) : Record → List Char
  | .message ctx => Formatter.format localtime Flags.kStdFlags ctx
  | .notice us dropped =>
    'D' :: "ropped log messages at ".toList ++ toFormattedString localtime us true true
      ++ ',' :: ' ' :: padded 0 dropped ++ ' ' :: "larger buffers\n".toList

inductive RecordSaid where
  | message (line : LogLine)
  | notice (tm : Tm) (micros : Int) (dropped : Nat)
  deriving DecidableEq

def Record.said (localtime : Int → Tm) : Record → RecordSaid
  | .message ctx => .message (ctx.said localtime)
  | .notice us dropped => .notice (localtime (secs us)) (micros us) dropped

def Record.Plain : Record → Prop
  | .message ctx => ctx.Plain
  | .notice _ _ => True

structure Appended where
  second : Int
  now : Int
  record : Record

structure Archive where
  log : LogFile
  disk : List Char → List Char
  appended : List Appended

namespace Archive

inductive Action where
  | append (now : Int) (record : Record)
  | flush

section

variable (localtime : Int → Tm) (basename pre : List Char)

def append (s : Archive) (now : Int) (record : Record) : Option Archive :=
  let data := record.text localtime
  match s.log.file, s.log.append now data.length with
  | some file, some log =>
    let name := getFilename localtime basename pre file.opened
    some {
      log
      disk := update s.disk name (s.disk name ++ data)
      appended := s.appended ++ [{ second := file.opened, now, record }]
    }
  | _, _ => none

def step (s : Archive) : Action → Option Archive
  | .append now record => s.append localtime basename pre now record
  | .flush => s.log.flush.map fun log => { s with log }

-- The directory is empty, and the `LogFile` has opened its first file
def machine : Machine Archive Action where
  init s := LogFile.rolling.init s.log ∧ s.disk = (fun _ => []) ∧ s.appended = []
  step := step localtime basename pre

-- The records that have gone to the file of this name
def inFile (s : Archive) (file : List Char) : List Appended :=
  s.appended.filter fun e => getFilename localtime basename pre e.second = file

end

variable {localtime : Int → Tm} {basename pre : List Char} {s t : Archive} {e : Appended}
  {second now : Int} {record : Record}

theorem append_eq (h : s.append localtime basename pre now record = some t)
    : ∃ file, s.log.file = some file
        ∧ s.log.append now (record.text localtime).length = some t.log
        ∧ t.appended = s.appended ++ [{ second := file.opened, now, record }]
        ∧ t.disk = update s.disk (getFilename localtime basename pre file.opened)
            (s.disk (getFilename localtime basename pre file.opened) ++ record.text localtime) := by
  unfold append at h
  dsimp only at h
  split at h
  . next file log hfile hlog =>
    cases h
    exact ⟨file, hfile, hlog, rfl, rfl⟩
  . cases h

-- The disk has what has been appended, in files that are opened one after the other
structure Holds (localtime : Int → Tm) (basename pre : List Char) (s : Archive) : Prop where
  disk : ∀ file, s.disk file
    = (s.inFile localtime basename pre file).flatMap fun e => e.record.text localtime
  opened : ∃ file, s.log.file = some file ∧ file.opened = s.log.lastRollSecond
  sorted : s.appended.Pairwise fun e e' => e.second ≤ e'.second
  le : ∀ e ∈ s.appended, e.second ≤ s.log.lastRollSecond

theorem append_seconds {s t : LogFile} {file : FileAppender} {len : Nat} (hfile : s.file = some file)
    (hopened : file.opened = s.lastRollSecond) (h : s.append now len = some t)
    : s.lastRollSecond ≤ t.lastRollSecond
        ∧ ∃ file, t.file = some file ∧ file.opened = t.lastRollSecond := by
  rcases LogFile.append_bytes file len with ⟨_, _, hsame, _⟩
  rcases LogFile.append_cases hfile h with ⟨_, hnow, hopens⟩ | ⟨_, _, hstays⟩ | ⟨_, _, hstays⟩
  . rw [hopens.lastRollSecond]
    exact ⟨Int.le_of_lt hnow, _, hopens.file, rfl⟩
  . rw [hstays.lastRollSecond]
    exact ⟨Int.le_refl _, _, hstays.file, hsame.trans hopened⟩
  . rw [hstays.lastRollSecond]
    exact ⟨Int.le_refl _, _, hstays.file, hsame.trans hopened⟩

theorem holds_append (h : Holds localtime basename pre s)
    (hs : s.append localtime basename pre now record = some t)
    : Holds localtime basename pre t := by
  rcases append_eq hs with ⟨file, hfile, hlog, happended, hdisk⟩
  rcases h.opened with ⟨file', hfile', hopened⟩
  cases Option.some.inj (hfile.symm.trans hfile')
  rcases append_seconds hfile hopened hlog with ⟨hle, hopens⟩
  constructor
  . intro name
    rw [hdisk]
    simp only [inFile, happended, List.filter_append, List.flatMap_append]
    by_cases hname : name = getFilename localtime basename pre file.opened
    . subst hname
      simp [h.disk, inFile]
    . rw [Function.update_of_ne hname, h.disk, inFile]
      simp [Ne.symm hname]
  . exact hopens
  . rw [happended, List.pairwise_append]
    refine ⟨h.sorted, List.pairwise_singleton _ _, ?_⟩
    intro e he e' he'
    cases List.mem_singleton.mp he'
    rw [hopened]
    exact h.le e he
  . intro e he
    rw [happended, List.mem_append, List.mem_singleton] at he
    rcases he with he | rfl
    . have := h.le e he
      omega
    . rw [← hopened] at hle
      exact hle

theorem reach_holds {ok : Archive → Action → Prop}
    (h : (machine localtime basename pre).Reach ok s)
    : Holds localtime basename pre s := by
  apply h.invariant
  . intro s hinit
    rcases hinit with ⟨hlog, hdisk, happended⟩
    rcases (LogFile.open_init hlog).file with ⟨file, hfile, htells⟩
    refine ⟨?_, ⟨file, hfile, htells.opened⟩, ?_, ?_⟩
    . simp [hdisk, inFile, happended]
    . simp [happended]
    . simp [happended]
  . intro s a t hholds _ hs
    cases a with
    | append now record => exact holds_append hholds hs
    | flush =>
      simp only [machine, step, LogFile.flush, Option.map_map, Option.map_eq_some_iff] at hs
      rcases hs with ⟨_, _, rfl⟩
      exact ⟨hholds.disk, hholds.opened, hholds.sorted, hholds.le⟩

theorem append_isSome {s : LogFile} {file : FileAppender} (hfile : s.file = some file) (now : Int)
    (len : Nat)
    : ∃ t, s.append now len = some t := by
  unfold LogFile.append LogFile.rollFile
  rw [hfile]
  dsimp only
  split
  . split
    . exact ⟨_, rfl⟩
    . exact ⟨_, rfl⟩
  . split
    . split
      . exact ⟨_, rfl⟩
      . split
        . exact ⟨_, rfl⟩
        . exact ⟨_, rfl⟩
    . exact ⟨_, rfl⟩

-- The file has been opened in second 1
def begun : Archive where
  log := LogFile.small
  disk := fun _ => []
  appended := []

theorem init_begun : (machine utc "log".toList "koro".toList).init begun :=
  ⟨⟨⟨10, 3, 1024, 0, 0, 0, 1, rfl⟩, by decide, by decide, by decide⟩, rfl, rfl⟩

theorem append_begun : ∃ t,
    begun.append utc "log".toList "koro".toList 2 (.message accepting.context) = some t := by
  rcases append_isSome (s := begun.log) rfl 2
    ((Record.message accepting.context).text utc).length with ⟨log, hlog⟩
  exact ⟨_, by rw [append, hlog]; rfl⟩

-- How many records of another day have gone to files opened in this second
def late (s : Archive) (second : Int) : Nat :=
  s.appended.countP fun e => e.second = second ∧ LogFile.day e.now ≠ LogFile.day second

/--
The clock does not go back.
-/
def Forward (s : Archive) : Action → Prop
  | .append now _ => s.log.lastRollSecond ≤ now ∧ ∀ e ∈ s.appended, e.now ≤ now
  | .flush => True

theorem day_mono {now now' : Int} (h : now ≤ now') : LogFile.day now ≤ LogFile.day now' := by
  have hdiv := Int.tdiv_le_tdiv (show 0 < kRollPerSeconds by decide) h
  exact Int.mul_le_mul_of_nonneg_right hdiv (by decide)

theorem rollFile_count (s : LogFile) (now : Int)
    : (s.rollFile now).count = s.count
        ∧
      ((s.lastRollSecond < now ∧ (s.rollFile now).lastRollSecond = now
            ∧ (s.rollFile now).lastDay = LogFile.day now)
          ∨
        (now ≤ s.lastRollSecond ∧ (s.rollFile now).lastRollSecond = s.lastRollSecond
            ∧ (s.rollFile now).lastDay = s.lastDay)) := by
  unfold LogFile.rollFile
  split
  . next hnow => exact ⟨rfl, .inl ⟨hnow, rfl, rfl⟩⟩
  . next hnow => exact ⟨rfl, .inr ⟨Int.not_lt.mp hnow, rfl, rfl⟩⟩

-- A file opens, or the count goes up, or it starts again on the same day, or no second has passed
theorem append_count {s t : LogFile} {len : Nat} (hcheck : 0 < s.checkPerCount.toInt)
    (hcount : 0 ≤ s.count ∧ s.count < s.checkPerCount.toInt) (h : s.append now len = some t)
    : (0 ≤ t.count ∧ t.count < s.checkPerCount.toInt)
        ∧
      ((s.lastRollSecond < now ∧ t.lastRollSecond = now ∧ t.lastDay = LogFile.day now)
          ∨
        (t.lastRollSecond = s.lastRollSecond ∧ t.lastDay = s.lastDay
          ∧ (t.count = s.count + 1 ∨ LogFile.day now = s.lastDay
            ∨ (now ≤ s.lastRollSecond ∧ (t.count = s.count ∨ LogFile.day now ≠ s.lastDay))))) := by
  unfold LogFile.append at h
  split at h
  . cases h
  . next file hfile =>
    dsimp only at h
    split at h
    . simp only [Option.map_eq_some_iff] at h
      rcases h with ⟨rolled, _, rfl⟩
      rcases rollFile_count { s with file := some (file.append len) } now with
        ⟨hsame, hroll | ⟨hnow, hstays⟩⟩
      . exact ⟨by rw [hsame]; exact hcount, .inl hroll⟩
      . exact ⟨by rw [hsame]; exact hcount,
          .inr ⟨hstays.left, hstays.right, .inr (.inr ⟨hnow, .inl hsame⟩)⟩⟩
    . split at h
      . split at h
        . next hday =>
          cases h
          rcases rollFile_count { s with file := some (file.append len), count := 0 } now with
            ⟨hsame, hroll | ⟨hnow, hstays⟩⟩
          . exact ⟨by rw [hsame]; exact ⟨Int.le_refl 0, hcheck⟩, .inl hroll⟩
          . exact ⟨by rw [hsame]; exact ⟨Int.le_refl 0, hcheck⟩,
              .inr ⟨hstays.left, hstays.right, .inr (.inr ⟨hnow, .inr hday⟩)⟩⟩
        . next hday =>
          have hday := not_not.mp hday
          split at h
          . cases h
            exact ⟨⟨Int.le_refl 0, hcheck⟩, .inr ⟨rfl, rfl, .inr (.inl hday)⟩⟩
          . cases h
            exact ⟨⟨Int.le_refl 0, hcheck⟩, .inr ⟨rfl, rfl, .inr (.inl hday)⟩⟩
      . next hlt =>
        cases h
        refine ⟨⟨?_, Int.not_le.mp hlt⟩, .inr ⟨rfl, rfl, .inl rfl⟩⟩
        dsimp only
        omega

structure Timely (s : Archive) : Prop where
  check : 0 < s.log.checkPerCount.toInt
  count : 0 ≤ s.log.count ∧ s.log.count < s.log.checkPerCount.toInt
  lastDay : s.log.lastDay = LogFile.day s.log.lastRollSecond
  second : ∀ e ∈ s.appended, e.second ≤ e.now
  now : s.late s.log.lastRollSecond ≤ s.log.count
  late : ∀ second, s.late second ≤ s.log.checkPerCount.toInt

theorem late_append {s t : Archive} {e : Appended} (h : t.appended = s.appended ++ [e]) (second : Int)
    : t.late second
        =
      s.late second + if e.second = second ∧ LogFile.day e.now ≠ LogFile.day second then 1 else 0 := by
  simp only [late, h, List.countP_append, List.countP_singleton, decide_eq_true_eq]

theorem late_eq_zero (h : ∀ e ∈ s.appended, e.second = second → LogFile.day e.now = LogFile.day second)
    : s.late second = 0 := by
  unfold late
  rw [List.countP_eq_zero]
  intro e he hlate
  rw [decide_eq_true_eq] at hlate
  exact hlate.right (h e he hlate.left)

-- The records in the last file are of its day if the last of them is
theorem late_last (hlast : t.appended = s.appended ++ [e]) (hforward : ∀ d ∈ s.appended, d.now ≤ e.now)
    (hsecond : ∀ d ∈ t.appended, d.second ≤ d.now) (hday : LogFile.day e.now = LogFile.day second)
    : t.late second = 0 := by
  apply late_eq_zero
  intro d hd hsame
  have hle : d.now ≤ e.now := by
    rw [hlast, List.mem_append, List.mem_singleton] at hd
    rcases hd with hd | rfl
    . exact hforward d hd
    . exact Int.le_refl _
  have hlow := day_mono (hsame ▸ hsecond d hd)
  have hhigh := day_mono hle
  omega

theorem timely_append (hholds : Holds localtime basename pre s) (h : Timely s)
    (ha : Forward s (.append now record)) (hs : s.append localtime basename pre now record = some t)
    : Timely t := by
  rcases append_eq hs with ⟨file, hfile, hlog, happended, _⟩
  rcases hholds.opened with ⟨file', hfile', hopened⟩
  cases Option.some.inj (hfile.symm.trans hfile')
  rw [hopened] at happended
  rcases append_count h.check h.count hlog with ⟨hcount, hroll⟩
  have hcheck := (LogFile.append_const hlog).right
  have hlate := late_append happended
  have hsecond : ∀ e ∈ t.appended, e.second ≤ e.now := by
    intro e he
    rw [happended, List.mem_append, List.mem_singleton] at he
    rcases he with he | rfl
    . exact h.second e he
    . exact ha.left
  -- A record is late for no file but the last
  have hbound : t.late s.log.lastRollSecond ≤ s.log.checkPerCount.toInt →
      ∀ second, t.late second ≤ s.log.checkPerCount.toInt := by
    intro hlast second
    by_cases hsame : s.log.lastRollSecond = second
    . subst hsame
      exact hlast
    . have := hlate second
      simp only [hsame, false_and, ↓reduceIte, Nat.add_zero] at this
      rw [this]
      exact h.late second
  have hone : t.late s.log.lastRollSecond ≤ s.log.count + 1 := by
    have := h.now
    rw [hlate]
    split <;> omega
  rcases hroll with ⟨hnow, hroll, hday⟩ | ⟨hstays, hday, hcounted⟩
  . -- Nothing is in the file that opens
    have hnone : t.late now = 0 := by
      apply late_eq_zero
      intro e he hsame
      have := hholds.le
      rw [happended, List.mem_append, List.mem_singleton] at he
      rcases he with he | rfl
      . have := hholds.le e he
        omega
      . simp only at hsame
        omega
    constructor
    . rw [hcheck]
      exact h.check
    . rw [hcheck]
      exact hcount
    . rw [hday, hroll]
    . exact hsecond
    . rw [hroll, hnone]
      exact hcount.left
    . rw [hcheck]
      apply hbound
      have := h.count
      omega
  . have hlast : t.late s.log.lastRollSecond ≤ t.log.count := by
      rcases hcounted with hcounted | hsame | ⟨hle, hsame⟩
      . omega
      . rw [h.lastDay] at hsame
        rw [late_last happended ha.right hsecond hsame]
        exact hcount.left
      . have hnow : now = s.log.lastRollSecond := Int.le_antisymm hle ha.left
        have hsame : t.log.count = s.log.count := by
          rcases hsame with hsame | hne
          . exact hsame
          . rw [h.lastDay, hnow] at hne
            exact absurd rfl hne
        rw [hlate, hsame]
        simp only [hnow, ne_eq, not_true, and_false, ↓reduceIte, Nat.add_zero]
        exact h.now
    constructor
    . rw [hcheck]
      exact h.check
    . rw [hcheck]
      exact hcount
    . rw [hday, hstays]
      exact h.lastDay
    . exact hsecond
    . rw [hstays]
      exact hlast
    . rw [hcheck]
      apply hbound
      omega

theorem timely_init (h : (machine localtime basename pre).init s) : Timely s := by
  rcases h with ⟨⟨⟨rollSize, flushInterval, checkPerCount, lastDay, lastRollSecond, lastFlushSecond, now,
    hnew⟩, hfile, _, hcheck⟩, _, happended⟩
  rw [hnew] at hfile
  have hopen := (LogFile.new_file _ _ _ _ _ _ _).mp hfile
  have hzero : s.late s.log.lastRollSecond = 0 := late_eq_zero (by simp [happended])
  rcases rollFile_count
    (LogFile.members rollSize flushInterval checkPerCount lastDay lastRollSecond lastFlushSecond) now with
    ⟨hcount, ⟨_, hroll, hday⟩ | ⟨hnow, _, _⟩⟩
  . have hcount : s.log.count = 0 := by
      rw [hnew]
      exact hcount
    constructor
    . exact hcheck
    . omega
    . rw [hnew, LogFile.new, hday, hroll]
    . simp [happended]
    . omega
    . intro second
      rw [late_eq_zero (by simp [happended])]
      omega
  . exact absurd hopen (Int.not_lt.mpr hnow)

/--
If the clock does not go back, no file gets more records of another day than the day it was opened on than
there are between two looks at the day.
-/
theorem late_le (h : (machine localtime basename pre).Reach Forward s) (second : Int)
    : s.late second ≤ s.log.checkPerCount.toInt := by
  have htimely : Timely s := by
    apply h.invariant_with (J := Holds localtime basename pre)
    . intro s hs
      exact reach_holds hs
    . intro s hinit
      exact timely_init hinit
    . intro s a t hholds htimely ha hs
      cases a with
      | append now record => exact timely_append hholds htimely ha hs
      | flush =>
        simp only [machine, step, LogFile.flush, Option.map_map, Option.map_eq_some_iff] at hs
        rcases hs with ⟨_, _, rfl⟩
        exact ⟨htimely.check, htimely.count, htimely.lastDay, htimely.second, htimely.now, htimely.late⟩
  exact htimely.late second

theorem late_le_begun : ∃ t,
    begun.append utc "log".toList "koro".toList 2 (.message accepting.context) = some t
      ∧
    t.late 1 ≤ t.log.checkPerCount.toInt := by
  rcases append_begun with ⟨t, ht⟩
  have hforward : Forward begun (.append 2 (.message accepting.context)) := ⟨by decide, nofun⟩
  exact ⟨t, ht, late_le ((Machine.Reach.start init_begun).tail hforward ht) 1⟩

end Archive

end Elog
end Koro
