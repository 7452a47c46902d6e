import Koro.Elog.LogFile

/-!
This module contains when a `LogFile` has a file open and when it opens a new one: the first file is
opened only if the clock is past what `last_roll_second_` happens to be, and a file that has grown too big
is rolled as long as its counter has not been reset without a roll.
-/

namespace Koro
namespace Elog
namespace LogFile

variable {s t : LogFile} {now : Int} {len : Nat} {file : FileAppender} {a : Action}

theorem append_bytes (file : FileAppender) (len : Nat)
    : (file.append len).writtenBytes = file.writtenBytes + len
        ∧ (file.append len).bytes = file.bytes + len ∧ (file.append len).opened = file.opened
        ∧ (file.append len).restarted = file.restarted := by
  unfold FileAppender.append
  split
  . next h =>
    subst h
    exact ⟨rfl, rfl, rfl, rfl⟩
  . exact ⟨rfl, rfl, rfl, rfl⟩

structure Opens (s : LogFile) (now : Int) (t : LogFile) : Prop where
  opens : t.opens = s.opens + 1
  file : t.file = some (FileAppender.new now)
  lastRollSecond : t.lastRollSecond = now

-- The append has gone to the file there is
structure Stays (s : LogFile) (file : FileAppender) (t : LogFile) : Prop where
  opens : t.opens = s.opens
  file : t.file = some file
  lastRollSecond : t.lastRollSecond = s.lastRollSecond

-- The day check that an append with nothing too big makes finds another day
def newDay (s : LogFile) (now : Int) : Prop :=
  s.count + 1 ≥ s.checkPerCount.toInt ∧ day now ≠ s.lastDay

theorem rollFile_eq (h : now > s.lastRollSecond) : Opens s now (s.rollFile now) := by
  unfold rollFile
  rw [if_pos h]
  exact ⟨rfl, rfl, rfl⟩

theorem rollFile_of_le (h : ¬now > s.lastRollSecond) (hfile : s.file = some file)
    : Stays s file (s.rollFile now) := by
  unfold rollFile
  rw [if_neg h]
  exact ⟨rfl, hfile, rfl⟩

theorem rollFile_const : (s.rollFile now).rollSize = s.rollSize
    ∧ (s.rollFile now).checkPerCount = s.checkPerCount := by
  unfold rollFile
  split
  . exact ⟨rfl, rfl⟩
  . exact ⟨rfl, rfl⟩

theorem append_const (h : s.append now len = some t)
    : t.rollSize = s.rollSize ∧ t.checkPerCount = s.checkPerCount := by
  unfold append at h
  split at h
  . cases h
  . dsimp only at h
    split at h
    . simp only [Option.map_eq_some_iff] at h
      rcases h with ⟨file, _, rfl⟩
      exact rollFile_const
    . split at h
      . split at h
        . cases h
          exact rollFile_const
        . split at h
          . cases h
            exact ⟨rfl, rfl⟩
          . cases h
            exact ⟨rfl, rfl⟩
      . cases h
        exact ⟨rfl, rfl⟩

/--
An append whose bytes take the counter past the limit, or that finds another day, opens a new file in a
later second than the last; otherwise the file stays.
-/
theorem append_cases (hfile : s.file = some file) (h : s.append now len = some t)
    : ((exceeds (file.writtenBytes + len) s.rollSize ∨ s.newDay now) ∧ now > s.lastRollSecond
          ∧ Opens s now t)
        ∨
      (exceeds (file.writtenBytes + len) s.rollSize ∧ ¬now > s.lastRollSecond
          ∧ Stays s (file.append len).resetWrittenBytes t)
        ∨
      (exceeds (file.writtenBytes + len) s.rollSize = false ∧ ¬(s.newDay now ∧ now > s.lastRollSecond)
          ∧ Stays s (file.append len) t) := by
  unfold append at h
  rw [hfile] at h
  dsimp only at h
  rw [(append_bytes file len).1] at h
  split at h
  . next hexceeds =>
    by_cases hnow : now > s.lastRollSecond
    . have hopens := rollFile_eq (s := { s with file := some (file.append len) }) hnow
      simp only [Option.map_eq_some_iff] at h
      rcases h with ⟨rolled, hrolled, rfl⟩
      have heq : FileAppender.new now = rolled := Option.some.inj (hopens.file.symm.trans hrolled)
      subst heq
      exact .inl ⟨.inl hexceeds, hnow, hopens.opens, rfl, hopens.lastRollSecond⟩
    . have hstays := rollFile_of_le (s := { s with file := some (file.append len) }) hnow rfl
      simp only [Option.map_eq_some_iff] at h
      rcases h with ⟨rolled, hrolled, rfl⟩
      have heq : file.append len = rolled := Option.some.inj (hstays.file.symm.trans hrolled)
      subst heq
      exact .inr (.inl ⟨hexceeds, hnow, hstays.opens, rfl, hstays.lastRollSecond⟩)
  . next hexceeds =>
    have hexceeds := Bool.eq_false_iff.mpr hexceeds
    split at h
    . next hcount =>
      split at h
      . next hday =>
        by_cases hnow : now > s.lastRollSecond
        . have hopens := rollFile_eq
            (s := { s with file := some (file.append len), count := 0 }) hnow
          cases h
          exact .inl ⟨.inr ⟨hcount, hday⟩, hnow, hopens.opens, hopens.file, hopens.lastRollSecond⟩
        . have hstays := rollFile_of_le
            (s := { s with file := some (file.append len), count := 0 }) hnow rfl
          cases h
          exact .inr (.inr ⟨hexceeds, fun hroll => hnow hroll.2,
            hstays.opens, hstays.file, hstays.lastRollSecond⟩)
      . next hday =>
        split at h
        . cases h
          exact .inr (.inr ⟨hexceeds, fun hroll => hday hroll.1.2, rfl, rfl, rfl⟩)
        . cases h
          exact .inr (.inr ⟨hexceeds, fun hroll => hday hroll.1.2, rfl, rfl, rfl⟩)
    . next hcount =>
      cases h
      exact .inr (.inr ⟨hexceeds, fun hroll => hcount hroll.1.1, rfl, rfl, rfl⟩)

structure Tells (s : LogFile) (file : FileAppender) : Prop where
  opened : file.opened = s.lastRollSecond
  le : file.writtenBytes ≤ file.bytes
  counted : file.restarted = false → file.writtenBytes = file.bytes
  grown : file.restarted = true → s.rollSize.toInt < file.bytes

-- A file is open, and the limit is positive
structure Open (s : LogFile) : Prop where
  limit : 0 < s.rollSize.toInt
  file : ∃ file, s.file = some file ∧ Tells s file

theorem exceeds_iff (h : 0 < s.rollSize.toInt) (n : Nat)
    : exceeds n s.rollSize = true ↔ s.rollSize.toInt < n := by
  have := s.rollSize.toInt_lt
  unfold exceeds
  rw [decide_eq_true_eq]
  omega

theorem tells_new (hopens : Opens s now t) : Tells t (FileAppender.new now) := by
  constructor
  . exact hopens.lastRollSecond.symm
  . exact Nat.le_refl 0
  . intro _
    rfl
  . intro h
    cases h

theorem open_append (h : Open s) (hs : s.append now len = some t) : Open t := by
  rcases h.file with ⟨file, hfile, htells⟩
  rcases append_bytes file len with ⟨hwritten, hbytes, hopened, hrestarted⟩
  have hsize := (append_const hs).1
  have hlimit : 0 < t.rollSize.toInt := by
    rw [hsize]
    exact h.limit
  refine ⟨hlimit, ?_⟩
  rcases append_cases hfile hs with ⟨_, _, hopens⟩ | ⟨hexceeds, _, hstays⟩ | ⟨_, _, hstays⟩
  . exact ⟨_, hopens.file, tells_new hopens⟩
  . -- The counter is restarted, and the file is too big
    have hlt := (exceeds_iff h.limit _).mp hexceeds
    have hle := htells.le
    have hlimit := h.limit
    refine ⟨_, hstays.file, ?_, Nat.zero_le _, ?_, ?_⟩
    . rw [hstays.lastRollSecond, ← htells.opened]
      exact hopened
    . intro hfalse
      simp only [FileAppender.resetWrittenBytes, hbytes, Bool.or_eq_false_iff, decide_eq_false_iff_not,
        not_not] at hfalse
      omega
    . intro _
      rw [hsize]
      simp only [FileAppender.resetWrittenBytes, hbytes]
      omega
  . have hle := htells.le
    refine ⟨_, hstays.file, ?_, ?_, ?_, ?_⟩
    . rw [hstays.lastRollSecond, ← htells.opened, hopened]
    . rw [hwritten, hbytes]
      omega
    . intro hfalse
      rw [hwritten, hbytes, htells.counted (by rw [← hrestarted, hfalse])]
    . intro htrue
      have := htells.grown (by rw [← hrestarted, htrue])
      rw [hsize, hbytes]
      omega

/--
Where the bytes of the file exceed the limit in a later second than it was opened in, the append opens
a file.
-/
def Rolls (s : LogFile) : Action → LogFile → Prop
  | .append now len, t =>
    ∀ file, s.file = some file → s.rollSize.toInt < (file.bytes + len : Nat) → file.opened < now →
      t.opens = s.opens + 1
  | .flush, _ => True

/--
An append in a later second to a file whose counter has been restarted takes the counter past the limit
again, or finds another day.
-/
def Caught (s : LogFile) : Action → Prop
  | .append now len =>
    ∀ file, s.file = some file → file.restarted = true → file.opened < now →
      s.rollSize.toInt < (file.writtenBytes + len : Nat) ∨ s.newDay now
  | .flush => True

theorem open_step (h : Open s) (hs : step s a = some t) : Open t := by
  cases a with
  | append now len => exact open_append h hs
  | flush =>
    simp only [step, flush, Option.map_eq_some_iff] at hs
    rcases hs with ⟨_, _, rfl⟩
    exact h

theorem rolls_iff (h : Open s) (hs : step s a = some t) : Rolls s a t ↔ Caught s a := by
  cases a with
  | flush => exact Iff.rfl
  | append now len =>
    rcases h.file with ⟨file, hfile, htells⟩
    have hopened := htells.opened
    have hle := htells.le
    simp only [Rolls, Caught, hfile, Option.some.injEq, forall_eq']
    rcases append_cases hfile hs with
      ⟨hor, _, hopens⟩ | ⟨_, hnow, _⟩ | ⟨hexceeds, hnot, hstays⟩
    . rw [exceeds_iff h.limit] at hor
      exact iff_of_true (fun _ _ => hopens.opens) (fun _ _ => hor)
    . have hnow : ¬file.opened < now := by
        rw [hopened]
        exact hnow
      exact iff_of_true (fun _ hlt => absurd hlt hnow) (fun _ hlt => absurd hlt hnow)
    . -- The file stays, which is wrong if it is too big and this is a later second
      rw [Bool.eq_false_iff, Ne, exceeds_iff h.limit] at hexceeds
      have hbig : s.rollSize.toInt < (file.bytes + len : Nat) ↔ file.restarted = true := by
        constructor
        . intro hbig
          cases hrestarted : file.restarted with
          | true => rfl
          | false =>
            rw [htells.counted hrestarted] at hexceeds
            exact absurd hbig hexceeds
        . intro htrue
          have := htells.grown htrue
          omega
      rw [hbig]
      apply imp_congr_right
      intro _
      apply imp_congr_right
      intro hlt
      refine iff_of_false ?_ ?_
      . rw [hstays.opens]
        omega
      . intro hor
        rcases hor with hlimit | hday
        . exact hexceeds hlimit
        . exact hnot ⟨hday, by rw [← hopened]; exact hlt⟩

-- A `LogFile` that has opened its first file
def rolling : Machine LogFile Action where
  init s := machine.init s ∧ s.file ≠ none ∧ 0 < s.rollSize.toInt ∧ 0 < s.checkPerCount.toInt
  step := step

theorem new_eq (rollSize flushInterval checkPerCount : Int32)
    (lastDay lastRollSecond lastFlushSecond : Int) (h : lastRollSecond < now)
    : Opens (members rollSize flushInterval checkPerCount lastDay lastRollSecond lastFlushSecond) now
        (new rollSize flushInterval checkPerCount lastDay lastRollSecond lastFlushSecond now) :=
  rollFile_eq h

theorem new_file (rollSize flushInterval checkPerCount : Int32)
    (lastDay lastRollSecond lastFlushSecond now : Int)
    : (new rollSize flushInterval checkPerCount lastDay lastRollSecond lastFlushSecond now).file ≠ none
        ↔
      lastRollSecond < now := by
  by_cases h : lastRollSecond < now
  . rw [(new_eq rollSize flushInterval checkPerCount lastDay lastRollSecond lastFlushSecond h).file]
    exact iff_of_true nofun h
  . refine iff_of_false ?_ h
    have hstays : (new rollSize flushInterval checkPerCount lastDay lastRollSecond lastFlushSecond now)
        = members rollSize flushInterval checkPerCount lastDay lastRollSecond lastFlushSecond := if_neg h
    rw [hstays]
    exact fun hne => hne rfl

theorem open_init (h : rolling.init s) : Open s := by
  rcases h with ⟨⟨rollSize, flushInterval, checkPerCount, lastDay, lastRollSecond, lastFlushSecond, now, rfl⟩,
    hfile, hlimit, _⟩
  have hopens := new_eq rollSize flushInterval checkPerCount lastDay lastRollSecond lastFlushSecond
    ((new_file _ _ _ _ _ _ _).mp hfile)
  exact ⟨hlimit, _, hopens.file, tells_new hopens⟩

/--
Every append that should does open a file just as long as no file whose counter has been restarted goes
on unnoticed in a later second.
-/
theorem rolls_iff_caught (h : rolling.init s) (as : List Action)
    : rolling.Meets (fun s a => ∀ t, step s a = some t → Rolls s a t) s as
        ↔
      rolling.Meets Caught s as := by
  apply Machine.ensures_iff_meets (I := Open) as
  . intro s a t hopen _ hs
    exact open_step hopen hs
  . intro s a t hopen hs
    exact rolls_iff hopen hs
  . exact open_init h

-- The limit is 10 bytes, and the constructor has opened a file in second 1
def small : LogFile :=
  new 10 3 1024 0 0 0 1

theorem rolls_iff_caught_small
    : rolling.Meets (fun s a => ∀ t, step s a = some t → Rolls s a t) small [.append 2 11]
        ↔
      rolling.Meets Caught small [.append 2 11] :=
  rolls_iff_caught ⟨⟨_, _, _, _, _, _, _, rfl⟩, by decide, by decide, by decide⟩ _

-- 11 bytes in the first second, and one byte in the next
def outgrown : List Action :=
  [.append 1 11, .append 2 1]

theorem not_rolls_outgrown
    : ¬rolling.Meets (fun s a => ∀ t, step s a = some t → Rolls s a t) small outgrown := by
  intro h
  have hsecond := ((h _ rfl).2 _ rfl).1
  have := hsecond _ rfl _ rfl (by decide) (by decide)
  cases this

theorem file_step (h : s.file ≠ none) (hs : step s a = some t) : t.file ≠ none := by
  cases a with
  | append now len =>
    rcases Option.ne_none_iff_exists'.mp h with ⟨file, hfile⟩
    rcases append_cases hfile hs with ⟨_, _, hopens⟩ | ⟨_, _, hstays⟩ | ⟨_, _, hstays⟩
    . simp [hopens.file]
    . simp [hstays.file]
    . simp [hstays.file]
  | flush =>
    simp only [step, flush, Option.map_eq_some_iff] at hs
    rcases hs with ⟨_, _, rfl⟩
    exact h

/--
There is a file in every state after construction just if the clock is past what `last_roll_second_`
happens to be when the constructor reads it.
-/
theorem always_file_iff (rollSize flushInterval checkPerCount : Int32)
    (lastDay lastRollSecond lastFlushSecond now : Int) (as : List Action)
    : machine.Always (fun s => s.file ≠ none)
          (new rollSize flushInterval checkPerCount lastDay lastRollSecond lastFlushSecond now) as
        ↔
      lastRollSecond < now := by
  rw [← new_file rollSize flushInterval checkPerCount lastDay lastRollSecond lastFlushSecond now]
  constructor
  . intro h
    cases as with
    | nil => exact h
    | cons a as => exact h.left
  . intro h
    have hmeets : machine.Meets Machine.free
        (new rollSize flushInterval checkPerCount lastDay lastRollSecond lastFlushSecond now) as := by
      apply Machine.Meets.of_forall
      intro _ _ _
      trivial
    have hstep : ∀ s a t, True → s.file ≠ none → machine.step s a = some t →
        True ∧ (t.file ≠ none ↔ Machine.free s a) := by
      intro s a t _ hfile hs
      exact ⟨trivial, iff_of_true (file_step hfile hs) trivial⟩
    exact (Machine.always_iff_meets as hstep trivial h).mpr hmeets

-- `last_roll_second_` happens to be the second in which the constructor runs
theorem not_file_equal : ¬∀ s, machine.Reachable s → s.file ≠ none := by
  intro h
  have hreach : machine.Reachable (new 10 3 1024 0 5 0 5) :=
    Machine.Reach.start ⟨_, _, _, _, _, _, _, rfl⟩
  exact h _ hreach rfl

end LogFile
end Elog
end Koro
