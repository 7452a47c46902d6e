import Koro.Data.Shared
import Koro.Elog.Logger

/-!
This module contains when the statements of a thread emit their own operands: the string they share is
what the open streams have written to it in turn, and a destructor emits and clears the whole of it.
-/

namespace Koro
namespace Elog
namespace Logger

open Function (update)
open Shared (whole write part)

variable {s t : Logger} {f : FiberId} {stream : LogStream} {a : Action}

def sink (s : Logger) : Sink :=
  if s.asyncEnabled then .async else .console

def messages (sink : Sink) (stream : LogStream) (text : List Char) : List Message :=
  if text = [] then
    []
  else
    [{
      sink
      level := stream.level
      shortName := LogStream.getShortName stream.file
      line := stream.line
      func := stream.func
      text
    }]

theorem messages_inj (sink : Sink) (stream : LogStream) (text text' : List Char)
    : messages sink stream text = messages sink stream text' ↔ text = text' := by
  constructor
  . intro h
    unfold messages at h
    split at h
    . next hempty =>
      split at h
      . next hempty' => rw [hempty, hempty']
      . cases h
    . split at h
      . cases h
      . injection h with hmessage
        injection hmessage
  . intro h
    rw [h]

theorem innermost_mem (h : s.innermost f = some stream) : stream ∈ s.streams :=
  List.mem_of_find?_eq_some h

theorem insert_eq {val : List Char} (h : s.insert f val = some t)
    : ∃ stream ∈ s.streams, t = { s with
        str := s.str ++ val
        operands := update s.operands stream.id (s.operands stream.id ++ val)
      } := by
  simp only [insert, Option.map_eq_some_iff] at h
  rcases h with ⟨stream, hstream, rfl⟩
  exact ⟨stream, innermost_mem hstream, rfl⟩

structure Destroys (s : Logger) (stream : LogStream) (t : Logger) : Prop where
  str : t.str = []
  streams : t.streams = s.streams.filter (·.id ≠ stream.id)
  constructed : t.constructed = s.constructed
  operands : t.operands = s.operands
  emitted : t.emitted = s.emitted ++ messages s.sink stream s.str

theorem destroys (hstream : s.innermost f = some stream) (h : s.destroy f = some t)
    : Destroys s stream t := by
  rw [destroy, hstream] at h
  simp only [Option.map_some, Option.some.injEq] at h
  subst h
  by_cases hstr : s.str = []
  . simp only [hstr, ne_eq, not_true_eq_false, if_false]
    refine ⟨rfl, rfl, rfl, rfl, ?_⟩
    rw [messages, if_pos hstr, List.append_nil]
  . simp only [ne_eq, hstr, not_false_eq_true, if_true]
    cases hasync : s.asyncEnabled with
    | true =>
      simp only [if_true, appendAsyncLog, hasync, Bool.not_true, Bool.false_eq_true, if_false]
      refine ⟨rfl, rfl, rfl, rfl, ?_⟩
      rw [messages, if_neg hstr, sink, hasync, if_pos rfl]
    | false =>
      simp only [Bool.false_eq_true, if_false, print]
      refine ⟨rfl, rfl, rfl, rfl, ?_⟩
      rw [messages, if_neg hstr, sink, hasync, if_neg Bool.false_ne_true]

-- Nothing has happened to the statements
structure Same (s t : Logger) : Prop where
  str : t.str = s.str
  streams : t.streams = s.streams
  constructed : t.constructed = s.constructed
  operands : t.operands = s.operands
  emitted : t.emitted = s.emitted

theorem same_initAsyncLogging (s : Logger) : Same s s.initAsyncLogging := by
  unfold initAsyncLogging
  split
  . exact ⟨rfl, rfl, rfl, rfl, rfl⟩
  . split
    . exact ⟨rfl, rfl, rfl, rfl, rfl⟩
    . exact ⟨rfl, rfl, rfl, rfl, rfl⟩

theorem same_shutdownAsyncLogging (s : Logger) : Same s s.shutdownAsyncLogging := by
  unfold shutdownAsyncLogging
  split
  . exact ⟨rfl, rfl, rfl, rfl, rfl⟩
  . split
    . exact ⟨rfl, rfl, rfl, rfl, rfl⟩
    . exact ⟨rfl, rfl, rfl, rfl, rfl⟩

-- `l` is the string, with the streams that its characters come from
structure Written (s : Logger) (l : List (Nat × Char)) : Prop where
  str : s.str = whole l
  operands : ∀ stream ∈ s.streams, s.operands stream.id = part stream.id l
  left : ∀ k, part k l ≠ [] → ∃ stream ∈ s.streams, stream.id = k

structure Kept (s : Logger) : Prop where
  fresh : ∀ stream ∈ s.streams, stream.id < s.constructed
  written : ∃ l, Written s l

/--
The stream that is destroyed emits its operands, if there are any, and nothing else is emitted.
-/
def Emits (s : Logger) : Action → Logger → Prop
  | .destroy f, t =>
    ∀ stream, s.innermost f = some stream →
      t.emitted = s.emitted ++ messages s.sink stream (s.operands stream.id)
  | _, t => t.emitted = s.emitted

/--
While a stream is destroyed no other stream of the thread that is left has been given any text.
-/
def Alone (s : Logger) : Action → Prop
  | .destroy f =>
    ∀ stream, s.innermost f = some stream →
      ∀ other ∈ s.streams, other.id ≠ stream.id → s.operands other.id = []
  | _ => True

theorem alone_iff {l : List (Nat × Char)} (h : Written s l) (hstream : stream ∈ s.streams)
    : s.str = s.operands stream.id
        ↔
      ∀ other ∈ s.streams, other.id ≠ stream.id → s.operands other.id = [] := by
  rw [h.str, h.operands stream hstream, Shared.whole_eq_part_iff]
  constructor
  . intro hparts other hother hne
    rw [h.operands other hother]
    exact hparts other.id hne
  . intro hothers k hne
    by_contra hpart
    rcases h.left k hpart with ⟨other, hother, rfl⟩
    rw [← h.operands other hother] at hpart
    exact hpart (hothers other hother hne)

theorem emits_iff (h : Kept s) (hs : step s a = some t) : Emits s a t ↔ Alone s a := by
  cases a with
  | construct f level file func line =>
    cases hs
    exact iff_of_true rfl trivial
  | insert f val =>
    rcases insert_eq hs with ⟨_, _, rfl⟩
    exact iff_of_true rfl trivial
  | destroy f =>
    rcases h.written with ⟨l, hl⟩
    apply forall_congr'
    intro stream
    apply imp_congr_right
    intro hstream
    rw [(destroys hstream hs).emitted, List.append_cancel_left_eq, messages_inj]
    exact alone_iff hl (innermost_mem hstream)
  | initAsyncLogging =>
    cases hs
    exact iff_of_true (same_initAsyncLogging s).emitted trivial
  | shutdownAsyncLogging =>
    cases hs
    exact iff_of_true (same_shutdownAsyncLogging s).emitted trivial

theorem kept_construct (h : Kept s) (level : LogLevel) (file func : List Char) (line : Int32)
    : Kept (s.construct f level file func line) := by
  rcases h.written with ⟨l, hl⟩
  have hnew : part s.constructed l = [] := by
    by_contra hpart
    rcases hl.left _ hpart with ⟨stream, hstream, hid⟩
    have := h.fresh stream hstream
    omega
  constructor
  . intro stream hstream
    rcases List.mem_cons.mp hstream with rfl | hstream
    . exact Nat.lt_succ_self _
    . exact Nat.lt_succ_of_lt (h.fresh stream hstream)
  . refine ⟨l, hl.str, ?_, ?_⟩
    . intro stream hstream
      simp only [construct]
      rcases List.mem_cons.mp hstream with rfl | hstream
      . rw [Function.update_self, hnew]
      . rw [Function.update_of_ne (Nat.ne_of_lt (h.fresh stream hstream))]
        exact hl.operands stream hstream
    . intro k hpart
      rcases hl.left k hpart with ⟨stream, hstream, hid⟩
      exact ⟨stream, List.mem_cons_of_mem _ hstream, hid⟩

theorem kept_insert (h : Kept s) {val : List Char} (hs : s.insert f val = some t) : Kept t := by
  rcases h.written with ⟨l, hl⟩
  rcases insert_eq hs with ⟨stream, hstream, rfl⟩
  refine ⟨h.fresh, write l stream.id val, ?_, ?_, ?_⟩
  . rw [Shared.whole_write, hl.str]
  . intro other hother
    by_cases hid : stream.id = other.id
    . dsimp only
      rw [← hid, Function.update_self, Shared.part_write_self, hl.operands stream hstream]
    . dsimp only
      rw [Function.update_of_ne (Ne.symm hid), Shared.part_write_of_ne hid, hl.operands other hother]
  . intro k hpart
    by_cases hid : stream.id = k
    . exact ⟨stream, hstream, hid⟩
    . rw [Shared.part_write_of_ne hid] at hpart
      exact hl.left k hpart

-- The string is empty then, and so is what is left
theorem kept_destroy (h : Kept s) (halone : Alone s (.destroy f)) (hs : s.destroy f = some t)
    : Kept t := by
  cases hstream : s.innermost f with
  | none =>
    rw [destroy, hstream] at hs
    cases hs
  | some stream =>
    have hd := destroys hstream hs
    constructor
    . intro other hother
      rw [hd.streams] at hother
      rw [hd.constructed]
      exact h.fresh other (List.mem_of_mem_filter hother)
    . refine ⟨[], hd.str, ?_, ?_⟩
      . intro other hother
        simp only [hd.streams, List.mem_filter, decide_eq_true_eq] at hother
        rw [hd.operands]
        exact halone stream hstream other hother.1 hother.2
      . intro k hpart
        exact absurd rfl hpart

theorem kept_congr (h : Kept s) (hsame : Same s t) : Kept t := by
  rcases h.written with ⟨l, hl⟩
  constructor
  . rw [hsame.streams, hsame.constructed]
    exact h.fresh
  . refine ⟨l, ?_, ?_, ?_⟩
    . rw [hsame.str]
      exact hl.str
    . rw [hsame.streams, hsame.operands]
      exact hl.operands
    . rw [hsame.streams]
      exact hl.left

theorem kept_step (h : Kept s) (halone : Alone s a) (hs : step s a = some t) : Kept t := by
  cases a with
  | construct f level file func line =>
    cases hs
    exact kept_construct h level file func line
  | insert f val => exact kept_insert h hs
  | destroy f => exact kept_destroy h halone hs
  | initAsyncLogging =>
    cases hs
    exact kept_congr h (same_initAsyncLogging s)
  | shutdownAsyncLogging =>
    cases hs
    exact kept_congr h (same_shutdownAsyncLogging s)

theorem kept_init (h : machine.init s) : Kept s := by
  rcases h with ⟨hstr, hstreams⟩
  constructor
  . intro stream hstream
    rw [hstreams] at hstream
    cases hstream
  . refine ⟨[], hstr, ?_, ?_⟩
    . intro stream hstream
      rw [hstreams] at hstream
      cases hstream
    . intro k hpart
      exact absurd rfl hpart

/--
The statements of a thread emit their own operands just as long as no stream is destroyed while another
one that has been given text is left.
-/
theorem emits_iff_alone (h : machine.init s) (as : List Action)
    : machine.Meets (fun s a => ∀ t, step s a = some t → Emits s a t) s as
        ↔
      machine.Meets Alone s as := by
  apply Machine.ensures_iff_meets (I := Kept) as
  . intro s a t hkept halone hs
    exact kept_step hkept halone hs
  . intro s a t hkept hs
    exact emits_iff hkept hs
  . exact kept_init h

-- A thread that has not logged yet, to the console
def silent : Logger where
  asyncEnabled := false
  initFlag := false
  shutdownFlag := false
  str := []
  streams := []
  constructed := 0
  operands := fun _ => []
  emitted := []

-- `LOG_INFO << "a" << f()` in line 1, where `f` has `LOG_INFO << "b"` in line 2 and returns `"c"`
def nested : List Action :=
  [
    .construct 0 .info [] [] 1, .insert 0 ['a'],
    .construct 0 .info [] [] 2, .insert 0 ['b'], .destroy 0,
    .insert 0 ['c'], .destroy 0
  ]

theorem emits_iff_alone_nested
    : machine.Meets (fun s a => ∀ t, step s a = some t → Emits s a t) silent nested
        ↔
      machine.Meets Alone silent nested :=
  emits_iff_alone ⟨rfl, rfl⟩ nested

theorem not_emits_nested
    : ¬machine.Meets (fun s a => ∀ t, step s a = some t → Emits s a t) silent nested := by
  intro h
  have hdestroy := ((((((h _ rfl).2 _ rfl).2 _ rfl).2 _ rfl).2 _ rfl).1 _ rfl) _ rfl
  have := congrArg (List.map Message.text) hdestroy
  revert this
  decide

end Logger
end Elog
end Koro
