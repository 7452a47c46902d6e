import Koro.Hook.Write

/-!
This module contains what the caller of the hooked `write` sees of it when the answers of the kernel
are put together.
-/

namespace Koro
namespace Write

-- The places of the buffer that the kernel has taken bytes from
def Call.offsets : Call → List Nat
  | .sysFunc ptr _ (.count k) => List.range' ptr k
  | _ => []

def offsets (calls : List Call) : List Nat :=
  calls.flatMap Call.offsets

def accepted (buf : List UInt8) (calls : List Call) : List UInt8 :=
  (offsets calls).filterMap fun k => buf[k]?

def Call.isSysFunc : Call → Bool
  | .sysFunc .. => true
  | _ => false

-- The calls before the next one of `sys_func`, or before the return
def untilSysFunc (calls : List Call) : List Call :=
  calls.takeWhile fun c => !c.isSysFunc

/--
Each `registerEvent` is followed by exactly one `unregisterEvent` of its event before the next call of
`sys_func` and before the return.
-/
def Released : List Call → Prop
  | [] => True
  | .registerEvent e :: calls =>
    (untilSysFunc calls).count (.unregisterEvent e) = 1 ∧ Released calls
  | _ :: calls => Released calls

def Call.legal : Call → Bool
  | .sysFunc _ remain (.count k) => k ≤ remain
  | _ => true

/--
The kernel takes no more bytes than it is offered.
-/
def Legal (calls : List Call) : Prop :=
  ∀ c ∈ calls, c.legal = true

instance (calls : List Call) : Decidable (Legal calls) :=
  inferInstanceAs (Decidable (∀ c ∈ calls, c.legal = true))

-- The last call is one of `sys_func`, with this answer
def Ends (calls : List Call) (ans : Answer) : Prop :=
  ∃ before ptr remain, calls = before ++ [.sysFunc ptr remain ans]

/--
What a blocking `write` of the bytes of `buf` may do and return.
-/
structure Transparent (buf : List UInt8) (calls : List Call) (ret : Ret) : Prop where
  places : 0 ≤ ret.n → offsets calls = List.range ret.n.toNat
  bytes : 0 ≤ ret.n → accepted buf calls = buf.take ret.n.toNat
  le : ret.n ≤ buf.length
  whole : ret.n = buf.length ∨ Ends calls (.count 0) ∨ ∃ code, Ends calls (.error (.other code))
  failed : ret.n < 0 →
    ret.n = -1 ∧ offsets calls = []
      ∧ ∃ code, Ends calls (.error (.other code)) ∧ ret.errno = some (.other code)

def waits (e : Event) (ptr remain : Nat) (tried : List Answer) : List Call :=
  tried.flatMap fun ans => [.sysFunc ptr remain ans, .registerEvent e, .hold, .unregisterEvent e]

-- The calls of one `do_io`, up to the one of `sys_func` that it returns with
def tries (b : Bool) (ptr remain : Nat) (tried : List Answer) : List Call :=
  .bindTaskQueue :: (if b then [] else [.setNonBlocking]) ++ waits .kWrite ptr remain tried

/--
The ways the loop of `write` can go on.
-/
inductive Writes : Nat → Nat → Int → List Answer → List Call → Option Ret → Prop where
  | done : Writes ptr 0 total script [] (some ⟨total, errno⟩)
  | unanswered (hpos : 0 < remain) (htried : ∀ a ∈ tried, a.again = true)
    : Writes ptr remain total tried (tries b ptr remain tried) none
  | zero (hpos : 0 < remain) (htried : ∀ a ∈ tried, a.again = true)
    : Writes ptr remain total (tried ++ .count 0 :: rest)
        (tries b ptr remain tried ++ [.sysFunc ptr remain (.count 0)]) (some ⟨total, errno⟩)
  | error (hpos : 0 < remain) (htried : ∀ a ∈ tried, a.again = true)
    (hret : ret = if total > 0 then ⟨total, some (.other code)⟩ else ⟨-1, some (.other code)⟩)
    : Writes ptr remain total (tried ++ .error (.other code) :: rest)
        (tries b ptr remain tried ++ [.sysFunc ptr remain (.error (.other code))]) (some ret)
  | more (hpos : 0 < remain) (htried : ∀ a ∈ tried, a.again = true) (hk : 0 < k)
    (hmore : Writes (ptr + k) (remain - k) (total + k) rest calls res)
    : Writes ptr remain total (tried ++ .count k :: rest)
        (tries b ptr remain tried ++ .sysFunc ptr remain (.count k) :: calls) res

variable {env : Env} {ptr remain k : Nat} {total : Int} {script tried rest : List Answer}
variable {calls more : List Call} {res : Option Ret} {ret : Ret} {ans : Answer} {errno : Option Errno}
variable {e : Event} {b : Bool}

theorem registers_eq_true (e : Event) : registers e = true := by
  cases e <;> decide

theorem n_of_again (h : ans.again = true) : ans.n = -1 := by
  cases ans with
  | count k => simp [Answer.again] at h
  | error errno => rfl

-- The answers that `do_io` waits on, and the one it returns
theorem loop_cases (huser : env.userNonBlock = false) (e : Event) (ptr remain : Nat)
    (errno : Option Errno) (script : List Answer)
    : ∃ tried,
        (∀ a ∈ tried, a.again = true)
          ∧
        ((script = tried ∧ doIo.loop env e ptr remain errno script = (waits e ptr remain tried, none))
            ∨
          ∃ ans rest before,
            script = tried ++ ans :: rest ∧ ans.again = false
              ∧
            doIo.loop env e ptr remain errno script
                =
              (waits e ptr remain tried ++ [.sysFunc ptr remain ans],
                some (⟨ans.n, ans.errno before⟩, rest))) := by
  induction script generalizing errno with
  | nil => exact ⟨[], by simp, .inl ⟨rfl, rfl⟩⟩
  | cons ans script ih =>
    cases hans : ans.again with
    | false =>
      refine ⟨[], by simp, .inr ⟨ans, script, errno, rfl, hans, ?_⟩⟩
      simp [doIo.loop, hans, waits]
    | true =>
      have hn := n_of_again hans
      rcases ih (ans.errno errno) with ⟨tried, htried, hcase⟩
      have htried' : ∀ a ∈ ans :: tried, a.again = true := by
        intro a ha
        rcases List.mem_cons.mp ha with rfl | ha
        . exact hans
        . exact htried a ha
      refine ⟨ans :: tried, htried', ?_⟩
      rcases hcase with ⟨hscript, hloop⟩ | ⟨last, rest, before, hscript, hlast, hloop⟩
      . left
        subst hscript
        simp [doIo.loop, hans, hn, huser, registers_eq_true, hloop, waits]
      . right
        refine ⟨last, rest, before, by simp [hscript], hlast, ?_⟩
        simp [doIo.loop, hans, hn, huser, registers_eq_true, hloop, waits]

theorem loop_none (hpos : 0 < remain)
    (hdo : doIo env b .kWrite ptr remain errno script = (calls, none))
    : write.loop env b ptr remain total errno script = (calls, none) := by
  rw [write.loop, if_pos hpos]
  split
  . next h =>
    rw [hdo] at h
    cases h
    rfl
  . next h =>
    rw [hdo] at h
    cases h

theorem loop_stop (hpos : 0 < remain)
    (hdo : doIo env b .kWrite ptr remain errno script = (calls, some (ret, rest))) (hn : ret.n ≤ 0)
    : write.loop env b ptr remain total errno script =
        (calls, some (if ret.n < 0 ∧ total ≤ 0 then ret else ⟨total, ret.errno⟩)) := by
  rw [write.loop, if_pos hpos]
  split
  . next h =>
    rw [hdo] at h
    cases h
  . next h =>
    rw [hdo] at h
    cases h
    grind

theorem loop_more (total : Int) (hpos : 0 < remain)
    (hdo : doIo env b .kWrite ptr remain errno script = (calls, some (ret, rest))) (hn : ret.n = k)
    (hk : 0 < k)
    : write.loop env b ptr remain total errno script =
        (calls ++ (write.loop env true (ptr + k) (remain - k) (total + k) ret.errno rest).1,
          (write.loop env true (ptr + k) (remain - k) (total + k) ret.errno rest).2) := by
  rw [write.loop, if_pos hpos]
  split
  . next h =>
    rw [hdo] at h
    cases h
  . next h =>
    rw [hdo] at h
    cases h
    simp [hn, Nat.ne_of_gt hk]

theorem writes_loop (hfiber : env.fiber = true) (huser : env.userNonBlock = false)
    (script : List Answer)
    : Writes ptr remain total script (write.loop env b ptr remain total errno script).1
        (write.loop env b ptr remain total errno script).2 := by
  induction hlen : script.length using Nat.strongRecOn
    generalizing script ptr remain total errno b with
  | ind len ih =>
    rcases Nat.eq_zero_or_pos remain with rfl | hpos
    . rw [write.loop]
      exact .done
    . rcases loop_cases huser .kWrite ptr remain errno script with
        ⟨tried, htried, ⟨hscript, hloop⟩ | ⟨ans, rest, before, hscript, hans, hloop⟩⟩
      . have hdo : doIo env b .kWrite ptr remain errno script = (tries b ptr remain tried, none) := by
          simp [doIo, hfiber, hloop, tries]
        rw [loop_none hpos hdo, hscript]
        exact .unanswered hpos htried
      . have hdo : doIo env b .kWrite ptr remain errno script =
            (tries b ptr remain tried ++ [.sysFunc ptr remain ans],
              some (⟨ans.n, ans.errno before⟩, rest)) := by
          simp [doIo, hfiber, hloop, tries]
        cases ans with
        | error err =>
          cases err with
          | EAGAIN => simp [Answer.again] at hans
          | EWOULDBLOCK => simp [Answer.again] at hans
          | other code =>
            rw [loop_stop hpos hdo (by simp [Answer.n]), hscript]
            apply Writes.error hpos htried
            grind [Answer.n, Answer.errno]
        | count k =>
          rcases Nat.eq_zero_or_pos k with rfl | hk
          . rw [loop_stop hpos hdo (by simp [Answer.n]), hscript]
            exact .zero hpos htried
          . have hmore := loop_more total hpos hdo rfl hk
            have hlt : rest.length < len := by
              rw [← hlen, hscript, List.length_append, List.length_cons]
              omega
            rw [hmore, hscript, List.append_assoc]
            exact .more hpos htried hk (ih _ hlt rest rfl)

@[simp]
theorem offsets_append : offsets (calls ++ more) = offsets calls ++ offsets more :=
  List.flatMap_append

@[simp]
theorem offsets_sysFunc
    : offsets (.sysFunc ptr remain (.count k) :: calls) = List.range' ptr k ++ offsets calls :=
  rfl

theorem offsets_waits (htried : ∀ a ∈ tried, a.again = true) : offsets (waits e ptr remain tried) = [] := by
  induction tried with
  | nil => rfl
  | cons ans tried ih =>
    have hrest := ih (fun a ha => htried a (List.mem_cons_of_mem _ ha))
    have hans := htried ans List.mem_cons_self
    cases ans with
    | count k => simp [Answer.again] at hans
    | error err => exact hrest

theorem offsets_tries (htried : ∀ a ∈ tried, a.again = true)
    : offsets (tries b ptr remain tried) = [] := by
  have hwaits : offsets (waits .kWrite ptr remain tried) = [] := offsets_waits htried
  cases b <;> exact hwaits

theorem Legal.right (h : Legal (calls ++ c :: more)) : Legal more := by
  intro c' hc'
  exact h c' (List.mem_append_right _ (List.mem_cons_of_mem _ hc'))

theorem Legal.le (h : Legal (calls ++ .sysFunc ptr remain (.count k) :: more)) : k ≤ remain := by
  have := h _ (List.mem_append_right _ List.mem_cons_self)
  simpa [Call.legal] using this

theorem Ends.append (h : Ends more ans) : Ends (calls ++ c :: more) ans := by
  rcases h with ⟨before, ptr, remain, rfl⟩
  exact ⟨calls ++ c :: before, ptr, remain, by simp⟩

theorem Ends.last : Ends (calls ++ [.sysFunc ptr remain ans]) ans :=
  ⟨calls, ptr, remain, rfl⟩

-- The loop goes on at `ptr` with `total` bytes taken before
theorem Writes.outcome (h : Writes ptr remain total script calls res) (htotal : 0 ≤ total)
    (hlegal : Legal calls)
    : ∃ m ≤ remain,
        offsets calls = List.range' ptr m
          ∧
        ∀ ret, res = some ret →
          (ret.n = total + m
              ∧ (m = remain ∨ Ends calls (.count 0) ∨ ∃ code, Ends calls (.error (.other code))))
            ∨
          (ret.n = -1 ∧ total = 0 ∧ m = 0
              ∧ ∃ code, Ends calls (.error (.other code)) ∧ ret.errno = some (.other code)) := by
  induction h with
  | done => exact ⟨0, Nat.le_refl 0, rfl, by simp⟩
  | unanswered hpos htried => exact ⟨0, Nat.zero_le _, offsets_tries htried, by simp⟩
  | zero hpos htried =>
    refine ⟨0, Nat.zero_le _, ?_, ?_⟩
    . rw [offsets_append, offsets_tries htried]
      rfl
    . rintro ret ⟨rfl⟩
      exact .inl ⟨by simp, .inr (.inl .last)⟩
  | error hpos htried hret =>
    refine ⟨0, Nat.zero_le _, ?_, ?_⟩
    . rw [offsets_append, offsets_tries htried]
      rfl
    . rintro ret ⟨rfl⟩
      subst hret
      split
      . exact .inl ⟨by simp, .inr (.inr ⟨_, .last⟩)⟩
      . exact .inr ⟨rfl, by omega, rfl, _, .last, rfl⟩
  | @more remain tried k ptr total rest calls res b hpos htried hk hmore ih =>
    have hle := hlegal.le
    rcases ih (by omega) hlegal.right with ⟨m, hm, hoffsets, hret⟩
    refine ⟨k + m, by omega, ?_, ?_⟩
    . rw [offsets_append, offsets_tries htried, offsets_sysFunc, hoffsets]
      exact List.range'_append_1
    . intro ret hres
      rcases hret ret hres with ⟨hn, hends⟩ | ⟨hn, hzero, _⟩
      . left
        refine ⟨by omega, ?_⟩
        rcases hends with rfl | hends | ⟨code, hends⟩
        . exact .inl (by omega)
        . exact .inr (.inl hends.append)
        . exact .inr (.inr ⟨code, hends.append⟩)
      . omega

theorem count_untilSysFunc_append (calls : List Call)
    (hmore : (untilSysFunc more).count (.unregisterEvent e) = 0)
    : (untilSysFunc (calls ++ more)).count (.unregisterEvent e)
        = (untilSysFunc calls).count (.unregisterEvent e) := by
  induction calls with
  | nil => exact hmore
  | cons c calls ih =>
    simp only [untilSysFunc, List.cons_append, List.takeWhile_cons] at ih ⊢
    split
    . rw [List.count_cons, List.count_cons, ih]
    . rfl

theorem released_append (h : Released calls) (hmore : Released more)
    (hquiet : ∀ e, (untilSysFunc more).count (.unregisterEvent e) = 0)
    : Released (calls ++ more) := by
  induction calls with
  | nil => exact hmore
  | cons c calls ih =>
    cases c with
    | registerEvent e =>
      have hcount := count_untilSysFunc_append calls (hquiet e)
      exact ⟨hcount.trans h.left, ih h.right⟩
    | _ => exact ih h

theorem released_waits (tried : List Answer) : Released (waits e ptr remain tried) := by
  induction tried with
  | nil => trivial
  | cons ans tried ih =>
    refine ⟨?_, ih⟩
    cases tried <;> simp [untilSysFunc, Call.isSysFunc]

theorem released_tries : Released (tries b ptr remain tried) := by
  cases b <;> exact released_waits tried

theorem Writes.released (h : Writes ptr remain total script calls res) : Released calls := by
  induction h with
  | done => trivial
  | unanswered => exact released_tries
  | zero => exact released_append released_tries trivial (fun _ => rfl)
  | error => exact released_append released_tries trivial (fun _ => rfl)
  | more _ _ _ _ ih => exact released_append released_tries ih (fun _ => rfl)

-- Each answer but `EAGAIN` and `EWOULDBLOCK` takes a byte at least, or is the last
theorem Writes.returns (h : Writes ptr remain total script calls res)
    (hlong : remain ≤ (script.filter fun ans => !ans.again).length)
    : res ≠ none := by
  have hnone : ∀ {tried : List Answer}, (∀ a ∈ tried, a.again = true) →
      tried.filter (fun ans => !ans.again) = [] := by
    intro tried htried
    rw [List.filter_eq_nil_iff]
    intro a ha
    simp [htried a ha]
  induction h with
  | done => simp
  | unanswered hpos htried =>
    rw [hnone htried] at hlong
    simp only [List.length_nil] at hlong
    omega
  | zero => simp
  | error => simp
  | @more remain tried k ptr total rest calls res b hpos htried hk hmore ih =>
    apply ih
    have hagain : (Answer.count k).again = false := rfl
    simp only [List.filter_append, hnone htried, List.nil_append, List.filter_cons, hagain,
      Bool.not_false, if_true, List.length_cons] at hlong
    omega

theorem filterMap_range (buf : List UInt8) (k : Nat)
    : ((List.range k).filterMap fun i => buf[i]?) = buf.take k := by
  induction k with
  | zero => rfl
  | succ k ih =>
    rw [List.range_succ, List.filterMap_append, ih, List.take_add_one]
    cases hk : buf[k]? <;> simp [hk]

/--
The hooked `write`, called from a fiber on a descriptor that the user has not made non-blocking,
behaves as a blocking one.
-/
theorem write_transparent (buf : List UInt8) (script : List Answer) (hfiber : env.fiber = true)
    (huser : env.userNonBlock = false) (hlegal : Legal (write env b buf.length script).1)
    : (∀ ret, (write env b buf.length script).2 = some ret →
          Transparent buf (write env b buf.length script).1 ret)
        ∧
      Released (write env b buf.length script).1
        ∧
      (buf.length ≤ (script.filter fun ans => !ans.again).length →
          (write env b buf.length script).2 ≠ none) := by
  have hwrites : Writes 0 buf.length 0 script (write env b buf.length script).1
      (write env b buf.length script).2 := writes_loop hfiber huser script
  refine ⟨?_, hwrites.released, hwrites.returns⟩
  intro ret hres
  rcases hwrites.outcome (Int.le_refl 0) hlegal with ⟨m, hm, hoffsets, hret⟩
  rw [← List.range_eq_range'] at hoffsets
  rcases hret ret hres with ⟨hn, hends⟩ | ⟨hn, _, hzero, hends⟩
  . have htoNat : ret.n.toNat = m := by omega
    constructor
    . intro _
      rw [htoNat]
      exact hoffsets
    . intro _
      rw [accepted, hoffsets, htoNat]
      exact filterMap_range buf m
    . omega
    . rcases hends with rfl | hends
      . left
        omega
      . exact .inr hends
    . intro hneg
      omega
  . constructor
    . intro hpos
      omega
    . intro hpos
      omega
    . omega
    . rcases hends with ⟨code, hends, _⟩
      exact .inr (.inr ⟨code, hends⟩)
    . intro _
      subst hzero
      exact ⟨hn, hoffsets, hends⟩

-- Short writes, with `EAGAIN` in between
def pieces : List Answer :=
  [.count 2, .error .EAGAIN, .error .EWOULDBLOCK, .count 2, .error .EAGAIN, .count 1]

theorem write_transparent_pieces
    : ∃ calls ret,
        write ⟨true, false⟩ false 5 pieces = (calls, some ret)
          ∧
        ret.n = 5 ∧ Transparent [0x4b, 0x6f, 0x72, 0x6f, 0x0a] calls ret ∧ Released calls := by
  have hlegal : Legal (write ⟨true, false⟩ false 5 pieces).1 := by
    decide +kernel
  have hret : (write ⟨true, false⟩ false 5 pieces).2 = some ⟨5, some .EAGAIN⟩ := by
    decide +kernel
  have hspec := write_transparent [0x4b, 0x6f, 0x72, 0x6f, 0x0a] pieces rfl rfl hlegal
  exact ⟨_, _, Prod.ext rfl hret, rfl, hspec.left _ hret, hspec.right.left⟩

end Write
end Koro
