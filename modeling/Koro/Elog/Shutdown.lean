import Koro.Elog.Order

/-!
This module contains what `wait4Done` and the destructor of `AsyncLogging` lose: once `done_` is set the
worker leaves its loop at the next test, whatever has come into the buffers since it took them last.
-/

namespace Koro
namespace Elog
namespace AsyncLogging

variable {N : Nat} {s t : State} {act : Action}

-- The worker has found `done_` clear, and is still to take the buffers
def Pc.taking : Pc → Bool
  | .lock => true
  | .wait => true
  | .waiting => true
  | .woken => true
  | _ => false

/--
`done_` is set while the worker is still to take the buffers, or these hold nothing accepted before the
call.
-/
def Settled (s : State) (act : Action) : Prop :=
  act = .callDone → s.doDone = .store →
    s.worker.taking = true ∨ ∀ m ∈ s.pending, s.calledAt ≤ m

-- A message accepted before the call is in a buffer that the worker does not take any more
def State.Lost (s : State) : Prop :=
  s.done = true ∧ s.worker.taking = false ∧ ∃ m ∈ s.pending, m < s.calledAt

-- How far `wait4Done` is
structure State.Called (s : State) : Prop where
  done : s.done = true → s.doDone ≠ .notCalled ∧ s.doDone ≠ .store
  notify : s.doDone = .notify → s.done = true
  join : s.doDone = .join → s.done = true
  returned : s.doDone = .returned → s.done = true ∧ s.worker = .returned
  calledAt : s.calledAt ≤ s.accepted

theorem called_start : State.start.Called := by
  constructor <;> simp [State.start]

def State.control (s : State) : Bool × DonePc × Nat :=
  (s.done, s.doDone, s.calledAt)

theorem pushCur_control
    : (s.pushCur N).control = s.control ∧ (s.pushCur N).worker = s.worker
        ∧ s.accepted ≤ (s.pushCur N).accepted := by
  unfold State.pushCur
  split
  . exact ⟨rfl, rfl, Nat.le_refl _⟩
  . exact ⟨rfl, rfl, Nat.le_succ _⟩

theorem rotate_control
    : s.rotate.control = s.control ∧ s.rotate.worker = s.worker ∧ s.rotate.accepted = s.accepted := by
  simp only [State.rotate]
  split <;> exact ⟨rfl, rfl, rfl⟩

theorem take_control
    : s.take.control = s.control ∧ s.take.worker = .taken ∧ s.take.accepted = s.accepted := by
  cases hempty : s.curBuf.empty <;> cases hcheck : s.nextBuf.check <;>
    simp [State.take, State.control, hempty, hcheck]

theorem drop_control
    : s.drop.control = s.control ∧ s.drop.worker.taking = false ∧ s.drop.accepted = s.accepted := by
  unfold State.drop
  split
  . exact ⟨rfl, rfl, rfl⟩
  . split <;> exact ⟨rfl, rfl, rfl⟩

theorem write_control
    : (s.write b k).control = s.control ∧ (s.write b k).worker.taking = false
        ∧ (s.write b k).accepted = s.accepted := by
  unfold State.write
  split
  . exact ⟨rfl, rfl, rfl⟩
  . split <;> exact ⟨rfl, rfl, rfl⟩

theorem resize_control : s.resize.control = s.control := by
  unfold State.resize
  split <;> rfl

theorem recycle_control
    : s.recycle.control = s.control ∧ s.recycle.worker.taking = false
        ∧ s.recycle.accepted = s.accepted := by
  rcases resize_eq_cons s with ⟨b0, b1, rest, hbatch⟩
  have haccepted := (recycle_same s).right.left
  have hcontrol := resize_control (s := s)
  refine ⟨?_, ?_, haccepted⟩
  . unfold State.recycle
    simp only [hbatch]
    exact hcontrol
  . unfold State.recycle
    simp only [hbatch]
    rfl

theorem notifyOne_control
    : s.notifyOne.control = s.control ∧ s.notifyOne.worker.taking = s.worker.taking
        ∧ s.notifyOne.accepted = s.accepted := by
  unfold State.notifyOne
  refine ⟨rfl, ?_, rfl⟩
  split
  . next hw => simp [hw, Pc.taking]
  . rfl

theorem control_iff
    : t.control = s.control ↔ t.done = s.done ∧ t.doDone = s.doDone ∧ t.calledAt = s.calledAt := by
  simp [State.control]

-- Only its own steps bring `wait4Done` on
theorem other_step (hs : Step N s act t) (hact : act ≠ .callDone)
    : t.control = s.control ∧ s.accepted ≤ t.accepted
        ∧ (s.worker = .returned → t.worker = .returned) := by
  cases hs with
  | pushDone k hdone => exact ⟨rfl, Nat.le_refl _, id⟩
  | pushMessage k hlatch hdone => exact ⟨rfl, Nat.le_refl _, id⟩
  | push k hw hfull =>
    rcases pushCur_control (N := N) (s := { s with frame := Function.update s.frame k false })
      with ⟨hcontrol, hworker, haccepted⟩
    exact ⟨hcontrol, haccepted, fun hret => hworker.trans hret⟩
  | rotate k hw hfull =>
    rcases rotate_control (s := { s with frame := Function.update s.frame k false })
      with ⟨hcontrol, hworker, haccepted⟩
    rcases pushCur_control (N := N) (s := State.rotate { s with frame := Function.update s.frame k false })
      with ⟨hcontrol', hworker', haccepted'⟩
    refine ⟨hcontrol'.trans hcontrol, Nat.le_trans (Nat.le_of_eq haccepted.symm) haccepted', ?_⟩
    intro hret
    have hafter := (hworker'.trans hworker).trans hret
    simp [State.notifyOne, hafter]
  | test hw => exact ⟨rfl, Nat.le_refl _, by simp [hw]⟩
  | lockEmpty hw hbufs => exact ⟨rfl, Nat.le_refl _, by simp [hw]⟩
  | wait hw => exact ⟨rfl, Nat.le_refl _, by simp [hw]⟩
  | take hw =>
    refine ⟨take_control.left, Nat.le_of_eq take_control.right.right.symm, ?_⟩
    rcases hw with hw | hw <;> simp [hw]
  | drop hw => exact ⟨drop_control.left, Nat.le_of_eq drop_control.right.right.symm, by simp [hw]⟩
  | write b k hw =>
    exact ⟨write_control.left, Nat.le_of_eq write_control.right.right.symm, by simp [hw]⟩
  | recycle hw =>
    exact ⟨recycle_control.left, Nat.le_of_eq recycle_control.right.right.symm, by simp [hw]⟩
  | flush hw => exact ⟨rfl, Nat.le_refl _, fun _ => rfl⟩
  | timeout hw => exact ⟨rfl, Nat.le_refl _, by simp [hw]⟩
  | _ => exact absurd rfl hact

theorem called_step (h : s.Called) (hs : Step N s act t) : t.Called := by
  by_cases hact : act = .callDone
  . subst hact
    have := h
    cases hs with
    | callAgain hd hdone => exact absurd hd (h.done hdone).left
    | callDone hd hlatch hdone => constructor <;> simp [hdone]
    | store hd => exact { h with done := by simp, notify := by simp, join := by simp, returned := by simp }
    | notify hd =>
      have hdone := h.notify hd
      exact { h with done := by simp, notify := by simp, join := fun _ => hdone, returned := by simp }
    | join hd hw =>
      have hdone := h.join hd
      exact { h with done := by simp, notify := by simp, join := by simp, returned := fun _ => ⟨hdone, hw⟩ }
  . rcases other_step hs hact with ⟨hcontrol, haccepted, hworker⟩
    rcases control_iff.mp hcontrol with ⟨hdone, hd, hcalled⟩
    constructor
    . rw [hdone, hd]
      exact h.done
    . rw [hdone, hd]
      exact h.notify
    . rw [hdone, hd]
      exact h.join
    . rw [hdone, hd]
      intro hret
      exact ⟨(h.returned hret).left, hworker (h.returned hret).right⟩
    . rw [hcalled]
      exact Nat.le_trans h.calledAt haccepted

theorem lost_congr (hcontrol : t.control = s.control) (hw : t.worker.taking = s.worker.taking)
    (hpending : t.pending = s.pending)
    : t.Lost ↔ s.Lost := by
  rcases control_iff.mp hcontrol with ⟨hdone, _, hcalled⟩
  unfold State.Lost
  rw [hdone, hw, hpending, hcalled]

-- A message accepted after the call does not count
theorem lost_pushCur (hwf : s.Wf) (hfull : s.curBuf.full N = false) (hc : s.calledAt ≤ s.accepted)
    : (s.pushCur N).Lost ↔ s.Lost := by
  rcases pushCur_control (N := N) (s := s) with ⟨hcontrol, hworker, _⟩
  rcases control_iff.mp hcontrol with ⟨hdone, _, hcalled⟩
  unfold State.Lost
  rw [hdone, hworker, pending_pushCur hwf hfull, hcalled]
  simp only [List.mem_append, List.mem_singleton]
  grind

theorem lost_rotate (hwf : s.Wf) : s.rotate.Lost ↔ s.Lost := by
  rcases rotate_control (s := s) with ⟨hcontrol, hworker, _⟩
  exact lost_congr hcontrol (congrArg Pc.taking hworker) (pending_rotate hwf)

theorem lost_notifyOne : s.notifyOne.Lost ↔ s.Lost :=
  lost_congr notifyOne_control.left notifyOne_control.right.left rfl

theorem lost_other (hwf : s.Wf) (hN : 0 < N) (h : s.Called) (hs : Step N s act t)
    (hact : act ≠ .callDone)
    : t.Lost ↔ s.Lost := by
  cases hs with
  | pushDone k hdone => exact Iff.rfl
  | pushMessage k hlatch hdone => exact Iff.rfl
  | push k hw hfull =>
    have hframe : State.Wf { s with frame := Function.update s.frame k false } := { hwf with }
    exact lost_pushCur hframe hfull h.calledAt
  | rotate k hw hfull =>
    have hframe : State.Wf { s with frame := Function.update s.frame k false } := { hwf with }
    have hcalled : (State.rotate { s with frame := Function.update s.frame k false }).calledAt
        ≤ (State.rotate { s with frame := Function.update s.frame k false }).accepted := by
      rw [(control_iff.mp rotate_control.left).right.right, rotate_control.right.right]
      exact h.calledAt
    have hrotate := lost_rotate hframe
    have hpush := lost_pushCur (wf_rotate hframe) (rotate_not_full hframe hN) hcalled
    exact lost_notifyOne.trans (hpush.trans hrotate)
  | test hw =>
    by_cases hdone : s.done = true
    . apply lost_congr
      . rfl
      . simp [hdone, hw, Pc.taking]
      . rfl
    . simp [State.Lost, hdone]
  | take hw =>
    have hbusy : s.worker.busy = false := by
      rcases hw with hw | hw <;> simp [hw, Pc.busy]
    have htaking : s.worker.taking = true := by
      rcases hw with hw | hw <;> simp [hw, Pc.taking]
    simp [State.Lost, htaking, (unwritten_take hwf hbusy).right]
  | drop hw =>
    apply lost_congr drop_control.left
    . rw [drop_control.right.left, hw]
      rfl
    . exact drop_pending
  | write b k hw =>
    apply lost_congr write_control.left
    . rw [write_control.right.left, hw]
      rfl
    . exact (write_step hw).right
  | recycle hw =>
    apply lost_congr recycle_control.left
    . rw [recycle_control.right.left, hw]
      rfl
    . exact (recycle_step hwf hw).right.right
  | flush hw =>
    apply lost_congr
    . rfl
    . rw [hw]
      rfl
    . rfl
  | lockEmpty hw hbufs => simp [State.Lost, Pc.taking, hw]
  | wait hw => simp [State.Lost, Pc.taking, hw]
  | timeout hw => simp [State.Lost, Pc.taking, hw]
  | _ => exact absurd rfl hact

theorem lost_step (hwf : s.Wf) (hN : 0 < N) (h : s.Called) (hs : Step N s act t)
    : t.Lost ↔ s.Lost ∨ ¬Settled s act := by
  by_cases hact : act = .callDone
  . subst hact
    cases hs with
    | callAgain hd hdone => exact absurd hd (h.done hdone).left
    | callDone hd hlatch hdone => simp [State.Lost, Settled, hd, hdone]
    | store hd =>
      have hdone : s.done = false := by
        cases hdone : s.done with
        | true => exact absurd hd (h.done hdone).right
        | false => rfl
      simp [State.Lost, Settled, hd, hdone, State.pending]
    | notify hd =>
      have hsettled : Settled s .callDone := by
        simp [Settled, hd]
      simp only [hsettled, not_true_eq_false, or_false]
      exact lost_notifyOne (s := s)
    | join hd hw =>
      have hsettled : Settled s .callDone := by
        simp [Settled, hd]
      simp only [hsettled, not_true_eq_false, or_false]
      exact Iff.rfl
  . rw [lost_other hwf hN h hs hact]
    simp [Settled, hact]

theorem appended_of_returned (h : s.Ordered) (hc : s.Called) (hd : s.doDone = .returned)
    : (∀ m < s.calledAt, m ∉ s.discarded → m ∈ s.written) ↔ ¬s.Lost := by
  rcases hc.returned hd with ⟨hdone, hw⟩
  have hfifo : s.written ++ s.pending = s.kept := by
    rw [← h.fifo]
    simp [State.unwritten, hw]
  have hkept : ∀ m, m ∈ s.kept ↔ m < s.accepted ∧ m ∉ s.discarded := by
    simp [State.kept]
  constructor
  . intro happended hlost
    rcases hlost with ⟨_, _, m, hm, hcalled⟩
    have hmem : m ∈ s.kept := hfifo ▸ List.mem_append_right _ hm
    have hwritten := happended m hcalled ((hkept m).mp hmem).right
    have hnodup := nodup_kept s
    rw [← hfifo, List.nodup_append] at hnodup
    exact hnodup.right.right m hwritten m hm rfl
  . intro hnot m hcalled hdiscarded
    have hmem : m ∈ s.kept := (hkept m).mpr ⟨Nat.lt_of_lt_of_le hcalled hc.calledAt, hdiscarded⟩
    rw [← hfifo, List.mem_append] at hmem
    cases hmem with
    | inl hwritten => exact hwritten
    | inr hpending => exact absurd ⟨hdone, by simp [hw, Pc.taking], m, hpending, hcalled⟩ hnot

/--
When `wait4Done` has returned, every message accepted before it was called has been written or was in a
buffer erased, just if `done_` was set while the worker was still to take the buffers or these held no
such message.
-/
theorem appended_iff (hN : 0 < N) (as : List Action)
    (hexec : (machine N).exec State.start as = some s) (hd : s.doDone = .returned)
    : (∀ m < s.calledAt, m ∉ s.discarded → m ∈ s.written)
        ↔
      (machine N).Meets Settled State.start as := by
  have hreach : (machine N).Reachable s := Machine.Reachable.of_exec as rfl hexec
  have hkeep : ∀ s a t, s.Wf ∧ s.Called → (machine N).step s a = some t → t.Wf ∧ t.Called := by
    intro s a t h hat
    exact ⟨wf_step h.left (Step.of_step hat), called_step h.right (Step.of_step hat)⟩
  have hstep : ∀ s a t, s.Wf ∧ s.Called → Machine.free s a → (machine N).step s a = some t →
      (t.Lost ↔ s.Lost ∨ ¬Settled s a) := by
    intro s a t h _ hat
    exact lost_step h.left hN h.right (Step.of_step hat)
  have hfree : (machine N).Meets Machine.free State.start as := by
    apply Machine.Meets.of_forall
    intro _ _ _
    trivial
  have hstart : ¬State.start.Lost := by
    simp [State.Lost, State.start]
  have hcalled : s.Called := by
    apply hreach.invariant
    . intro s hs
      rw [hs]
      exact called_start
    . intro s a t hs _ hat
      exact called_step hs (Step.of_step hat)
  rw [appended_of_returned (reachable_ordered hN hreach) hcalled hd]
  rw [Machine.not_iff_meets as hkeep hstep ⟨wf_start, called_start⟩ hexec hfree]
  simp [hstart]

-- `done_` is set while the worker waits, and it writes out what there is
def setWaiting : List Action :=
  (List.replicate 3 .work : List Action) ++ accept 0 ++ (List.replicate 3 .callDone : List Action)
    ++ (List.replicate 8 .work : List Action) ++ ([.callDone] : List Action)

-- `done_` is set while the worker writes out what it has taken before
def setWriting : List Action :=
  (List.replicate 3 .work : List Action) ++ accept 0 ++ ([.timeout] : List Action)
    ++ (List.replicate 2 .work : List Action) ++ accept 0
    ++ (List.replicate 3 .callDone : List Action) ++ (List.replicate 6 .work : List Action)
    ++ ([.callDone] : List Action)

theorem appended_iff_setWaiting
    : ∃ s,
        (machine kLargeBuffer).exec State.start setWaiting = some s
          ∧
        s.doDone = .returned ∧ s.calledAt = 1
          ∧
        ((∀ m < s.calledAt, m ∉ s.discarded → m ∈ s.written)
            ↔
          (machine kLargeBuffer).Meets Settled State.start setWaiting) := by
  have h : ((machine kLargeBuffer).exec State.start setWaiting).any (fun s =>
      s.doDone = .returned ∧ s.calledAt = 1) = true := by
    decide +kernel
  simp only [Option.any_eq_true, decide_eq_true_eq] at h
  rcases h with ⟨s, hexec, hd, hcalled⟩
  exact ⟨s, hexec, hd, hcalled, appended_iff (by decide) setWaiting hexec hd⟩

theorem not_appended_setWriting
    : ¬∀ (as : List Action) (s : State),
        (machine kLargeBuffer).exec State.start as = some s → s.doDone = .returned →
          ∀ m < s.calledAt, m ∉ s.discarded → m ∈ s.written := by
  intro hall
  have h : ((machine kLargeBuffer).exec State.start setWriting).any (fun s =>
      s.doDone = .returned ∧ s.calledAt = 2 ∧ s.discarded = [] ∧ s.written = [0]) = true := by
    decide +kernel
  simp only [Option.any_eq_true, decide_eq_true_eq] at h
  rcases h with ⟨s, hexec, hd, hcalled, hdiscarded, hwritten⟩
  have hmem := hall setWriting s hexec hd 1 (by omega) (by simp [hdiscarded])
  simp [hwritten] at hmem

end AsyncLogging
end Elog
end Koro
