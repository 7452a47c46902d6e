import Koro.Hook.Run
import Koro.Scheduler.Step

/-!
This module says once, case by case, what a step of `Hook.machine` can do, and that every such step
is at most one step of `Run.machine`. `Walk` are the steps that only lead a fiber to another place,
`Turn` those of the loop over the events that push nothing.
-/

namespace Koro
namespace Hook

open Function (update)

variable {n : Nat}

inductive Walk (s : State n) (f : FiberId) : Ctl → Ctl → Prop where
  | callDoIo (fd : Nat) (e : Event) (hcalls : s.calls f = .user) : Walk s f .user (.bind fd e)
  | again (ch : ChannelId) (e : Event) : Walk s f (.io ch e .call) (.io ch e .userNonBlock)
  | ret (ch : ChannelId) (e : Event) : Walk s f (.io ch e .call) .user
  | userNonBlock (ch : ChannelId) (e : Event) (h : (s.io.channel ch).userNonBlock = true)
    : Walk s f (.io ch e .userNonBlock) .user
  | wait (ch : ChannelId) (e : Event) (h : (s.io.channel ch).userNonBlock = false)
    : Walk s f (.io ch e .userNonBlock) (.io ch e .register)
  | callClose (fd : Nat) (hcalls : s.calls f = .user) : Walk s f .user (.close fd .lookup)
  | lookup (fd : Nat) (ch : ChannelId) (h : s.io.chs[fd]? = some (some ch))
    : Walk s f (.close fd .lookup) (.close fd (.check ch))
  | lookupNone (fd : Nat) (h : ∀ ch, s.io.chs[fd]? ≠ some (some ch))
    : Walk s f (.close fd .lookup) (.close fd .sysClose)
  | check (fd : Nat) (ch : ChannelId) (h : (s.io.channel ch).taskQueue ≠ none)
    : Walk s f (.close fd (.check ch)) (.close fd (.reset ch))
  | checkNone (fd : Nat) (ch : ChannelId) (h : (s.io.channel ch).taskQueue = none)
    : Walk s f (.close fd (.check ch)) (.close fd .sysClose)
  | exchange (w : WaitId) (hcalls : s.calls f = .wake w) (h : (s.wait w).triggered = true)
    : Walk s f .user .done
  | pushNone (w : WaitId) (h : s.owned (s.wait w).fiber = false) : Walk s f (.push w) .done
  | handleError (ch : ChannelId) (hcalls : s.calls f = .error ch) : Walk s f .user .done

inductive Turn (s : State n) : Dispatch → Dispatch → Prop where
  | done : Turn s (.events []) .none
  | lookup (ev : Ready) (evs : List Ready) (ch : ChannelId)
      (h : s.io.chs[ev.fd]? = some (some ch))
    : Turn s (.events (ev :: evs)) (.handle ch ev (Channel.handleEvent ev.events) evs)
  | lookupNone (ev : Ready) (evs : List Ready) (h : ∀ ch, s.io.chs[ev.fd]? ≠ some (some ch))
    : Turn s (.events (ev :: evs)) (.events evs)
  | handled (ch : ChannelId) (ev : Ready) (evs : List Ready)
    : Turn s (.handle ch ev [] evs) (.events evs)
  | copy (ch : ChannelId) (ev : Ready) (trigger : Trigger) (triggers : List Trigger)
      (evs : List Ready) (cb : Body) (h : copied (s.io.channel ch) trigger = some cb)
    : Turn s (.handle ch ev (trigger :: triggers) evs) (.push ch ev cb triggers evs)
  | copyNone (ch : ChannelId) (ev : Ready) (trigger : Trigger) (triggers : List Trigger)
      (evs : List Ready) (h : copied (s.io.channel ch) trigger = none)
    : Turn s (.handle ch ev (trigger :: triggers) evs) (.handle ch ev triggers evs)

inductive Step (s : State n) : Action n → State n → Prop where
  | run (a : Run.Action n) (core : Run.State n) (ha : inRun a = true)
      (hcore : Run.step s.core a = some core)
    : Step s (.run a) { s with core }
  | create (core : Run.State n) (hcore : Run.step s.core .create = some core)
    : Step s .create { s with core }
  | submit (q : Fin n) (core : Run.State n) (hcore : Run.step s.core (.submit q) = some core)
    : Step s (.submit q) { s with core, body := update s.body s.core.callbacks .user }
  | submitFiber (q : Fin n) (f : FiberId) (core : Run.State n)
      (hcore : Run.step s.core (.submitFiber q f) = some core)
    : Step s (.submitFiber q f) { s with core }
  | leave (act : Action n) (i : Fin n) (a : Run.Action n) (f : FiberId) (b : Bool)
      (core : Run.State n) (ha : a = .yield i ∨ a = .hold i ∨ a = .finish i)
      (hi : s.core.worker i = .running f b)
      (hctl : s.ctl f = .user ∧ s.calls f = .user ∨ s.ctl f = .done ∧ a = .finish i)
      (hcore : Run.step s.core a = some core)
    : Step s act { s with core }
  | walk (act : Action n) (i : Fin n) (f : FiberId) (b : Bool) (c c' : Ctl)
      (hi : s.core.worker i = .running f b) (hctl : s.ctl f = c) (hwalk : Walk s f c c')
      (hagain : ∀ ch e, c' = .io ch e .userNonBlock → act = .call i true)
    : Step s act (s.goto f c')
  | bind (i : Fin n) (f : FiberId) (b : Bool) (fd : Nat) (e : Event)
      (io : IOManager.Channels.State n WaitId) (ch : ChannelId)
      (hi : s.core.worker i = .running f b) (hctl : s.ctl f = .bind fd e)
      (hio : s.io.bindTaskQueue (some i) fd = some (io, ch))
    : Step s (.bindTaskQueue i) { s.goto f (.io ch e .sysNonBlock) with io }
  | sysNonBlock (i : Fin n) (f : FiberId) (b : Bool) (ch : ChannelId) (e : Event) (pc : IoPc)
      (hi : s.core.worker i = .running f b) (hctl : s.ctl f = .io ch e .sysNonBlock)
      (hpc : pc = if (s.io.channel ch).sysNonBlock then .call else .setNonBlocking)
    : Step s (.sysNonBlock i)
        { s.goto f (.io ch e pc) with
          io := { s.io with
            channel := update s.io.channel ch { s.io.channel ch with sysNonBlock := true } } }
  | setNonBlocking (i : Fin n) (f : FiberId) (b : Bool) (ch : ChannelId) (e : Event)
      (hi : s.core.worker i = .running f b) (hctl : s.ctl f = .io ch e .setNonBlocking)
    : Step s (.setNonBlocking i)
        { s.goto f (.io ch e .call) with
          file := update s.file (s.io.channel ch).fd
            ((s.file (s.io.channel ch).fd).map fun _ => true) }
  | registerEvent (i : Fin n) (ok : Bool) (f : FiberId) (b : Bool) (ch : ChannelId) (e : Event)
      (io : IOManager.Channels.State n WaitId) (hi : s.core.worker i = .running f b)
      (hctl : s.ctl f = .io ch e .register)
      (hio : s.io.registerLocked ch e (some s.waits) true ok = some io)
    : Step s (.registerEvent i ok)
        { s.goto f (.io ch e (.count s.waits)) with
          io
          wait := update s.wait s.waits { fiber := f, triggered := false, pushes := 0 }
          waits := s.waits + 1
          owner := s.own ch (some ch) ok }
  | addPending (i : Fin n) (f : FiberId) (b : Bool) (ch : ChannelId) (e : Event) (w : WaitId)
      (hi : s.core.worker i = .running f b) (hctl : s.ctl f = .io ch e (.count w))
    : Step s (.addPending i) { s.goto f (.io ch e (.hold w)) with io := s.io.addPending }
  | hold (i : Fin n) (f : FiberId) (b : Bool) (ch : ChannelId) (e : Event) (w : WaitId)
      (core : Run.State n) (hi : s.core.worker i = .running f b)
      (hctl : s.ctl f = .io ch e (.hold w)) (hcore : Run.step s.core (.hold i) = some core)
    : Step s (.hold i) { s.goto f (.io ch e (.unregister w)) with core }
  | unregisterEvent (i : Fin n) (ok : Bool) (f : FiberId) (b : Bool) (ch : ChannelId) (e : Event)
      (w : WaitId) (io : IOManager.Channels.State n WaitId) (hi : s.core.worker i = .running f b)
      (hctl : s.ctl f = .io ch e (.unregister w)) (hio : s.io.unregisterLocked ch e ok = some io)
    : Step s (.unregisterEvent i ok)
        { s.goto f (.io ch e .uncount) with io, owner := s.own ch (some ch) ok }
  | subPending (i : Fin n) (f : FiberId) (b : Bool) (ch : ChannelId) (e : Event)
      (hi : s.core.worker i = .running f b) (hctl : s.ctl f = .io ch e .uncount)
    : Step s (.subPending i) { s.goto f (.io ch e .call) with io := s.io.subPending }
  | reset (i : Fin n) (ok : Bool) (f : FiberId) (b : Bool) (fd : Nat) (ch : ChannelId)
      (hi : s.core.worker i = .running f b) (hctl : s.ctl f = .close fd (.reset ch))
    : Step s (.close i ok) { s.goto f (.close fd (.clear ch)) with io := s.io.resetEntry ch }
  | clear (i : Fin n) (ok : Bool) (f : FiberId) (b : Bool) (fd : Nat) (ch : ChannelId)
      (hi : s.core.worker i = .running f b) (hctl : s.ctl f = .close fd (.clear ch))
    : Step s (.close i ok) { s.goto f (.close fd (.remove ch)) with io := s.io.clearCallbacks ch }
  | remove (i : Fin n) (ok : Bool) (f : FiberId) (b : Bool) (fd : Nat) (ch : ChannelId)
      (io : IOManager.Channels.State n WaitId) (hi : s.core.worker i = .running f b)
      (hctl : s.ctl f = .close fd (.remove ch)) (hio : s.io.removeFromEpoll ch ok = some io)
    : Step s (.close i ok)
        { s.goto f (.close fd .sysClose) with
          io
          owner := if (s.io.channel ch).inEpoll then s.own ch none ok else s.owner }
  | sysClose (i : Fin n) (ok : Bool) (f : FiberId) (b : Bool) (fd : Nat)
      (hi : s.core.worker i = .running f b) (hctl : s.ctl f = .close fd .sysClose)
    : Step s (.close i ok)
        { s.goto f .user with
          io := s.io.sysClose fd
          file := update s.file fd none
          owner := fun q => update (s.owner q) fd none }
  | exchange (i : Fin n) (f : FiberId) (b : Bool) (w : WaitId) (hi : s.core.worker i = .running f b)
      (hctl : s.ctl f = .user) (hcalls : s.calls f = .wake w)
      (htriggered : (s.wait w).triggered = false)
    : Step s (.exchange i)
        { s.goto f (.push w) with wait := update s.wait w { s.wait w with triggered := true } }
  | pushFiber (i : Fin n) (f : FiberId) (b : Bool) (w : WaitId) (core : Run.State n)
      (hi : s.core.worker i = .running f b) (hctl : s.ctl f = .push w)
      (hcore : Run.step s.core (.submitFiber i (s.wait w).fiber) = some core)
    : Step s (.pushFiber i true)
        { s.goto f .done with
          core
          wait := update s.wait w { s.wait w with pushes := (s.wait w).pushes + 1 } }
  | idleReturn (i : Fin n) (term : Bool) (core : Run.State n) (hdispatch : s.dispatch i = .none)
      (hcore : Run.step s.core (.idleReturn i term) = some core)
    : Step s (.idleReturn i term) { s with core }
  | openFile (fd : Nat) (nonBlock : Bool) (hfile : s.file fd = none)
    : Step s (.openFile fd nonBlock) { s with file := update s.file fd (some nonBlock) }
  | poll (i : Fin n) (evs : List (Nat × UInt32)) (ready : List Ready)
      (hi : s.core.worker i = .idle) (hdispatch : s.dispatch i = .none)
      (hready : ∀ ev ∈ ready,
        ev.source = s.owner i ev.fd ∧ (s.io.interest i ev.fd).isSome = true)
    : Step s (.poll i evs) { s with dispatch := update s.dispatch i (.events ready) }
  | turn (i : Fin n) (d d' : Dispatch) (hdispatch : s.dispatch i = d) (hturn : Turn s d d')
    : Step s (.dispatchNext i) { s with dispatch := update s.dispatch i d' }
  | pushCopy (i : Fin n) (ch : ChannelId) (ev : Ready) (cb : Body) (triggers : List Trigger)
      (evs : List Ready) (q : Fin n) (core : Run.State n)
      (hdispatch : s.dispatch i = .push ch ev cb triggers evs)
      (hq : (s.io.channel ch).taskQueue = some q) (hcore : Run.step s.core (.submit q) = some core)
    : Step s (.dispatchNext i)
        { s with
          core
          body := update s.body s.core.callbacks cb
          dispatch := update s.dispatch i (.handle ch ev triggers evs) }

section Goto

variable (s : State n) (f : FiberId) (c : Ctl)

@[simp, grind =]
theorem goto_core : (s.goto f c).core = s.core := rfl

@[simp, grind =]
theorem goto_io : (s.goto f c).io = s.io := rfl

@[simp, grind =]
theorem goto_ctl (g : FiberId) : (s.goto f c).ctl g = update s.ctl f c g := rfl

@[simp, grind =]
theorem goto_body : (s.goto f c).body = s.body := rfl

@[simp, grind =]
theorem goto_wait : (s.goto f c).wait = s.wait := rfl

@[simp, grind =]
theorem goto_waits : (s.goto f c).waits = s.waits := rfl

@[simp, grind =]
theorem goto_dispatch : (s.goto f c).dispatch = s.dispatch := rfl

@[simp, grind =]
theorem goto_file : (s.goto f c).file = s.file := rfl

@[simp, grind =]
theorem goto_owner : (s.goto f c).owner = s.owner := rfl

end Goto

theorem running_eq_some {s : State n} (h : s.running i = some (f, c))
    : ∃ b, s.core.worker i = .running f b ∧ s.ctl f = c := by
  unfold State.running at h
  split at h
  . next g b hi =>
    cases h
    exact ⟨b, hi, rfl⟩
  . cases h

theorem Step.of_userSwitch {s t : State n} {act : Action n} {a : Run.Action n}
    (ha : a = .yield i ∨ a = .hold i ∨ a = .finish i) (h : s.userSwitch i a = some t)
    : Step s act t := by
  unfold State.userSwitch at h
  split at h
  . next f hrun =>
    rcases running_eq_some hrun with ⟨b, hi, hctl⟩
    split at h
    . next hcalls =>
      simp only [State.run, Option.map_eq_some_iff] at h
      rcases h with ⟨core, hcore, rfl⟩
      exact .leave act i a f b core ha hi (.inl ⟨hctl, hcalls⟩) hcore
    . cases h
  . cases h

theorem Step.of_callDoIo {s t : State n} (h : s.callDoIo i fd e = some t)
    : Step s (.callDoIo i fd e) t := by
  unfold State.callDoIo at h
  split at h
  . next f hrun =>
    rcases running_eq_some hrun with ⟨b, hi, hctl⟩
    split at h
    . next hcalls => cases h; exact .walk _ i f b _ _ hi hctl (.callDoIo fd e hcalls) (by simp)
    . cases h
  . cases h

theorem Step.of_bindTaskQueue {s t : State n} (h : s.bindTaskQueue i = some t)
    : Step s (.bindTaskQueue i) t := by
  unfold State.bindTaskQueue at h
  split at h
  . next f fd e hrun =>
    rcases running_eq_some hrun with ⟨b, hi, hctl⟩
    simp only [Option.map_eq_some_iff] at h
    rcases h with ⟨⟨io, ch⟩, hio, rfl⟩
    exact .bind i f b fd e io ch hi hctl hio
  . cases h

theorem Step.of_sysNonBlock {s t : State n} (h : s.sysNonBlock i = some t)
    : Step s (.sysNonBlock i) t := by
  unfold State.sysNonBlock at h
  split at h
  . next f ch e hrun =>
    rcases running_eq_some hrun with ⟨b, hi, hctl⟩
    cases h
    exact .sysNonBlock i f b ch e _ hi hctl rfl
  . cases h

theorem Step.of_setNonBlocking {s t : State n} (h : s.setNonBlocking i = some t)
    : Step s (.setNonBlocking i) t := by
  unfold State.setNonBlocking at h
  split at h
  . next f ch e hrun =>
    rcases running_eq_some hrun with ⟨b, hi, hctl⟩
    cases h
    exact .setNonBlocking i f b ch e hi hctl
  . cases h

theorem Step.of_call {s t : State n} (h : s.call i again = some t) : Step s (.call i again) t := by
  unfold State.call at h
  split at h
  . next f ch e hrun =>
    rcases running_eq_some hrun with ⟨b, hi, hctl⟩
    cases again with
    | true => cases h; exact .walk _ i f b _ _ hi hctl (.again ch e) (by simp)
    | false => cases h; exact .walk _ i f b _ _ hi hctl (.ret ch e) (by simp)
  . cases h

theorem Step.of_userNonBlock {s t : State n} (h : s.userNonBlock i = some t)
    : Step s (.userNonBlock i) t := by
  unfold State.userNonBlock at h
  split at h
  . next f ch e hrun =>
    rcases running_eq_some hrun with ⟨b, hi, hctl⟩
    simp only [Option.some.injEq] at h
    subst h
    cases hblock : (s.io.channel ch).userNonBlock with
    | true => exact .walk _ i f b _ _ hi hctl (.userNonBlock ch e hblock) (by simp)
    | false => exact .walk _ i f b _ _ hi hctl (.wait ch e hblock) (by simp)
  . cases h

theorem Step.of_registerEvent {s t : State n} (h : s.registerEvent i ok = some t)
    : Step s (.registerEvent i ok) t := by
  unfold State.registerEvent at h
  split at h
  . next f ch e hrun =>
    rcases running_eq_some hrun with ⟨b, hi, hctl⟩
    simp only [Option.map_eq_some_iff] at h
    rcases h with ⟨io, hio, rfl⟩
    exact .registerEvent i ok f b ch e io hi hctl hio
  . cases h

theorem Step.of_addPending {s t : State n} (h : s.addPending i = some t)
    : Step s (.addPending i) t := by
  unfold State.addPending at h
  split at h
  . next f ch e w hrun =>
    rcases running_eq_some hrun with ⟨b, hi, hctl⟩
    cases h
    exact .addPending i f b ch e w hi hctl
  . cases h

theorem Step.of_hold {s t : State n} (h : s.hold i = some t) : Step s (.hold i) t := by
  unfold State.hold at h
  split at h
  . next f ch e w hrun =>
    rcases running_eq_some hrun with ⟨b, hi, hctl⟩
    simp only [State.run, Option.map_eq_some_iff] at h
    rcases h with ⟨core, hcore, rfl⟩
    exact .hold i f b ch e w core hi hctl hcore
  . exact .of_userSwitch (.inr (.inl rfl)) h

theorem Step.of_unregisterEvent {s t : State n} (h : s.unregisterEvent i ok = some t)
    : Step s (.unregisterEvent i ok) t := by
  unfold State.unregisterEvent at h
  split at h
  . next f ch e w hrun =>
    rcases running_eq_some hrun with ⟨b, hi, hctl⟩
    simp only [Option.map_eq_some_iff] at h
    rcases h with ⟨io, hio, rfl⟩
    exact .unregisterEvent i ok f b ch e w io hi hctl hio
  . cases h

theorem Step.of_subPending {s t : State n} (h : s.subPending i = some t)
    : Step s (.subPending i) t := by
  unfold State.subPending at h
  split at h
  . next f ch e hrun =>
    rcases running_eq_some hrun with ⟨b, hi, hctl⟩
    cases h
    exact .subPending i f b ch e hi hctl
  . cases h

theorem Step.of_callClose {s t : State n} (h : s.callClose i fd = some t)
    : Step s (.callClose i fd) t := by
  unfold State.callClose at h
  split at h
  . next f hrun =>
    rcases running_eq_some hrun with ⟨b, hi, hctl⟩
    split at h
    . next hcalls => cases h; exact .walk _ i f b _ _ hi hctl (.callClose fd hcalls) (by simp)
    . cases h
  . cases h

theorem Step.of_close {s t : State n} (h : s.close i ok = some t) : Step s (.close i ok) t := by
  unfold State.close at h
  split at h
  . next f fd hrun =>
    rcases running_eq_some hrun with ⟨b, hi, hctl⟩
    split at h
    . next ch hch => cases h; exact .walk _ i f b _ _ hi hctl (.lookup fd ch hch) (by simp)
    . next hch => cases h; exact .walk _ i f b _ _ hi hctl (.lookupNone fd hch) (by simp)
  . next f fd ch hrun =>
    rcases running_eq_some hrun with ⟨b, hi, hctl⟩
    split at h
    . next hq => cases h; exact .walk _ i f b _ _ hi hctl (.checkNone fd ch hq) (by simp)
    . next hq => cases h; exact .walk _ i f b _ _ hi hctl (.check fd ch hq) (by simp)
  . next f fd ch hrun =>
    rcases running_eq_some hrun with ⟨b, hi, hctl⟩
    cases h
    exact .reset i ok f b fd ch hi hctl
  . next f fd ch hrun =>
    rcases running_eq_some hrun with ⟨b, hi, hctl⟩
    cases h
    exact .clear i ok f b fd ch hi hctl
  . next f fd ch hrun =>
    rcases running_eq_some hrun with ⟨b, hi, hctl⟩
    simp only [Option.map_eq_some_iff] at h
    rcases h with ⟨io, hio, rfl⟩
    exact .remove i ok f b fd ch io hi hctl hio
  . next f fd hrun =>
    rcases running_eq_some hrun with ⟨b, hi, hctl⟩
    cases h
    exact .sysClose i ok f b fd hi hctl
  . cases h

theorem Step.of_exchange {s t : State n} (h : s.exchange i = some t) : Step s (.exchange i) t := by
  unfold State.exchange at h
  split at h
  . next f hrun =>
    rcases running_eq_some hrun with ⟨b, hi, hctl⟩
    split at h
    . next w hcalls =>
      cases htriggered : (s.wait w).triggered with
      | true =>
        simp only [htriggered, ↓reduceIte, Option.some.injEq] at h
        subst h
        exact .walk _ i f b _ _ hi hctl (.exchange w hcalls htriggered) (by simp)
      | false =>
        simp only [htriggered, Bool.false_eq_true, ↓reduceIte, Option.some.injEq] at h
        subst h
        exact .exchange i f b w hi hctl hcalls htriggered
    . cases h
  . cases h

theorem Step.of_pushFiber {s t : State n} (h : s.pushFiber i lock = some t)
    : Step s (.pushFiber i lock) t := by
  unfold State.pushFiber at h
  split at h
  . next f w hrun =>
    rcases running_eq_some hrun with ⟨b, hi, hctl⟩
    cases lock with
    | true =>
      simp only [↓reduceIte, Option.map_eq_some_iff] at h
      rcases h with ⟨core, hcore, rfl⟩
      exact .pushFiber i f b w core hi hctl hcore
    | false =>
      simp only [Bool.false_eq_true, ↓reduceIte] at h
      split at h
      . cases h
      . next howned =>
        cases h
        exact .walk _ i f b _ _ hi hctl (.pushNone w (by simpa using howned)) (by simp)
  . cases h

theorem Step.of_handleError {s t : State n} (h : s.handleError i = some t)
    : Step s (.handleError i) t := by
  unfold State.handleError at h
  split at h
  . next f hrun =>
    rcases running_eq_some hrun with ⟨b, hi, hctl⟩
    split at h
    . next ch hcalls => cases h; exact .walk _ i f b _ _ hi hctl (.handleError ch hcalls) (by simp)
    . cases h
  . cases h

theorem Step.of_finish {s t : State n} (h : s.finish i = some t) : Step s (.finish i) t := by
  unfold State.finish at h
  split at h
  . next f hrun =>
    rcases running_eq_some hrun with ⟨b, hi, hctl⟩
    simp only [State.run, Option.map_eq_some_iff] at h
    rcases h with ⟨core, hcore, rfl⟩
    exact .leave _ i _ f b core (.inr (.inr rfl)) hi (.inr ⟨hctl, rfl⟩) hcore
  . exact .of_userSwitch (.inr (.inr rfl)) h

theorem Step.of_dispatchNext {s t : State n} (h : s.dispatchNext i = some t)
    : Step s (.dispatchNext i) t := by
  unfold State.dispatchNext at h
  split at h
  . cases h
  . next hd => cases h; exact .turn i _ _ hd .done
  . next ev evs hd =>
    split at h
    . next ch hch => cases h; exact .turn i _ _ hd (.lookup ev evs ch hch)
    . next hch => cases h; exact .turn i _ _ hd (.lookupNone ev evs hch)
  . next ch ev evs hd => cases h; exact .turn i _ _ hd (.handled ch ev evs)
  . next ch ev trigger triggers evs hd =>
    split at h
    . next cb hcb => cases h; exact .turn i _ _ hd (.copy ch ev trigger triggers evs cb hcb)
    . next hcb => cases h; exact .turn i _ _ hd (.copyNone ch ev trigger triggers evs hcb)
  . next ch ev cb triggers evs hd =>
    split at h
    . next q hq =>
      simp only [State.post, Option.map_map, Option.map_eq_some_iff] at h
      rcases h with ⟨core, hcore, rfl⟩
      exact .pushCopy i ch ev cb triggers evs q core hd hq hcore
    . cases h

theorem Step.of_step {s t : State n} {act : Action n} (h : step s act = some t) : Step s act t := by
  cases act with
  | run a =>
    simp only [step, State.run, Option.ite_none_right_eq_some, Option.map_eq_some_iff] at h
    rcases h with ⟨ha, core, hcore, rfl⟩
    exact .run a core ha hcore
  | create =>
    simp only [step, State.run, Option.map_eq_some_iff] at h
    rcases h with ⟨core, hcore, rfl⟩
    exact .create core hcore
  | submit q =>
    simp only [step, State.post, Option.map_eq_some_iff] at h
    rcases h with ⟨core, hcore, rfl⟩
    exact .submit q core hcore
  | submitFiber q f =>
    simp only [step, State.run, Option.map_eq_some_iff] at h
    rcases h with ⟨core, hcore, rfl⟩
    exact .submitFiber q f core hcore
  | yield i => exact .of_userSwitch (.inl rfl) h
  | hold i => exact .of_hold h
  | finish i => exact .of_finish h
  | callDoIo i fd e => exact .of_callDoIo h
  | bindTaskQueue i => exact .of_bindTaskQueue h
  | sysNonBlock i => exact .of_sysNonBlock h
  | setNonBlocking i => exact .of_setNonBlocking h
  | call i again => exact .of_call h
  | userNonBlock i => exact .of_userNonBlock h
  | registerEvent i ok => exact .of_registerEvent h
  | addPending i => exact .of_addPending h
  | unregisterEvent i ok => exact .of_unregisterEvent h
  | subPending i => exact .of_subPending h
  | callClose i fd => exact .of_callClose h
  | close i ok => exact .of_close h
  | exchange i => exact .of_exchange h
  | pushFiber i lock => exact .of_pushFiber h
  | handleError i => exact .of_handleError h
  | idleReturn i term =>
    simp only [step, State.idleReturn, State.run, Option.ite_none_right_eq_some,
      Option.map_eq_some_iff] at h
    rcases h with ⟨hdispatch, core, hcore, rfl⟩
    exact .idleReturn i term core hdispatch hcore
  | openFile fd nonBlock =>
    simp only [step, State.openFile, Option.ite_none_right_eq_some, Option.some.injEq] at h
    rcases h with ⟨hfile, rfl⟩
    exact .openFile fd nonBlock hfile
  | poll i evs =>
    simp only [step, State.poll, Option.ite_none_right_eq_some, Option.some.injEq] at h
    rcases h with ⟨⟨hi, hdispatch, hevs⟩, rfl⟩
    apply Step.poll i evs _ hi hdispatch
    intro ev hev
    rcases List.mem_map.mp hev with ⟨p, hp, rfl⟩
    exact ⟨rfl, hevs p hp⟩
  | dispatchNext i => exact .of_dispatchNext h

theorem core_steps {s t : State n} {act : Action n} (h : Step s act t)
    : (Run.machine n).Steps Machine.free s.core t.core := by
  have hone : ∀ {a core}, Run.step s.core a = some core →
      (Run.machine n).Steps Machine.free s.core core := by
    intro a core hcore
    exact (Machine.Steps.refl _).tail trivial hcore
  cases h with
  | run a core ha hcore => exact hone hcore
  | create core hcore => exact hone hcore
  | submit q core hcore => exact hone hcore
  | submitFiber q f core hcore => exact hone hcore
  | leave act i a f b core ha hi hctl hcore => exact hone hcore
  | hold i f b ch e w core hi hctl hcore => exact hone hcore
  | pushFiber i f b w core hi hctl hcore => exact hone hcore
  | idleReturn i term core hdispatch hcore => exact hone hcore
  | pushCopy i ch ev cb triggers evs q core hdispatch hq hcore => exact hone hcore
  | _ => exact Machine.Steps.refl _

/--
Whatever fibers do in `do_io` and `close` and whichever events come, the queues, workers and fibers go
through a run of the workers alone.
-/
theorem reachable_core {s : State n} (h : (machine n).Reach ok s)
    : (Run.machine n).Reachable s.core := by
  apply h.project State.core
  . intro s hs
    rw [hs]
    rfl
  . intro s a t _ hat
    exact core_steps (Step.of_step hat)

end Hook
end Koro
