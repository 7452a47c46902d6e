import Koro.Scheduler.Process

/-!
This module contains which objects of a process get their task queues and workers from `init()`: the
first one that it is called on, and no other.
-/

namespace Koro
namespace Process

open Function (update)

variable {s t r : State} {x y : Instance} {i j : InstanceId} {act : Action}

/--
The task queues of the object exist and its workers have been started.
-/
structure Instance.Ready (x : Instance) : Prop where
  queues : ∀ q ∈ x.taskQueues, ∃ q', q = some q' ∧ (x.kind = .ioManager → q'.wakeupCh = true)
  threads : ∀ started ∈ x.threads, started = true

def Instance.Bare (x : Instance) : Prop :=
  ∀ q ∈ x.taskQueues, q = none

theorem bare_new : (Instance.new kind threadCount h).Bare := by
  intro q hq
  exact List.eq_of_mem_replicate hq

theorem taskQueues_initLambda
    : x.initLambda.taskQueues =
        x.taskQueues.map fun _ => some { TaskQueue.new with wakeupCh := decide (x.kind = .ioManager) } := by
  unfold Instance.initLambda Instance.startThreads Instance.makeQueues Instance.onInit
  cases hkind : x.kind <;> simp [TaskQueue.new]

theorem kind_initLambda : x.initLambda.kind = x.kind := by
  unfold Instance.initLambda Instance.startThreads Instance.makeQueues Instance.onInit
  cases hkind : x.kind <;> simp

theorem ready_initLambda : x.initLambda.Ready := by
  constructor
  . intro q hq
    rw [taskQueues_initLambda] at hq
    rcases List.mem_map.mp hq with ⟨_, _, rfl⟩
    refine ⟨_, rfl, ?_⟩
    intro hkind
    rw [kind_initLambda] at hkind
    simp [hkind]
  . intro started hstarted
    simp only [Instance.initLambda, Instance.startThreads, List.mem_map] at hstarted
    rcases hstarted with ⟨_, _, rfl⟩
    rfl

theorem not_ready_of_bare (h : x.Bare) : ¬x.Ready := by
  intro hr
  have hpos : 0 < x.taskQueues.length := by
    rw [x.sizes]
    exact x.pos
  have hmem : x.taskQueues[0] ∈ x.taskQueues := List.getElem_mem hpos
  rcases hr.queues _ hmem with ⟨q, hq, _⟩
  rw [h _ hmem] at hq
  cases hq

theorem Instance.Ready.queue (h : x.Ready) (hidx : idx < x.threads.length)
    : ∃ q, x.queue idx = some q ∧ (x.kind = .ioManager → q.wakeupCh = true) := by
  have hlt : idx < x.taskQueues.length := by
    rw [x.sizes]
    exact hidx
  rcases h.queues _ (List.getElem_mem hlt) with ⟨q, hq, hwakeup⟩
  refine ⟨q, ?_, hwakeup⟩
  simp [Instance.queue, List.getElem?_eq_getElem hlt, hq]

theorem Instance.Bare.queue (h : x.Bare) : x.queue idx = none := by
  cases hq : x.taskQueues[idx]? with
  | none => simp [Instance.queue, hq]
  | some q => simp [Instance.queue, hq, h q (List.mem_of_getElem? hq)]

theorem Instance.Ready.tickle (h : x.Ready) (hidx : idx < x.threads.length)
    : (x.tickle idx).isSome = true := by
  rcases h.queue hidx with ⟨q, hq, hwakeup⟩
  simp only [Instance.tickle, hq, Option.bind_some]
  cases hkind : x.kind with
  | scheduler => split <;> rfl
  | ioManager =>
    rw [hwakeup hkind]
    split <;> rfl

theorem stopping_go_isSome (qs : List (Option TaskQueue)) (h : ∀ q ∈ qs, q ≠ none)
    : (Instance.stopping.go skipIdx k qs).isSome = true := by
  induction qs generalizing k with
  | nil => rfl
  | cons q qs ih =>
    have hrest : ∀ q ∈ qs, q ≠ none := fun q hq => h q (List.mem_cons_of_mem _ hq)
    cases q with
    | none => exact absurd rfl (h none List.mem_cons_self)
    | some q =>
      simp only [Instance.stopping.go, Option.bind_some]
      split
      . exact ih hrest
      . split
        . exact ih hrest
        . rfl

theorem Instance.Ready.stopping (h : x.Ready) : (x.stopping skipIdx busy).isSome = true := by
  unfold Instance.stopping
  split
  . rfl
  . apply stopping_go_isSome
    intro q hq
    rcases h.queues q hq with ⟨q', rfl, _⟩
    simp

-- What a call of anything but `init` does to an object
structure Instance.Keeps (x y : Instance) : Prop where
  inited : y.inited = x.inited
  ready : x.Ready → y.Ready
  bare : x.Bare → y.Bare

theorem Instance.Keeps.refl (x : Instance) : x.Keeps x where
  inited := rfl
  ready := id
  bare := id

theorem Instance.Keeps.trans {z : Instance} (h : x.Keeps y) (h' : y.Keeps z) : x.Keeps z where
  inited := h'.inited.trans h.inited
  ready := h'.ready ∘ h.ready
  bare := h'.bare ∘ h.bare

theorem keeps_post : x.Keeps x.post.2 where
  inited := rfl
  ready h := ⟨h.queues, h.threads⟩
  bare := id

theorem keeps_stop : x.Keeps { x with stop := true } where
  inited := rfl
  ready h := ⟨h.queues, h.threads⟩
  bare := id

theorem keeps_setQueue {q q' : TaskQueue} (hq : x.queue idx = some q)
    (hwakeup : q'.wakeupCh = q.wakeupCh)
    : x.Keeps (x.setQueue idx q') where
  inited := rfl
  ready h := by
    have hqueue : some q ∈ x.taskQueues := by
      apply List.mem_of_getElem? (i := idx)
      simpa [Instance.queue, Option.join_eq_some_iff] using hq
    constructor
    . intro p hp
      rcases List.mem_or_eq_of_mem_set hp with hp | rfl
      . exact h.queues p hp
      . refine ⟨q', rfl, ?_⟩
        intro hkind
        rcases h.queues _ hqueue with ⟨_, hsome, hset⟩
        rw [Option.some.inj hsome] at hwakeup
        rw [hwakeup]
        exact hset hkind
    . exact h.threads
  bare h := by
    rw [h.queue] at hq
    cases hq

def State.SoundAt (s : State) (i : InstanceId) : Prop :=
  ∀ x, s.instances[i]? = some x → x.inited = true → x.Ready

-- The rest of a call on object `i`, after its `init()`
structure Call (s : State) (i : InstanceId) (t : State) : Prop where
  initialized : t.initialized = s.initialized
  length : t.instances.length = s.instances.length
  keeps : ∀ (j : InstanceId) (x y : Instance),
    s.instances[j]? = some x → t.instances[j]? = some y → x.Keeps y
  chs : ∀ fd q, s.chs fd = some q → t.chs fd = some q
  unbound : s.SoundAt i → ∀ fd, t.chs fd = some none → s.chs fd = some none
  running : s.SoundAt i → t.crashed = s.crashed

theorem keeps_set (hx : s.instances[i]? = some x) (hy : x.Keeps y)
    : ∀ (j : InstanceId) (z z' : Instance),
        s.instances[j]? = some z → (s.set i y).instances[j]? = some z' → z.Keeps z' := by
  intro j z z' hz hz'
  simp only [State.set, List.getElem?_set] at hz'
  by_cases hij : i = j
  . subst hij
    rw [hx] at hz
    grind
  . grind [Instance.Keeps.refl]

theorem call_set (hx : s.instances[i]? = some x) (hy : x.Keeps y) : Call s i (s.set i y) where
  initialized := rfl
  length := by simp [State.set]
  keeps := keeps_set hx hy
  chs _ _ h := h
  unbound _ _ h := h
  running _ := rfl

theorem call_deref {res : Option Bool} (hx : s.instances[i]? = some x) (hin : x.inited = true)
    (h : x.Ready → res.isSome = true)
    : Call s i (s.deref res) where
  initialized := rfl
  length := rfl
  keeps := by
    intro j z z' hz hz'
    cases hz.symm.trans hz'
    exact .refl z
  chs _ _ h := h
  unbound _ _ h := h
  running := by
    intro hsound
    have := h (hsound x hx hin)
    cases res <;> simp_all [State.deref]

theorem Call.refl (s : State) (i : InstanceId) : Call s i s where
  initialized := rfl
  length := rfl
  keeps := by
    intro j z z' hz hz'
    cases hz.symm.trans hz'
    exact .refl z
  chs _ _ h := h
  unbound _ _ h := h
  running _ := rfl

theorem Call.get (h : Call s i t) (hx : s.instances[j]? = some x)
    : ∃ y, t.instances[j]? = some y ∧ x.Keeps y := by
  have hlt : j < t.instances.length := by
    rw [h.length]
    exact (List.getElem?_eq_some_iff.mp hx).choose
  exact ⟨_, List.getElem?_eq_getElem hlt, h.keeps j x _ hx (List.getElem?_eq_getElem hlt)⟩

theorem Call.get_back (h : Call s i t) (hy : t.instances[j]? = some y)
    : ∃ x, s.instances[j]? = some x ∧ x.Keeps y := by
  have hlt : j < s.instances.length := by
    rw [← h.length]
    exact (List.getElem?_eq_some_iff.mp hy).choose
  exact ⟨_, List.getElem?_eq_getElem hlt, h.keeps j _ y (List.getElem?_eq_getElem hlt) hy⟩

theorem Call.soundAt (h : Call s i t) (hs : s.SoundAt j) : t.SoundAt j := by
  intro y hy hin
  rcases h.get_back hy with ⟨x, hx, hxy⟩
  rw [hxy.inited] at hin
  exact hxy.ready (hs x hx hin)

theorem Call.trans (h : Call s i t) (h' : Call t i r) : Call s i r where
  initialized := h'.initialized.trans h.initialized
  length := h'.length.trans h.length
  keeps := by
    intro j x z hx hz
    rcases h.get hx with ⟨y, hy, hxy⟩
    exact hxy.trans (h'.keeps j y z hy hz)
  chs fd q hq := h'.chs fd q (h.chs fd q hq)
  unbound hsound fd hfd := h.unbound hsound fd (h'.unbound (h.soundAt hsound) fd hfd)
  running hsound := (h'.running (h.soundAt hsound)).trans (h.running hsound)

theorem set_get (hx : s.instances[i]? = some x) : (s.set i y).instances[i]? = some y := by
  rcases List.getElem?_eq_some_iff.mp hx with ⟨hlt, _⟩
  simp [State.set, List.getElem?_set_self hlt]

theorem post_lt (x : Instance) : x.post.1 < x.threads.length :=
  Nat.mod_lt _ x.pos

def State.InitedAt (s : State) (i : InstanceId) : Prop :=
  ∀ x, s.instances[i]? = some x → x.inited = true

theorem call_push (hin : s.InitedAt i) (h : s.push i task = some t) : Call s i t := by
  simp only [State.push, Option.map_eq_some_iff] at h
  rcases h with ⟨x, hx, h⟩
  cases hq : x.post.2.queue x.post.1 with
  | none =>
    simp only [hq] at h
    subst h
    have hset := call_set hx keeps_post
    refine { hset with running := ?_ }
    intro hsound
    have hr := keeps_post.ready (hsound x hx (hin x hx))
    rcases hr.queue (post_lt x) with ⟨q, hsome, _⟩
    rw [hq] at hsome
    cases hsome
  | some q =>
    simp only [hq] at h
    have hkeeps : x.Keeps (x.post.2.setQueue x.post.1 { q with tasks := q.tasks ++ [task] }) :=
      keeps_post.trans (keeps_setQueue hq rfl)
    have hset := call_set hx hkeeps
    split at h
    . subst h
      apply hset.trans
      apply call_deref (set_get hx) (hkeeps.inited.trans (hin x hx))
      intro hr
      exact hr.tickle (post_lt x)
    . subst h
      exact hset

-- An entry is made where there is none
theorem call_update (h : Call s i t) (hnone : s.chs fd = none)
    (hsome : s.SoundAt i → p ≠ none)
    : Call s i { t with chs := update s.chs fd (some p) } where
  initialized := h.initialized
  length := h.length
  keeps := h.keeps
  chs := by
    intro fd' q hq
    have hne : fd' ≠ fd := by
      rintro rfl
      rw [hnone] at hq
      cases hq
    simpa [Function.update_of_ne hne] using hq
  unbound := by
    intro hsound fd' hfd'
    simp only [Function.update_apply] at hfd'
    split at hfd'
    . exact absurd (Option.some.inj hfd') (hsome hsound)
    . exact hfd'
  running := h.running

theorem call_bind (hin : s.InitedAt i) (h : s.bind i fd tTaskQueue = some t) : Call s i t := by
  simp only [State.bind, Option.map_eq_some_iff] at h
  rcases h with ⟨x, hx, h⟩
  cases hch : s.chs fd with
  | some _ =>
    simp only [hch] at h
    subst h
    exact .refl s i
  | none =>
    cases tTaskQueue with
    | none =>
      simp only [hch] at h
      subst h
      apply call_update (call_set hx keeps_post) hch
      intro hsound
      have hr := keeps_post.ready (hsound x hx (hin x hx))
      rcases hr.queue (post_lt x) with ⟨q, hq, _⟩
      simp [hq]
    | some q =>
      simp only [hch] at h
      subst h
      apply call_update (.refl s i) hch
      simp

theorem call_tickle (h : s.tickle i idx = some t) : Call s i t := by
  simp only [State.tickle, Option.bind_eq_some_iff] at h
  rcases h with ⟨x, hx, h⟩
  split at h
  . next hguard =>
    cases h
    apply call_deref hx hguard.left
    intro hr
    exact hr.tickle hguard.right
  . cases h

theorem call_stopping (h : s.stopping i skipIdx busy = some t) : Call s i t := by
  simp only [State.stopping, Option.bind_eq_some_iff] at h
  rcases h with ⟨x, hx, h⟩
  split at h
  . next hin =>
    cases h
    apply call_deref hx hin
    exact Instance.Ready.stopping
  . cases h

theorem call_stop (h : s.stop i = some t) : Call s i t := by
  simp only [State.stop, Option.map_eq_some_iff] at h
  rcases h with ⟨x, hx, rfl⟩
  exact call_set hx keeps_stop

theorem call_work (h : s.work i idx tasks idling = some t) : Call s i t := by
  simp only [State.work, Option.bind_eq_some_iff, Option.map_eq_some_iff] at h
  rcases h with ⟨x, hx, q, hq, rfl⟩
  exact call_set hx (keeps_setQueue hq rfl)

/--
Every object that `init()` has returned on is ready, no channel is bound to a null task queue, and
none has been dereferenced.
-/
structure State.Usable (s : State) : Prop where
  ready : ∀ i, s.SoundAt i
  bound : ∀ fd, s.chs fd ≠ some none
  running : s.crashed = false

structure State.Inv (s : State) : Prop where
  made : ∀ i, s.initialized = some i → ∃ x, s.instances[i]? = some x ∧ x.Ready
  bare : ∀ (i : InstanceId) (x : Instance), s.instances[i]? = some x → s.initialized ≠ some i → x.Bare
  fresh : ∀ (i : InstanceId) (x : Instance),
    s.initialized = none → s.instances[i]? = some x → x.inited = false

theorem inv_start : State.start.Inv := by
  constructor <;> simp [State.start]

theorem usable_start : State.start.Usable := by
  constructor <;> simp [State.start, State.SoundAt]

-- An object is ready just if the static was made with it
theorem State.Inv.ready_iff (h : s.Inv) (hx : s.instances[i]? = some x)
    : x.Ready ↔ s.initialized = some i := by
  constructor
  . intro hr
    by_contra hne
    exact not_ready_of_bare (h.bare i x hx hne) hr
  . intro hi
    rcases h.made i hi with ⟨y, hy, hr⟩
    cases hx.symm.trans hy
    exact hr

theorem inv_call (h : s.Inv) (hc : Call s i t) : t.Inv where
  made := by
    intro j hj
    rw [hc.initialized] at hj
    rcases h.made j hj with ⟨x, hx, hr⟩
    rcases hc.get hx with ⟨y, hy, hxy⟩
    exact ⟨y, hy, hxy.ready hr⟩
  bare := by
    intro j y hy hne
    rcases hc.get_back hy with ⟨x, hx, hxy⟩
    rw [hc.initialized] at hne
    exact hxy.bare (h.bare j x hx hne)
  fresh := by
    intro j y hnone hy
    rcases hc.get_back hy with ⟨x, hx, hxy⟩
    rw [hc.initialized] at hnone
    rw [hxy.inited]
    exact h.fresh j x hnone hx

theorem usable_call (h : s.Inv) (hc : Call s i t) (hrun : s.crashed = false)
    : t.Usable ↔ s.Usable := by
  constructor
  . intro ht
    refine ⟨?_, ?_, hrun⟩
    . intro j x hx hin
      rcases hc.get hx with ⟨y, hy, hxy⟩
      have hready : y.Ready := ht.ready j y hy (hxy.inited.trans hin)
      rw [(inv_call h hc).ready_iff hy, hc.initialized] at hready
      exact (h.ready_iff hx).mpr hready
    . intro fd hfd
      exact ht.bound fd (hc.chs fd none hfd)
  . intro hs
    refine ⟨?_, ?_, ?_⟩
    . intro j
      exact hc.soundAt (hs.ready j)
    . intro fd hfd
      exact hs.bound fd (hc.unbound (hs.ready i) fd hfd)
    . rw [hc.running (hs.ready i)]
      exact hrun

theorem construct_cases (h : s.construct kind threadCount = some t)
    : t = { s with instances := t.instances }
        ∧
      ∀ (i : InstanceId) (x : Instance), t.instances[i]? = some x →
        s.instances[i]? = some x ∨ s.instances.length = i ∧ x.Bare ∧ x.inited = false := by
  unfold State.construct at h
  split at h
  . cases h
    refine ⟨rfl, ?_⟩
    intro i x hx
    simp only [List.getElem?_append] at hx
    split at hx
    . exact .inl hx
    . right
      rcases List.getElem?_eq_some_iff.mp hx with ⟨hlt, hx⟩
      simp only [List.length_singleton] at hlt
      simp only [List.getElem_singleton] at hx
      subst hx
      exact ⟨by omega, bare_new, rfl⟩
  . cases h

theorem construct_get (h : s.construct kind threadCount = some t) (hx : s.instances[i]? = some x)
    : t.instances[i]? = some x := by
  unfold State.construct at h
  split at h
  . cases h
    rcases List.getElem?_eq_some_iff.mp hx with ⟨hlt, _⟩
    rw [List.getElem?_append_left hlt]
    exact hx
  . cases h

theorem inv_construct (h : s.Inv) (hs : s.construct kind threadCount = some t) : t.Inv := by
  rcases construct_cases hs with ⟨ht, hcases⟩
  have hsame : t.initialized = s.initialized := by rw [ht]
  constructor
  . intro i hi
    rw [hsame] at hi
    rcases h.made i hi with ⟨x, hx, hr⟩
    exact ⟨x, construct_get hs hx, hr⟩
  . intro i x hx hne
    rw [hsame] at hne
    rcases hcases i x hx with hx | ⟨_, hbare, _⟩
    . exact h.bare i x hx hne
    . exact hbare
  . intro i x hnone hx
    rw [hsame] at hnone
    rcases hcases i x hx with hx | ⟨_, _, hin⟩
    . exact h.fresh i x hnone hx
    . exact hin

theorem usable_construct (hs : s.construct kind threadCount = some t) : t.Usable ↔ s.Usable := by
  rcases construct_cases hs with ⟨ht, hcases⟩
  have hchs : t.chs = s.chs := by rw [ht]
  have hcrashed : t.crashed = s.crashed := by rw [ht]
  constructor
  . intro h
    refine ⟨?_, hchs ▸ h.bound, hcrashed ▸ h.running⟩
    intro i x hx
    exact h.ready i x (construct_get hs hx)
  . intro h
    refine ⟨?_, hchs ▸ h.bound, hcrashed ▸ h.running⟩
    intro i x hx hin
    rcases hcases i x hx with hx | ⟨_, _, hnot⟩
    . exact h.ready i x hx hin
    . rw [hin] at hnot
      cases hnot

-- What `init()` leaves of the object: the static has been made with it, or with another one before
theorem init_cases (h : s.init i = some t)
    : ∃ x y : Instance,
        s.instances[i]? = some x ∧ t = { s.set i y with initialized := t.initialized }
          ∧
        y.inited = true
          ∧
        ((s.initialized = none ∧ t.initialized = some i ∧ y.Ready)
            ∨
          (s.initialized ≠ none ∧ t.initialized = s.initialized ∧ (y.Ready ↔ x.Ready)
            ∧ (x.Bare → y.Bare))) := by
  simp only [State.init, Option.map_eq_some_iff] at h
  rcases h with ⟨x, hx, h⟩
  cases hi : s.initialized with
  | none =>
    simp only [hi] at h
    subst h
    have hr := ready_initLambda (x := x)
    refine ⟨x, { x.initLambda with inited := true }, hx, rfl, rfl, ?_⟩
    exact .inl ⟨rfl, rfl, ⟨hr.queues, hr.threads⟩⟩
  | some k =>
    simp only [hi] at h
    subst h
    refine ⟨x, { x with inited := true }, hx, ?_, rfl, ?_⟩
    . simp [State.set]
    . right
      refine ⟨by simp, hi, ?_, id⟩
      constructor
      . intro hr
        exact ⟨hr.queues, hr.threads⟩
      . intro hr
        exact ⟨hr.queues, hr.threads⟩

theorem set_cases (h : (s.set i y).instances[j]? = some x)
    : (j = i ∧ x = y) ∨ (j ≠ i ∧ s.instances[j]? = some x) := by
  simp only [State.set, List.getElem?_set] at h
  grind

theorem inv_init (h : s.Inv) (hs : s.init i = some t) : t.Inv := by
  rcases init_cases hs with ⟨x, y, hx, ht, hin, hcase⟩
  have hy : t.instances[i]? = some y := by
    rw [ht]
    exact set_get hx
  have hget : ∀ (j : InstanceId) (z : Instance), j ≠ i → t.instances[j]? = some z →
      s.instances[j]? = some z := by
    intro j z hj hz
    rw [ht] at hz
    rcases set_cases hz with ⟨rfl, _⟩ | ⟨_, hz⟩
    . exact absurd rfl hj
    . exact hz
  rcases hcase with ⟨hnone, hmade, hr⟩ | ⟨hsome, hsame, hready, hbare⟩
  . constructor
    . intro j hj
      rw [hmade] at hj
      cases hj
      exact ⟨y, hy, hr⟩
    . intro j z hz hne
      rw [hmade] at hne
      have hji : j ≠ i := by
        rintro rfl
        exact hne rfl
      apply h.bare j z (hget j z hji hz)
      simp [hnone]
    . intro j z hno _
      rw [hmade] at hno
      cases hno
  . constructor
    . intro j hj
      rw [hsame] at hj
      by_cases hji : j = i
      . subst hji
        exact ⟨y, hy, hready.mpr ((h.ready_iff hx).mpr hj)⟩
      . rcases h.made j hj with ⟨z, hz, hr⟩
        refine ⟨z, ?_, hr⟩
        rw [ht]
        simpa [State.set, List.getElem?_set, Ne.symm hji] using hz
    . intro j z hz hne
      rw [hsame] at hne
      by_cases hji : j = i
      . subst hji
        cases hy.symm.trans hz
        exact hbare (h.bare j x hx hne)
      . exact h.bare j z (hget j z hji hz) hne
    . intro j z hno _
      rw [hsame] at hno
      exact absurd hno hsome

theorem usable_init (h : s.Inv) (hs : s.init i = some t)
    : t.Usable ↔ s.Usable ∧ (s.initialized = none ∨ s.initialized = some i) := by
  have hinv := inv_init h hs
  rcases init_cases hs with ⟨x, y, hx, ht, hin, hcase⟩
  have hchs : t.chs = s.chs := by rw [ht]; rfl
  have hcrashed : t.crashed = s.crashed := by rw [ht]; rfl
  have hy : t.instances[i]? = some y := by
    rw [ht]
    exact set_get hx
  have hmade : t.initialized = some i ↔ s.initialized = none ∨ s.initialized = some i := by
    rcases hcase with ⟨hnone, hmade, _⟩ | ⟨hsome, hsame, _⟩
    . simp [hnone, hmade]
    . simp [hsome, hsame]
  rw [← hmade, ← hinv.ready_iff hy]
  constructor
  . intro hu
    have hr := hu.ready i y hy hin
    refine ⟨⟨?_, hchs ▸ hu.bound, hcrashed ▸ hu.running⟩, hr⟩
    intro j z hz hzin
    rcases hcase with ⟨hnone, _, _⟩ | ⟨_, _, hready, _⟩
    . rw [h.fresh j z hnone hz] at hzin
      cases hzin
    . by_cases hji : j = i
      . subst hji
        cases hx.symm.trans hz
        exact hready.mp hr
      . apply hu.ready j z _ hzin
        rw [ht]
        simpa [State.set, List.getElem?_set, Ne.symm hji] using hz
  . rintro ⟨hu, hr⟩
    refine ⟨?_, hchs ▸ hu.bound, hcrashed ▸ hu.running⟩
    intro j z hz hzin
    rw [ht] at hz
    rcases set_cases hz with ⟨rfl, rfl⟩ | ⟨_, hz⟩
    . exact hr
    . exact hu.ready j z hz hzin

def Action.inits : Action → Option InstanceId
  | .init i => some i
  | .submit i _ => some i
  | .bindTaskQueue i _ _ => some i
  | _ => none

/--
A call of `init()`, also one that `submit` or `bindTaskQueue` starts with, is the first of the
process, or on the object of the first.
-/
def First (s : State) (act : Action) : Prop :=
  ∀ i, act.inits = some i → s.initialized = none ∨ s.initialized = some i

theorem initedAt_init (hs : s.init i = some t) : t.InitedAt i := by
  rcases init_cases hs with ⟨x, y, hx, ht, hin, _⟩
  intro z hz
  rw [ht] at hz
  cases (set_get hx).symm.trans hz
  exact hin

-- A step constructs an object, calls `init()` and goes on, or does without `init()`
theorem step_cases (hs : step s act = some t)
    : s.crashed = false
        ∧
      ((act.inits = none ∧ ∃ kind threadCount, s.construct kind threadCount = some t)
          ∨
        (∃ i r, act.inits = some i ∧ s.init i = some r ∧ Call r i t)
          ∨
        (act.inits = none ∧ ∃ i, Call s i t)) := by
  unfold step at hs
  split at hs
  . cases hs
  . next hcrashed =>
    refine ⟨by simpa using hcrashed, ?_⟩
    cases act with
    | construct kind threadCount => exact .inl ⟨rfl, kind, threadCount, hs⟩
    | init i => exact .inr (.inl ⟨i, t, rfl, hs, .refl t i⟩)
    | submit i task =>
      rcases Option.bind_eq_some_iff.mp hs with ⟨r, hr, hpush⟩
      exact .inr (.inl ⟨i, r, rfl, hr, call_push (initedAt_init hr) hpush⟩)
    | bindTaskQueue i fd tTaskQueue =>
      simp only [perform, State.bindTaskQueue] at hs
      split at hs
      . rcases Option.bind_eq_some_iff.mp hs with ⟨r, hr, hbind⟩
        exact .inr (.inl ⟨i, r, rfl, hr, call_bind (initedAt_init hr) hbind⟩)
      . cases hs
    | tickle i idx => exact .inr (.inr ⟨rfl, i, call_tickle hs⟩)
    | stopping i skipIdx busy => exact .inr (.inr ⟨rfl, i, call_stopping hs⟩)
    | stop i => exact .inr (.inr ⟨rfl, i, call_stop hs⟩)
    | work i idx tasks idling => exact .inr (.inr ⟨rfl, i, call_work hs⟩)

theorem inv_step (h : s.Inv) (hs : step s act = some t) : t.Inv := by
  rcases (step_cases hs).right with
    ⟨_, kind, threadCount, hc⟩ | ⟨i, r, _, hi, hc⟩ | ⟨_, i, hc⟩
  . exact inv_construct h hc
  . exact inv_call (inv_init h hi) hc
  . exact inv_call h hc

theorem crashed_init (hs : s.init i = some t) : t.crashed = s.crashed := by
  rcases init_cases hs with ⟨_, _, _, ht, _⟩
  rw [ht]
  rfl

theorem usable_step (h : s.Inv) (hs : step s act = some t) : t.Usable ↔ s.Usable ∧ First s act := by
  rcases step_cases hs with ⟨hrun, ⟨hno, kind, threadCount, hc⟩ | ⟨i, r, hinits, hi, hc⟩ | ⟨hno, i, hc⟩⟩
  . simp [usable_construct hc, First, hno]
  . rw [usable_call (inv_init h hi) hc ((crashed_init hi).trans hrun), usable_init h hi]
    simp [First, hinits]
  . simp [usable_call h hc hrun, First, hno]

/--
The objects that `init()` has returned on are usable in exactly the runs that call it on one object
only.
-/
theorem usable_iff (as : List Action) (hexec : machine.exec State.start as = some s)
    : s.Usable ↔ machine.Meets First State.start as := by
  have hmeets : machine.Meets Machine.free State.start as := by
    apply Machine.Meets.of_forall
    intro _ _ _
    trivial
  have hstep : ∀ s act t, s.Inv → Machine.free s act → step s act = some t →
      (¬t.Usable ↔ ¬s.Usable ∨ ¬First s act) := by
    intro s act t h _ hs
    rw [usable_step h hs, not_and_or]
  have hkeep : ∀ s act t, s.Inv → step s act = some t → t.Inv := by
    intro s act t h hs
    exact inv_step h hs
  have hiff := Machine.not_iff_meets as hkeep hstep inv_start hexec hmeets
  simp only [Classical.not_not] at hiff
  rw [hiff]
  simp [usable_start]

-- The `IOManager` of `Context` and another one
def usedSecond : List Action :=
  [.construct .ioManager 8, .construct .ioManager 2, .submit 1 (.cb 0), .bindTaskQueue 1 5 none,
    .work 1 0 [] true, .tickle 1 0, .stop 1, .stopping 1 2 false, .init 1]

def usedBoth : List Action :=
  [.construct .ioManager 8, .construct .ioManager 2, .submit 1 (.cb 0), .submit 0 (.cb 1)]

theorem usable_iff_usedSecond
    : ∃ s,
        machine.exec State.start usedSecond = some s
          ∧
        s.instances.length = 2
          ∧
        (s.Usable ↔ machine.Meets First State.start usedSecond) := by
  have h : (machine.exec State.start usedSecond).any (fun s => s.instances.length = 2) = true := by
    decide +kernel
  simp only [Option.any_eq_true, decide_eq_true_eq] at h
  rcases h with ⟨s, hexec, hlength⟩
  exact ⟨s, hexec, hlength, usable_iff usedSecond hexec⟩

theorem not_usable_usedBoth
    : ¬∀ (as : List Action) (s : State), machine.exec State.start as = some s → s.Usable := by
  intro hall
  have h : (machine.exec State.start usedBoth).any State.crashed = true := by
    decide +kernel
  simp only [Option.any_eq_true] at h
  rcases h with ⟨s, hexec, hcrashed⟩
  have hrun := (hall usedBoth s hexec).running
  rw [hcrashed] at hrun
  cases hrun

end Process
end Koro
