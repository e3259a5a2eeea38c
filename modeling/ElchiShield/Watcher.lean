import ElchiShield.Go.Library
import ElchiShield.Lib.Guarded

/-! # The watcher of the config directory

Package `watcher`: a loop over the events of the kernel that calls back once the directory has
been quiet for the debounce window. The steps of the loop are interleaved with those of the
world: time passes, the directory changes, the kernel queues events for it or drops them.
Times are in nanoseconds. -/
namespace ElchiShield
open ElchiShield.Go ElchiShield.Lib

structure Watcher where
  dir : Bytes
  debounce : Nat
  debounce_pos : 0 < debounce

namespace Watcher

/-! ## Events -/

/-- The bits of an `fsnotify.Op`. -/
structure Op where
  create : Bool := false
  write : Bool := false
  remove : Bool := false
  rename : Bool := false
  chmod : Bool := false
  deriving DecidableEq

structure Event where
  name : Bytes
  op : Op
  deriving DecidableEq

def relevant (ev : Event) : Bool := ev.op.create || ev.op.write || ev.op.rename || ev.op.remove

/-! ## Timers -/

/-- A `time.Timer` that is armed or not. As of Go 1.23 a value that was not received is gone
when the timer is stopped or reset, so an armed timer whose time has come is one whose channel
is ready. -/
structure Timer where
  deadline : Option Nat := none

def Timer.ready (t : Timer) (now : Nat) : Bool := t.deadline.any (· ≤ now)

theorem Timer.exists_of_ready (t : Timer) {now : Nat} (h : t.ready now = true) :
    ∃ d ∈ t.deadline, d ≤ now := by
  unfold Timer.ready at h
  cases hd : t.deadline with
  | none => simp [hd] at h
  | some d => exact ⟨d, rfl, by simpa [hd] using h⟩

/-- Whether the timer was armed, and the timer after the call. -/
def Timer.stop (t : Timer) : Bool × Timer := (t.deadline.isSome, {})

/-- A receive that does not block. -/
def Timer.drain (t : Timer) (now : Nat) : Timer := if t.ready now then {} else t

def Timer.reset (_ : Timer) (now d : Nat) : Timer := ⟨some (now + d)⟩

/-! ## The loop -/

def backstopInterval : Nat := 300000000000

/-- `New`; `callback` says whether there is one. -/
def new (dir : Bytes) (debounce : Int) (callback : Bool) : Except Err Watcher :=
  if !callback then .error ⟨"watcher: onChange callback is required", []⟩
  else .ok
    { dir
      debounce := if debounce ≤ 0 then 300000000 else debounce.toNat
      debounce_pos := by split <;> omega }

/-- Where `Run` is: in its first `ensureWatch`, before its select, in the `ensureWatch` of the
event case, in the callback, or at its end. -/
inductive Stage where
  | starting
  | selecting
  | rewatching
  | calling
  | returned
  deriving DecidableEq

/-- `backstop` is the next tick of the ticker. `queue` has the events that were not received
yet and `watched` says whether the kernel sends any. The directory is told apart by the number
of its `version`, which every change raises; `seen` is the version the last callback found when
it began. What lay in the directory at the start is its first version. -/
structure State where
  stage : Stage := .starting
  pending : Bool := false
  timer : Timer := {}
  backstop : Nat := 0
  now : Nat := 0
  queue : List Event := []
  watched : Bool := false
  version : Nat := 1
  seen : Nat := 0

inductive Action where
  | elapse (d : Nat)
  /-- The directory changes; the kernel drops the event on a full queue. -/
  | change (ev : Event) (dropped : Bool)
  /-- An event without a change. -/
  | touch (ev : Event)
  /-- A round of `ensureWatch`: whether the directory is there and could be watched. -/
  | stat (ok : Bool)
  | receive
  /-- The timer case of the select. -/
  | expire
  /-- The backstop case. -/
  | rescan
  /-- The case of an error of the kernel, which is logged. -/
  | warn
  /-- The callback returns. -/
  | finish
  | cancel
  /-- A channel of the kernel's watcher is closed. -/
  | closed

variable (w : Watcher)

/-- The watched directory itself was removed or replaced. -/
def gone (ev : Event) : Bool := ev.name = w.dir && (ev.op.remove || ev.op.rename)

/-- The end of the event case. -/
def schedule (s : State) : State :=
  if !s.pending then { s with pending := true, timer := s.timer.reset s.now w.debounce }
  else
    let (stopped, timer) := s.timer.stop
    let timer := if !stopped then timer.drain s.now else timer
    { s with timer := timer.reset s.now w.debounce }

/-- The tick after the one that is received: a slow receiver misses ticks. -/
def nextTick (backstop now : Nat) : Nat :=
  backstop + ((now - backstop) / backstopInterval + 1) * backstopInterval

/-- `none` where the step cannot be taken. -/
def next (s : State) : Action → Option State
  | .elapse d => some { s with now := s.now + d }
  | .change ev dropped =>
    if relevant ev then some { s with
      version := s.version + 1
      queue := if s.watched && !dropped then s.queue ++ [ev] else s.queue
      -- the watch is on the directory that is gone
      watched := s.watched && !w.gone ev }
    else none
  | .touch ev =>
    if relevant ev then none
    else some { s with queue := if s.watched then s.queue ++ [ev] else s.queue }
  | .stat ok => match s.stage with
    | .starting =>
      if ok then some { s with
        stage := .selecting
        watched := true
        backstop := s.now + backstopInterval
        pending := true
        timer := s.timer.reset s.now w.debounce }
      else some s
    | .rewatching =>
      if ok then some { w.schedule s with stage := .selecting, watched := true } else some s
    | _ => none
  | .receive => match s.stage, s.queue with
    | .selecting, ev :: rest =>
      let s := { s with queue := rest }
      if !relevant ev then some s
      else if w.gone ev then some { s with stage := .rewatching }
      else some (w.schedule s)
    | _, _ => none
  | .expire =>
    if s.stage = .selecting ∧ s.timer.ready s.now then
      if s.pending then
        some { s with timer := {}, pending := false, stage := .calling, seen := s.version }
      else some { s with timer := {} }
    else none
  | .rescan =>
    if s.stage = .selecting ∧ s.backstop ≤ s.now then
      let s := { s with backstop := nextTick s.backstop s.now }
      if !s.pending then
        some { s with pending := true, timer := s.timer.reset s.now w.debounce }
      else some s
    else none
  | .warn => if s.stage = .selecting then some s else none
  | .finish => if s.stage = .calling then some { s with stage := .selecting } else none
  | .cancel =>
    if s.stage = .starting ∨ s.stage = .selecting ∨ s.stage = .rewatching then
      some { s with stage := .returned }
    else none
  | .closed => if s.stage = .selecting then some { s with stage := .returned } else none

def step : State → Action → Bool × State := guarded w.next

/-! ## What a step does -/

/-- A callback is due when the window has passed. -/
def armed (s : State) : State := { s with pending := true, timer := ⟨some (s.now + w.debounce)⟩ }

theorem schedule_eq (s : State) : w.schedule s = w.armed s := by
  unfold schedule armed
  cases hp : s.pending <;> simp [Timer.reset, ← hp]

/-- The steps that can be taken. -/
inductive Moved (s : State) : Action → State → Prop where
  | elapse (d : Nat) : Moved s (.elapse d) { s with now := s.now + d }
  | change (ev : Event) (dropped : Bool) (h : relevant ev = true) : Moved s (.change ev dropped)
      { s with
        version := s.version + 1
        queue := if s.watched && !dropped then s.queue ++ [ev] else s.queue
        watched := s.watched && !w.gone ev }
  | touch (ev : Event) (h : relevant ev = false) :
    Moved s (.touch ev) { s with queue := if s.watched then s.queue ++ [ev] else s.queue }
  | polled (h : s.stage = .starting ∨ s.stage = .rewatching) : Moved s (.stat false) s
  | started (h : s.stage = .starting) : Moved s (.stat true)
      { w.armed s with
        stage := .selecting, watched := true, backstop := s.now + backstopInterval }
  | rewatched (h : s.stage = .rewatching) :
    Moved s (.stat true) { w.armed s with stage := .selecting, watched := true }
  | ignored (ev : Event) (rest : List Event) (hs : s.stage = .selecting) (hq : s.queue = ev :: rest)
      (h : relevant ev = false) : Moved s .receive { s with queue := rest }
  | lost (ev : Event) (rest : List Event) (hs : s.stage = .selecting) (hq : s.queue = ev :: rest)
      (h : w.gone ev = true) : Moved s .receive { s with queue := rest, stage := .rewatching }
  | heard (ev : Event) (rest : List Event) (hs : s.stage = .selecting) (hq : s.queue = ev :: rest)
      (h : w.gone ev = false) : Moved s .receive { w.armed s with queue := rest }
  | call (hs : s.stage = .selecting) (ht : s.timer.ready s.now = true) (hp : s.pending = true) :
    Moved s .expire { s with timer := {}, pending := false, stage := .calling, seen := s.version }
  | stale (hp : s.pending = false) : Moved s .expire { s with timer := {} }
  | rescan (hs : s.stage = .selecting) (backstop : Nat) (hp : s.pending = false) :
    Moved s .rescan { w.armed s with backstop }
  | queued (hs : s.stage = .selecting) (backstop : Nat) (hp : s.pending = true) :
    Moved s .rescan { s with backstop }
  | warn : Moved s .warn s
  | finish (hs : s.stage = .calling) : Moved s .finish { s with stage := .selecting }
  | cancel (hs : s.stage ≠ .calling) : Moved s .cancel { s with stage := .returned }
  | closed (hs : s.stage ≠ .calling) : Moved s .closed { s with stage := .returned }

variable {w}

theorem next_moved {s s' : State} {a : Action} (h : w.next s a = some s') : Moved w s a s' := by
  cases a with
  | elapse d =>
    cases h
    exact .elapse d
  | change ev dropped =>
    simp only [next] at h
    split at h
    next hrel =>
      cases h
      exact .change ev dropped hrel
    next => cases h
  | touch ev =>
    simp only [next] at h
    split at h
    next => cases h
    next hrel =>
      cases h
      exact .touch ev (by simpa using hrel)
  | stat ok =>
    simp only [next, schedule_eq] at h
    split at h
    next hs =>
      cases ok
      · cases h
        exact .polled (.inl hs)
      · cases h
        exact .started hs
    next hs =>
      cases ok
      · cases h
        exact .polled (.inr hs)
      · cases h
        exact .rewatched hs
    next => cases h
  | receive =>
    simp only [next, schedule_eq] at h
    split at h
    next ev rest hs hq =>
      split at h
      next hrel =>
        cases h
        exact .ignored ev rest hs hq (by simpa using hrel)
      next =>
        split at h
        next hgone =>
          cases h
          exact .lost ev rest hs hq hgone
        next hgone =>
          cases h
          exact .heard ev rest hs hq (by simpa using hgone)
    next => cases h
  | expire =>
    simp only [next] at h
    split at h
    next hready =>
      split at h
      next hp =>
        cases h
        exact .call hready.1 hready.2 hp
      next hp =>
        cases h
        exact .stale (by simpa using hp)
    next => cases h
  | rescan =>
    simp only [next] at h
    split at h
    next hready =>
      split at h
      next hp =>
        cases h
        exact .rescan hready.1 _ (by simpa using hp)
      next hp =>
        cases h
        exact .queued hready.1 _ (by simpa using hp)
    next => cases h
  | warn =>
    simp only [next] at h
    split at h
    next =>
      cases h
      exact .warn
    next => cases h
  | finish =>
    simp only [next] at h
    split at h
    next hs =>
      cases h
      exact .finish hs
    next => cases h
  | cancel =>
    simp only [next] at h
    split at h
    next hs =>
      cases h
      refine .cancel fun hcall => ?_
      rw [hcall] at hs
      rcases hs with hs | hs | hs <;> cases hs
    next => cases h
  | closed =>
    simp only [next] at h
    split at h
    next hs =>
      cases h
      refine .closed fun hcall => ?_
      rw [hcall] at hs
      cases hs
    next => cases h

/-- A callback lasts until it returns. -/
theorem Moved.calling {s s' : State} {a : Action} (h : Moved w s a s') (ha : a ≠ .finish)
    (hs : s.stage = .calling) : s'.stage = .calling := by
  cases h with
  | polled | elapse | change | touch | stale | warn => exact hs
  | finish => exact absurd rfl ha
  | cancel hne | closed hne => exact absurd hs hne
  | call => rfl
  | started hst | rewatched hst | ignored _ _ hst | lost _ _ hst | heard _ _ hst | rescan hst
  | queued hst =>
    rw [hs] at hst
    cases hst

/-- The directory changes, the callback begins, or neither. -/
theorem Moved.versions {s s' : State} {a : Action} (h : Moved w s a s') :
    s'.version = s.version ∧ s'.seen = s.seen ∨ s'.version = s.version + 1 ∧ s'.seen = s.seen ∨
      s'.stage = .calling ∧ s'.version = s.version ∧ s'.seen = s.version := by
  cases h with
  | change => exact .inr (.inl ⟨rfl, rfl⟩)
  | call => exact .inr (.inr ⟨rfl, rfl, rfl⟩)
  | _ => exact .inl ⟨rfl, rfl⟩

theorem Moved.finished {s s' : State} (h : Moved w s .finish s') :
    s' = { s with stage := .selecting } := by
  cases h with
  | finish => rfl

/-- The state after a run of the watcher from its start. -/
def run (w : Watcher) (as : List Action) : State := runFrom w.step {} as

theorem run_append (as bs : List Action) : run w (as ++ bs) = runFrom w.step (run w as) bs :=
  runFrom_append w.step {} as bs

/-! ## The timer -/

/-- The next event is one that schedules a callback. -/
def hears (s : State) : Bool := s.stage = .selecting && s.queue.head?.any relevant

/-- The callback can be made. -/
def calls (s : State) : Bool := s.stage = .selecting && s.timer.ready s.now && s.pending

/-- No callback is made before a window has passed since `t`. -/
def Quiet (w : Watcher) (t : Nat) (s : State) : Prop :=
  t ≤ s.now ∧ ((∀ d ∈ s.timer.deadline, t + w.debounce ≤ d) ∨
    s.stage = .rewatching ∨ s.stage = .returned)

/-- While the loop goes on, that is a statement about the timer. -/
theorem Quiet.timer {t : Nat} {s : State} (h : Quiet w t s)
    (hs : s.stage = .selecting ∨ s.stage = .calling) : ∀ d ∈ s.timer.deadline, t + w.debounce ≤ d := by
  obtain ⟨-, h | h | h⟩ := h
  · exact h
  · rw [h] at hs
    rcases hs with hs | hs <;> cases hs
  · rw [h] at hs
    rcases hs with hs | hs <;> cases hs

theorem armed_late {t : Nat} {s : State} (ht : t ≤ s.now) :
    ∀ d ∈ (w.armed s).timer.deadline, t + w.debounce ≤ d := by
  intro d hd
  obtain rfl := Option.some.inj hd
  omega

theorem Quiet.moved {t : Nat} {s s' : State} {a : Action} (h : Quiet w t s)
    (hmoved : Moved w s a s') : Quiet w t s' := by
  have ht := h.1
  cases hmoved with
  | elapse d => exact ⟨by dsimp only; omega, h.2⟩
  | started | rewatched | heard | rescan => exact ⟨ht, .inl (armed_late ht)⟩
  | call | stale => exact ⟨ht, .inl (by simp)⟩
  | lost => exact ⟨ht, .inr (.inl rfl)⟩
  | cancel | closed => exact ⟨ht, .inr (.inr rfl)⟩
  | finish hs => exact ⟨ht, .inl (h.timer (.inr hs))⟩
  | change | touch | polled | ignored | queued | warn => exact h

/-- What makes the loop wait for a new window. -/
theorem quiet_after {s : State} {a : Action}
    (ha : a = .receive ∧ hears s = true ∨ a = .expire ∧ calls s = true) :
    Quiet w s.now (w.step s a).2 := by
  rcases ha with ⟨rfl, h⟩ | ⟨rfl, h⟩
  · simp only [hears, Bool.and_eq_true, decide_eq_true_eq] at h
    obtain ⟨hs, hhead⟩ := h
    obtain ⟨ev, rest, hq⟩ : ∃ ev rest, s.queue = ev :: rest := by
      cases hq : s.queue with
      | nil => simp [hq] at hhead
      | cons ev rest => exact ⟨ev, rest, rfl⟩
    have hrel : relevant ev = true := by simpa [hq] using hhead
    cases hgone : w.gone ev with
    | true =>
      have hnext : w.next s .receive = some { s with queue := rest, stage := .rewatching } := by
        simp [next, hs, hq, hrel, hgone]
      rw [step, guarded_some hnext]
      exact ⟨Nat.le_refl _, .inr (.inl rfl)⟩
    | false =>
      have hnext : w.next s .receive = some (w.armed { s with queue := rest }) := by
        simp [next, hs, hq, hrel, hgone, schedule_eq]
      rw [step, guarded_some hnext]
      exact ⟨Nat.le_refl _, .inl (armed_late (Nat.le_refl _))⟩
  · simp only [calls, Bool.and_eq_true, decide_eq_true_eq] at h
    obtain ⟨⟨hs, ht⟩, hp⟩ := h
    have hnext : w.next s .expire =
        some { s with timer := {}, pending := false, stage := .calling, seen := s.version } := by
      simp [next, hs, ht, hp]
    rw [step, guarded_some hnext]
    exact ⟨Nat.le_refl _, .inl (by simp)⟩

/-- A callback is made only when the debounce window has passed since the last event that
schedules one was received, and since the callback before it. -/
theorem callbacks_wait_for_quiet (w : Watcher) (as bs : List Action) (a : Action)
    (ha : a = .receive ∧ hears (run w as) = true ∨ a = .expire ∧ calls (run w as) = true)
    (hcall : calls (run w (as ++ a :: bs)) = true) :
    (run w as).now + w.debounce ≤ (run w (as ++ a :: bs)).now := by
  have hquiet : Quiet w (run w as).now (run w (as ++ a :: bs)) := by
    rw [run_append]
    show Quiet w _ (runFrom w.step (w.step (run w as) a).2 bs)
    exact guarded_run (C := fun _ => True) (fun _ _ _ hs _ hnext => hs.moved (next_moved hnext))
      (quiet_after ha) fun _ _ => trivial
  simp only [calls, Bool.and_eq_true, decide_eq_true_eq] at hcall
  obtain ⟨⟨hs, hready⟩, -⟩ := hcall
  obtain ⟨d, hd, hle⟩ := (run w (as ++ a :: bs)).timer.exists_of_ready hready
  exact (hquiet.timer (.inl hs) d hd).trans hle

/-- A watcher with a short window. -/
def quick : Watcher := ⟨ascii "/conf", 5, by decide⟩

def written : Event := ⟨ascii "/conf/policy.yaml", { write := true }⟩

/-- Two writes within one window are followed by one callback, a window after the second. -/
theorem burst_waits_for_its_last_write :
    let as := [.stat true, .elapse 5, .expire, .finish, .change written false, .receive, .elapse 3,
      .change written false]
    calls (run quick (as ++ .receive :: [.elapse 5])) = true ∧
      (run quick as).now + 5 ≤ (run quick (as ++ .receive :: [.elapse 5])).now := by
  intro as
  have hcalls : calls (run quick (as ++ .receive :: [.elapse 5])) = true := by decide
  exact ⟨hcalls, callbacks_wait_for_quiet quick as [.elapse 5] .receive (.inl ⟨rfl, by decide⟩) hcalls⟩

/-! ## Changes -/

/-- The loop is at its select or in the callback. -/
def looping (s : State) : Bool := s.stage = .selecting || s.stage = .calling

/-- What the directory holds was read by a callback, or one will be made for it. -/
def Covered (s : State) : Prop :=
  s.seen = s.version ∨ s.pending = true ∨ s.queue.any relevant = true ∨ looping s = false

/-- A change of the directory reaches the loop: the directory is watched, or the loop will learn
that it has to be watched anew. -/
def listening (w : Watcher) (s : State) : Bool := s.watched || s.queue.any w.gone || !looping s

/-- The change is not dropped and reaches the loop. -/
def Audible (w : Watcher) (s : State) : Action → Prop
  | .change _ dropped => dropped = false ∧ listening w s = true
  | _ => True

instance (s : State) : DecidablePred (Audible w s)
  | .change _ dropped => inferInstanceAs (Decidable (dropped = false ∧ listening w s = true))
  | .elapse _ | .touch _ | .stat _ | .receive | .expire | .rescan | .warn | .finish | .cancel
  | .closed => .isTrue trivial

theorem relevant_of_gone {ev : Event} (h : w.gone ev = true) : relevant ev = true := by
  simp only [gone, Bool.and_eq_true, Bool.or_eq_true] at h
  rcases h.2 with h | h <;> simp [relevant, h]

theorem any_relevant_of_gone {queue : List Event} (h : queue.any w.gone = true) :
    queue.any relevant = true := by
  obtain ⟨ev, hev, hgone⟩ := List.any_eq_true.mp h
  exact List.any_eq_true.mpr ⟨ev, hev, relevant_of_gone hgone⟩

theorem Covered.change {s : State} {ev : Event} (hrel : relevant ev = true)
    (h : listening w s = true) (watched : Bool) :
    Covered { s with
      version := s.version + 1
      queue := if s.watched && !false then s.queue ++ [ev] else s.queue
      watched } := by
  simp only [listening, Bool.or_eq_true] at h
  right; right
  rcases h with (h | h) | h
  · exact .inl (by simp [h, hrel])
  · refine .inl ?_
    have := any_relevant_of_gone h
    dsimp only
    split
    · simp [List.any_append, this]
    · exact this
  · exact .inr (by simpa [looping] using h)

theorem Covered.moved {s s' : State} {a : Action} (h : Covered s) (ha : Audible w s a)
    (hmoved : Moved w s a s') : Covered s' := by
  cases hmoved with
  | change ev dropped hrel =>
    obtain ⟨rfl, hlisten⟩ := ha
    exact .change hrel hlisten _
  | touch ev =>
    refine h.imp_right (Or.imp_right (Or.imp_left fun hq => ?_))
    dsimp only
    split
    · simp [List.any_append, hq]
    · exact hq
  | ignored ev rest hs hq hrel =>
    refine h.imp_right (Or.imp_right (Or.imp_left fun hany => ?_))
    rw [hq, List.any_cons, hrel] at hany
    exact hany
  | lost => exact .inr (.inr (.inr rfl))
  | cancel | closed => exact .inr (.inr (.inr rfl))
  | started | rewatched | heard | rescan => exact .inr (.inl rfl)
  | queued _ _ hp => exact .inr (.inl hp)
  | call => exact .inl rfl
  | finish hs =>
    refine h.imp_right (Or.imp_right (Or.imp_right fun hloop => ?_))
    simp [looping, hs] at hloop
  | elapse | polled | warn | stale => exact h

/-- The loop waits with nothing to do. -/
def resting (s : State) : Bool := s.stage = .selecting && !s.pending && !s.queue.any relevant

theorem Covered.seen {s : State} (h : Covered s) (hrest : resting s = true) : s.seen = s.version := by
  simp only [resting, Bool.and_eq_true, Bool.not_eq_true', decide_eq_true_eq] at hrest
  obtain ⟨⟨hs, hp⟩, hq⟩ := hrest
  rcases h with h | h | h | h
  · exact h
  · rw [hp] at h
    cases h
  · rw [hq] at h
    cases h
  · simp [looping, hs] at h

theorem rescan_covered {s : State} (h : (w.step s .rescan).1 = true) :
    Covered (w.step s .rescan).2 := by
  cases hnext : w.next s .rescan with
  | none =>
    rw [step, guarded_none hnext] at h
    cases h
  | some s' =>
    rw [step, guarded_some hnext]
    cases next_moved hnext with
    | rescan => exact .inr (.inl rfl)
    | queued _ _ hp => exact .inr (.inl hp)

/-- Whatever the kernel has dropped, and even if the watch is lost: when the backstop has fired
and every later change was heard, a loop that waits has read the directory as it is. -/
theorem backstop_recovers (w : Watcher) (before after : List Action)
    (hrescan : (w.step (run w before) .rescan).1 = true)
    (hheard : ∀ e ∈ trace w.step (w.step (run w before) .rescan).2 after,
      Audible w e.before e.input)
    (hrest : resting (run w (before ++ .rescan :: after)) = true) :
    (run w (before ++ .rescan :: after)).seen = (run w (before ++ .rescan :: after)).version := by
  refine Covered.seen ?_ hrest
  rw [run_append]
  show Covered (runFrom w.step (w.step (run w before) .rescan).2 after)
  exact guarded_run (fun _ _ _ hs ha hnext => hs.moved ha (next_moved hnext))
    (rescan_covered hrescan) hheard

/-- The event of a change is dropped, and the backstop makes up for it. -/
theorem dropped_change_is_read :
    let before := [.stat true, .elapse 5, .expire, .finish, .change written true,
      .elapse backstopInterval]
    let after := [.elapse 5, .expire, .finish]
    (run quick before).seen = 1 ∧ (run quick (before ++ .rescan :: after)).seen = 2 := by
  intro before after
  refine ⟨by decide, ?_⟩
  exact (backstop_recovers quick before after (by decide) (by decide) (by decide)).trans (by decide)

/-! ## Runs in which nothing is dropped -/

/-- No event is dropped. -/
def Kept : Action → Prop
  | .change _ dropped => dropped = false
  | _ => True

instance : DecidablePred Kept
  | .change _ dropped => inferInstanceAs (Decidable (dropped = false))
  | .elapse _ | .touch _ | .stat _ | .receive | .expire | .rescan | .warn | .finish | .cancel
  | .closed => .isTrue trivial

theorem listening_moved {s s' : State} {a : Action} (h : listening w s = true) (ha : Kept a)
    (hmoved : Moved w s a s') : listening w s' = true := by
  simp only [listening, Bool.or_eq_true] at h ⊢
  cases hmoved with
  | change ev dropped hrel =>
    obtain rfl : dropped = false := ha
    cases hw : s.watched <;> cases hg : w.gone ev <;> simp_all [looping]
  | touch ev hrel =>
    refine h.imp_left (Or.imp_right fun hq => ?_)
    dsimp only
    split
    · simp [List.any_append, hq]
    · exact hq
  | ignored ev rest hs hq hrel =>
    refine h.imp_left (Or.imp_right fun hany => ?_)
    have hgone : w.gone ev = false := by
      cases hg : w.gone ev with
      | false => rfl
      | true => rw [relevant_of_gone hg] at hrel; cases hrel
    rw [hq, List.any_cons, hgone] at hany
    exact hany
  | heard ev rest hs hq hgone =>
    refine h.imp (Or.imp_right fun hany => ?_) fun hloop => ?_
    · rw [hq, List.any_cons, hgone] at hany
      exact hany
    · simp [looping, hs] at hloop
  | started | rewatched => exact .inl (.inl rfl)
  | lost | cancel | closed => exact .inr rfl
  | call hs => exact h.imp_right fun hloop => by simp [looping, hs] at hloop
  | finish hs => exact h.imp_right fun hloop => by simp [looping, hs] at hloop
  | elapse | polled | warn | stale | rescan | queued => exact h

end Watcher

end ElchiShield
