import ElchiShield.Audit
import ElchiShield.Lib.Guarded
import ElchiShield.Lib.Places
import Mathlib.Data.List.Count

/-! # The buffered exporter

The queue between the requests and an exporter, and the workers that drain it. `Export` and
`Close` are called from any number of goroutines; every operation on a channel is one step. -/
namespace ElchiShield.Audit.Buffered
open ElchiShield.Engine ElchiShield.Lib

/-- The event of one call of `Export`; the calls are numbered. -/
structure Item where
  id : Nat
  ev : Event

/-- What becomes of an event. -/
inductive Fate where
  | accepted
  | failed
  | dropped
  deriving DecidableEq

/-- How the call of the inner exporter ends. -/
inductive Answer where
  | ok
  | error
  | panics

def isFinding (ev : Event) : Bool := ev.decision.action ≠ .allow ∧ ev.decision.action ≠ .continue_

/-- `export`, where the limiter says whether the event is allowed. -/
def «export» (allow : Bool) (answer : Answer) (ev : Event) : Fate :=
  if !isFinding ev && !allow then .dropped
  else match answer with
    | .ok => .accepted
    | .error => .failed
    | .panics => .failed

/-- The places of `run`: before one of its two selects, or in `export`. -/
inductive Worker where
  | waiting
  | draining
  | exporting (item : Item) (draining : Bool)
  | returned

/-- `selecting` has the calls of `Export` that are before their second select, `closing` counts
the calls of `Close` that wait for the workers. `fates` is no field of the exporter: it records
what the counters only count, and what the inner exporter has accepted. -/
structure State where
  queue : List Item := []
  done : Bool := false
  workers : List Worker
  dropped : Nat := 0
  failed : Nat := 0
  calls : Nat := 0
  selecting : List Item := []
  closing : Nat := 0
  closed : Nat := 0
  fates : List (Item × Fate) := []

def newBufferedExporter (workers : Nat) : State := { workers := .replicate workers .waiting }

def record (item : Item) (fate : Fate) (s : State) : State :=
  { s with
    fates := s.fates ++ [(item, fate)]
    dropped := if fate = .dropped then s.dropped + 1 else s.dropped
    failed := if fate = .failed then s.failed + 1 else s.failed }

def Worker.isReturned : Worker → Bool
  | .returned => true
  | _ => false

def allReturned (s : State) : Bool := s.workers.all Worker.isReturned

inductive Action where
  /-- A call of `Export`, up to its first select. -/
  | call (ev : Event)
  /-- The second select of a call: the event is sent. -/
  | enqueue (k : Nat)
  /-- The second select of a call: the exporter is closing, or the queue is full. -/
  | giveUp (k : Nat)
  | take (i : Nat)
  | seeDone (i : Nat)
  | finish (i : Nat) (allow : Bool) (answer : Answer)
  /-- The queue is empty, and the worker drains it. -/
  | quit (i : Nat)
  | close
  | closeReturns

/-- `none` where the step cannot be taken. -/
def next (capacity : Nat) (s : State) : Action → Option State
  | .call ev =>
    let item : Item := ⟨s.calls, ev⟩
    if s.done then some (record item .dropped { s with calls := s.calls + 1 })
    else some { s with calls := s.calls + 1, selecting := s.selecting ++ [item] }
  | .enqueue k => match s.selecting[k]? with
    | none => none
    | some item =>
      if s.queue.length < capacity then
        some { s with queue := s.queue ++ [item], selecting := s.selecting.eraseIdx k }
      else none
  | .giveUp k => match s.selecting[k]? with
    | none => none
    | some item =>
      if s.done ∨ capacity ≤ s.queue.length then
        some (record item .dropped { s with selecting := s.selecting.eraseIdx k })
      else none
  | .take i => match s.workers[i]?, s.queue with
    | some .waiting, item :: rest =>
      some { s with queue := rest, workers := s.workers.set i (.exporting item false) }
    | some .draining, item :: rest =>
      some { s with queue := rest, workers := s.workers.set i (.exporting item true) }
    | _, _ => none
  | .seeDone i => match s.workers[i]? with
    | some .waiting =>
      if s.done then some { s with workers := s.workers.set i .draining } else none
    | _ => none
  | .finish i allow answer => match s.workers[i]? with
    | some (.exporting item draining) =>
      some (record item («export» allow answer item.ev)
        { s with workers := s.workers.set i (if draining then .draining else .waiting) })
    | _ => none
  | .quit i => match s.workers[i]? with
    | some .draining =>
      if s.queue = [] then some { s with workers := s.workers.set i .returned } else none
    | _ => none
  | .close => some { s with done := true, closing := s.closing + 1 }
  | .closeReturns =>
    if 0 < s.closing ∧ allReturned s then
      some { s with closing := s.closing - 1, closed := s.closed + 1 }
    else none

def step (capacity : Nat) : State → Action → Bool × State := guarded (next capacity)

/-! ## What a step does -/

/-- The steps that can be taken. -/
inductive Moved (capacity : Nat) (s : State) : Action → State → Prop where
  | refused (ev : Event) (h : s.done = true) :
    Moved capacity s (.call ev) (record ⟨s.calls, ev⟩ .dropped { s with calls := s.calls + 1 })
  | called (ev : Event) (h : ¬ s.done = true) : Moved capacity s (.call ev)
      { s with calls := s.calls + 1, selecting := s.selecting ++ [⟨s.calls, ev⟩] }
  | enqueued (k : Nat) (item : Item) (h : s.selecting[k]? = some item)
      (hroom : s.queue.length < capacity) :
    Moved capacity s (.enqueue k)
      { s with queue := s.queue ++ [item], selecting := s.selecting.eraseIdx k }
  | gaveUp (k : Nat) (item : Item) (h : s.selecting[k]? = some item)
      (hfull : s.done = true ∨ capacity ≤ s.queue.length) :
    Moved capacity s (.giveUp k)
      (record item .dropped { s with selecting := s.selecting.eraseIdx k })
  | took (i : Nat) (w : Worker) (item : Item) (rest : List Item) (draining : Bool)
      (h : s.workers[i]? = some w) (hw : w = .waiting ∨ w = .draining)
      (hq : s.queue = item :: rest) :
    Moved capacity s (.take i)
      { s with queue := rest, workers := s.workers.set i (.exporting item draining) }
  | sawDone (i : Nat) (h : s.workers[i]? = some .waiting) (hdone : s.done = true) :
    Moved capacity s (.seeDone i) { s with workers := s.workers.set i .draining }
  | finished (i : Nat) (allow : Bool) (answer : Answer) (item : Item) (draining : Bool)
      (h : s.workers[i]? = some (.exporting item draining)) :
    Moved capacity s (.finish i allow answer) (record item («export» allow answer item.ev)
      { s with workers := s.workers.set i (if draining then .draining else .waiting) })
  | quitted (i : Nat) (h : s.workers[i]? = some .draining) (hq : s.queue = []) :
    Moved capacity s (.quit i) { s with workers := s.workers.set i .returned }
  | closes : Moved capacity s .close { s with done := true, closing := s.closing + 1 }
  | closeReturned (hclosing : 0 < s.closing) (h : allReturned s = true) :
    Moved capacity s .closeReturns { s with closing := s.closing - 1, closed := s.closed + 1 }

theorem next_moved {capacity : Nat} {s s' : State} {a : Action}
    (h : next capacity s a = some s') : Moved capacity s a s' := by
  cases a with
  | call ev =>
    simp only [next] at h
    split at h
    next hdone =>
      cases h
      exact .refused ev hdone
    next hopen =>
      cases h
      exact .called ev hopen
  | enqueue k =>
    simp only [next] at h
    split at h
    next => cases h
    next item hk =>
      split at h
      next hroom =>
        cases h
        exact .enqueued k item hk hroom
      next => cases h
  | giveUp k =>
    simp only [next] at h
    split at h
    next => cases h
    next item hk =>
      split at h
      next hfull =>
        cases h
        exact .gaveUp k item hk hfull
      next => cases h
  | take i =>
    simp only [next] at h
    split at h
    next item rest hw hq =>
      cases h
      exact .took i .waiting item rest false hw (.inl rfl) hq
    next item rest hw hq =>
      cases h
      exact .took i .draining item rest true hw (.inr rfl) hq
    next => cases h
  | seeDone i =>
    simp only [next] at h
    split at h
    next hw =>
      split at h
      next hdone =>
        cases h
        exact .sawDone i hw hdone
      next => cases h
    next => cases h
  | finish i allow answer =>
    simp only [next] at h
    split at h
    next item draining hw =>
      cases h
      exact .finished i allow answer item draining hw
    next => cases h
  | quit i =>
    simp only [next] at h
    split at h
    next hw =>
      split at h
      next hq =>
        cases h
        exact .quitted i hw hq
      next => cases h
    next => cases h
  | close =>
    cases h
    exact .closes
  | closeReturns =>
    simp only [next] at h
    split at h
    next hall =>
      cases h
      exact .closeReturned hall.1 hall.2
    next => cases h

/-! ## Every event is in one place -/

/-- Whether it is the event of the call `j`, as a number. -/
def named (j : Nat) (item : Item) : Nat := if item.id = j then 1 else 0

def Worker.named (j : Nat) : Worker → Nat
  | .exporting item _ => Buffered.named j item
  | _ => 0

def inItems (j : Nat) (items : List Item) : Nat := (items.map (named j)).sum

def inWorkers (j : Nat) (workers : List Worker) : Nat := (workers.map (Worker.named j)).sum

def inFates (j : Nat) (fates : List (Item × Fate)) : Nat := (fates.map fun p => named j p.1).sum

@[simp] theorem inItems_nil (j : Nat) : inItems j [] = 0 := rfl

@[simp] theorem inItems_cons (j : Nat) (item : Item) (items : List Item) :
    inItems j (item :: items) = named j item + inItems j items := by
  simp [inItems]

@[simp] theorem inItems_concat (j : Nat) (items : List Item) (item : Item) :
    inItems j (items ++ [item]) = inItems j items + named j item := by
  simp [inItems]

@[simp] theorem inFates_concat (j : Nat) (fates : List (Item × Fate)) (p : Item × Fate) :
    inFates j (fates ++ [p]) = inFates j fates + named j p.1 := by
  simp [inFates]

/-- Every event is in one place, and the counters count what they should. -/
structure Inv (s : State) : Prop where
  places : ∀ j, inItems j s.selecting + inItems j s.queue + inWorkers j s.workers +
    inFates j s.fates = if j < s.calls then 1 else 0
  dropped : s.dropped = s.fates.countP (·.2 = .dropped)
  failed : s.failed = s.fates.countP (·.2 = .failed)
  closed : 0 < s.closed → allReturned s = true

theorem record_dropped {item : Item} {fate : Fate} {s : State}
    (h : s.dropped = s.fates.countP (·.2 = .dropped)) :
    (record item fate s).dropped = (record item fate s).fates.countP (·.2 = .dropped) := by
  cases fate <;> simp [record, h]

theorem record_failed {item : Item} {fate : Fate} {s : State}
    (h : s.failed = s.fates.countP (·.2 = .failed)) :
    (record item fate s).failed = (record item fate s).fates.countP (·.2 = .failed) := by
  cases fate <;> simp [record, h]

/-- No step is left for a worker that has returned. -/
theorem not_allReturned {s : State} {i : Nat} {w : Worker} (h : s.workers[i]? = some w)
    (hw : w.isReturned = false) : allReturned s = false := by
  rw [allReturned, List.all_eq_false]
  exact ⟨w, List.mem_of_getElem? h, by simp [hw]⟩

theorem newBufferedExporter_inv (workers : Nat) : Inv (newBufferedExporter workers) where
  places j := by simp [newBufferedExporter, inWorkers, inFates, Worker.named]
  dropped := rfl
  failed := rfl
  closed h := absurd h (Nat.lt_irrefl 0)

theorem Inv.moved {capacity : Nat} {s s' : State} {a : Action} (h : Inv s)
    (hmoved : Moved capacity s a s') : Inv s' := by
  have hnew : ∀ j ev, (if j < s.calls then 1 else 0) + named j ⟨s.calls, ev⟩ =
      if j < s.calls + 1 then 1 else 0 := by
    intro j ev
    simp only [named]
    split <;> split <;> split <;> omega
  have hselecting : ∀ {k item}, s.selecting[k]? = some item → ∀ j,
      inItems j s.selecting = named j item + inItems j (s.selecting.eraseIdx k) :=
    fun hk j => sum_map_eraseIdx (named j) hk
  have hworkers : ∀ {i w}, s.workers[i]? = some w → ∀ w' j,
      inWorkers j (s.workers.set i w') + w.named j = inWorkers j s.workers + w'.named j :=
    fun hi w' j => sum_map_set (Worker.named j) hi w'
  -- while a worker still has a step to take, no call of `Close` has returned
  have hclosed : ∀ {i : Nat} {w : Worker} {P : Prop}, s.workers[i]? = some w →
      w.isReturned = false → 0 < s.closed → P := by
    intro i w P hi hw hpos
    have hall := h.closed hpos
    rw [not_allReturned hi hw] at hall
    cases hall
  cases hmoved with
  | refused ev hdone =>
    refine ⟨?_, record_dropped h.dropped, record_failed h.failed, h.closed⟩
    intro j
    have hplaces := h.places j
    have hnew := hnew j ev
    simp only [record, inFates_concat]
    omega
  | called ev hopen =>
    refine ⟨?_, h.dropped, h.failed, h.closed⟩
    intro j
    have hplaces := h.places j
    have hnew := hnew j ev
    simp only [inItems_concat]
    omega
  | enqueued k item hk hroom =>
    refine ⟨?_, h.dropped, h.failed, h.closed⟩
    intro j
    have hplaces := h.places j
    have hitem := hselecting hk j
    simp only [inItems_concat]
    omega
  | gaveUp k item hk hfull =>
    refine ⟨?_, record_dropped h.dropped, record_failed h.failed, h.closed⟩
    intro j
    have hplaces := h.places j
    have hitem := hselecting hk j
    simp only [record, inFates_concat]
    omega
  | took i w item rest draining hi hw hq =>
    have hw0 : ∀ j, w.named j = 0 := by
      rcases hw with rfl | rfl <;> exact fun _ => rfl
    have hw' : w.isReturned = false := by
      rcases hw with rfl | rfl <;> rfl
    refine ⟨?_, h.dropped, h.failed, hclosed hi hw'⟩
    intro j
    have hplaces := h.places j
    have hset := hworkers hi (.exporting item draining) j
    rw [hq, inItems_cons] at hplaces
    rw [hw0] at hset
    simp only [Worker.named] at hset ⊢
    omega
  | sawDone i hi hdone =>
    refine ⟨?_, h.dropped, h.failed, hclosed hi rfl⟩
    intro j
    have hplaces := h.places j
    have hset := hworkers hi .draining j
    simp only [Worker.named] at hset ⊢
    omega
  | finished i allow answer item draining hi =>
    refine ⟨?_, record_dropped h.dropped, record_failed h.failed, hclosed hi rfl⟩
    intro j
    have hplaces := h.places j
    have hset := hworkers hi (if draining then .draining else .waiting) j
    have hidle : (if draining then Worker.draining else .waiting).named j = 0 := by
      cases draining <;> rfl
    rw [hidle] at hset
    simp only [Worker.named] at hset
    simp only [record, inFates_concat]
    omega
  | quitted i hi hq =>
    refine ⟨?_, h.dropped, h.failed, hclosed hi rfl⟩
    intro j
    have hplaces := h.places j
    have hset := hworkers hi .returned j
    simp only [Worker.named] at hset ⊢
    omega
  | closes => exact ⟨h.places, h.dropped, h.failed, h.closed⟩
  | closeReturned hclosing hall => exact ⟨h.places, h.dropped, h.failed, fun _ => hall⟩

theorem run_inv (capacity workers : Nat) (as : List Action) :
    Inv (runFrom (step capacity) (newBufferedExporter workers) as) :=
  runFrom_invariant (fun _ _ _ hs => guarded_keeps hs fun _ hnext => hs.moved (next_moved hnext))
    (newBufferedExporter_inv workers)

/-! ## Events that come late -/

def Action.isEnqueue : Action → Bool
  | .enqueue _ => true
  | _ => false

/-- An event is sent when no worker is left to receive it. -/
def Late (e : Lib.Event State Action Bool) : Prop :=
  e.output = true ∧ allReturned e.before = true ∧ e.input.isEnqueue = true

instance : DecidablePred Late := fun e =>
  inferInstanceAs (Decidable (e.output = true ∧ allReturned e.before = true ∧
    e.input.isEnqueue = true))

/-- The queue is empty once all workers have returned. -/
def Drained (s : State) : Prop := allReturned s = true → s.queue = []

theorem drained_of_busy {s : State} {i : Nat} {w : Worker} (h : s.workers[i]? = some w)
    (hw : w.isReturned = false) : Drained s := by
  intro hall
  rw [not_allReturned h hw] at hall
  cases hall

/-- The last worker to return leaves an empty queue, and only a late event changes that. -/
theorem Moved.drained_iff {capacity : Nat} {s s' : State} {a : Action}
    (h : Moved capacity s a s') :
    Drained s' ↔ Drained s ∧ ¬ (allReturned s = true ∧ a.isEnqueue = true) := by
  -- a worker that takes a step has not returned
  have hbusy : ∀ {i : Nat} {w : Worker}, s.workers[i]? = some w → w.isReturned = false →
      Drained s ∧ ¬ (allReturned s = true ∧ a.isEnqueue = true) := by
    intro i w hi hw
    refine ⟨drained_of_busy hi hw, fun hlate => ?_⟩
    have hall := hlate.1
    rw [not_allReturned hi hw] at hall
    cases hall
  have hset : ∀ {i : Nat} {w : Worker}, s.workers[i]? = some w → ∀ w',
      (s.workers.set i w')[i]? = some w' := by
    intro i w hi w'
    exact List.getElem?_set_self (List.getElem?_eq_some_iff.mp hi).1
  cases h with
  | refused | called | gaveUp | closes | closeReturned =>
    exact (and_iff_left (by simp [Action.isEnqueue])).symm
  | enqueued k item hk hroom =>
    constructor
    · intro hdrained
      refine ⟨fun hall => ?_, fun hlate => ?_⟩
      · simpa using hdrained hall
      · simpa using hdrained hlate.1
    · rintro ⟨-, hlate⟩ hall
      exact absurd ⟨hall, rfl⟩ hlate
  | took i w item rest draining hi hw hq =>
    have hw' : w.isReturned = false := by
      rcases hw with rfl | rfl <;> rfl
    exact iff_of_true (drained_of_busy (hset hi _) rfl) (hbusy hi hw')
  | sawDone i hi hdone => exact iff_of_true (drained_of_busy (hset hi _) rfl) (hbusy hi rfl)
  | finished i allow answer item draining hi =>
    refine iff_of_true (drained_of_busy (hset hi _) ?_) (hbusy hi rfl)
    cases draining <;> rfl
  | quitted i hi hq => exact iff_of_true (fun _ => hq) (hbusy hi rfl)

theorem step_drained_iff (capacity : Nat) (s : State) (a : Action) :
    Drained (step capacity s a).2 ↔ Drained s ∧ ¬ Late (event (step capacity) s a) := by
  unfold Late event step
  cases hnext : next capacity s a with
  | some s' =>
    rw [guarded_some hnext, (next_moved hnext).drained_iff]
    simp
  | none =>
    rw [guarded_none hnext]
    simp

theorem run_drained_iff (capacity : Nat) (as : List Action) (s : State) :
    Drained (runFrom (step capacity) s as) ↔
      Drained s ∧ ∀ e ∈ trace (step capacity) s as, ¬ Late e := by
  induction as generalizing s with
  | nil => simp [runFrom, trace]
  | cons a as ih =>
    have hcons : runFrom (step capacity) s (a :: as) =
        runFrom (step capacity) (step capacity s a).2 as := rfl
    rw [hcons, ih, step_drained_iff, trace, List.forall_mem_cons, and_assoc]

/-! ## The account -/

/-- All calls of `Export` and `Close` have returned, and there was one of `Close`. -/
structure AllBack (s : State) : Prop where
  selecting : s.selecting = []
  closing : s.closing = 0
  closed : 0 < s.closed

theorem inFates_eq_count (j : Nat) (fates : List (Item × Fate)) :
    inFates j fates = (fates.map (·.1.id)).count j := by
  induction fates with
  | nil => rfl
  | cons p fates ih =>
    simp only [inFates, List.map_cons, List.sum_cons, List.count_cons] at ih ⊢
    rw [ih, Nat.add_comm]
    simp [named]

theorem inItems_eq_zero {items : List Item} (h : ∀ j, inItems j items = 0) : items = [] := by
  cases items with
  | nil => rfl
  | cons item items =>
    have hzero := h item.id
    simp [named] at hzero

theorem inWorkers_eq_zero {s : State} (h : allReturned s = true) (j : Nat) :
    inWorkers j s.workers = 0 := by
  unfold inWorkers
  refine List.sum_eq_zero ?_
  intro n hn
  obtain ⟨w, hw, rfl⟩ := List.mem_map.mp hn
  have hreturned := List.all_eq_true.mp h w hw
  cases w with
  | returned => rfl
  | waiting | draining | exporting => cases hreturned

/-- Once all calls are back, every event is accepted, counted as failed or counted as dropped,
and only one of these, exactly when none was sent after the last worker had returned. -/
theorem events_accounted_iff (capacity workers : Nat) (as : List Action) :
    let s := runFrom (step capacity) (newBufferedExporter workers) as
    AllBack s →
    (s.dropped = s.fates.countP (·.2 = .dropped) ∧ s.failed = s.fates.countP (·.2 = .failed)) ∧
    ((∀ j < s.calls, (s.fates.map (·.1.id)).count j = 1) ↔
      ∀ e ∈ trace (step capacity) (newBufferedExporter workers) as, ¬ Late e) := by
  intro s hback
  have h : Inv s := run_inv capacity workers as
  have hall : allReturned s = true := h.closed hback.closed
  have hstart : Drained (newBufferedExporter workers) := fun _ => rfl
  have hlate : Drained s ↔
      ∀ e ∈ trace (step capacity) (newBufferedExporter workers) as, ¬ Late e := by
    rw [run_drained_iff]
    exact and_iff_right hstart
  have hplaces : ∀ j, inItems j s.queue + (s.fates.map (·.1.id)).count j =
      if j < s.calls then 1 else 0 := by
    intro j
    have hj := h.places j
    rw [hback.selecting, inWorkers_eq_zero hall, inFates_eq_count, inItems_nil] at hj
    omega
  refine ⟨⟨h.dropped, h.failed⟩, ?_⟩
  rw [← hlate]
  constructor
  · intro hcount _
    refine inItems_eq_zero fun j => ?_
    have hj := hplaces j
    show inItems j s.queue = 0
    split at hj
    next hlt =>
      rw [hcount j hlt] at hj
      omega
    next => omega
  · intro hdrained j hlt
    have hj := hplaces j
    rw [hdrained hall, inItems_nil, if_pos hlt] at hj
    omega

/-- The decision is that the request is allowed. -/
def allowEvent : Event where
  «instance» := []
  nodeID := []
  projectID := []
  listener := []
  requestID := []
  phase := .requestHeaders
  direction := .request
  decision := allowed []
  host := []
  path := []
  method := []
  configVersion := []

theorem orderly_shutdown_accounts :
    let s := runFrom (step 1) (newBufferedExporter 1) [.call allowEvent, .enqueue 0, .close,
      .take 0, .finish 0 true .ok, .seeDone 0, .quit 0, .closeReturns]
    s.calls = 1 ∧ (s.fates.map (·.1.id)).count 0 = 1 := by
  intro s
  have hback : AllBack s := ⟨rfl, rfl, by decide⟩
  obtain ⟨-, haccounted⟩ := events_accounted_iff 1 1 _ hback
  exact ⟨rfl, haccounted.mpr (by decide) 0 (by decide)⟩

theorem late_event_vanishes :
    let s := runFrom (step 1) (newBufferedExporter 1) [.call allowEvent, .close, .seeDone 0,
      .quit 0, .enqueue 0, .closeReturns]
    AllBack s ∧ s.calls = 1 ∧ s.fates = [] ∧ s.dropped = 0 ∧ s.failed = 0 :=
  ⟨⟨rfl, rfl, by decide⟩, rfl, rfl, rfl, rfl⟩

end ElchiShield.Audit.Buffered
