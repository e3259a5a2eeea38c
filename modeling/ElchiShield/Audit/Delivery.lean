import ElchiShield.Audit.Buffered
import ElchiShield.Audit.ClickHouse

/-! # From an audit event to a row

The exporter of a process with a ClickHouse sink, as `buildAuditor` puts it together: the workers of
the buffered exporter call `Export` of the sink, `Flush` is called from outside and by the loop of
the sink, and `Close` stops the workers, then the loop, and sends what is left. The calls of the
driver return, with any answers. -/

/-! ## The rows in the sink -/

namespace ElchiShield.ClickHouse
open ElchiShield.Lib

variable {ρ : Type}

/-- What the rows of a batch weigh. -/
def weight (f : ρ → Nat) (b : Option (Batch ρ)) : Nat := b.elim 0 fun b => (b.rows.map f).sum

@[simp] theorem weight_none (f : ρ → Nat) : weight f (none : Option (Batch ρ)) = 0 := rfl
@[simp] theorem weight_some (f : ρ → Nat) (b : Batch ρ) :
    weight f (some b) = (b.rows.map f).sum := rfl

/-- What the rows weigh that are in a batch, sent or not. -/
def inSink (f : ρ → Nat) (s : System ρ) : Nat :=
  weight f s.exporter.batch + (s.sending.map fun d => weight f d.1).sum +
    (s.sends.map fun p => weight f (some p.1)).sum

def Action.adds (f : ρ → Nat) : Action ρ → Nat
  | .export row _ => f row
  | _ => 0

section
variable {f : ρ → Nat} {e : Exporter ρ}

/-- A critical section makes no rows. -/
def Weighs (f : ρ → Nat) (new : Nat) (e : Exporter ρ) (r : Option (Detached ρ) × Exporter ρ) : Prop :=
  (weight f r.2.batch + r.1.elim 0 fun d => weight f d.1) ≤ weight f e.batch + new

theorem renewBatch_weight (ok : Bool) (e : Exporter ρ) : weight f (renewBatch ok e).batch = 0 := by
  cases ok <;> rfl

theorem appendLocked_weighs (batchSize : Nat) (row : ρ) (o : Answers) {b : Batch ρ}
    (hb : e.batch = some b) : Weighs f (f row) e (appendLocked batchSize row o b e) := by
  unfold Weighs appendLocked
  rw [hb]
  split
  next =>
    dsimp only
    split
    next => simp
    next => simp [detachLocked, renewBatch_weight]
  next => simp [renewBatch_weight]

theorem exportLocked_weighs (batchSize : Nat) (row : ρ) (o : Answers) (e : Exporter ρ) :
    Weighs f (f row) e (exportLocked batchSize row o e) := by
  unfold exportLocked
  split
  next b hb => exact appendLocked_weighs batchSize row o hb
  next hb =>
    unfold newBatch
    cases o.prepares with
    | true =>
      have h := @appendLocked_weighs ρ f (withBatch e) batchSize row o ⟨e.prepared, []⟩ rfl
      unfold Weighs at h ⊢
      rw [hb]
      simpa [withBatch] using h
    | false => simp [Weighs]

theorem flushLocked_weighs (ok : Bool) (e : Exporter ρ) : Weighs f 0 e (flushLocked ok e) := by
  unfold Weighs flushLocked
  split
  · simp
  · simp [detachLocked, renewBatch_weight]

theorem leave_inSink {s : System ρ} {new : Nat} {r : Option (Detached ρ) × Exporter ρ}
    (h : Weighs f new s.exporter r) : inSink f (leave s r) ≤ inSink f s + new := by
  unfold Weighs at h
  unfold inSink leave
  cases hr : r.1 with
  | none =>
    rw [hr, Option.elim_none] at h
    simp only [Option.toList_none, List.append_nil]
    omega
  | some d =>
    rw [hr, Option.elim_some] at h
    simp only [Option.toList_some, List.map_append, List.sum_append, List.map_cons, List.map_nil,
      List.sum_cons, List.sum_nil]
    omega

theorem step_inSink (f : ρ → Nat) (batchSize : Nat) (s : System ρ) (a : Action ρ) :
    inSink f (step batchSize s a) ≤ inSink f s + a.adds f := by
  cases a with
  | «export» row o =>
    exact leave_inSink (s := { s with exports := s.exports + 1 })
      (exportLocked_weighs batchSize row o s.exporter)
  | flush ok => exact leave_inSink (flushLocked_weighs ok s.exporter)
  | close =>
    dsimp only [step]
    split
    · exact Nat.le_refl _
    · exact leave_inSink (s := { s with closed := true }) (by simp [Weighs, closeLocked])
  | send i ok =>
    dsimp only [step]
    split
    next => exact Nat.le_refl _
    next d hd =>
      have hsending := sum_map_eraseIdx (fun d => weight f d.1) hd
      obtain ⟨b, n⟩ := d
      unfold inSink sendDetached
      cases b with
      | none =>
        dsimp only at hsending ⊢
        simp only [Action.adds]
        omega
      | some b =>
        dsimp only at hsending ⊢
        split
        next =>
          simp only [Action.adds]
          omega
        next =>
          cases ok <;> simp [Action.adds] at hsending ⊢ <;> omega

theorem sendDetached_eq (d : Detached ρ) (ok : Bool) (s : System ρ) :
    (sendDetached d ok s).sending = s.sending ∧ (sendDetached d ok s).exports = s.exports ∧
      (sendDetached d ok s).exporter.pending = s.exporter.pending ∧
      (sendDetached d ok s).closed = s.closed := by
  unfold sendDetached
  split
  next => exact ⟨rfl, rfl, rfl, rfl⟩
  next =>
    split
    · exact ⟨rfl, rfl, rfl, rfl⟩
    · split <;> exact ⟨rfl, rfl, rfl, rfl⟩

/-- A send by the call at a place of `sending`. -/
theorem step_send (batchSize : Nat) {s : System ρ} {i : Nat} (h : i < s.sending.length) (ok : Bool) :
    let s' := step batchSize s (.send i ok)
    s'.sending = s.sending.eraseIdx i ∧ s'.exports = s.exports ∧
      s'.exporter.pending = s.exporter.pending ∧ s'.closed = s.closed := by
  intro s'
  have hs' : s' = sendDetached s.sending[i] ok { s with sending := s.sending.eraseIdx i } := by
    show step batchSize s (.send i ok) = _
    simp only [step, List.getElem?_eq_getElem h]
  rw [hs']
  exact sendDetached_eq _ _ _

/-- A flush when nothing is pending. -/
theorem step_flush_idle (batchSize : Nat) {s : System ρ} (h : s.exporter.pending = 0) (ok : Bool) :
    step batchSize s (.flush ok) = s := by
  simp [step, leave, flushLocked, h]

end

end ElchiShield.ClickHouse

namespace ElchiShield.Audit.Delivery
open ElchiShield.Lib ElchiShield.Audit.Buffered

/-! ## The composed exporter -/

/-- Who has left the mutex of the sink with a batch to send. -/
inductive Caller where
  | worker (i : Nat)
  | flushLoop
  | flush
  | close
  deriving DecidableEq

/-- The places of `flushLoop`. -/
inductive FlushLoop where
  | waiting
  | flushing
  | returned
  deriving DecidableEq

/-- How far the body of the sink's `Close` is, which runs once. -/
inductive CloseOnce where
  | unused
  | waiting
  | flushing
  | done
  deriving DecidableEq

/-- `inside` has the workers that are in `Export` of the sink, past the mutex, and `senders` who is to
send the batches of `sink.sending`. -/
structure State where
  buffered : Buffered.State
  sink : ClickHouse.System Item := ClickHouse.newExporter
  inside : List Nat := []
  senders : List Caller := []
  loop : FlushLoop
  once : CloseOnce := .unused

/-- Without a flush interval there is no loop. -/
def newExporter (workers : Nat) (interval : Bool) : State where
  buffered := newBufferedExporter workers
  loop := if interval then .waiting else .returned

inductive Action where
  /-- A step of the queue: `Export` and `Close` of the buffered exporter, and `run`. -/
  | queue (a : Buffered.Action)
  /-- The limiter refuses the event of a worker. -/
  | drop (i : Nat)
  | «export» (i : Nat) (o : ClickHouse.Answers)
  | send (k : Nat) (succeeds : Bool)
  | exported (i : Nat)
  | flush (prepares : Bool)
  | tick (prepares : Bool)
  | ticked
  | loopReturns
  | closeSink
  | lastFlush
  | sinkClosed
  | closeReturns

/-- The steps of the queue that do not wait for the sink. -/
def isOwn : Buffered.Action → Bool
  | .finish _ _ _ | .closeReturns => false
  | _ => true

/-- A critical section of the sink, and the batch its caller is then to send. -/
def enter (batchSize : Nat) (s : State) (caller : Caller) (a : ClickHouse.Action Item) : State :=
  let sink := ClickHouse.step batchSize s.sink a
  { s with
    sink
    senders := s.senders ++ (sink.sending.drop s.sink.sending.length).map fun _ => caller }

def next (capacity batchSize : Nat) (s : State) : Action → Option State
  | .queue a =>
    if isOwn a then (Buffered.next capacity s.buffered a).map ({ s with buffered := · }) else none
  | .drop i => match s.buffered.workers[i]? with
    | some (.exporting item _) =>
      if isFinding item.ev ∨ i ∈ s.inside then none
      else (Buffered.next capacity s.buffered (.finish i false .ok)).map ({ s with buffered := · })
    | _ => none
  | .export i o => match s.buffered.workers[i]? with
    | some (.exporting item _) =>
      if i ∈ s.inside then none
      else some (enter batchSize { s with inside := i :: s.inside } (.worker i) (.export item o))
    | _ => none
  | .send k succeeds =>
    if k < s.senders.length then
      some { s with
        sink := ClickHouse.step batchSize s.sink (.send k succeeds)
        senders := s.senders.eraseIdx k }
    else none
  | .exported i =>
    if i ∈ s.inside ∧ .worker i ∉ s.senders then
      (Buffered.next capacity s.buffered (.finish i true .ok)).map
        ({ s with buffered := ·, inside := s.inside.erase i })
    else none
  | .flush prepares => some (enter batchSize s .flush (.flush prepares))
  | .tick prepares =>
    if s.loop = .waiting then
      some (enter batchSize { s with loop := .flushing } .flushLoop (.flush prepares))
    else none
  | .ticked =>
    if s.loop = .flushing ∧ .flushLoop ∉ s.senders then some { s with loop := .waiting } else none
  | .loopReturns =>
    if s.loop = .waiting ∧ s.once ≠ .unused then some { s with loop := .returned } else none
  | .closeSink =>
    if 0 < s.buffered.closing ∧ allReturned s.buffered ∧ s.once = .unused then
      some { s with once := .waiting }
    else none
  | .lastFlush =>
    if s.once = .waiting ∧ s.loop = .returned then
      some (enter batchSize { s with once := .flushing } .close .close)
    else none
  | .sinkClosed =>
    if s.once = .flushing ∧ .close ∉ s.senders then some { s with once := .done } else none
  | .closeReturns =>
    if s.once = .done then
      (Buffered.next capacity s.buffered .closeReturns).map ({ s with buffered := · })
    else none

def step (capacity batchSize : Nat) : State → Action → Bool × State :=
  guarded (next capacity batchSize)

/-! What the process reports. -/

/-- `Dropped`. -/
def State.droppedEvents (s : State) : Nat := s.buffered.dropped

/-- `Failed`, with the `FailedWrites` of the sink. -/
def State.failedEvents (s : State) : Nat := s.buffered.failed + s.sink.exporter.dropped

def State.queueLen (s : State) : Nat := s.buffered.queue.length

/-- The rows of the batches whose `Send` has succeeded. -/
def State.delivered (s : State) : List Item := (s.sink.sends.filter (·.2)).flatMap (·.1.rows)

/-- The calls of `Export`, `Flush` and `Close` have returned, and there was one of `Close`. -/
structure AllBack (s : State) : Prop where
  buffered : Buffered.AllBack s.buffered
  flush : Caller.flush ∉ s.senders

/-! ## What a step does -/

/-- The steps that can be taken. -/
inductive Took (capacity batchSize : Nat) (s : State) : State → Prop where
  | queue (a : Buffered.Action) (b : Buffered.State) (own : isOwn a = true)
      (moved : Moved capacity s.buffered a b) : Took capacity batchSize s { s with buffered := b }
  | drop (i : Nat) (b : Buffered.State) (outside : i ∉ s.inside) (item : Item) (draining : Bool)
      (worker : s.buffered.workers[i]? = some (.exporting item draining))
      (event : isFinding item.ev = false)
      (moved : Moved capacity s.buffered (.finish i false .ok) b) :
    Took capacity batchSize s { s with buffered := b }
  | «export» (i : Nat) (o : ClickHouse.Answers) (outside : i ∉ s.inside) (item : Item)
      (draining : Bool) (worker : s.buffered.workers[i]? = some (.exporting item draining)) :
    Took capacity batchSize s
      (enter batchSize { s with inside := i :: s.inside } (.worker i) (.export item o))
  | send (k : Nat) (succeeds : Bool) (sender : k < s.senders.length) :
    Took capacity batchSize s { s with
      sink := ClickHouse.step batchSize s.sink (.send k succeeds)
      senders := s.senders.eraseIdx k }
  | exported (i : Nat) (b : Buffered.State) (inside : i ∈ s.inside) (sent : .worker i ∉ s.senders)
      (moved : Moved capacity s.buffered (.finish i true .ok) b) :
    Took capacity batchSize s { s with buffered := b, inside := s.inside.erase i }
  | flush (prepares : Bool) :
    Took capacity batchSize s (enter batchSize s .flush (.flush prepares))
  | tick (prepares : Bool) (waiting : s.loop = .waiting) :
    Took capacity batchSize s
      (enter batchSize { s with loop := .flushing } .flushLoop (.flush prepares))
  | ticked (sent : .flushLoop ∉ s.senders) (flushing : s.loop = .flushing) :
    Took capacity batchSize s { s with loop := .waiting }
  | loopReturns (waiting : s.loop = .waiting) (stopped : s.once ≠ .unused) :
    Took capacity batchSize s { s with loop := .returned }
  | closeSink (returned : allReturned s.buffered = true) (unused : s.once = .unused) :
    Took capacity batchSize s { s with once := .waiting }
  | lastFlush (waiting : s.once = .waiting) (returned : s.loop = .returned) :
    Took capacity batchSize s (enter batchSize { s with once := .flushing } .close .close)
  | sinkClosed (flushing : s.once = .flushing) (sent : .close ∉ s.senders) :
    Took capacity batchSize s { s with once := .done }
  | closeReturns (b : Buffered.State) (done : s.once = .done)
      (moved : Moved capacity s.buffered .closeReturns b) :
    Took capacity batchSize s { s with buffered := b }

theorem next_took {capacity batchSize : Nat} {s s' : State} {a : Action}
    (h : next capacity batchSize s a = some s') : Took capacity batchSize s s' := by
  cases a with
  | queue a =>
    simp only [next] at h
    split at h
    next hown =>
      obtain ⟨b, hb, rfl⟩ := Option.map_eq_some_iff.mp h
      exact .queue a b hown (next_moved hb)
    next => cases h
  | drop i =>
    simp only [next] at h
    split at h
    next item draining hworker =>
      split at h
      next => cases h
      next hout =>
        obtain ⟨b, hb, rfl⟩ := Option.map_eq_some_iff.mp h
        obtain ⟨hevent, hinside⟩ := not_or.mp hout
        exact .drop i b hinside item draining hworker (Bool.not_eq_true _ ▸ hevent) (next_moved hb)
    next => cases h
  | «export» i o =>
    simp only [next] at h
    split at h
    next item draining hworker =>
      split at h
      next => cases h
      next hout =>
        cases h
        exact .export i o hout item draining hworker
    next => cases h
  | send k succeeds =>
    simp only [next] at h
    split at h
    next hk =>
      cases h
      exact .send k succeeds hk
    next => cases h
  | exported i =>
    simp only [next] at h
    split at h
    next hin =>
      obtain ⟨b, hb, rfl⟩ := Option.map_eq_some_iff.mp h
      exact .exported i b hin.1 hin.2 (next_moved hb)
    next => cases h
  | flush prepares =>
    cases h
    exact .flush prepares
  | tick prepares =>
    simp only [next] at h
    split at h
    next hloop =>
      cases h
      exact .tick prepares hloop
    next => cases h
  | ticked =>
    simp only [next] at h
    split at h
    next hloop =>
      cases h
      exact .ticked hloop.2 hloop.1
    next => cases h
  | loopReturns =>
    simp only [next] at h
    split at h
    next hloop =>
      cases h
      exact .loopReturns hloop.1 hloop.2
    next => cases h
  | closeSink =>
    simp only [next] at h
    split at h
    next hclose =>
      cases h
      exact .closeSink hclose.2.1 hclose.2.2
    next => cases h
  | lastFlush =>
    simp only [next] at h
    split at h
    next hclose =>
      cases h
      exact .lastFlush hclose.1 hclose.2
    next => cases h
  | sinkClosed =>
    simp only [next] at h
    split at h
    next hclose =>
      cases h
      exact .sinkClosed hclose.1 hclose.2
    next => cases h
  | closeReturns =>
    simp only [next] at h
    split at h
    next hdone =>
      obtain ⟨b, hb, rfl⟩ := Option.map_eq_some_iff.mp h
      exact .closeReturns b hdone (next_moved hb)
    next => cases h

/-! ## The parts -/

section
variable {capacity batchSize : Nat} {s s' : State}

theorem Took.buffered (h : Took capacity batchSize s s') :
    s'.buffered = s.buffered ∨ ∃ a, Moved capacity s.buffered a s'.buffered := by
  cases h with
  | queue a b own moved => exact .inr ⟨a, moved⟩
  | drop i b outside item draining worker event moved => exact .inr ⟨_, moved⟩
  | exported i b inside sent moved => exact .inr ⟨_, moved⟩
  | closeReturns b done moved => exact .inr ⟨_, moved⟩
  | «export» | send | flush | tick | ticked | loopReturns | closeSink | lastFlush | sinkClosed =>
    exact .inl rfl

theorem Took.sink (h : Took capacity batchSize s s') :
    s'.sink = s.sink ∨ ∃ a, s'.sink = ClickHouse.step batchSize s.sink a := by
  cases h with
  | «export» i o outside item => exact .inr ⟨.export item o, rfl⟩
  | send k succeeds => exact .inr ⟨.send k succeeds, rfl⟩
  | flush prepares | tick prepares => exact .inr ⟨.flush prepares, rfl⟩
  | lastFlush => exact .inr ⟨.close, rfl⟩
  | queue | drop | exported | ticked | loopReturns | closeSink | sinkClosed | closeReturns =>
    exact .inl rfl

/-- The workers that export an event. -/
def busy (workers : List Worker) : Nat :=
  (workers.map fun w => match w with
    | .exporting _ _ => 1
    | _ => 0).sum

/-- Every event is counted in one place. -/
def Counted (s : Buffered.State) : Prop :=
  s.calls = s.selecting.length + s.queue.length + busy s.workers + s.fates.length

theorem Counted.moved {b b' : Buffered.State} {a : Buffered.Action} (h : Counted b)
    (hmoved : Moved capacity b a b') : Counted b' := by
  unfold Counted at h ⊢
  have hset : ∀ {i w}, b.workers[i]? = some w → ∀ w',
      busy (b.workers.set i w') + busy [w] = busy b.workers + busy [w'] := by
    intro i w hi w'
    simpa [busy] using sum_map_set _ hi w'
  have herase : ∀ {k item}, b.selecting[k]? = some item →
      (b.selecting.eraseIdx k).length + 1 = b.selecting.length := by
    intro k item hk
    have hlt := (List.getElem?_eq_some_iff.mp hk).1
    rw [List.length_eraseIdx_of_lt hlt]
    omega
  cases hmoved with
  | refused ev hdone =>
    simp [record]
    omega
  | called ev hopen =>
    simp
    omega
  | enqueued k item hk hroom =>
    have := herase hk
    simp
    omega
  | gaveUp k item hk hfull =>
    have := herase hk
    simp [record]
    omega
  | took i w item rest draining hi hw hq =>
    have hworkers := hset hi (.exporting item draining)
    have hidle : busy [w] = 0 := by
      rcases hw with rfl | rfl <;> rfl
    have hexporting : busy [.exporting item draining] = 1 := rfl
    rw [hq, List.length_cons] at h
    dsimp only
    omega
  | sawDone i hi hdone =>
    have hworkers := hset hi .draining
    have hzero : busy [.waiting] = 0 ∧ busy [.draining] = 0 := ⟨rfl, rfl⟩
    dsimp only
    omega
  | finished i allow answer item draining hi =>
    have hworkers := hset hi (if draining then .draining else .waiting)
    have hidle : busy [if draining then .draining else .waiting] = 0 := by
      cases draining <;> rfl
    have hexporting : busy [.exporting item draining] = 1 := rfl
    simp only [record, List.length_append, List.length_singleton]
    omega
  | quitted i hi hq =>
    have hworkers := hset hi .returned
    have hzero : busy [.draining] = 0 ∧ busy [.returned] = 0 := ⟨rfl, rfl⟩
    dsimp only
    omega
  | closes => exact h
  | closeReturned hclosing hall => exact h

/-- The invariants of the queue and of the sink. -/
structure Parts (batchSize : Nat) (s : State) : Prop where
  buffered : Buffered.Inv s.buffered
  counted : Counted s.buffered
  sink : ClickHouse.Inv batchSize s.sink

theorem Parts.took (h : Parts batchSize s) (htook : Took capacity batchSize s s') :
    Parts batchSize s' := by
  have hbuffered : Buffered.Inv s'.buffered ∧ Counted s'.buffered := by
    rcases htook.buffered with heq | ⟨a, hmoved⟩
    · rw [heq]
      exact ⟨h.buffered, h.counted⟩
    · exact ⟨h.buffered.moved hmoved, h.counted.moved hmoved⟩
  have hsink : ClickHouse.Inv batchSize s'.sink := by
    rcases htook.sink with heq | ⟨a, heq⟩
    · rw [heq]
      exact h.sink
    · rw [heq]
      exact h.sink.step a
  exact ⟨hbuffered.1, hbuffered.2, hsink⟩

/-! ## The workers in the sink -/

/-- What a step of the queue that is not the end of an export leaves as it is: the workers that
export, and what is accepted. -/
structure Apart (b b' : Buffered.State) : Prop where
  workers : ∀ (i : Nat) (item : Item) (draining : Bool), b.workers[i]? = some (.exporting item draining) →
    b'.workers[i]? = some (.exporting item draining)
  fates : ∀ j, inFates j b.fates ≤ inFates j b'.fates
  accepted : b'.fates.countP (·.2 = .accepted) = b.fates.countP (·.2 = .accepted)

theorem Moved.apart {b b' : Buffered.State} {a : Buffered.Action} (h : Moved capacity b a b')
    (hfinish : ∀ i allow answer, a ≠ .finish i allow answer) : Apart b b' := by
  have hset : ∀ {i : Nat} {w : Worker}, b.workers[i]? = some w →
      (∀ item draining, w ≠ .exporting item draining) → ∀ w' (k : Nat) item draining,
      b.workers[k]? = some (.exporting item draining) →
      (b.workers.set i w')[k]? = some (.exporting item draining) := by
    intro i w hi hw w' k item draining hk
    rw [List.getElem?_set_ne, hk]
    rintro rfl
    exact hw item draining (Option.some.inj (hi.symm.trans hk))
  cases h with
  | refused | gaveUp => exact ⟨fun _ _ _ h => h, by simp [record], by simp [record]⟩
  | called | enqueued | closes | closeReturned =>
    exact ⟨fun _ _ _ h => h, fun _ => Nat.le_refl _, rfl⟩
  | took i w item rest draining hi hw hq =>
    have hidle : ∀ item draining, w ≠ .exporting item draining := by
      rcases hw with rfl | rfl <;> simp
    exact ⟨hset hi hidle _, fun _ => Nat.le_refl _, rfl⟩
  | sawDone i hi hdone => exact ⟨hset hi (by simp) _, fun _ => Nat.le_refl _, rfl⟩
  | quitted i hi hq => exact ⟨hset hi (by simp) _, fun _ => Nat.le_refl _, rfl⟩
  | finished i allow answer => exact absurd rfl (hfinish i allow answer)

/-- The end of an export: other workers stay as they are. -/
theorem Moved.finished {b b' : Buffered.State} {i : Nat} {allow : Bool}
    (h : Moved capacity b (.finish i allow .ok) b') :
    ∃ item draining, b.workers[i]? = some (.exporting item draining) ∧
      (∀ k, k ≠ i → b'.workers[k]? = b.workers[k]?) ∧
      b'.fates = b.fates ++ [(item, «export» allow .ok item.ev)] := by
  cases h with
  | finished _ _ _ item draining hi =>
    refine ⟨item, draining, hi, fun k hk => ?_, rfl⟩
    exact List.getElem?_set_ne (Ne.symm hk)

/-- A worker in the sink exports an event, and the exports of the sink are those that were accepted
and those under way. -/
structure Inside (s : State) : Prop where
  nodup : s.inside.Nodup
  busy : ∀ i ∈ s.inside, ∃ item draining,
    s.buffered.workers[i]? = some (.exporting item draining)
  exports : s.sink.exports = s.buffered.fates.countP (·.2 = .accepted) + s.inside.length

theorem Inside.apart (h : Inside s) {b : Buffered.State} (hapart : Apart s.buffered b) :
    Inside { s with buffered := b } where
  nodup := h.nodup
  busy i hi := by
    obtain ⟨item, draining, hworker⟩ := h.busy i hi
    exact ⟨item, draining, hapart.workers i item draining hworker⟩
  exports := by
    rw [hapart.accepted]
    exact h.exports

theorem Inside.took (h : Inside s) (htook : Took capacity batchSize s s')
    (haligned : s.senders.length = s.sink.sending.length) : Inside s' := by
  cases htook with
  | queue a b own moved =>
    exact h.apart (Moved.apart moved fun i allow answer ha => by simp [ha, isOwn] at own)
  | closeReturns b done moved => exact h.apart (Moved.apart moved (by simp))
  | drop i b outside item draining worker event moved =>
    obtain ⟨item', draining', hworker, hothers, hfates⟩ := Moved.finished moved
    cases worker.symm.trans hworker
    refine ⟨h.nodup, fun k hk => ?_, ?_⟩
    · have hne : k ≠ i := fun heq => outside (heq ▸ hk)
      dsimp only
      rw [hothers k hne]
      exact h.busy k hk
    · dsimp only
      rw [hfates, List.countP_append, h.exports]
      simp [«export», event]
  | exported i b inside sent moved =>
    obtain ⟨item, draining, hworker, hothers, hfates⟩ := Moved.finished moved
    refine ⟨h.nodup.erase i, fun k hk => ?_, ?_⟩
    · have hne : k ≠ i := by
        rintro rfl
        exact h.nodup.not_mem_erase hk
      dsimp only
      rw [hothers k hne]
      exact h.busy k (List.mem_of_mem_erase hk)
    · have hpos := List.length_pos_of_mem inside
      dsimp only
      rw [hfates, List.countP_append, h.exports, List.length_erase_of_mem inside]
      simp [«export»]
      omega
  | «export» i o outside item draining worker =>
    refine ⟨List.nodup_cons.mpr ⟨outside, h.nodup⟩, fun k hk => ?_, ?_⟩
    · rcases List.mem_cons.mp hk with rfl | hk
      · exact ⟨item, draining, worker⟩
      · exact h.busy k hk
    · show s.sink.exports + 1 = _ + (i :: s.inside).length
      rw [h.exports, List.length_cons, Nat.add_assoc]
      rfl
  | send k succeeds sender =>
    refine ⟨h.nodup, h.busy, ?_⟩
    dsimp only
    rw [(ClickHouse.step_send batchSize (haligned ▸ sender) succeeds).2.1]
    exact h.exports
  | flush | tick | ticked | loopReturns | closeSink | sinkClosed =>
    exact ⟨h.nodup, h.busy, h.exports⟩
  | lastFlush waiting returned =>
    refine ⟨h.nodup, h.busy, ?_⟩
    show (ClickHouse.step batchSize s.sink .close).exports = _
    dsimp only [ClickHouse.step]
    split <;> exact h.exports

/-! ## No row twice -/

/-- An event that has a row was accepted, or its worker is in the sink; and it has one row. -/
structure Rows (s : State) : Prop where
  known : ∀ j, 0 < ClickHouse.inSink (named j) s.sink → 0 < inFates j s.buffered.fates ∨
    ∃ i ∈ s.inside, ∃ w, s.buffered.workers[i]? = some w ∧ 0 < w.named j
  once : ∀ j, ClickHouse.inSink (named j) s.sink ≤ 1

theorem Rows.apart (h : Rows s) (hinside : Inside s) {b : Buffered.State}
    (hapart : Apart s.buffered b) : Rows { s with buffered := b } := by
  refine ⟨fun j hj => ?_, h.once⟩
  rcases h.known j hj with hfate | ⟨i, hi, w, hw, hnamed⟩
  · exact .inl (Nat.lt_of_lt_of_le hfate (hapart.fates j))
  · obtain ⟨item, draining, hworker⟩ := hinside.busy i hi
    cases hworker.symm.trans hw
    exact .inr ⟨i, hi, _, hapart.workers i item draining hworker, hnamed⟩

/-- No row is added. -/
theorem Rows.enter (batchSize : Nat) (h : Rows s) {a : ClickHouse.Action Item} (ha : ∀ f, a.adds f = 0)
    (hsink : s'.sink = ClickHouse.step batchSize s.sink a) (hbuffered : s'.buffered = s.buffered)
    (hinside : s'.inside = s.inside) : Rows s' := by
  have hle : ∀ j, ClickHouse.inSink (named j) s'.sink ≤ ClickHouse.inSink (named j) s.sink := by
    intro j
    have hstep := ClickHouse.step_inSink (named j) batchSize s.sink a
    rwa [ha, ← hsink] at hstep
  refine ⟨fun j hj => ?_, fun j => Nat.le_trans (hle j) (h.once j)⟩
  rw [hbuffered, hinside]
  exact h.known j (Nat.lt_of_lt_of_le hj (hle j))

/-- What two workers hold. -/
theorem two_workers {workers : List Worker} {i k : Nat} {w w' : Worker} (hi : workers[i]? = some w)
    (hk : workers[k]? = some w') (hne : k ≠ i) (j : Nat) :
    w.named j + w'.named j ≤ inWorkers j workers := by
  have hset := sum_map_set (Worker.named j) hi .returned
  have hk' : (workers.set i .returned)[k]? = some w' := by
    rw [List.getElem?_set_ne (Ne.symm hne), hk]
  have hrest := sum_map_eraseIdx (Worker.named j) hk'
  have hzero : Worker.named j .returned = 0 := rfl
  unfold inWorkers
  omega

/-- The event of a worker outside the sink has no row. -/
theorem Rows.outside (h : Rows s) (hparts : Parts batchSize s) {i : Nat} (hi : i ∉ s.inside)
    {item : Item} {draining : Bool}
    (hworker : s.buffered.workers[i]? = some (.exporting item draining)) :
    ClickHouse.inSink (named item.id) s.sink = 0 := by
  have hnamed : (Worker.exporting item draining).named item.id = 1 := if_pos rfl
  have hplaces := hparts.buffered.places item.id
  have hbound : (if item.id < s.buffered.calls then 1 else 0) ≤ 1 := by
    split <;> omega
  rw [← Nat.le_zero, ← Nat.not_lt]
  intro hpos
  rcases h.known item.id hpos with hfate | ⟨k, hk, w, hw, hwnamed⟩
  · have hheld := sum_map_eraseIdx (Worker.named item.id) hworker
    unfold inWorkers at hplaces
    omega
  · have htwo := two_workers hworker hw (fun heq => hi (heq ▸ hk)) item.id
    omega

theorem Rows.took (h : Rows s) (hparts : Parts batchSize s) (hinside : Inside s)
    (htook : Took capacity batchSize s s') : Rows s' := by
  cases htook with
  | queue a b own moved =>
    exact h.apart hinside (Moved.apart moved fun i allow answer ha => by simp [ha, isOwn] at own)
  | closeReturns b done moved => exact h.apart hinside (Moved.apart moved (by simp))
  | drop i b outside item draining worker event moved =>
    obtain ⟨item', draining', hworker, hothers, hfates⟩ := Moved.finished moved
    refine ⟨fun j hj => ?_, h.once⟩
    dsimp only
    rw [hfates, inFates_concat]
    rcases h.known j hj with hfate | ⟨k, hk, w, hw, hnamed⟩
    · exact .inl (Nat.lt_of_lt_of_le hfate (Nat.le_add_right _ _))
    · have hne : k ≠ i := fun heq => outside (heq ▸ hk)
      exact .inr ⟨k, hk, w, (hothers k hne).trans hw, hnamed⟩
  | exported i b inside sent moved =>
    obtain ⟨item, draining, hworker, hothers, hfates⟩ := Moved.finished moved
    refine ⟨fun j hj => ?_, h.once⟩
    dsimp only
    rw [hfates, inFates_concat]
    rcases h.known j hj with hfate | ⟨k, hk, w, hw, hnamed⟩
    · exact .inl (Nat.lt_of_lt_of_le hfate (Nat.le_add_right _ _))
    · by_cases hki : k = i
      · -- the event was this worker's, and is accepted now
        subst hki
        cases hworker.symm.trans hw
        exact .inl (Nat.lt_of_lt_of_le hnamed (Nat.le_add_left _ _))
      · exact .inr ⟨k, (List.mem_erase_of_ne hki).mpr hk, w, (hothers k hki).trans hw, hnamed⟩
  | «export» i o outside item draining worker =>
    have hadds : ∀ j, ClickHouse.inSink (named j)
        (ClickHouse.step batchSize s.sink (.export item o)) ≤
        ClickHouse.inSink (named j) s.sink + named j item :=
      fun j => ClickHouse.step_inSink (named j) batchSize s.sink (.export item o)
    refine ⟨fun j hj => ?_, fun j => ?_⟩
    · by_cases hitem : item.id = j
      · exact .inr ⟨i, List.mem_cons_self, _, worker, by simp [Worker.named, named, hitem]⟩
      · have hold : 0 < ClickHouse.inSink (named j) s.sink := by
          have hle := hadds j
          rw [named, if_neg hitem] at hle
          exact Nat.lt_of_lt_of_le hj hle
        rcases h.known j hold with hfate | ⟨k, hk, hrest⟩
        · exact .inl hfate
        · exact .inr ⟨k, List.mem_cons_of_mem _ hk, hrest⟩
    · have hle := hadds j
      show ClickHouse.inSink (named j) (ClickHouse.step batchSize s.sink (.export item o)) ≤ 1
      by_cases hitem : item.id = j
      · subst hitem
        rw [h.outside hparts outside worker, named, if_pos rfl] at hle
        exact hle
      · rw [named, if_neg hitem] at hle
        exact Nat.le_trans hle (h.once j)
  | send k succeeds sender =>
    exact h.enter batchSize (a := .send k succeeds) (fun _ => rfl) rfl rfl rfl
  | flush prepares | tick prepares =>
    exact h.enter batchSize (a := .flush prepares) (fun _ => rfl) rfl rfl rfl
  | lastFlush => exact h.enter batchSize (a := .close) (fun _ => rfl) rfl rfl rfl
  | ticked | loopReturns | closeSink | sinkClosed => exact ⟨h.known, h.once⟩

/-! ## The shutdown -/

/-- A caller is still in the sink. -/
def State.Running (s : State) : Caller → Prop
  | .worker i => i ∈ s.inside
  | .flushLoop => s.loop = .flushing
  | .flush => True
  | .close => s.once = .flushing

/-- The workers have returned when the sink is closed, and its loop has when what is left is sent. -/
structure Shutdown (s : State) : Prop where
  aligned : s.senders.length = s.sink.sending.length
  owned : ∀ c ∈ s.senders, s.Running c
  returned : s.once ≠ .unused → allReturned s.buffered = true
  closed : 0 < s.buffered.closed → s.once = .done
  unused : s.once = .unused ∨ s.once = .waiting → s.sink.closed = false
  drained : s.once = .flushing ∨ s.once = .done →
    s.loop = .returned ∧ s.sink.exporter.pending = 0

theorem allReturned_kept {b b' : Buffered.State} {a : Buffered.Action}
    (h : Moved capacity b a b') (hall : allReturned b = true) : allReturned b' = true := by
  -- no step is left for the workers
  have hbusy : ∀ {i : Nat} {w : Worker}, b.workers[i]? = some w → w.isReturned = false →
      allReturned b' = true := by
    intro i w hi hw
    rw [not_allReturned hi hw] at hall
    cases hall
  cases h with
  | refused | called | enqueued | gaveUp | closes | closeReturned => exact hall
  | took i w item rest draining hi hw hq =>
    exact hbusy hi (by rcases hw with rfl | rfl <;> rfl)
  | sawDone i hi hdone => exact hbusy hi rfl
  | finished i allow answer item draining hi => exact hbusy hi rfl
  | quitted i hi hq => exact hbusy hi rfl

theorem Shutdown.moved (h : Shutdown s) {b : Buffered.State} {a : Buffered.Action}
    (hmoved : Moved capacity s.buffered a b) (ha : a ≠ .closeReturns) :
    Shutdown { s with buffered := b } := by
  refine ⟨h.aligned, h.owned, fun hused => allReturned_kept hmoved (h.returned hused), ?_, h.unused,
    h.drained⟩
  have hclosed : b.closed = s.buffered.closed := by
    cases hmoved with
    | closeReturned => exact absurd rfl ha
    | refused | called | enqueued | gaveUp | took | sawDone | finished | quitted | closes => rfl
  intro hpos
  exact h.closed (hclosed ▸ hpos)

theorem enter_aligned {caller : Caller} {a : ClickHouse.Action Item}
    (h : s.senders.length = s.sink.sending.length)
    (ha : ∃ l, (ClickHouse.step batchSize s.sink a).sending = s.sink.sending ++ l) :
    (enter batchSize s caller a).senders.length =
      (enter batchSize s caller a).sink.sending.length := by
  obtain ⟨l, hl⟩ := ha
  simp [enter, hl, h]

theorem mem_enter {caller c : Caller} {a : ClickHouse.Action Item}
    (h : c ∈ (enter batchSize s caller a).senders) : c ∈ s.senders ∨ c = caller := by
  rcases List.mem_append.mp h with h | h
  · exact .inl h
  · obtain ⟨-, -, rfl⟩ := List.mem_map.mp h
    exact .inr rfl

theorem close_sending (sink : ClickHouse.System Item) :
    ∃ l, (ClickHouse.step batchSize sink .close).sending = sink.sending ++ l := by
  dsimp only [ClickHouse.step]
  split
  · exact ⟨[], (List.append_nil _).symm⟩
  · exact ⟨_, rfl⟩

theorem Shutdown.took (h : Shutdown s) (htook : Took capacity batchSize s s') : Shutdown s' := by
  cases htook with
  | queue a b own moved => exact h.moved moved fun ha => by simp [ha, isOwn] at own
  | drop i b outside item draining worker event moved => exact h.moved moved (by simp)
  | exported i b inside sent moved =>
    have hmoved := h.moved moved (by simp)
    refine ⟨h.aligned, fun c hc => ?_, hmoved.returned, hmoved.closed, h.unused, h.drained⟩
    have hrunning := h.owned c hc
    cases c with
    | worker k =>
      have hne : k ≠ i := by
        rintro rfl
        exact sent hc
      exact (List.mem_erase_of_ne hne).mpr hrunning
    | flushLoop | flush | close => exact hrunning
  | closeReturns b done moved =>
    refine ⟨h.aligned, h.owned, fun hused => allReturned_kept moved (h.returned hused),
      fun _ => done, h.unused, h.drained⟩
  | «export» i o outside item draining worker =>
    -- a worker that exports has not returned
    have hunused : s.once = .unused := by
      by_contra hused
      have hall := h.returned hused
      rw [not_allReturned worker rfl] at hall
      cases hall
    refine ⟨enter_aligned h.aligned ⟨_, rfl⟩, fun c hc => ?_, h.returned, h.closed, h.unused,
      fun hused => ?_⟩
    · rcases mem_enter hc with hc | rfl
      · have hrunning := h.owned c hc
        cases c with
        | worker k => exact List.mem_cons_of_mem _ hrunning
        | flushLoop | flush | close => exact hrunning
      · exact List.mem_cons_self
    · have hused : s.once = .flushing ∨ s.once = .done := hused
      simp [hunused] at hused
  | send k succeeds sender =>
    obtain ⟨hsending, -, hpending, hclosed⟩ :=
      ClickHouse.step_send batchSize (h.aligned ▸ sender) succeeds
    refine ⟨?_, fun c hc => h.owned c (List.mem_of_mem_eraseIdx hc), h.returned, h.closed, ?_, ?_⟩
    · dsimp only
      rw [hsending, List.length_eraseIdx_of_lt sender,
        List.length_eraseIdx_of_lt (h.aligned ▸ sender), h.aligned]
    · intro hopen
      exact hclosed.trans (h.unused hopen)
    · intro hused
      exact ⟨(h.drained hused).1, hpending.trans (h.drained hused).2⟩
  | flush prepares =>
    refine ⟨enter_aligned h.aligned ⟨_, rfl⟩, fun c hc => ?_, h.returned, h.closed, h.unused,
      fun hused => ?_⟩
    · rcases mem_enter hc with hc | rfl
      · exact h.owned c hc
      · trivial
    · obtain ⟨hloop, hpending⟩ := h.drained hused
      refine ⟨hloop, ?_⟩
      show (ClickHouse.step batchSize s.sink (.flush prepares)).exporter.pending = 0
      rw [ClickHouse.step_flush_idle batchSize hpending, hpending]
  | tick prepares waiting =>
    refine ⟨enter_aligned h.aligned ⟨_, rfl⟩, fun c hc => ?_, h.returned, h.closed, h.unused,
      fun hused => ?_⟩
    · rcases mem_enter hc with hc | rfl
      · have hrunning := h.owned c hc
        cases c with
        | flushLoop => rfl
        | worker | flush | close => exact hrunning
      · rfl
    · cases waiting.symm.trans (h.drained hused).1
  | ticked sent flushing =>
    refine ⟨h.aligned, fun c hc => ?_, h.returned, h.closed, h.unused, fun hused => ?_⟩
    · have hrunning := h.owned c hc
      cases c with
      | flushLoop => exact absurd hc sent
      | worker | flush | close => exact hrunning
    · cases flushing.symm.trans (h.drained hused).1
  | loopReturns waiting stopped =>
    refine ⟨h.aligned, fun c hc => ?_, h.returned, h.closed, h.unused,
      fun hused => ⟨rfl, (h.drained hused).2⟩⟩
    have hrunning := h.owned c hc
    cases c with
    | flushLoop => cases waiting.symm.trans hrunning
    | worker | flush | close => exact hrunning
  | closeSink returned unused =>
    refine ⟨h.aligned, fun c hc => ?_, fun _ => returned, fun hpos => ?_, fun _ => ?_, by simp⟩
    · have hrunning := h.owned c hc
      cases c with
      | close => cases unused.symm.trans hrunning
      | worker | flushLoop | flush => exact hrunning
    · cases unused.symm.trans (h.closed hpos)
    · exact h.unused (.inl unused)
  | lastFlush waiting returned =>
    refine ⟨enter_aligned h.aligned (close_sending s.sink), fun c hc => ?_,
      fun _ => h.returned (by simp [waiting]), fun hpos => ?_, fun hopen => ?_, fun _ => ?_⟩
    · rcases mem_enter hc with hc | rfl
      · have hrunning := h.owned c hc
        cases c with
        | close => rfl
        | worker | flushLoop | flush => exact hrunning
      · rfl
    · cases waiting.symm.trans (h.closed hpos)
    · have hopen : CloseOnce.flushing = .unused ∨ CloseOnce.flushing = .waiting := hopen
      simp at hopen
    · refine ⟨returned, ?_⟩
      show (ClickHouse.step batchSize s.sink .close).exporter.pending = 0
      simp [ClickHouse.step, h.unused (.inr waiting), ClickHouse.leave, ClickHouse.closeLocked]
  | sinkClosed flushing sent =>
    refine ⟨h.aligned, fun c hc => ?_, fun _ => h.returned (by simp [flushing]), fun _ => rfl,
      by simp, fun _ => h.drained (.inl flushing)⟩
    have hrunning := h.owned c hc
    cases c with
    | close => exact absurd hc sent
    | worker | flushLoop | flush => exact hrunning

/-! ## The account -/

structure Inv (batchSize : Nat) (s : State) : Prop where
  parts : Parts batchSize s
  inside : Inside s
  rows : Rows s
  shutdown : Shutdown s

theorem Inv.took (h : Inv batchSize s) (htook : Took capacity batchSize s s') : Inv batchSize s' :=
  ⟨h.parts.took htook, h.inside.took htook h.shutdown.aligned,
    h.rows.took h.parts h.inside htook, h.shutdown.took htook⟩

theorem newExporter_inv (workers : Nat) (interval : Bool) (hsize : 0 < batchSize) :
    Inv batchSize (newExporter workers interval) where
  parts := by
    refine ⟨newBufferedExporter_inv workers, ?_, ClickHouse.newExporter_inv hsize⟩
    simp [Counted, newExporter, newBufferedExporter, busy]
  inside := ⟨List.nodup_nil, by simp [newExporter], rfl⟩
  rows := ⟨fun j hj => absurd hj (Nat.lt_irrefl 0), fun _ => Nat.zero_le 1⟩
  shutdown := ⟨rfl, by simp [newExporter], by simp [newExporter],
    fun hpos => absurd hpos (Nat.lt_irrefl 0), fun _ => rfl, by simp [newExporter]⟩

theorem run_delivery_inv (capacity workers : Nat) (interval : Bool) (hsize : 0 < batchSize)
    (as : List Action) :
    Inv batchSize (runFrom (step capacity batchSize) (newExporter workers interval) as) :=
  runFrom_invariant (fun _ _ _ hs => guarded_keeps hs fun _ hnext => hs.took (next_took hnext))
    (newExporter_inv workers interval hsize)

theorem fates_length (fates : List (Item × Fate)) :
    fates.length = fates.countP (·.2 = .accepted) + fates.countP (·.2 = .failed) +
      fates.countP (·.2 = .dropped) := by
  induction fates with
  | nil => rfl
  | cons p fates ih =>
    obtain ⟨item, fate⟩ := p
    rw [List.length_cons, ih]
    cases fate <;> simp <;> omega

theorem busy_returned {b : Buffered.State} (h : allReturned b = true) : busy b.workers = 0 := by
  refine List.sum_eq_zero fun n hn => ?_
  obtain ⟨w, hw, rfl⟩ := List.mem_map.mp hn
  have hreturned := List.all_eq_true.mp h w hw
  cases w with
  | returned => rfl
  | waiting | draining | exporting => cases hreturned

/-- Nobody is in the sink once all calls are back. -/
theorem Inv.quiet (h : Inv batchSize s) (hback : AllBack s) :
    s.inside = [] ∧ s.sink.sending = [] ∧ s.sink.exporter.pending = 0 ∧ busy s.buffered.workers = 0 := by
  have hall := h.parts.buffered.closed hback.buffered.closed
  have hdone := h.shutdown.closed hback.buffered.closed
  obtain ⟨hloop, hpending⟩ := h.shutdown.drained (.inr hdone)
  have hinside : s.inside = [] := by
    refine List.eq_nil_iff_forall_not_mem.mpr fun i hi => ?_
    obtain ⟨item, draining, hworker⟩ := h.inside.busy i hi
    rw [not_allReturned hworker rfl] at hall
    cases hall
  have hsenders : s.senders = [] := by
    refine List.eq_nil_iff_forall_not_mem.mpr fun c hc => ?_
    have hrunning := h.shutdown.owned c hc
    cases c with
    | worker i =>
      rw [State.Running, hinside] at hrunning
      cases hrunning
    | flushLoop => cases hloop.symm.trans hrunning
    | flush => exact hback.flush hc
    | close => cases hdone.symm.trans hrunning
  have haligned := h.shutdown.aligned
  rw [hsenders] at haligned
  exact ⟨hinside, List.length_eq_zero_iff.mp haligned.symm, hpending, busy_returned hall⟩

theorem delivered_count (s : State) (j : Nat) :
    (s.delivered.map Item.id).count j ≤ ClickHouse.inSink (named j) s.sink := by
  have hcount : ∀ items : List Item, (items.map Item.id).count j = (items.map (named j)).sum := by
    intro items
    induction items with
    | nil => rfl
    | cons item items ih =>
      rw [List.map_cons, List.count_cons, ih, List.map_cons, List.sum_cons, Nat.add_comm]
      simp [named]
  have hsends : ∀ sends : List (ClickHouse.Batch Item × Bool),
      ((sends.filter (·.2)).flatMap (·.1.rows) |>.map (named j)).sum ≤
        (sends.map fun p => ClickHouse.weight (named j) (some p.1)).sum := by
    intro sends
    induction sends with
    | nil => exact Nat.le_refl _
    | cons p sends ih =>
      obtain ⟨b, ok⟩ := p
      cases ok <;> simp at ih ⊢ <;> omega
  rw [hcount]
  exact Nat.le_trans (hsends _) (Nat.le_add_left _ _)

end

/-- **Every audit event becomes one row or is reported.** However the calls, the workers, the sends
and the shutdown interleave and whatever the driver answers: no event is delivered twice, and once
all calls have returned the events that were exported are the rows delivered and those that
`Dropped`, `Failed` and `QueueLen` report. -/
theorem audit_events_delivered_or_reported (capacity workers : Nat) (interval : Bool)
    {batchSize : Nat} (hsize : 0 < batchSize) (as : List Action) :
    let s := runFrom (step capacity batchSize) (newExporter workers interval) as
    (s.delivered.map Item.id).Nodup ∧ (∀ item ∈ s.delivered, item.id < s.buffered.calls) ∧
    (AllBack s → s.buffered.calls =
      s.delivered.length + s.droppedEvents + s.failedEvents + s.queueLen) := by
  intro s
  have h : Inv batchSize s := run_delivery_inv capacity workers interval hsize as
  refine ⟨?_, fun item hitem => ?_, fun hback => ?_⟩
  · rw [List.nodup_iff_count_le_one]
    exact fun j => Nat.le_trans (delivered_count s j) (h.rows.once j)
  · have hpos : 0 < ClickHouse.inSink (named item.id) s.sink :=
      Nat.lt_of_lt_of_le (List.count_pos_iff.mpr (List.mem_map_of_mem hitem)) (delivered_count s _)
    have hplaces := h.parts.buffered.places item.id
    have hheld : 0 < inWorkers item.id s.buffered.workers + inFates item.id s.buffered.fates := by
      rcases h.rows.known item.id hpos with hfate | ⟨i, -, w, hw, hnamed⟩
      · omega
      · have := sum_map_eraseIdx (Worker.named item.id) hw
        unfold inWorkers
        omega
    by_contra hge
    rw [if_neg hge] at hplaces
    omega
  · obtain ⟨hinside, hsending, hpending, hbusy⟩ := h.quiet hback
    have hcounted := h.parts.counted
    have hfates := fates_length s.buffered.fates
    have hexports := h.inside.exports
    have hrows := h.parts.sink.conserved
    have hbatch := h.parts.sink.pending
    have hdelivered : s.delivered.length = ClickHouse.sentRows s.sink.sends := by
      rw [State.delivered, List.length_flatMap]
      rfl
    have hdropped := h.parts.buffered.dropped
    have hfailed := h.parts.buffered.failed
    rw [Counted, hback.buffered.selecting, hbusy, List.length_nil] at hcounted
    rw [hinside, List.length_nil] at hexports
    have hsent : ClickHouse.sendingRows s.sink.sending = 0 := by
      rw [hsending]
      rfl
    unfold State.droppedEvents State.failedEvents State.queueLen
    omega

/-- Three events in batches of two rows: the second makes a batch full, and what is left is sent,
without success, when the exporter is closed. -/
def orderlyClose : List Action :=
  let through : List Action := [.queue (.call allowEvent), .queue (.enqueue 0), .queue (.take 0),
    .export 0 ⟨true, true, true⟩]
  through ++ [.exported 0] ++ through ++ [.send 0 true, .exported 0] ++ through ++ [.exported 0,
    .queue .close, .queue (.seeDone 0), .queue (.quit 0), .closeSink, .lastFlush, .send 0 false,
    .sinkClosed, .closeReturns]

def closedExporter : State := runFrom (step 1 2) (newExporter 1 false) orderlyClose

theorem closedExporter_reports : closedExporter.buffered.calls = 3 ∧
    closedExporter.failedEvents = 1 ∧ closedExporter.delivered.length = 2 := by
  have hback : AllBack closedExporter :=
    ⟨⟨by decide +kernel, by decide +kernel, by decide +kernel⟩, by decide +kernel⟩
  have hcounts : closedExporter.buffered.calls = 3 ∧ closedExporter.droppedEvents = 0 ∧
      closedExporter.failedEvents = 1 ∧ closedExporter.queueLen = 0 := by
    decide +kernel
  have hreported := (@audit_events_delivered_or_reported 1 1 false 2 (by decide) orderlyClose).2.2
  rw [← closedExporter] at hreported
  have hdelivered := hreported hback
  exact ⟨hcounts.1, hcounts.2.2.1, by omega⟩

end ElchiShield.Audit.Delivery
