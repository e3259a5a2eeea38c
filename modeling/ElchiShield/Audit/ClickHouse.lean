import ElchiShield.Lib.Places
import Mathlib.Data.List.Nodup

/-! # The ClickHouse exporter

Package `audit/clickhouse`: rows are appended to a batch under a mutex, and a batch that is full,
or that a flush or the close takes away, is sent with the mutex released. The driver decides
whether a batch can be prepared, a row appended and a batch sent. -/
namespace ElchiShield.ClickHouse
open ElchiShield.Lib

variable {ρ : Type}

/-- A batch of the driver. Batches are told apart by `id`, the number of those prepared before. -/
structure Batch (ρ : Type) where
  id : Nat
  rows : List ρ

/-- What the mutex guards, and the counter of lost rows. -/
structure Exporter (ρ : Type) where
  batch : Option (Batch ρ) := none
  pending : Nat := 0
  dropped : Nat := 0
  prepared : Nat := 0

/-- What `detachLocked` returns: the batch and how many rows are pending in it. -/
abbrev Detached (ρ : Type) := Option (Batch ρ) × Nat

/-! ## The critical sections -/

def withBatch (e : Exporter ρ) : Exporter ρ :=
  { e with batch := some ⟨e.prepared, []⟩, pending := 0, prepared := e.prepared + 1 }

/-- `newBatch`, with the batch; `none` when it cannot be prepared. -/
def newBatch (prepares : Bool) (e : Exporter ρ) : Option (Batch ρ × Exporter ρ) :=
  if prepares then some (⟨e.prepared, []⟩, withBatch e) else none

def renewBatch (prepares : Bool) (e : Exporter ρ) : Exporter ρ :=
  if prepares then withBatch e else { e with batch := none, pending := 0 }

def detachLocked (prepares : Bool) (e : Exporter ρ) : Detached ρ × Exporter ρ :=
  ((e.batch, e.pending), renewBatch prepares e)

/-- The answers of the driver in a call of `Export`. -/
structure Answers where
  prepares : Bool
  appends : Bool
  renews : Bool

/-- `Export` once there is a batch. -/
def appendLocked (batchSize : Nat) (row : ρ) (o : Answers) (b : Batch ρ) (e : Exporter ρ) :
    Option (Detached ρ) × Exporter ρ :=
  if o.appends then
    let e := { e with batch := some { b with rows := b.rows ++ [row] }, pending := e.pending + 1 }
    if e.pending < batchSize then (none, e)
    else
      let r := detachLocked o.renews e
      (some r.1, r.2)
  else (none, renewBatch o.renews { e with dropped := e.dropped + (e.pending + 1) })

/-- `Export` up to the release of the mutex, with the batch that it is to send. -/
def exportLocked (batchSize : Nat) (row : ρ) (o : Answers) (e : Exporter ρ) :
    Option (Detached ρ) × Exporter ρ :=
  match e.batch with
  | some b => appendLocked batchSize row o b e
  | none => match newBatch o.prepares e with
    | none => (none, { e with dropped := e.dropped + 1 })
    | some (b, e) => appendLocked batchSize row o b e

def flushLocked (prepares : Bool) (e : Exporter ρ) : Option (Detached ρ) × Exporter ρ :=
  if e.pending = 0 then (none, e)
  else
    let r := detachLocked prepares e
    (some r.1, r.2)

def closeLocked (e : Exporter ρ) : Option (Detached ρ) × Exporter ρ :=
  (some (e.batch, e.pending), { e with batch := none, pending := 0 })

/-! ## Calls in any order -/

/-- `sending` has the batches of the calls that have left the mutex and have yet to send,
`sends` the batches whose `Send` has returned, and whether it succeeded. -/
structure System (ρ : Type) where
  exporter : Exporter ρ
  sending : List (Detached ρ) := []
  sends : List (Batch ρ × Bool) := []
  exports : Nat := 0
  closed : Bool := false

inductive Action (ρ : Type) where
  | «export» (row : ρ) (o : Answers)
  | flush (prepares : Bool)
  | close
  | send (i : Nat) (succeeds : Bool)

def leave (s : System ρ) (r : Option (Detached ρ) × Exporter ρ) : System ρ :=
  { s with exporter := r.2, sending := s.sending ++ r.1.toList }

/-- `send`, by the call that has `d`. -/
def sendDetached (d : Detached ρ) (succeeds : Bool) (s : System ρ) : System ρ :=
  match d.1 with
  | none => s
  | some b =>
    if d.2 = 0 then s
    else if succeeds then { s with sends := s.sends ++ [(b, true)] }
    else
      { s with
        sends := s.sends ++ [(b, false)]
        exporter := { s.exporter with dropped := s.exporter.dropped + d.2 } }

/-- The body of `Close` runs once. -/
def step (batchSize : Nat) (s : System ρ) : Action ρ → System ρ
  | .export row o =>
    leave { s with exports := s.exports + 1 } (exportLocked batchSize row o s.exporter)
  | .flush prepares => leave s (flushLocked prepares s.exporter)
  | .close =>
    if s.closed then s else leave { s with closed := true } (closeLocked s.exporter)
  | .send i succeeds => match s.sending[i]? with
    | none => s
    | some d => sendDetached d succeeds { s with sending := s.sending.eraseIdx i }

/-- The exporter `newExporter` returns once the first batch is prepared. -/
def newExporter : System ρ := { exporter := withBatch {} }

def run (batchSize : Nat) (as : List (Action ρ)) : System ρ := as.foldl (step batchSize) newExporter

/-! ## The account of a critical section -/

def rowsOf (b : Option (Batch ρ)) : Nat := b.elim 0 fun b => b.rows.length

/-- Whether it is the batch `i`, as a number. -/
def holds (i : Nat) (b : Option (Batch ρ)) : Nat := b.elim 0 fun b => if b.id = i then 1 else 0

@[simp] theorem rowsOf_none : rowsOf (none : Option (Batch ρ)) = 0 := rfl
@[simp] theorem rowsOf_some (b : Batch ρ) : rowsOf (some b) = b.rows.length := rfl
@[simp] theorem holds_none (i : Nat) : holds i (none : Option (Batch ρ)) = 0 := rfl
@[simp] theorem holds_some (i : Nat) (b : Batch ρ) :
    holds i (some b) = if b.id = i then 1 else 0 := rfl

/-- Whether the batch `i` was prepared on the way from `e` to `e'`, as a number. -/
def prepares (i : Nat) (e e' : Exporter ρ) : Nat :=
  if e.prepared ≤ i ∧ i < e'.prepared then 1 else 0

/-- No row comes or goes between `e` with `new` rows, and `e'` with what is detached. -/
structure Kept (new : Nat) (e : Exporter ρ) (r : Option (Detached ρ) × Exporter ρ) : Prop where
  pending : r.2.pending = rowsOf r.2.batch
  detached : ∀ d, r.1 = some d → d.2 = rowsOf d.1
  rows : rowsOf e.batch + e.dropped + new =
    rowsOf r.2.batch + r.2.dropped + r.1.elim 0 fun d => rowsOf d.1
  prepared : e.prepared ≤ r.2.prepared
  once : ∀ i, (holds i r.2.batch + r.1.elim 0 fun d => holds i d.1) ≤
    holds i e.batch + prepares i e r.2

section
variable {e : Exporter ρ}

theorem prepares_next {e' : Exporter ρ} (i : Nat) (h : e'.prepared = e.prepared + 1) :
    prepares i e e' = if e.prepared = i then 1 else 0 := by
  unfold prepares
  rw [h]
  congr 1
  rw [eq_iff_iff]
  omega

theorem Kept.refl (h : e.pending = rowsOf e.batch) : Kept 0 e (none, e) where
  pending := h
  detached := by simp
  rows := rfl
  prepared := Nat.le_refl _
  once i := by simp

theorem Kept.trans {m n : Nat} {e' : Exporter ρ} {r : Option (Detached ρ) × Exporter ρ}
    (h : Kept m e (none, e')) (h' : Kept n e' r) : Kept (m + n) e r where
  pending := h'.pending
  detached := h'.detached
  rows := by
    have hrows := h.rows
    have hrows' := h'.rows
    dsimp only [Option.elim] at hrows
    omega
  prepared := Nat.le_trans h.prepared h'.prepared
  once i := by
    have honce := h.once i
    have honce' := h'.once i
    have hle := h.prepared
    have hle' := h'.prepared
    unfold prepares at honce honce' ⊢
    dsimp only [Option.elim] at honce hle
    split at honce <;> split at honce' <;> split <;> omega

/-- The rows of a batch that is thrown away are counted. -/
theorem renewBatch_kept (ok : Bool) {dropped : Nat} (new : Nat)
    (h : dropped = e.dropped + (rowsOf e.batch + new)) :
    Kept new e (none, renewBatch ok { e with dropped }) := by
  cases ok with
  | true =>
    refine ⟨rfl, by simp, ?_, Nat.le_succ _, ?_⟩
    · simp [renewBatch, withBatch]
      omega
    · intro i
      rw [prepares_next i (by rfl)]
      simp [renewBatch, withBatch]
  | false =>
    refine ⟨rfl, by simp, ?_, Nat.le_refl _, ?_⟩
    · simp [renewBatch]
      omega
    · intro i
      simp [renewBatch]

theorem detachLocked_kept (ok : Bool) (h : e.pending = rowsOf e.batch) :
    Kept 0 e (some (detachLocked ok e).1, (detachLocked ok e).2) := by
  cases ok with
  | true =>
    refine ⟨rfl, by simpa [detachLocked] using h, ?_, Nat.le_succ _, ?_⟩
    · simp [detachLocked, renewBatch, withBatch]
      omega
    · intro i
      rw [prepares_next i (by rfl)]
      simp [detachLocked, renewBatch, withBatch]
      omega
  | false =>
    refine ⟨rfl, by simpa [detachLocked] using h, ?_, Nat.le_refl _, ?_⟩
    · simp [detachLocked, renewBatch]
      omega
    · intro i
      simp [detachLocked, renewBatch]

theorem withBatch_kept (h : e.batch = none) : Kept 0 e (none, withBatch e) := by
  refine ⟨rfl, by simp, ?_, Nat.le_succ _, ?_⟩
  · simp [withBatch, h]
  · intro i
    rw [prepares_next i (by rfl)]
    simp [withBatch]

theorem appendLocked_kept (batchSize : Nat) (row : ρ) (o : Answers) {b : Batch ρ}
    (hb : e.batch = some b) (h : e.pending = rowsOf e.batch) :
    Kept 1 e (appendLocked batchSize row o b e) := by
  have happend : Kept 1 e (none, { e with
      batch := some { b with rows := b.rows ++ [row] }, pending := e.pending + 1 }) := by
    refine ⟨?_, by simp, ?_, Nat.le_refl _, ?_⟩
    · simp [h, hb]
    · simp [hb]
      omega
    · intro i
      simp [hb]
  unfold appendLocked
  split
  next =>
    dsimp only
    split
    next => exact happend
    next => exact happend.trans (detachLocked_kept o.renews happend.pending)
  next => exact renewBatch_kept o.renews 1 (by rw [h])

theorem exportLocked_kept (batchSize : Nat) (row : ρ) (o : Answers)
    (h : e.pending = rowsOf e.batch) : Kept 1 e (exportLocked batchSize row o e) := by
  unfold exportLocked
  split
  next b hb => exact appendLocked_kept batchSize row o hb h
  next hb =>
    unfold newBatch
    cases o.prepares with
    | true =>
      exact (withBatch_kept hb).trans (appendLocked_kept batchSize row o rfl rfl)
    | false =>
      refine ⟨h, by simp, ?_, Nat.le_refl _, ?_⟩
      · simp
        omega
      · intro i
        simp

theorem flushLocked_kept (ok : Bool) (h : e.pending = rowsOf e.batch) :
    Kept 0 e (flushLocked ok e) := by
  unfold flushLocked
  split
  · exact .refl h
  · exact detachLocked_kept ok h

theorem closeLocked_kept (h : e.pending = rowsOf e.batch) : Kept 0 e (closeLocked e) := by
  refine ⟨rfl, by simpa [closeLocked] using h, ?_, Nat.le_refl _, ?_⟩
  · simp [closeLocked]
    omega
  · intro i
    simp [closeLocked]

/-! The batch is never left full. -/

theorem renewBatch_pending (ok : Bool) (e : Exporter ρ) : (renewBatch ok e).pending = 0 := by
  cases ok <;> rfl

theorem appendLocked_below {batchSize : Nat} (hsize : 0 < batchSize) (row : ρ) (o : Answers)
    (b : Batch ρ) (e : Exporter ρ) : (appendLocked batchSize row o b e).2.pending < batchSize := by
  unfold appendLocked
  split
  next =>
    dsimp only
    split
    next hlt => exact hlt
    next =>
      show (renewBatch o.renews _).pending < batchSize
      rwa [renewBatch_pending]
  next =>
    show (renewBatch o.renews _).pending < batchSize
    rwa [renewBatch_pending]

theorem exportLocked_below {batchSize : Nat} (row : ρ) (o : Answers)
    (h : e.pending < batchSize) : (exportLocked batchSize row o e).2.pending < batchSize := by
  have hsize : 0 < batchSize := by omega
  unfold exportLocked
  split
  next => exact appendLocked_below hsize row o _ e
  next =>
    split
    next => exact h
    next => exact appendLocked_below hsize row o _ _

theorem flushLocked_below {batchSize : Nat} (ok : Bool) (h : e.pending < batchSize) :
    (flushLocked ok e).2.pending < batchSize := by
  unfold flushLocked
  split
  · exact h
  · show (renewBatch ok e).pending < batchSize
    rw [renewBatch_pending]
    omega

end

/-! ## Conservation -/

/-- The rows of the batches whose `Send` has succeeded. -/
def sentRows (sends : List (Batch ρ × Bool)) : Nat :=
  ((sends.filter (·.2)).map fun p => p.1.rows.length).sum

/-- The rows of the batches that are detached and have yet to be sent. -/
def sendingRows (sending : List (Detached ρ)) : Nat := (sending.map fun d => rowsOf d.1).sum

theorem sentRows_send (sends : List (Batch ρ × Bool)) (b : Batch ρ) (ok : Bool) :
    sentRows (sends ++ [(b, ok)]) = sentRows sends + if ok then b.rows.length else 0 := by
  cases ok <;> simp [sentRows]

/-- How often the batch `i` is there. -/
def detachedAs (i : Nat) (sending : List (Detached ρ)) : Nat :=
  (sending.map fun d => holds i d.1).sum

def sentAs (i : Nat) (sends : List (Batch ρ × Bool)) : Nat := (sends.map fun p => p.1.id).count i

theorem sentAs_send (i : Nat) (sends : List (Batch ρ × Bool)) (b : Batch ρ) (ok : Bool) :
    sentAs i (sends ++ [(b, ok)]) = sentAs i sends + holds i (some b) := by
  simp [sentAs, List.count_singleton]

structure Inv (batchSize : Nat) (s : System ρ) : Prop where
  pending : s.exporter.pending = rowsOf s.exporter.batch
  below : s.exporter.pending < batchSize
  detached : ∀ d ∈ s.sending, d.2 = rowsOf d.1
  conserved : s.exports =
    sentRows s.sends + s.exporter.dropped + rowsOf s.exporter.batch + sendingRows s.sending
  once : ∀ i, holds i s.exporter.batch + detachedAs i s.sending + sentAs i s.sends ≤
    if i < s.exporter.prepared then 1 else 0

section
variable {batchSize : Nat} {s : System ρ}

theorem newExporter_inv (hsize : 0 < batchSize) : Inv batchSize (newExporter : System ρ) where
  pending := rfl
  below := hsize
  detached := by simp [newExporter]
  conserved := rfl
  once i := by
    show (if 0 = i then 1 else 0) ≤ if i < 1 then 1 else 0
    split <;> split <;> omega

theorem Inv.leave (h : Inv batchSize s) {new : Nat} {r : Option (Detached ρ) × Exporter ρ}
    (hr : Kept new s.exporter r) (hbelow : r.2.pending < batchSize) :
    Inv batchSize (leave { s with exports := s.exports + new } r) where
  pending := hr.pending
  below := hbelow
  detached := by
    intro d hd
    rcases List.mem_append.mp hd with hd | hd
    · exact h.detached d hd
    · exact hr.detached d (Option.mem_toList.mp hd)
  conserved := by
    have hsending : sendingRows (s.sending ++ r.1.toList) =
        sendingRows s.sending + r.1.elim 0 fun d => rowsOf d.1 := by
      cases r.1 <;> simp [sendingRows]
    have hconserved := h.conserved
    have hrows := hr.rows
    dsimp only [ClickHouse.leave]
    omega
  once i := by
    have hsending : detachedAs i (s.sending ++ r.1.toList) =
        detachedAs i s.sending + r.1.elim 0 fun d => holds i d.1 := by
      cases r.1 <;> simp [detachedAs]
    have honce := h.once i
    have hsection := hr.once i
    have hprepared := hr.prepared
    unfold prepares at hsection
    show holds i r.2.batch + detachedAs i (s.sending ++ r.1.toList) + sentAs i s.sends ≤
      if i < r.2.prepared then 1 else 0
    split at honce <;> split at hsection <;> split <;> omega

theorem Inv.send (h : Inv batchSize s) {i : Nat} {d : Detached ρ} (hd : s.sending[i]? = some d)
    (ok : Bool) :
    Inv batchSize (sendDetached d ok { s with sending := s.sending.eraseIdx i }) := by
  have hn : d.2 = rowsOf d.1 := h.detached d (List.mem_of_getElem? hd)
  have hrest : ∀ d ∈ s.sending.eraseIdx i, d.2 = rowsOf d.1 :=
    fun d hd => h.detached d (List.mem_of_mem_eraseIdx hd)
  have hrows : sendingRows s.sending = rowsOf d.1 + sendingRows (s.sending.eraseIdx i) :=
    sum_map_eraseIdx _ hd
  have hholds : ∀ j, detachedAs j s.sending = holds j d.1 + detachedAs j (s.sending.eraseIdx i) :=
    fun j => sum_map_eraseIdx _ hd
  have hconserved := h.conserved
  -- a call that has nothing to send
  have hidle : rowsOf d.1 = 0 → Inv batchSize { s with sending := s.sending.eraseIdx i } := by
    intro hzero
    refine ⟨h.pending, h.below, hrest, ?_, ?_⟩
    · dsimp only
      omega
    · intro j
      have honce := h.once j
      have := hholds j
      dsimp only
      omega
  obtain ⟨b, n⟩ := d
  cases b with
  | none => exact hidle rfl
  | some b =>
    unfold sendDetached
    dsimp only at hn hrows hholds ⊢
    rw [rowsOf_some] at hn hrows
    have hplaces : ∀ j, holds j s.exporter.batch + detachedAs j (s.sending.eraseIdx i) +
        sentAs j (s.sends ++ [(b, ok)]) ≤ if j < s.exporter.prepared then 1 else 0 := by
      intro j
      have honce := h.once j
      have hholds := hholds j
      rw [sentAs_send]
      omega
    have hsent := sentRows_send s.sends b ok
    split
    next hzero => exact hidle (hn ▸ hzero)
    next =>
      cases ok with
      | true =>
        rw [if_pos rfl] at hsent ⊢
        refine ⟨h.pending, h.below, hrest, ?_, hplaces⟩
        dsimp only
        omega
      | false =>
        rw [if_neg Bool.false_ne_true] at hsent ⊢
        refine ⟨h.pending, h.below, hrest, ?_, hplaces⟩
        dsimp only
        omega

theorem Inv.step (h : Inv batchSize s) (a : Action ρ) : Inv batchSize (step batchSize s a) := by
  cases a with
  | «export» row o =>
    exact h.leave (exportLocked_kept batchSize row o h.pending) (exportLocked_below row o h.below)
  | flush ok => exact h.leave (flushLocked_kept ok h.pending) (flushLocked_below ok h.below)
  | close =>
    dsimp only [ClickHouse.step]
    split
    · exact h
    · have hclosed : Inv batchSize { s with closed := true } :=
        ⟨h.pending, h.below, h.detached, h.conserved, h.once⟩
      exact hclosed.leave (closeLocked_kept h.pending) (Nat.lt_of_le_of_lt (Nat.zero_le _) h.below)
  | send i ok =>
    dsimp only [ClickHouse.step]
    split
    next => exact h
    next d hd => exact h.send hd ok

end

theorem run_inv {batchSize : Nat} (hsize : 0 < batchSize) (as : List (Action ρ)) :
    Inv batchSize (run batchSize as) :=
  List.foldlRecOn as (step batchSize) (newExporter_inv hsize) fun _ h a _ => h.step a

/-- After any calls and sends, in any order and whatever the driver answers, every exported row
is in a batch that was sent, counted as lost, pending or in a batch that is yet to be sent. No
batch is sent twice, and the current one is never full. -/
theorem rows_conserved (batchSize : Nat) (hsize : 0 < batchSize) (as : List (Action ρ)) :
    let s := run batchSize as
    s.exports =
        sentRows s.sends + s.exporter.dropped + s.exporter.pending + sendingRows s.sending ∧
      s.exporter.pending = rowsOf s.exporter.batch ∧
      (s.sends.map (·.1.id)).Nodup ∧ s.exporter.pending < batchSize := by
  intro s
  have h : Inv batchSize s := run_inv hsize as
  refine ⟨?_, h.pending, ?_, h.below⟩
  · rw [h.pending]
    exact h.conserved
  · rw [List.nodup_iff_count_le_one]
    intro i
    have honce := h.once i
    unfold sentAs at honce
    split at honce <;> omega

theorem failed_send_counts_rows :
    let good : Answers := ⟨true, true, true⟩
    let s := run 2 [.export 'a' good, .export 'b' good, .export 'c' ⟨true, false, true⟩,
      .send 0 false]
    s.exporter.dropped = 3 := by
  intro good s
  have hrows : s.exports =
      sentRows s.sends + s.exporter.dropped + s.exporter.pending + sendingRows s.sending :=
    (rows_conserved 2 (by decide) _).1
  have hrest : s.exports = 3 ∧ sentRows s.sends = 0 ∧ s.exporter.pending = 0 ∧
      sendingRows s.sending = 0 := by decide
  omega

end ElchiShield.ClickHouse
