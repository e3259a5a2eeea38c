import ElchiShield.Lib.Runs
import ElchiShield.Runtime.Reloader

/-! # What operators are told about reloads

Package `runtime`, reload_status.go, and `doReload` of the command: the status behind /configz
and the reload metrics are kept beside the store. Both are functions of what the reloads since
the start came to. -/
namespace ElchiShield.Runtime
open ElchiShield.Go ElchiShield.Config ElchiShield.Policy ElchiShield.Lib

/-! ## The status -/

structure ReloadState where
  lastError : Bytes
  failures : UInt64
  failedAt : Nat

/-- The zero value has no state. -/
structure ReloadStatus where
  p : Option ReloadState := none

namespace ReloadStatus

def recordFailure (s : ReloadStatus) (reason : Bytes) (now : Nat) : ReloadStatus :=
  ⟨some ⟨reason, (s.p.map ReloadState.failures).getD 0 + 1, now⟩⟩

def recordSuccess (s : ReloadStatus) : ReloadStatus :=
  match s.p with
  | none => s
  | some prev => if prev.lastError = [] then s else ⟨some { prev with lastError := [] }⟩

/-- The parts of `Snapshot`. -/
def lastError (s : ReloadStatus) : Bytes := (s.p.map ReloadState.lastError).getD []
def failures (s : ReloadStatus) : UInt64 := (s.p.map ReloadState.failures).getD 0

@[simp] theorem lastError_recordFailure (s : ReloadStatus) (reason : Bytes) (now : Nat) :
    (s.recordFailure reason now).lastError = reason := rfl

@[simp] theorem failures_recordFailure (s : ReloadStatus) (reason : Bytes) (now : Nat) :
    (s.recordFailure reason now).failures = s.failures + 1 := rfl

@[simp] theorem lastError_recordSuccess (s : ReloadStatus) : s.recordSuccess.lastError = [] := by
  unfold recordSuccess
  split
  next hp => simp [lastError, hp]
  next prev hp =>
    split
    next he => simp [lastError, hp, he]
    next => rfl

@[simp] theorem failures_recordSuccess (s : ReloadStatus) :
    s.recordSuccess.failures = s.failures := by
  unfold recordSuccess
  split
  next => rfl
  next prev hp =>
    split
    next => rfl
    next => simp [failures, hp]

end ReloadStatus

/-! ## The metrics -/

/-- The collectors of package `metrics` that `RecordReload` writes. `activeVersion` is the one
label the gauge has after its reset. -/
structure ReloadMetrics where
  reloadOK : Nat := 0
  reloadFail : Nat := 0
  reloadFailStreak : Nat := 0
  activeVersion : Option Bytes := none
  lastReloadOK : Option Nat := none

def ReloadMetrics.recordReload (m : ReloadMetrics) (outcome : Outcome) (version : Bytes)
    (now : Nat) : ReloadMetrics :=
  match outcome with
  | .applied => { m with
      reloadOK := m.reloadOK + 1
      activeVersion := some version
      lastReloadOK := some now
      reloadFailStreak := 0 }
  | .unchanged | .empty => { m with reloadFailStreak := 0 }
  | .failed => { m with
      reloadFail := m.reloadFail + 1
      reloadFailStreak := m.reloadFailStreak + 1 }

/-! ## doReload -/

def maxReasonBytes : Nat := 1024

/-- The mark of a cut reason begins with a space and an ellipsis. -/
def capReason (s : Bytes) : Bytes :=
  if s.length ≤ maxReasonBytes then s
  else s.take maxReasonBytes ++ [0x20, 0xE2, 0x80, 0xA6] ++ ascii "(truncated)"

/-- The switch of `doReload`. An emptied directory says nothing about the config before it. -/
def ReloadStatus.recordOutcome (s : ReloadStatus) (outcome : Outcome) (reason : Bytes) (now : Nat) :
    ReloadStatus :=
  match outcome with
  | .applied | .unchanged => s.recordSuccess
  | .empty => s
  | .failed => s.recordFailure reason now

/-- What reloads leave behind. -/
structure View where
  store : Store := newStore
  status : ReloadStatus := {}
  metrics : ReloadMetrics := {}

section
variable [Library] [Heap] [Decoder] [Constructors] [Hasher] (r : Reloader)
  (text : ReloadError → Bytes)

/-- The reason that is recorded for a failed reload. -/
def reason (out : Reloaded) : Bytes := capReason ((out.err.map text).getD [])

/-- `doReload` at a time; `text` is the text of an error. -/
def doReload (v : View) (at_ : Disk × Nat) : Reloaded × View :=
  let (out, store) := reload r v.store at_.1
  (out,
    { store
      metrics := v.metrics.recordReload out.outcome out.active.version at_.2
      status := v.status.recordOutcome out.outcome (reason text out) at_.2 })

/-! ## The history -/

def isApplied (out : Reloaded) : Bool := out.outcome = .applied
def isFailed (out : Reloaded) : Bool := out.outcome = .failed

/-- The reload has shown that the directory holds a config in effect. -/
def clears (out : Reloaded) : Bool := out.outcome = .applied || out.outcome = .unchanged

/-- What a view tells of the reloads behind it, the last one first. -/
structure Told (outs : List Reloaded) (v : View) : Prop where
  active : v.store.active = ((outs.find? isApplied).map Reloaded.active).getD emptySnapshot
  version : v.metrics.activeVersion = (outs.find? isApplied).map fun out => out.active.version
  applied : v.metrics.reloadOK = outs.countP isApplied
  failed : v.metrics.reloadFail = outs.countP isFailed
  failures : v.status.failures = UInt64.ofNat (outs.countP isFailed)
  streak : v.metrics.reloadFailStreak = (outs.takeWhile isFailed).length
  /-- The last failure since the last reload that clears. -/
  lastError : v.status.lastError =
    (((outs.takeWhile fun out => !clears out).find? isFailed).map (reason text)).getD []

omit text in
/-- A reload returns the snapshot that is active after it. -/
theorem reload_active (store : Store) (disk : Disk) :
    (reload r store disk).1.active = (reload r store disk).2.active := by
  unfold reload
  dsimp only
  split
  next => rfl
  next => rfl
  next =>
    split
    next => rfl
    next =>
      split
      next => rfl
      next => split <;> rfl

theorem doReload_out (v : View) (i : Disk × Nat) :
    (doReload r text v i).1 = (reload r v.store i.1).1 := rfl

/-- The active snapshot changes with the reloads that are applied. -/
theorem doReload_active (v : View) (i : Disk × Nat) :
    (doReload r text v i).2.store.active =
      if isApplied (doReload r text v i).1 then (doReload r text v i).1.active
      else v.store.active := by
  show (reload r v.store i.1).2.active = _
  rw [doReload_out, reload_active]
  split
  next => rfl
  next hne =>
    obtain ⟨-, hstore, -⟩ | ⟨_, _, _, happ, -⟩ := reload_cases (Prod.mk.eta (p := reload r v.store i.1)).symm
    · rw [hstore]
    · exact absurd (by simp [isApplied, happ]) hne

/-- One more reload. -/
theorem Told.next {outs : List Reloaded} {v : View} (h : Told text outs v) (i : Disk × Nat) :
    Told text ((doReload r text v i).1 :: outs) (doReload r text v i).2 := by
  have hactive := doReload_active r text v i
  obtain ⟨out, hout⟩ : ∃ out, (doReload r text v i).1 = out := ⟨_, rfl⟩
  have hmetrics : (doReload r text v i).2.metrics =
      v.metrics.recordReload out.outcome out.active.version i.2 := by rw [← hout]; rfl
  have hstatus : (doReload r text v i).2.status =
      v.status.recordOutcome out.outcome (reason text out) i.2 := by rw [← hout]; rfl
  rw [hout] at hactive ⊢
  obtain ⟨hact, hversion, happlied, hfailed, hfailures, hstreak, hlast⟩ := h
  cases houtcome : out.outcome
  all_goals
    rw [houtcome] at hmetrics hstatus
    constructor <;>
      simp [ReloadMetrics.recordReload, ReloadStatus.recordOutcome, isApplied, isFailed, clears, *]

/-- After any reloads since the start, over any directories, the active snapshot, the status and
the metrics are what the outcomes of these reloads make them. -/
theorem reload_history (ins : List (Disk × Nat)) :
    Told text ((trace (doReload r text) {} ins).map Event.output).reverse
      (runFrom (doReload r text) {} ins) := by
  induction ins using List.reverseRecOn with
  | nil => exact ⟨rfl, rfl, rfl, rfl, rfl, rfl, rfl⟩
  | append_singleton ins i ih =>
    rw [trace_append, runFrom_append, List.map_append, List.reverse_append]
    exact ih.next r text i

end

end ElchiShield.Runtime
