import ElchiShield.Config.Load
import ElchiShield.Runtime.Snapshot

/-! # Reloading

Package `runtime`, store.go and reloader.go. What a reload meets on disk is its input: the
config directory, which may change under the reload, and the files the config refers to. -/
namespace ElchiShield.Runtime
open ElchiShield.Go ElchiShield.Config ElchiShield.Policy

inductive Outcome where
  | applied
  | unchanged
  | empty
  | failed
  deriving DecidableEq

/-- The active snapshot; one always exists. -/
structure Store where
  active : Snapshot

def newStore : Store := ⟨emptySnapshot⟩

structure Disk where
  dir : DirView
  files : FileSystem

inductive ReloadError where
  | load (err : LoadError)
  | snapshot (err : SnapshotError)

structure Reloaded where
  outcome : Outcome
  /-- The snapshot that is active after the call. -/
  active : Snapshot
  err : Option ReloadError := none
  /-- What the retire callback was called with. -/
  retired : List Snapshot := []

/-- `retire` says whether a callback is registered. -/
structure Reloader where
  dir : Bytes
  retire : Bool

variable [Library] [Heap] [Decoder] [Constructors] [Hasher]

def reload (r : Reloader) (store : Store) (disk : Disk) : Reloaded × Store :=
  let prev := store.active
  match load r.dir disk.dir with
  | .error .emptyConfigDir => ({ outcome := .empty, active := prev }, store)
  | .error e => ({ outcome := .failed, active := prev, err := some (.load e) }, store)
  | .ok cfg => match computeHash cfg with
    | .error e =>
      ({ outcome := .failed, active := prev, err := some (.snapshot (.hash e)) }, store)
    | .ok hash =>
      if prev.hash = hash then ({ outcome := .unchanged, active := prev }, store)
      else match newSnapshot disk.files cfg with
        | .error e => ({ outcome := .failed, active := prev, err := some (.snapshot e) }, store)
        | .ok snap =>
          ({ outcome := .applied
             active := snap
             retired := if r.retire && !prev.isEmpty then [prev] else [] }, ⟨snap⟩)

/-- Inversion: what a reload can do to the store. -/
theorem reload_cases {r : Reloader} {store store' : Store} {disk : Disk} {res : Reloaded}
    (h : reload r store disk = (res, store')) :
    (res.outcome ≠ .applied ∧ store' = store ∧ res.retired = [] ∧
      (res.outcome = .unchanged →
        ∃ cfg, load r.dir disk.dir = .ok cfg ∧ computeHash cfg = .ok store.active.hash)) ∨
    ∃ cfg, load r.dir disk.dir = .ok cfg ∧ newSnapshot disk.files cfg = .ok store'.active ∧
      res.outcome = .applied ∧
      res.retired = if r.retire && !store.active.isEmpty then [store.active] else [] := by
  unfold reload at h
  dsimp only at h
  split at h
  next =>
    obtain ⟨rfl, rfl⟩ := Prod.mk.inj h
    exact .inl ⟨by simp, rfl, rfl, by simp⟩
  next =>
    obtain ⟨rfl, rfl⟩ := Prod.mk.inj h
    exact .inl ⟨by simp, rfl, rfl, by simp⟩
  next cfg hload =>
    split at h
    next =>
      obtain ⟨rfl, rfl⟩ := Prod.mk.inj h
      exact .inl ⟨by simp, rfl, rfl, by simp⟩
    next hash hhash =>
      split at h
      next heq =>
        obtain ⟨rfl, rfl⟩ := Prod.mk.inj h
        exact .inl ⟨by simp, rfl, rfl, fun _ => ⟨cfg, hload, by rw [hhash, heq]⟩⟩
      next =>
        split at h
        next =>
          obtain ⟨rfl, rfl⟩ := Prod.mk.inj h
          exact .inl ⟨by simp, rfl, rfl, by simp⟩
        next snap hsnap =>
          obtain ⟨rfl, rfl⟩ := Prod.mk.inj h
          exact .inr ⟨cfg, hload, hsnap, rfl, rfl⟩

end ElchiShield.Runtime
