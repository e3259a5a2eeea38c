import ElchiShield.Runtime.KeepLastGood
import ElchiShield.Runtime.Status
import ElchiShield.Watcher

/-! # From the directory to the active snapshot

The watcher calls `doReload`, which reads the config directory while others write to it. A read
that overlaps a change may see anything; the event of the change comes after it. So when the
watcher has nothing left to do, the last reload has read the directory as it is. -/
namespace ElchiShield.Runtime
open ElchiShield.Go ElchiShield.Config ElchiShield.Policy ElchiShield.Lib

structure System where
  watch : Watcher.State := {}
  view : View

/-- The watcher's own steps and those of the world, and the end of a callback. `torn` is what
the reload has read of a directory that changed under it, `files` are the files the config
refers to, which nobody watches. -/
inductive Step where
  | watcher (a : Watcher.Action)
  | reloaded (torn : DirView) (files : FileSystem)

section
variable [Library] [Heap] [Decoder] [Constructors] [Hasher] (w : Watcher) (r : Reloader)
  (text : ReloadError → Bytes) (dirs : Nat → DirView)

/-- What the callback that ends has read. -/
def diskRead (s : System) (torn : DirView) (files : FileSystem) : Disk where
  dir := if s.watch.seen = s.watch.version then dirs s.watch.version else torn
  files

/-- `dirs` has the versions of the config directory. -/
def System.next (s : System) : Step → Option System
  | .watcher .finish => none
  | .watcher a => (w.next s.watch a).map fun watch => { s with watch }
  | .reloaded torn files => (w.next s.watch .finish).map fun watch =>
    { watch, view := (doReload r text s.view (diskRead dirs s torn files, s.watch.now)).2 }

def System.step : System → Step → Bool × System := guarded (System.next w r text dirs)

variable {w r text dirs}

theorem next_cases {s s' : System} {a : Step} (h : System.next w r text dirs s a = some s') :
    (∃ b, a = .watcher b ∧ b ≠ .finish ∧ Watcher.Moved w s.watch b s'.watch ∧ s'.view = s.view) ∨
    ∃ torn files, a = .reloaded torn files ∧ Watcher.Moved w s.watch .finish s'.watch ∧
      s'.view = (doReload r text s.view (diskRead dirs s torn files, s.watch.now)).2 := by
  cases a with
  | watcher b =>
    by_cases hb : b = .finish
    · rw [hb] at h
      cases h
    · have hnext : (w.next s.watch b).map (fun watch => { s with watch }) = some s' := by
        cases b <;> first | exact h | exact absurd rfl hb
      obtain ⟨watch, hwatch, rfl⟩ := Option.map_eq_some_iff.mp hnext
      exact .inl ⟨b, rfl, hb, Watcher.next_moved hwatch, rfl⟩
  | reloaded torn files =>
    obtain ⟨watch, hwatch, rfl⟩ := Option.map_eq_some_iff.mp h
    exact .inr ⟨torn, files, rfl, Watcher.next_moved hwatch, rfl⟩

/-- The view is what a reload of this directory has left. -/
def LeftBy (r : Reloader) (text : ReloadError → Bytes) (dir : DirView) (v : View) : Prop :=
  ∃ before files now, v = (doReload r text before (⟨dir, files⟩, now)).2

/-- When the last callback has seen the directory as it is, and is over, the view is its. -/
structure Inv (w : Watcher) (r : Reloader) (text : ReloadError → Bytes) (dirs : Nat → DirView)
    (s : System) : Prop where
  covered : Watcher.Covered s.watch
  listening : Watcher.listening w s.watch = true
  behind : s.watch.seen ≤ s.watch.version
  loaded : s.watch.stage ≠ .calling → s.watch.seen = s.watch.version →
    LeftBy r text (dirs s.watch.version) s.view

/-- No event is dropped. -/
def Kept : Step → Prop
  | .watcher a => Watcher.Kept a
  | .reloaded _ _ => True

omit [Library] [Heap] [Decoder] [Constructors] [Hasher] in
theorem audible_of_kept {s : Watcher.State} {a : Watcher.Action} (ha : Watcher.Kept a)
    (h : Watcher.listening w s = true) : Watcher.Audible w s a := by
  cases a with
  | change => exact ⟨ha, h⟩
  | _ => trivial

theorem Inv.next {s s' : System} {a : Step} (h : Inv w r text dirs s) (ha : Kept a)
    (hnext : System.next w r text dirs s a = some s') : Inv w r text dirs s' := by
  obtain ⟨b, rfl, hb, hmoved, hview⟩ | ⟨torn, files, rfl, hmoved, hview⟩ := next_cases hnext
  · have hbehind := h.behind
    refine ⟨h.covered.moved (audible_of_kept ha h.listening) hmoved,
      Watcher.listening_moved h.listening ha hmoved, ?_, ?_⟩
    · obtain ⟨hv, hs⟩ | ⟨hv, hs⟩ | ⟨-, hv, hs⟩ := hmoved.versions <;> omega
    · intro hstage hseen
      obtain ⟨hv, hs⟩ | ⟨hv, hs⟩ | ⟨hcall, -⟩ := hmoved.versions
      · rw [hview, hv]
        exact h.loaded (fun hcall => hstage (hmoved.calling hb hcall)) (by omega)
      · omega
      · exact absurd hcall hstage
  · refine ⟨h.covered.moved (audible_of_kept (by trivial) h.listening) hmoved,
      Watcher.listening_moved h.listening (by trivial) hmoved, ?_, ?_⟩
    all_goals rw [hmoved.finished]
    · exact h.behind
    · intro _ hseen
      rw [hview]
      exact ⟨s.view, files, s.watch.now, by rw [diskRead, if_pos hseen]⟩

theorem run_inv {view : View} {as : List Step} (h : ∀ a ∈ as, Kept a) :
    Inv w r text dirs (runFrom (System.step w r text dirs) { view } as) :=
  guarded_run (C := fun e => Kept e.input) (fun _ _ _ hs ha hnext => hs.next ha hnext)
    ⟨.inr (.inr (.inr rfl)), rfl, Nat.zero_le _, fun _ hseen => absurd hseen Nat.zero_ne_one⟩
    fun _ he => h _ (trace_input_mem he)

/-! ## What the settled view says -/

/-- An error with which a directory is rejected: that of its loading, or that of the snapshot of
what was loaded. -/
inductive RejectedBy (r : Reloader) (dir : DirView) : ReloadError → Prop where
  | load (e : LoadError) (h : Config.load r.dir dir = .error e) : RejectedBy r dir (.load e)
  | snapshot (cfg : MergedConfig) (files : FileSystem) (e : SnapshotError)
      (hload : Config.load r.dir dir = .ok cfg) (h : newSnapshot files cfg = .error e) :
      RejectedBy r dir (.snapshot e)

/-- The view agrees with a directory: the directory has no config files, its config is rejected
and the reason is told, or its config is in effect. -/
inductive Reflects (r : Reloader) (text : ReloadError → Bytes) (dir : DirView) (v : View) : Prop where
  | empty (h : load r.dir dir = .error .emptyConfigDir)
  | rejected (e : ReloadError) (h : RejectedBy r dir e)
      (hlast : v.status.lastError = capReason (text e))
  | active (cfg : MergedConfig) (h : load r.dir dir = .ok cfg)
      (hhash : computeHash cfg = .ok v.store.active.hash) (hlast : v.status.lastError = [])

omit [Decoder] in
theorem newSnapshot_hash {files : FileSystem} {cfg : MergedConfig} {snap : Snapshot}
    (h : newSnapshot files cfg = .ok snap) : computeHash cfg = .ok snap.hash := by
  unfold newSnapshot at h
  split at h
  next => cases h
  next hash hhash =>
    split at h
    next => cases h
    next =>
      obtain rfl := Except.ok.inj h
      exact hhash

theorem LeftBy.reflects {dir : DirView} {v : View} (h : LeftBy r text dir v) :
    Reflects r text dir v := by
  obtain ⟨before, files, now, rfl⟩ := h
  unfold doReload reload
  dsimp only
  split
  next hload => exact .empty hload
  next e _ hload => exact .rejected _ (.load e hload) rfl
  next cfg hload =>
    split
    next e hhash =>
      refine .rejected _ (.snapshot cfg files (.hash e) hload ?_) rfl
      rw [newSnapshot, hhash]
    next hash hhash =>
      split
      next heq => exact .active cfg hload (by rw [hhash, heq]) (by simp [ReloadStatus.recordOutcome])
      next =>
        split
        next e hsnap => exact .rejected _ (.snapshot cfg files e hload hsnap) rfl
        next snap hsnap =>
          exact .active cfg hload (newSnapshot_hash hsnap) (by simp [ReloadStatus.recordOutcome])

/-- Whatever the boot reload has left, and however changes of the directory, reloads and the
steps of the watcher are interleaved: if no event is dropped, then whenever the watcher waits with
nothing to do, the active snapshot and the status agree with what the directory holds. -/
theorem settled_directory_is_reflected (w : Watcher) (r : Reloader) (text : ReloadError → Bytes)
    (dirs : Nat → DirView) (view : View) (as : List Step) (hkept : ∀ a ∈ as, Kept a)
    (hrest : Watcher.resting (runFrom (System.step w r text dirs) { view } as).watch = true) :
    let s := runFrom (System.step w r text dirs) { view } as
    Reflects r text (dirs s.watch.version) s.view := by
  intro s
  have h : Inv w r text dirs s := run_inv hkept
  have hstage : s.watch.stage = .selecting := by
    simp only [Watcher.resting, Bool.and_eq_true, decide_eq_true_eq] at hrest
    exact hrest.1.1
  exact (h.loaded (by simp [hstage]) (h.covered.seen hrest)).reflects

end

/-- A file is written to an empty directory while the watcher starts, and once more while the
first reload reads the directory. -/
theorem written_file_is_active :
    let _ := Library.nothing
    let _ := Heap.empty
    let _ := blockAllDecoder
    let _ := Constructors.nothing
    let _ := countingHasher
    let r : Reloader := ⟨ascii "/conf", true⟩
    let dirs := fun n => if n = 3 then (oneFile (.ok blockAllText)).dir else noFiles.dir
    let as := [.watcher (.stat true), .watcher (.change Watcher.written false), .watcher (.elapse 5),
      .watcher .expire, .watcher (.change Watcher.written false), .reloaded noFiles.dir noFiles.files,
      .watcher .receive, .watcher .receive, .watcher (.elapse 5), .watcher .expire,
      .reloaded noFiles.dir noFiles.files]
    let s := runFrom (System.step Watcher.quick r (fun _ => []) dirs) { view := {} } as
    Reflects r (fun _ => []) (dirs s.watch.version) s.view ∧
      s.view.store.active.sources = [ascii "/conf/policy.yaml"] := by
  intro lib heap decoder constructors hasher r dirs as s
  refine ⟨settled_directory_is_reflected Watcher.quick r (fun _ => []) dirs {} as ?_ ?_, ?_⟩
  · intro a ha
    simp only [as, List.mem_cons, List.not_mem_nil, or_false] at ha
    rcases ha with rfl | rfl | rfl | rfl | rfl | rfl | rfl | rfl | rfl | rfl | rfl <;> trivial
  · decide +kernel
  · decide +kernel

end ElchiShield.Runtime
