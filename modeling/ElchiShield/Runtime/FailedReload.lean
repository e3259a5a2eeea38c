import ElchiShield.Policy.Construction
import ElchiShield.Runtime.Unchanged

/-! # Engines of a reload that fails

`Reload` from the point where the config has been merged, with the engines the compilation
constructs. Nothing on the way back from a failed compilation closes an engine. -/
namespace ElchiShield.Runtime
open ElchiShield.Go ElchiShield.Lib ElchiShield.Config ElchiShield.Engine ElchiShield.Policy

section
variable [Library] [Heap] [Constructors] [Hasher]

/-- `NewSnapshot`. -/
def buildSnapshot (fs : FileSystem) (cfg : MergedConfig) : Building SnapshotError Snapshot := do
  let hash ← Attempt.lift ((computeHash cfg).mapError .hash)
  let resolver ← (Building.compile fs cfg).mapError .compile
  return ⟨shortVersion hash, hash, cfg.sources, cfg, some resolver⟩

/-- `Reload` after `config.Load`, with what it has constructed and closed when it reports. -/
def reloadMerged (r : Reloader) (store : Store) (fs : FileSystem) (cfg : MergedConfig) :
    (Reloaded × Store) × Build :=
  let prev := store.active
  match computeHash cfg with
  | .error e =>
    (({ outcome := .failed, active := prev, err := some (.snapshot (.hash e)) }, store), {})
  | .ok hash =>
    if prev.hash = hash then (({ outcome := .unchanged, active := prev }, store), {})
    else match buildSnapshot fs cfg {} with
      | (.error e, b) =>
        (({ outcome := .failed, active := prev, err := some (.snapshot e) }, store), b)
      | (.ok snap, b) =>
        (({ outcome := .applied
            active := snap
            retired := if r.retire && !prev.isEmpty then [prev] else [] }, ⟨snap⟩), b)

theorem buildSnapshot_ends (fs : FileSystem) (cfg : MergedConfig) :
    Attempt.Ends (fun snap _ => newSnapshot fs cfg = .ok snap)
      (fun e b => newSnapshot fs cfg = .error e ∧
        ∀ ce, e = .compile ce → Failed (plan fs cfg) b)
      (buildSnapshot fs cfg {}) := by
  unfold buildSnapshot
  cases hhash : computeHash cfg with
  | error e =>
    refine ⟨by simp only [newSnapshot, hhash], ?_⟩
    intro ce hce
    cases hce
  | ok hash =>
    rw [show Except.mapError SnapshotError.hash (.ok hash) = .ok hash from rfl,
      Attempt.lift_ok_bind]
    refine Attempt.Ends.bind ((compile_ends fs cfg).mapError ?_) ?_
    · intro e b he
      exact ⟨by simp only [newSnapshot, hhash, he.1], fun _ _ => he.2⟩
    · intro resolver b hb
      show newSnapshot fs cfg = .ok _
      simp only [newSnapshot, hhash, hb]

/-- `Reload` returns what the rest of it returns for the config it has loaded. -/
theorem reload_of_load [Decoder] {r : Reloader} {store : Store} {disk : Disk} {cfg : MergedConfig}
    (hload : load r.dir disk.dir = .ok cfg) :
    reload r store disk = (reloadMerged r store disk.files cfg).1 := by
  have hends := buildSnapshot_ends disk.files cfg
  unfold reload reloadMerged
  simp only [hload]
  cases computeHash cfg with
  | error e => rfl
  | ok hash =>
    by_cases hsame : store.active.hash = hash
    · simp only [hsame, if_true]
    · simp only [hsame, if_false]
      obtain ⟨⟨e | snap, b⟩, hbuild⟩ : ∃ p, buildSnapshot disk.files cfg {} = p := ⟨_, rfl⟩
      · rw [hbuild] at hends ⊢
        rw [hends.1]
      · rw [hbuild] at hends ⊢
        rw [show newSnapshot disk.files cfg = .ok snap from hends]

theorem reloadMerged_failed {r : Reloader} {store : Store} {fs : FileSystem} {cfg : MergedConfig}
    {e : CompileError}
    (h : (reloadMerged r store fs cfg).1.1.err = some (.snapshot (.compile e))) :
    Failed (plan fs cfg) (reloadMerged r store fs cfg).2 := by
  have hends := buildSnapshot_ends fs cfg
  unfold reloadMerged at h ⊢
  cases hhash : computeHash cfg with
  | error e => simp [hhash] at h
  | ok hash =>
    by_cases hsame : store.active.hash = hash
    · simp [hhash, hsame] at h
    · simp only [hhash, hsame, if_false] at h ⊢
      obtain ⟨⟨e' | snap, b⟩, hbuild⟩ : ∃ p, buildSnapshot fs cfg {} = p := ⟨_, rfl⟩
      · rw [hbuild] at hends h ⊢
        simp only [Option.some.injEq, ReloadError.snapshot.injEq] at h
        exact hends.2 e h
      · rw [hbuild] at h
        cases h

end

/-- Every engine that was constructed has been closed. -/
def AllClosed (b : Build) : Prop := ∀ i < b.constructed.length, i ∈ b.closed

theorem failed_allClosed_iff {steps : List Step} {b : Build} (h : Failed steps b) :
    AllClosed b ↔ FailsFirst steps := by
  rw [← built_eq_nil_iff, ← h.constructed]
  constructor
  · intro hclosed
    by_contra hne
    have hfirst := hclosed 0 (List.length_pos_of_ne_nil hne)
    rw [h.closed] at hfirst
    cases hfirst
  · intro hnone i hi
    rw [hnone] at hi
    cases hi

section
variable [Library] [Heap] [Constructors] [Hasher]

/-- A reload whose compilation failed has closed every engine it constructed exactly when it
had constructed none. What it returns is what `Reload` returns for a directory of that config. -/
theorem failed_reload_closes_iff (r : Reloader) (store : Store) (fs : FileSystem)
    (cfg : MergedConfig) (e : CompileError)
    (h : (reloadMerged r store fs cfg).1.1.err = some (.snapshot (.compile e))) :
    (AllClosed (reloadMerged r store fs cfg).2 ↔ FailsFirst (plan fs cfg)) ∧
      ∀ [Decoder] (disk : Disk), disk.files = fs → load r.dir disk.dir = .ok cfg →
        reload r store disk = (reloadMerged r store fs cfg).1 := by
  refine ⟨failed_allClosed_iff (reloadMerged_failed h), ?_⟩
  rintro _ disk rfl hload
  exact reload_of_load hload

end

/-! ## A spec file that is missing -/

def jwksBlock : JWKSSpec where
  url := ascii "https://idp.example/keys"

def missingSpec : OpenAPISpec where
  specFile := ascii "/missing"

@[reducible] def keysHeap (jwks : Option JWKSSpec) : Heap where
  engines _ := { jwks, openAPI := some missingSpec }

def jwksEngine : SecurityEngine where
  name := ascii "jwks"
  requiresBody := false
  inspectsResponse := false
  inspect _ _ := .verdict {}

@[reducible] def keysConstructors : Constructors :=
  { Constructors.nothing with jwks := fun _ _ => .ok jwksEngine }

def keysConfig : MergedConfig := merge [⟨ascii "/conf/policy.yaml", feedFile⟩]

/-- The key-set engine is constructed, the spec file of the next block is missing, and the
reload reports the failure with the engine open. -/
theorem missing_spec_leaves_engine_open :
    let _ := Library.nothing
    let _ := keysHeap (some jwksBlock)
    let _ := keysConstructors
    let _ := constantHasher
    let run := reloadMerged feedReloader newStore (fun _ => none) keysConfig
    run.1.1.outcome = .failed ∧ (∃ e, run.1.1.err = some (.snapshot (.compile e))) ∧
      run.2.constructed.length = 1 ∧ ¬ AllClosed run.2 := by
  intro lib heap constructors hasher run
  have hlength : run.2.constructed.length = 1 := by decide +kernel
  have hclosed : run.2.closed = [] := by decide +kernel
  refine ⟨by decide +kernel, ⟨_, rfl⟩, hlength, fun h => ?_⟩
  have hfirst := h 0 (by omega)
  rw [hclosed] at hfirst
  cases hfirst

/-- Without the key-set engine the failing block is the first, and nothing is left open. -/
theorem missing_spec_alone_leaves_nothing :
    let _ := Library.nothing
    let _ := keysHeap none
    let _ := feedDecoder
    let _ := keysConstructors
    let _ := constantHasher
    let run := reloadMerged feedReloader newStore (fun _ => none) keysConfig
    (∃ e, run.1.1.err = some (.snapshot (.compile e))) ∧
      FailsFirst (plan (fun _ => none) keysConfig) ∧ AllClosed run.2 ∧
      reload feedReloader newStore { feedDisk [] with files := fun _ => none } = run.1 := by
  intro lib heap decoder constructors hasher run
  have hfirst : FailsFirst (plan (fun _ => none) keysConfig) :=
    (built_eq_nil_iff _).mp rfl
  have hsome : (load feedReloader.dir (feedDisk []).dir).toOption = some keysConfig := by
    decide +kernel
  obtain ⟨cfg, hload⟩ := exists_ok (Option.isSome_of_eq_some hsome)
  obtain rfl : cfg = keysConfig := by
    rw [hload] at hsome
    exact Option.some.inj hsome
  obtain ⟨hclosed, hreload⟩ :=
    failed_reload_closes_iff feedReloader newStore (fun _ => none) keysConfig _ rfl
  exact ⟨⟨_, rfl⟩, hfirst, hclosed.mpr hfirst, hreload _ rfl hload⟩

end ElchiShield.Runtime
