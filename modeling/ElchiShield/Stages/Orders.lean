import ElchiShield.Config.Accepted
import ElchiShield.Config.Merging
import ElchiShield.Policy.Precedence
import ElchiShield.Stages.Catalog

/-! # Inspections and the orders that run them

An inspector runs where the stage order of its direction lists its stage. Validation compares
the order of a policy block with the inspectors the same block configures. The effective
policy folds several blocks, so that an order can meet inspectors another block configures:
these it may leave out. -/
namespace ElchiShield.Stages
open ElchiShield.Go ElchiShield.Lib ElchiShield.Engine ElchiShield.Config ElchiShield.Policy

/-! ## Orders and their scopes -/

inductive Inspection where
  | headerChecks
  | bodyChecks
  | engines
  deriving DecidableEq, Repr

namespace Inspection

def stage : Inspection → Bytes
  | .headerChecks => stageFastPreChecks
  | .bodyChecks => stageBodyChecks
  | .engines => stageWAFEngine

end Inspection

def orderOf : Direction → PipelineSpec → Option (List Bytes)
  | .request => PipelineSpec.request
  | .response => PipelineSpec.response

/-- The stages a compiled policy runs in a direction. -/
def effectiveOrder (p : CompiledPolicy) : Direction → List Bytes
  | .request => orderOrDefault p.requestOrder
  | .response => orderOrDefault p.responseOrder

/-- The `defaults` blocks of the files in the order they are merged. -/
def defaultsInOrder (files : List ParsedFile) : List PolicySpec :=
  (files.insertionSort fun a b => bytesLE a.name b.name).map fun pf => pf.file.spec.defaults

/-- `s` is the block that wrote the order in force: the narrowest one that writes an order for
the direction, or else the last `defaults` block with a `pipeline`, if it writes one. -/
inductive Wrote (dir : Direction) (defaults narrower : List PolicySpec) (s : PolicySpec) : Prop where
  | narrower (last : LastSets (PolicySpec.order (orderOf dir)) narrower s)
  | defaults (unset : ∀ t ∈ narrower, t.order (orderOf dir) = none)
      (last : LastSets PolicySpec.pipeline defaults s)
      (sets : (s.order (orderOf dir)).isSome = true)

section
variable [Library] [Heap]

/-- The blocks below the files' defaults that a domain policy, or a route policy, is resolved
from. -/
inductive Narrower (cfg : MergedConfig) : List PolicySpec → Prop where
  | domain {md : MergedDomain} (mem : md ∈ cfg.domains) : Narrower cfg [md.domain.policy]
  | route {md : MergedDomain} {rt : Route} (mem : md ∈ cfg.domains)
      (route : rt ∈ md.domain.routes) : Narrower cfg [md.domain.policy, rt.policy]

/-- The policy is compiled from the settings. -/
def CompiledFrom (r : ResolvedPolicy) (p : CompiledPolicy) : Prop :=
  ∃ id engines, p = { fromResolved id r with engines }

section
variable [Constructors] {fs : FileSystem} {cfg : MergedConfig}

omit [Constructors] in
/-- Whoever wrote the order passed validation. -/
theorem Wrote.valid {files : List ParsedFile}
    (hfiles : ∀ pf ∈ files, validateFile pf.name pf.file = []) {narrower : List PolicySpec}
    (hnarrower : Narrower (merge files) narrower) (hvalid : Validated (merge files))
    {d : Direction} {s : PolicySpec} (h : Wrote d (defaultsInOrder files) narrower s) :
    policyProblems s = [] := by
  cases h with
  | narrower last =>
    have hmem := last.mem
    cases hnarrower with
    | domain mem =>
      rw [List.mem_singleton.mp hmem]
      exact (hvalid.domain mem).policy
    | route mem route =>
      rcases List.mem_cons.mp hmem with rfl | hmem
      · exact (hvalid.domain mem).policy
      · rw [List.mem_singleton.mp hmem]
        exact (hvalid.domain mem).routes _ route
  | defaults unset last sets =>
    obtain ⟨pf, hpf, rfl⟩ := List.mem_map.mp last.mem
    rw [(List.perm_insertionSort _ files).mem_iff] at hpf
    exact validateFile_defaults (hfiles pf hpf)

end

end

/-! ## An order that another scope wrote -/

end ElchiShield.Stages
