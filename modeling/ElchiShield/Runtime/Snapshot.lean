import ElchiShield.Go.Encoding
import ElchiShield.Policy.Resolver

/-! # Snapshots

Package `runtime`, snapshot.go and hash.go: a compiled config with the hash of its
content. The build time and the count of the streams that hold a snapshot are not part of
the record. -/
namespace ElchiShield.Runtime
open ElchiShield.Go ElchiShield.Config ElchiShield.Policy

/-! ## The content of a config

The hash is taken of the JSON text of a config, in which a pointer stands for what it
points to. -/

structure PolicyContent where
  /-- The policy without its engines. -/
  spec : PolicySpec
  engines : Option EnginesSpec
  deriving DecidableEq

structure RouteContent where
  «match» : Match
  policy : PolicyContent
  deriving DecidableEq

structure DomainContent where
  hosts : List Bytes
  policy : PolicyContent
  routes : List RouteContent
  source : Bytes
  deriving DecidableEq

structure ConfigContent where
  fileDefaults : PolicyContent
  domains : List DomainContent
  sources : List Bytes
  excludes : List Bytes
  deriving DecidableEq

section
variable [Heap]

def policyContent (s : PolicySpec) : PolicyContent where
  spec := { s with engines := none }
  engines := s.engines.map Heap.engines

def routeContent (rt : Route) : RouteContent := ⟨rt.match, policyContent rt.policy⟩

def domainContent (md : MergedDomain) : DomainContent where
  hosts := md.domain.hosts
  policy := policyContent md.domain.policy
  routes := md.domain.routes.map routeContent
  source := md.source

def configContent (cfg : MergedConfig) : ConfigContent where
  fileDefaults := policyContent cfg.fileDefaults
  domains := cfg.domains.map domainContent
  sources := cfg.sources
  excludes := cfg.excludes

end

/-! ## Hashes -/

/-- `json.Marshal` followed by `sha256.Sum256`. Marshalling fails on some values; a sum has
32 bytes. -/
class Hasher where
  sum : ConfigContent → Except Bytes Bytes
  sum_length : ∀ c b, sum c = .ok b → b.length = 32

def versionLen : Nat := 12

def shortVersion (hash : Bytes) : Bytes :=
  if hash.length ≤ versionLen then hash else hash.take versionLen

def computeHash [Heap] [Hasher] (cfg : MergedConfig) : Except Bytes Bytes :=
  (Hasher.sum (configContent cfg)).map hexEncode

/-! ## Snapshots -/

def emptyVersion : Bytes := ascii "empty"

/-- The resolver of the empty snapshot is nil. -/
structure Snapshot where
  version : Bytes
  hash : Bytes
  sources : List Bytes
  cfg : MergedConfig
  resolver : Option Resolver

inductive SnapshotError where
  | hash (err : Bytes)
  | compile (err : CompileError)

def emptySnapshot : Snapshot := ⟨emptyVersion, emptyVersion, [], {}, none⟩

def Snapshot.isEmpty (s : Snapshot) : Bool := s.version == emptyVersion

def newSnapshot [Library] [Heap] [Constructors] [Hasher] (fs : FileSystem) (cfg : MergedConfig) :
    Except SnapshotError Snapshot :=
  match computeHash cfg with
  | .error e => .error (.hash e)
  | .ok hash => match compile fs cfg with
    | .error e => .error (.compile e)
    | .ok resolver => .ok ⟨shortVersion hash, hash, cfg.sources, cfg, some resolver⟩

theorem newSnapshot_ok [Library] [Heap] [Constructors] [Hasher] {fs : FileSystem}
    {cfg : MergedConfig} {snap : Snapshot} (h : newSnapshot fs cfg = .ok snap) :
    snap.cfg = cfg ∧ snap.sources = cfg.sources ∧
      ∃ resolver, snap.resolver = some resolver ∧ compile fs cfg = .ok resolver := by
  unfold newSnapshot at h
  split at h
  next => cases h
  next =>
    split at h
    next => cases h
    next resolver hres =>
      obtain rfl := Except.ok.inj h
      exact ⟨rfl, rfl, resolver, rfl, hres⟩

end ElchiShield.Runtime
