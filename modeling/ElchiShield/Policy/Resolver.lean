import ElchiShield.Config.Validate
import ElchiShield.Matcher
import ElchiShield.Policy.Engines
import ElchiShield.Policy.Policy

/-! # The policy resolver

Package `policy`, compile.go and resolver.go: the index a merged config compiles to, and
the policy it gives a request. -/
namespace ElchiShield.Policy
open ElchiShield.Go ElchiShield.Config ElchiShield.Engine ElchiShield.Matcher

structure Input where
  host : Bytes
  path : Bytes
  method : Bytes
  contentType : Bytes
  headers : List Engine.Header

structure CompiledRoute where
  path : Path
  methods : Methods
  contentType : ContentType
  headers : List Matcher.Header
  policy : CompiledPolicy

structure CompiledDomain where
  hosts : List Host
  routes : List CompiledRoute
  defaultPolicy : CompiledPolicy

/-- The map `exact` as its entries in the order they were added. -/
structure Resolver where
  exact : List (Bytes × CompiledDomain) := []
  wildcard : List CompiledDomain := []
  excludes : List Bytes := []

/-! ## Resolution -/

section
variable [Library]

def CompiledRoute.matches (r : CompiledRoute) (inp : Input) : Bool :=
  r.path.match inp.path && r.methods.match inp.method && r.contentType.match inp.contentType &&
    matchAll r.headers inp.headers

/-- The loop of `hostSpecificity`. -/
def bestSpecificity (host : Bytes) (best : Int) (h : Host) : Int :=
  if h.match host ∧ h.specificity > best then h.specificity else best

/-- The specificity of the most specific host that matches, -1 when none does. -/
def CompiledDomain.hostSpecificity (cd : CompiledDomain) (host : Bytes) : Int :=
  cd.hosts.foldl (bestSpecificity host) (-1)

/-- One domain of the scan of `Resolve`: a later domain has to beat the best so far. -/
def betterDomain (host : Bytes) (best : Option CompiledDomain × Int) (cd : CompiledDomain) :
    Option CompiledDomain × Int :=
  if cd.hostSpecificity host > best.2 then (some cd, cd.hostSpecificity host) else best

/-- The domains under a key of the exact map. -/
def Resolver.exactDomains (r : Resolver) (key : Bytes) : List CompiledDomain :=
  r.exact.filterMap fun e => if e.1 = key then some e.2 else none

def Resolver.bestDomain (r : Resolver) (host : Bytes) : Option CompiledDomain :=
  ((r.exactDomains (normalizeHost host) ++ r.wildcard).foldl (betterDomain host) (none, -1)).1

/-- The first matching route of a domain, else its default policy. -/
def CompiledDomain.policyFor (cd : CompiledDomain) (inp : Input) : CompiledPolicy :=
  ((cd.routes.find? fun rt => rt.matches inp).map CompiledRoute.policy).getD cd.defaultPolicy

def Resolver.resolve (r : Resolver) (inp : Input) : Option CompiledPolicy :=
  (r.bestDomain inp.host).map fun cd => cd.policyFor inp

def Resolver.excluded (r : Resolver) (normalizedPath : Bytes) : Bool :=
  r.excludes.contains normalizedPath

/-! ## Compilation -/

/-- An error of `Compile`, located in its source file, domain and route. -/
structure CompileError where
  source : Bytes
  domain : Bytes
  route : Option Nat
  cause : Err
  deriving DecidableEq

/-- The engine sets built so far, by the address of their spec. -/
abbrev EngineCache := List (EnginesPtr × Option EngineSet)

section
variable [Heap] [Constructors]

/-- `engineCache.get`. -/
def EngineCache.get (fs : FileSystem) (ec : EngineCache) (spec : Option EnginesPtr) :
    Except Err (Option EngineSet × EngineCache) :=
  match spec with
  | none => .ok (none, ec)
  | some ptr => match ec.lookup ptr with
    | some set => .ok (set, ec)
    | none => match buildEngines fs (Heap.engines ptr) with
      | .ok set => .ok (set, (ptr, set) :: ec)
      | .error e => .error e

def compilePolicy (fs : FileSystem) (id : Bytes) (resolved : ResolvedPolicy) (ec : EngineCache) :
    Except Err (CompiledPolicy × EngineCache) :=
  match EngineCache.get fs ec resolved.engines with
  | .ok (engines, ec) => .ok ({ fromResolved id resolved with engines }, ec)
  | .error e => .error e

def domainScope (d : Domain) : Bytes := join (ascii ",") d.hosts
def domainID (d : Domain) : Bytes := domainScope d ++ ascii "|*"
def routeID (d : Domain) (idx : Nat) : Bytes := entry (domainScope d ++ ascii "|route") idx

/-- The order of `sortRoutes`: more specific path kinds first, longer prefixes first. -/
def routeBefore (a b : CompiledRoute) : Prop :=
  a.path.specificity > b.path.specificity ∨
    (a.path.specificity = b.path.specificity ∧ a.path.prefixLen ≥ b.path.prefixLen)

instance : DecidableRel routeBefore := fun _ _ => inferInstanceAs (Decidable (_ ∨ _))

/-- `sort.SliceStable`. -/
def sortRoutes (routes : List CompiledRoute) : List CompiledRoute := routes.insertionSort routeBefore

/-- The settings of a domain's default policy, and those of one of its routes. -/
def domainResolved (cfg : MergedConfig) (d : Domain) : ResolvedPolicy :=
  Config.resolve defaultPolicy [cfg.fileDefaults, d.policy]

def routeResolved (cfg : MergedConfig) (d : Domain) (rt : Route) : ResolvedPolicy :=
  Config.resolve defaultPolicy [cfg.fileDefaults, d.policy, rt.policy]

def compileRoute (fs : FileSystem) (cfg : MergedConfig) (d : Domain) (ri : Nat) (rt : Route)
    (ec : EngineCache) : Except Err (CompiledRoute × EngineCache) := do
  let path ← compilePath rt.match.pathExact rt.match.pathPrefix rt.match.pathRegex
  let headers ← compileHeaders rt.match.headers
  let (policy, ec) ← compilePolicy fs (routeID d ri) (routeResolved cfg d rt) ec
  return (⟨path, compileMethods rt.match.methods, compileContentTypes rt.match.contentType,
    headers, policy⟩, ec)

def compileRoutes (fs : FileSystem) (cfg : MergedConfig) (md : MergedDomain) :
    Nat → List Route → EngineCache → Except CompileError (List CompiledRoute × EngineCache)
  | _, [], ec => .ok ([], ec)
  | ri, rt :: rest, ec =>
    match compileRoute fs cfg md.domain ri rt ec with
    | .error e => .error ⟨md.source, domainID md.domain, some ri, e⟩
    | .ok (route, ec) => match compileRoutes fs cfg md (ri + 1) rest ec with
      | .error e => .error e
      | .ok (routes, ec) => .ok (route :: routes, ec)

def compileHosts (source : Bytes) : List Bytes → Except CompileError (List Host)
  | [] => .ok []
  | h :: rest => match compileHost h with
    | .error e => .error ⟨source, h, none, e⟩
    | .ok host => match compileHosts source rest with
      | .error e => .error e
      | .ok hosts => .ok (host :: hosts)

def compileDomain (fs : FileSystem) (cfg : MergedConfig) (md : MergedDomain) (ec : EngineCache) :
    Except CompileError (CompiledDomain × EngineCache) :=
  match compileHosts md.source md.domain.hosts with
  | .error e => .error e
  | .ok hosts =>
    match compilePolicy fs (domainID md.domain) (domainResolved cfg md.domain) ec with
    | .error e => .error ⟨md.source, domainID md.domain, none, e⟩
    | .ok (policy, ec) => match compileRoutes fs cfg md 0 md.domain.routes ec with
      | .error e => .error e
      | .ok (routes, ec) => .ok (⟨hosts, sortRoutes routes, policy⟩, ec)

/-- A domain whose hosts are all exact is indexed under each of them; any other one is
scanned. -/
def Resolver.addDomain (r : Resolver) (d : Domain) (cd : CompiledDomain) : Resolver :=
  if cd.hosts.all Host.isExact then
    { r with exact := r.exact ++ d.hosts.map fun h => (normalizeHost h, cd) }
  else { r with wildcard := r.wildcard ++ [cd] }

def compileDomains (fs : FileSystem) (cfg : MergedConfig) :
    List MergedDomain → Resolver → EngineCache → Except CompileError Resolver
  | [], r, _ => .ok r
  | md :: rest, r, ec => match compileDomain fs cfg md ec with
    | .error e => .error e
    | .ok (cd, ec) => compileDomains fs cfg rest (r.addDomain md.domain cd) ec

def compile (fs : FileSystem) (cfg : MergedConfig) : Except CompileError Resolver :=
  compileDomains fs cfg cfg.domains { excludes := cfg.excludes.map normalizePath } []

end

end

end ElchiShield.Policy
