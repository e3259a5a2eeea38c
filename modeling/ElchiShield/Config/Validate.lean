import ElchiShield.Config.Engines
import ElchiShield.Config.Policy

/-! # Validation

Package `config`, validate.go: the checks of one file, and those of the merged config. -/
namespace ElchiShield.Config
open ElchiShield.Go

structure FileError where
  file : Bytes
  field : Bytes
  err : Err
  deriving DecidableEq

/-- Attribute problems to a file, their paths taken below `pre`. -/
def located (file pre : Bytes) (ps : Problems) : List FileError :=
  ps.map fun p => ⟨file, pre ++ ascii "." ++ p.1, p.2⟩

@[simp] theorem located_eq_nil {file pre : Bytes} {ps : Problems} :
    located file pre ps = [] ↔ ps = [] := List.map_eq_nil_iff

/-! ## Policies -/

def knownLogLevels : List Bytes := ["debug", "info", "warn", "warning", "error"].map ascii

def maxSaneBodyBytes : Int := 1073741824

def checkNonNeg (field : Bytes) (v : Option Int) : Problems :=
  checkBlock v fun n => check (n < 0) field ⟨"must be >= 0, got %d", [.int n]⟩

def checkCeiling (field : Bytes) (v : Option Int) : Problems :=
  checkBlock v fun n => check (n > maxSaneBodyBytes) field
    ⟨"must be <= %d (sane ceiling), got %d", [.int maxSaneBodyBytes, .int n]⟩

def badSamplingRate : Float64 → Bool
  | .fin r => r < 0 || r > 1
  | _ => true

def modeName : Mode → Bytes
  | .block => ascii "block"
  | .detect => ascii "detect"
  | .shadow => ascii "shadow"
  | .off => ascii "off"
  | .other s => s

def failModeName : FailMode → Bytes
  | .failOpen => ascii "fail_open"
  | .failClose => ascii "fail_close"
  | .other s => s

/-- Inspecting a body in mode off, or with a budget of zero, does nothing. -/
def validateInspect (s : PolicySpec) : Problems :=
  check (s.mode = some .off && s.inspectRequestBody = some true) (ascii "inspect_request_body")
    ⟨"cannot inspect request body when mode is off", []⟩ ++
  check (s.mode = some .off && s.inspectResponseBody = some true) (ascii "inspect_response_body")
    ⟨"cannot inspect response body when mode is off", []⟩ ++
  check (s.inspectRequestBody = some true && s.maxRequestBodyBytes = some 0)
    (ascii "inspect_request_body")
    ⟨"request body inspection enabled but max_request_body_bytes is 0", []⟩ ++
  check (s.inspectResponseBody = some true && s.maxResponseBodyBytes = some 0)
    (ascii "inspect_response_body")
    ⟨"response body inspection enabled but max_response_body_bytes is 0", []⟩

/-- The loop of `validateOrder`; `seen` are the names before index `i`. -/
def validateOrderLoop (field : Bytes) : Nat → List Bytes → List Bytes → Problems
  | _, _, [] => []
  | i, seen, n :: rest =>
    check (!knownInspectors.contains n) (entry field i)
      ⟨"unknown stage %q (valid: fast_pre_checks, body_checks, waf_engine)", [.str n]⟩ ++
    check (seen.contains n) (entry field i) ⟨"duplicate stage %q", [.str n]⟩ ++
    validateOrderLoop field (i + 1) (n :: seen) rest

/-- A nil order has no entries. -/
def validateOrder (field : Bytes) (names : Option (List Bytes)) : Problems :=
  validateOrderLoop field 0 [] (names.getD [])

/-- The stages of the inspectors a policy block configures itself. -/
def PolicySpec.requiredStages (s : PolicySpec) : List Bytes :=
  (if s.checks.headers.isSome then [stageFastPreChecks] else []) ++
  (if s.checks.body.isSome then [stageBodyChecks] else []) ++
  (if s.engines.isSome then [stageWAFEngine] else [])

def checkComplete (field : Bytes) (required : List Bytes) (names : Option (List Bytes))
    (requestOnly : Bytes) : Problems :=
  checkBlock names fun order => required.flatMap fun r =>
    check (r ≠ requestOnly && !order.contains r) field
      ⟨"stage %q is configured on this policy but omitted from the order — it would be silently skipped; list it or drop the explicit order", [.str r]⟩

def validatePipeline (s : PolicySpec) (p : PipelineSpec) : Problems :=
  validateOrder (ascii "pipeline.request") p.request ++
  validateOrder (ascii "pipeline.response") p.response ++
  checkComplete (ascii "pipeline.request") s.requiredStages p.request [] ++
  checkComplete (ascii "pipeline.response") s.requiredStages p.response stageFastPreChecks

section
variable [Library] [Heap]

/-- The fields of a policy other than its blocks. -/
def validateScalars (s : PolicySpec) : Problems :=
  checkBlock s.mode (fun m =>
    check (!m.valid) (ascii "mode") ⟨"invalid mode %q", [.str (modeName m)]⟩) ++
  checkBlock s.failMode (fun f =>
    check (!f.valid) (ascii "fail_mode") ⟨"invalid fail_mode %q", [.str (failModeName f)]⟩) ++
  checkBlock s.samplingRate (fun r => check (badSamplingRate r) (ascii "sampling_rate")
    ⟨"must be a finite value within [0,1], got %v", [.float r]⟩) ++
  checkNonNeg (ascii "max_request_body_bytes") s.maxRequestBodyBytes ++
  checkNonNeg (ascii "max_response_body_bytes") s.maxResponseBodyBytes ++
  checkNonNeg (ascii "max_header_bytes") s.maxHeaderBytes ++
  checkCeiling (ascii "max_request_body_bytes") s.maxRequestBodyBytes ++
  checkCeiling (ascii "max_response_body_bytes") s.maxResponseBodyBytes ++
  checkBlock s.timeout (fun t =>
    check (t ≤ 0) (ascii "timeout") ⟨"must be > 0, got %s", [.int t]⟩) ++
  checkBlock s.anomalyThreshold (fun t =>
    check (t < 0) (ascii "anomaly_threshold") ⟨"must be >= 0 (0 disables), got %d", [.int t]⟩) ++
  checkBlock s.logLevel fun l =>
    check (!knownLogLevels.contains (toLower l)) (ascii "log_level")
      ⟨"invalid log level %q", [.str l]⟩

def policyProblems (s : PolicySpec) : Problems :=
  validateScalars s ++ validateInspect s ++ checkBlock s.pipeline (validatePipeline s) ++
  checkBlock (s.checks.body.bind BodyChecks.dlp) validateDLP ++
  checkBlock s.engines fun e => validateEngines (Heap.engines e)

def validateSpec (file pre : Bytes) (s : PolicySpec) : List FileError :=
  located file pre (policyProblems s)

/-! ## Routes -/

def knownMethods : List Bytes :=
  ["GET", "HEAD", "POST", "PUT", "PATCH", "DELETE", "CONNECT", "OPTIONS", "TRACE"].map ascii

def HeaderMatch.forms (h : HeaderMatch) : Nat :=
  [decide (h.exact ≠ []), decide (h.contains ≠ []), decide (h.regex ≠ []),
    h.present.isSome].count true

def Match.pathKinds (m : Match) : Nat :=
  [decide (m.pathExact ≠ []), decide (m.pathPrefix ≠ []), decide (m.pathRegex ≠ [])].count true

def validateMatch (file pre : Bytes) (m : Match) : List FileError :=
  located file pre <|
    check (m.pathKinds > 1) [] ⟨"set at most one of path_exact, path_prefix, path_regex", []⟩ ++
    (if m.pathRegex = [] then [] else checkRegexp (ascii "path_regex") m.pathRegex) ++
    checkEach (ascii "methods") m.methods (fun p meth =>
      check (!knownMethods.contains (toUpper meth)) p ⟨"unknown HTTP method %q", [.str meth]⟩) ++
    checkEach (ascii "headers") m.headers fun p h =>
      check (trimSpace h.name = []) (p ++ ascii ".name") ⟨"header name is required", []⟩ ++
      check (h.forms > 1) p ⟨"set at most one of exact, contains, regex, present", []⟩ ++
      (if h.regex = [] then [] else checkRegexp (p ++ ascii ".regex") h.regex)

def sortStrings (xs : List Bytes) : List Bytes := xs.insertionSort fun a b => bytesLE a b = true

def headerSignature (h : HeaderMatch) : Bytes :=
  join (ascii "|") [toLower h.name, h.exact, h.regex, h.contains,
    (h.present.map fun b => ascii (if b then "true" else "false")).getD []]

/-- A canonical text for a match, so that duplicate routes can be told. -/
def routeSignature (m : Match) : Bytes :=
  join [0x1f] [
    ascii "e:" ++ m.pathExact,
    ascii "p:" ++ m.pathPrefix,
    ascii "r:" ++ m.pathRegex,
    ascii "m:" ++ join (ascii ",") (sortStrings (m.methods.map toUpper)),
    ascii "c:" ++ join (ascii ",") (sortStrings m.contentType),
    ascii "h:" ++ join (ascii ";") (sortStrings (m.headers.map headerSignature))]

/-! ## Files -/

/-- The byte set of a host label. -/
def isLabelByte (b : UInt8) : Bool :=
  (97 ≤ b && b ≤ 122) || (65 ≤ b && b ≤ 90) || isDigit b || b = ch '_' || b = ch '-'

/-- The regular expression of hosts: labels joined by dots, after at most one leading
wildcard label. -/
def hostRe (h : Bytes) : Bool :=
  (((cutPrefix (ascii "*.") h).getD h).splitOn (ch '.')).all fun l => l ≠ [] && l.all isLabelByte

def star : Bytes := ascii "*"

/-- The routes of a domain; `sigs` are the signatures of the routes before index `i`. -/
def validateRoutes (file dp : Bytes) : Nat → List (Bytes × Nat) → List Route → List FileError
  | _, _, [] => []
  | i, sigs, r :: rest =>
    let rp := entry (dp ++ ascii ".routes") i
    let sig := routeSignature r.match
    validateMatch file (rp ++ ascii ".match") r.match ++
    validateSpec file (rp ++ ascii ".policy") r.policy ++
    match sigs.lookup sig with
    | some prev =>
      ⟨file, rp ++ ascii ".match", ⟨"duplicate route match (identical to routes[%d])", [.int prev]⟩⟩ ::
        validateRoutes file dp (i + 1) sigs rest
    | none => validateRoutes file dp (i + 1) ((sig, i) :: sigs) rest

def validateHosts (file dp : Bytes) (hosts : List Bytes) : List FileError :=
  (check (hosts = []) (dp ++ ascii ".hosts") ⟨"at least one host is required", []⟩ ++
    checkEach (dp ++ ascii ".hosts") hosts fun p h =>
      check (h ≠ star && !hostRe h) p ⟨"invalid host %q", [.str h]⟩).map fun p => ⟨file, p.1, p.2⟩

def validateDomain (file dp : Bytes) (d : Domain) : List FileError :=
  validateHosts file dp d.hosts ++ validateSpec file (dp ++ ascii ".policy") d.policy ++
  validateRoutes file dp 0 [] d.routes

def validateEnvelope (file : Bytes) (f : File) : List FileError :=
  (check (f.apiVersion ≠ apiVersionV1) (ascii "apiVersion")
      ⟨"unsupported apiVersion %q, want %q", [.str f.apiVersion, .str apiVersionV1]⟩ ++
    check (f.kind ≠ kindSecurityPolicy) (ascii "kind")
      ⟨"unsupported kind %q, want %q", [.str f.kind, .str kindSecurityPolicy]⟩).map
    fun p => ⟨file, p.1, p.2⟩

def validateExclude (file : Bytes) (f : File) : List FileError :=
  (f.spec.exclude.flatMap fun ex =>
    check (trimSpace ex = [] || !(ascii "/").isPrefixOf ex) (ascii "spec.exclude")
      ⟨"exclude path %q must be a non-empty absolute path (start with '/')", [.str ex]⟩).map
    fun p => ⟨file, p.1, p.2⟩

def validateFile (file : Bytes) (f : File) : List FileError :=
  validateEnvelope file f ++ validateSpec file (ascii "spec.defaults") f.spec.defaults ++
  validateExclude file f ++
  f.spec.domains.zipIdx.flatMap fun p =>
    validateDomain file (entry (ascii "spec.domains") p.2) p.1

/-! ## The merged config -/

/-- The key by which a configured host is unique. -/
def hostKey (h : Bytes) : Bytes := toLower (trimSpace h)

/-- The inner loop of `validateMerged`: the hosts of domain `i`, with the hosts already
seen and their sources. -/
def validateMergedHosts (source : Bytes) (i : Nat) :
    List (Bytes × Bytes) → List Bytes → List FileError × List (Bytes × Bytes)
  | seen, [] => ([], seen)
  | seen, h :: rest =>
    match seen.lookup (hostKey h) with
    | some prev =>
      let (errs, seen') := validateMergedHosts source i seen rest
      (⟨source, entry (ascii "domains") i,
        ⟨"duplicate host %q (already defined in %s)", [.str h, .str prev]⟩⟩ :: errs, seen')
    | none => validateMergedHosts source i ((hostKey h, source) :: seen) rest

def validateMergedLoop : Nat → List (Bytes × Bytes) → List MergedDomain → List FileError
  | _, _, [] => []
  | i, seen, d :: rest =>
    let (errs, seen') := validateMergedHosts d.source i seen d.domain.hosts
    errs ++ validateMergedLoop (i + 1) seen' rest

def validateMerged (m : MergedConfig) : List FileError := validateMergedLoop 0 [] m.domains

end

end ElchiShield.Config
