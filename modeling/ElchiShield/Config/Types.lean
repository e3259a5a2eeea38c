import ElchiShield.Go.Library

/-! # The configuration data

Package `config`, types.go: the documents of the config directory. A pointer that may be
nil is an `Option`; so is a slice where the code tells nil from empty. Durations are
nanoseconds. -/
namespace ElchiShield.Config
open ElchiShield.Go

def apiVersionV1 : Bytes := ascii "sentinel.elchi.io/v1"
def kindSecurityPolicy : Bytes := ascii "SecurityPolicy"

/-- A `Mode` is a string in the source; `other` is one it does not recognise. -/
inductive Mode where
  | block
  | detect
  | shadow
  | off
  | other (s : Bytes)
  deriving DecidableEq, Repr

def Mode.valid : Mode → Bool
  | .other _ => false
  | _ => true

inductive FailMode where
  | failOpen
  | failClose
  | other (s : Bytes)
  deriving DecidableEq, Repr

def FailMode.valid : FailMode → Bool
  | .other _ => false
  | _ => true

abbrev Duration := Int

def millisecond : Duration := 1000000
def second : Duration := 1000 * millisecond
def minute : Duration := 60 * second
def hour : Duration := 60 * minute

/-! ## Engines -/

structure OpenAPISpec where
  specFile : Bytes := []
  validateRequestBody : Bool := false
  rejectUndeclaredPath : Bool := false
  deriving DecidableEq

structure GraphQLSpec where
  contentTypes : List Bytes := []
  paths : List Bytes := []
  maxDepth : Int := 0
  maxAliases : Int := 0
  maxRootFields : Int := 0
  maxTotalFields : Int := 0
  maxOperations : Int := 0
  blockIntrospection : Bool := false
  maxFragmentDepth : Int := 0
  maxComplexity : Int := 0
  deriving DecidableEq

structure JWKSSpec where
  file : Bytes := []
  url : Bytes := []
  issuer : Bytes := []
  audience : Bytes := []
  algorithms : List Bytes := []
  requiredClaims : List Bytes := []
  headerName : Bytes := []
  leeway : Duration := 0
  refreshInterval : Duration := 0
  httpTimeout : Duration := 0
  deriving DecidableEq

structure XFCCSpec where
  headerName : Bytes := []
  requirePresent : Bool := false
  uris : List Bytes := []
  dnsNames : List Bytes := []
  subjects : List Bytes := []
  hashes : List Bytes := []
  deriving DecidableEq

structure HTTPSignatureSpec where
  secret : Bytes := []
  signatureName : Bytes := []
  coveredComponents : List Bytes := []
  maxAge : Duration := 0
  deriving DecidableEq

structure APIKeyEntrySpec where
  sha256 : Bytes := []
  key : Bytes := []
  subject : Bytes := []
  scopes : List Bytes := []
  deriving DecidableEq

structure ScopeBindingSpec where
  pathPrefix : Bytes := []
  scope : Bytes := []
  deriving DecidableEq

structure APIKeySpec where
  source : Bytes := []
  name : Bytes := []
  keys : List APIKeyEntrySpec := []
  bindings : List ScopeBindingSpec := []
  deriving DecidableEq

structure HMACSignSpec where
  secret : Bytes := []
  secrets : List (Bytes × Bytes) := []
  signatureHeader : Bytes := []
  timestampHeader : Bytes := []
  nonceHeader : Bytes := []
  keyIDHeader : Bytes := []
  algorithm : Bytes := []
  window : Duration := 0
  nonceTTL : Duration := 0
  requireNonce : Bool := false
  requireBodyDigest : Bool := false
  deriving DecidableEq

structure BotUASpec where
  denySubstrings : List Bytes := []
  blockEmpty : Bool := false
  scoreKnownBot : Int := 0
  deriving DecidableEq

structure BotVerifiedSpec where
  name : Bytes := []
  file : Bytes := []
  format : Bytes := []
  uaMatch : Bytes := []
  deriving DecidableEq

structure BotTLSSpec where
  ja4Header : Bytes := []
  ja3Header : Bytes := []
  denyJA4 : List Bytes := []
  denyJA3 : List Bytes := []
  scoreJA4 : List (Bytes × Int) := []
  toolJA4 : List Bytes := []
  deriving DecidableEq

structure BotHeuristicsSpec where
  requireAccept : Bool := false
  requireAcceptLanguage : Bool := false
  requireAcceptEncoding : Bool := false
  scorePerAnomaly : Int := 0
  deriving DecidableEq

structure BotSpec where
  scoreThreshold : Int := 0
  emitScore : Bool := false
  userAgent : Option BotUASpec := none
  verifiedBots : List BotVerifiedSpec := []
  tlsFingerprint : Option BotTLSSpec := none
  heuristics : Option BotHeuristicsSpec := none
  deriving DecidableEq

structure GeoIPSpec where
  databaseFile : Bytes := []
  asnDatabaseFile : Bytes := []
  blockCountries : List Bytes := []
  allowCountries : List Bytes := []
  blockASNs : List Nat := []
  onMissing : Bytes := []
  deriving DecidableEq

structure FeedSpec where
  name : Bytes := []
  file : Bytes := []
  format : Bytes := []
  severity : Bytes := []
  deriving DecidableEq

structure IPReputationSpec where
  allowCIDRs : List Bytes := []
  denyCIDRs : List Bytes := []
  feeds : List FeedSpec := []
  geoIP : Option GeoIPSpec := none
  deriving DecidableEq

structure RateLimitSpec where
  requestsPerSecond : Float64 := .fin 0
  burst : Int := 0
  key : Bytes := []
  header : Bytes := []
  deriving DecidableEq

structure JWTSpec where
  issuer : Bytes := []
  audience : Bytes := []
  algorithms : List Bytes := []
  hmacSecret : Bytes := []
  publicKeyFile : Bytes := []
  requiredClaims : List Bytes := []
  headerName : Bytes := []
  leeway : Duration := 0
  deriving DecidableEq

structure CorazaSpec where
  directives : Bytes := []
  directivesFile : Bytes := []
  includeOWASP : Bool := false
  excludeRuleIDs : List Bytes := []
  paranoiaLevel : Int := 0
  detectionParanoiaLevel : Int := 0
  inboundAnomalyThreshold : Int := 0
  outboundAnomalyThreshold : Int := 0
  deriving DecidableEq

structure EnginesSpec where
  jwt : Option JWTSpec := none
  coraza : Option CorazaSpec := none
  rateLimit : Option RateLimitSpec := none
  ipReputation : Option IPReputationSpec := none
  bot : Option BotSpec := none
  apiKey : Option APIKeySpec := none
  hmacSign : Option HMACSignSpec := none
  httpSignature : Option HTTPSignatureSpec := none
  jwks : Option JWKSSpec := none
  xfcc : Option XFCCSpec := none
  graphQL : Option GraphQLSpec := none
  openAPI : Option OpenAPISpec := none
  deriving DecidableEq

/-- The address of an `EnginesSpec`. Policies that inherit a spec share its address. -/
abbrev EnginesPtr := Nat

/-- What each address holds. -/
class Heap where
  engines : EnginesPtr → EnginesSpec

/-- Every address holds a spec without engines. -/
@[reducible] def Heap.empty : Heap where
  engines _ := {}

/-! ## Policies -/

structure HeaderChecks where
  forbidden : List Bytes := []
  required : List Bytes := []
  maxHeaderValueBytes : Int := 0
  enforceValidHost : Bool := false
  deriving DecidableEq

structure DLPSpec where
  direction : Bytes := []
  block : List Bytes := []
  redact : List Bytes := []
  deriving DecidableEq

structure BodyChecks where
  requireJSON : Bool := false
  detectSensitiveData : Bool := false
  dlp : Option DLPSpec := none
  deriving DecidableEq

structure Checks where
  headers : Option HeaderChecks := none
  body : Option BodyChecks := none
  deriving DecidableEq

def stageFastPreChecks : Bytes := ascii "fast_pre_checks"
def stageBodyChecks : Bytes := ascii "body_checks"
def stageWAFEngine : Bytes := ascii "waf_engine"

def knownInspectors : List Bytes := [stageFastPreChecks, stageBodyChecks, stageWAFEngine]

def defaultPipelineOrder : List Bytes := [stageFastPreChecks, stageBodyChecks, stageWAFEngine]

structure PipelineSpec where
  request : Option (List Bytes) := none
  response : Option (List Bytes) := none
  deriving DecidableEq

/-- A sparse policy: only set fields override the inherited value. -/
structure PolicySpec where
  mode : Option Mode := none
  failMode : Option FailMode := none
  inspectRequestBody : Option Bool := none
  inspectResponseBody : Option Bool := none
  maxRequestBodyBytes : Option Int := none
  maxResponseBodyBytes : Option Int := none
  maxHeaderBytes : Option Int := none
  timeout : Option Duration := none
  logLevel : Option Bytes := none
  samplingRate : Option Float64 := none
  anomalyThreshold : Option Int := none
  skipChecks : List Bytes := []
  pipeline : Option PipelineSpec := none
  checks : Checks := {}
  engines : Option EnginesPtr := none
  deriving DecidableEq

/-! ## Documents -/

structure HeaderMatch where
  name : Bytes := []
  exact : Bytes := []
  contains : Bytes := []
  regex : Bytes := []
  present : Option Bool := none
  deriving DecidableEq

structure Match where
  pathExact : Bytes := []
  pathPrefix : Bytes := []
  pathRegex : Bytes := []
  methods : List Bytes := []
  contentType : List Bytes := []
  headers : List HeaderMatch := []
  deriving DecidableEq

structure Route where
  «match» : Match := {}
  policy : PolicySpec := {}
  deriving DecidableEq

structure Domain where
  hosts : List Bytes := []
  policy : PolicySpec := {}
  routes : List Route := []
  deriving DecidableEq

structure Spec where
  defaults : PolicySpec := {}
  domains : List Domain := []
  exclude : List Bytes := []
  deriving DecidableEq

structure File where
  apiVersion : Bytes := []
  kind : Bytes := []
  spec : Spec := {}
  deriving DecidableEq

end ElchiShield.Config
