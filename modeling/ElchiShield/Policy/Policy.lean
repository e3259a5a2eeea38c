import ElchiShield.Config.Policy
import ElchiShield.Engine

/-! # Compiled policies

Package `policy`, policy.go: the form of a resolved policy the request path reads. The
lazily built pipelines the source stores here are a function of the policy; see
`Stages.Catalog`. -/
namespace ElchiShield.Policy
open ElchiShield.Go ElchiShield.Config ElchiShield.Engine

structure CompiledDLP where
  onRequest : Bool
  onResponse : Bool
  block : List Bytes
  redact : List Bytes
  deriving DecidableEq

structure CompiledChecks where
  forbiddenHeaders : List Bytes := []
  requiredHeaders : List Bytes := []
  maxHeaderValueBytes : Int := 0
  enforceValidHost : Bool := false
  requireJSON : Bool := false
  detectSensitiveData : Bool := false
  dlp : Option CompiledDLP := none
  deriving DecidableEq

/-- The defaults are the zero values of the source's fields. -/
structure CompiledPolicy where
  id : Bytes
  mode : Mode
  failMode : FailMode := .other []
  inspectRequestBody : Bool := false
  inspectResponseBody : Bool := false
  maxRequestBodyBytes : Int := 0
  maxResponseBodyBytes : Int := 0
  timeout : Duration := 0
  samplingRate : Float64 := .fin 0
  anomalyThreshold : Int := 0
  checks : CompiledChecks := {}
  engines : Option EngineSet := none
  requestOrder : Option (List Bytes) := none
  responseOrder : Option (List Bytes) := none
  skipChecks : List Bytes := []

def compileDLP (d : DLPSpec) : CompiledDLP where
  onResponse := d.direction = [] || d.direction = ascii "response" || d.direction = ascii "both"
  onRequest := d.direction = ascii "request" || d.direction = ascii "both"
  block := d.block
  redact := d.redact

def compileChecks (c : Checks) : CompiledChecks :=
  let h := c.headers.getD {}
  let b := c.body.getD {}
  { forbiddenHeaders := h.forbidden
    requiredHeaders := h.required
    maxHeaderValueBytes := h.maxHeaderValueBytes
    enforceValidHost := h.enforceValidHost
    requireJSON := b.requireJSON
    detectSensitiveData := b.detectSensitiveData
    dlp := b.dlp.map compileDLP }

/-- The policy-level header cap applies when the checks set none. -/
def effectiveChecks (r : ResolvedPolicy) : CompiledChecks :=
  let checks := compileChecks r.checks
  if checks.maxHeaderValueBytes = 0 ∧ r.maxHeaderBytes > 0 then
    { checks with maxHeaderValueBytes := r.maxHeaderBytes }
  else checks

def fromResolved (id : Bytes) (r : ResolvedPolicy) : CompiledPolicy where
  id := id
  mode := r.mode
  failMode := r.failMode
  inspectRequestBody := r.inspectRequestBody
  inspectResponseBody := r.inspectResponseBody
  maxRequestBodyBytes := r.maxRequestBodyBytes
  maxResponseBodyBytes := r.maxResponseBodyBytes
  timeout := r.timeout
  samplingRate := r.samplingRate
  anomalyThreshold := r.anomalyThreshold
  checks := effectiveChecks r
  requestOrder := r.requestOrder
  responseOrder := r.responseOrder
  skipChecks := r.skipChecks

def denyAll : CompiledPolicy := { id := ascii "__deny_all__", mode := .block, failMode := .failClose }

def passThroughPolicy : CompiledPolicy := { id := ascii "exclude", mode := .off }

namespace CompiledPolicy

def blocking (p : CompiledPolicy) : Bool := p.mode = .block
def enforcing (p : CompiledPolicy) : Bool := p.mode ≠ .off
def shadowing (p : CompiledPolicy) : Bool := p.mode = .shadow
def failOpen (p : CompiledPolicy) : Bool := p.failMode = .failOpen

theorem enforcing_of_blocking {p : CompiledPolicy} (h : p.blocking = true) : p.enforcing = true := by
  have hmode : p.mode = .block := of_decide_eq_true h
  simp [enforcing, hmode]

def skipsCheck (p : CompiledPolicy) (name : Bytes) : Bool := p.skipChecks.contains name

/-- The engines a policy runs; a nil set has none. -/
def engineSet (p : CompiledPolicy) : EngineSet := p.engines.getD ⟨[]⟩

def needsResponseInspection (p : CompiledPolicy) : Bool :=
  p.enforcing && (p.inspectResponseBody || p.checks.dlp.any CompiledDLP.onResponse ||
    p.engineSet.inspectsResponse)

/-- Whether redaction may rewrite the body of a direction. -/
def mutatesBody (p : CompiledPolicy) (dir : Direction) : Bool :=
  p.checks.dlp.any fun d => d.redact ≠ [] && match dir with
    | .response => d.onResponse
    | .request => d.onRequest

end CompiledPolicy

end ElchiShield.Policy
