import ElchiShield.Go.Netip
import ElchiShield.Matcher
import ElchiShield.Pipeline.Pipeline

/-! # Stages that read no body

Package `stages`, precheck.go. -/
namespace ElchiShield.Stages
open ElchiShield.Go ElchiShield.Engine ElchiShield.Policy ElchiShield.Pipeline ElchiShield.Matcher

def checkHost : Bytes := ascii "host"
def checkForbiddenHeaders : Bytes := ascii "forbidden_headers"
def checkRequiredHeaders : Bytes := ascii "required_headers"
def checkOversizedHeaders : Bytes := ascii "oversized_headers"
def checkJSON : Bytes := ascii "json"
def checkSensitiveData : Bytes := ascii "sensitive_data"

def builtinEngine : Bytes := ascii "builtin"
def engineDLP : Bytes := ascii "dlp"
def engineBodySize : Bytes := ascii "body_size"
def engineBodyDecode : Bytes := ascii "body_decode"

def denyEngine (tx : Transaction) (engine ruleID reason : Bytes) (sev : Severity) : StageResult :=
  .deny
    { action := .block
      reason
      ruleID
      policyID := tx.policyID
      engine
      severity := sev
      statusCode := defaultBlockStatus }

def deny (tx : Transaction) (ruleID reason : Bytes) (sev : Severity) : StageResult :=
  denyEngine tx builtinEngine ruleID reason sev

/-- A stage that looks at the transaction and changes nothing. -/
def pureStage (name : Bytes) (phase : Phase) (check : Transaction → StageResult) : Stage where
  name
  phase
  process _ _ st := (some (check st.tx), st)

/-! ## context_init -/

/-- The canonical text of an address, which may carry a port; empty when there is none. -/
def canonIP (s : Bytes) : Bytes :=
  if s = [] then []
  else match (Netip.parseAddrPort s).or (Netip.parseAddr s) with
    | some a => a.unmap.withoutZone.text
    | none => []

variable [Library]

/-- The entry `trustedHops` positions from the right of X-Forwarded-For. -/
def forwardedFor (v : Bytes) (trustedHops : Int) : Bytes :=
  let toks := v.splitOn (ch ',')
  toks.getD (toks.length - 1 - trustedHops.toNat) []

def clientIP (tx : Transaction) (trustedHops : Int) : Bytes :=
  let forwarded := match tx.header (ascii "x-forwarded-for") with
    | some v => if v = [] then [] else canonIP (trimSpace (forwardedFor v trustedHops))
    | none => []
  if forwarded ≠ [] then forwarded
  else match tx.header (ascii "x-real-ip") with
    | some v => canonIP (trimSpace v)
    | none => []

/-- A field that is still empty takes the value of the first of the headers that is present. -/
def fillFrom (tx : Transaction) (field : Bytes) (names : List Bytes) : Bytes :=
  if field = [] then (names.findSome? tx.header).getD [] else field

def initContext (trustedHops : Int) (tx : Transaction) : Transaction :=
  let tx := { tx with contentType := fillFrom tx tx.contentType [ascii "content-type"] }
  match tx.direction with
  | .response => tx
  | .request =>
    { tx with
      host := fillFrom tx tx.host [ascii ":authority", ascii "host"]
      path := fillFrom tx tx.path [ascii ":path"]
      method := fillFrom tx tx.method [ascii ":method"]
      sourceIP := if tx.sourceIP = [] then clientIP tx trustedHops else tx.sourceIP }

def contextInit (trustedHops : Int) : Stage where
  name := ascii "context_init"
  phase := .preCheck
  process _ _ st := (some .continue_, st.setTx (initContext trustedHops st.tx))

/-! ## policy_resolve -/

def matchPath (raw : Bytes) : Bytes := normalizePath raw

def resolveInput (tx : Transaction) : Input where
  host := tx.host
  path := matchPath tx.path
  method := tx.method
  contentType := tx.contentType
  headers := tx.headers

/-- The policy of a request: an excluded path has the shared mode-off one. A nil resolver
excludes and resolves as the empty one. -/
def resolvedPolicy (r : Option Resolver) (tx : Transaction) : Option CompiledPolicy :=
  if (r.getD {}).excluded (matchPath tx.path) then some passThroughPolicy
  else (r.getD {}).resolve (resolveInput tx)

def policyResolve : Stage where
  name := ascii "policy_resolve"
  phase := .preCheck
  process _ _ st := match st.tx.snapshot with
    | none => (some .continue_, st)
    | some snap =>
      (some .continue_, st.setTx { st.tx with policy := resolvedPolicy snap.resolver st.tx })

/-! ## fast_pre_checks -/

def requestHeaderChecks (p : CompiledPolicy) (tx : Transaction) : StageResult :=
  let c := p.checks
  if !p.skipsCheck checkHost && c.enforceValidHost && trimSpace tx.host = [] then
    deny tx (ascii "header.invalid_host") (ascii "missing or empty host") .high
  else match (if p.skipsCheck checkForbiddenHeaders then none
      else c.forbiddenHeaders.find? fun name => (tx.header name).isSome) with
  | some name =>
    deny tx (ascii "header.forbidden") (ascii "forbidden header present: " ++ name) .high
  | none => match (if p.skipsCheck checkRequiredHeaders then none
      else c.requiredHeaders.find? fun name => (tx.header name).isNone) with
  | some name =>
    deny tx (ascii "header.required_missing") (ascii "required header missing: " ++ name) .medium
  | none => match (if c.maxHeaderValueBytes > 0 && !p.skipsCheck checkOversizedHeaders then
      tx.headers.find? fun h => h.value.length > c.maxHeaderValueBytes else none) with
  | some h => deny tx (ascii "header.oversized") (ascii "header value too large: " ++ h.name) .medium
  | none => .continue_

/-- The checks describe the request; a response passes. -/
def fastPreChecks : Stage :=
  pureStage Config.stageFastPreChecks .preCheck fun tx =>
    match tx.policy with
    | none => .continue_
    | some p =>
      if !p.enforcing then .continue_
      else if tx.direction ≠ .request then .continue_
      else requestHeaderChecks p tx

/-! ## early_decision -/

/-- The :authority and the Host header disagree. -/
def hostMismatch (headers : List Engine.Header) : Bool :=
  match Engine.header headers (ascii ":authority"), Engine.header headers (ascii "host") with
  | some auth, some host => !equalFold (normalizeHost auth) (normalizeHost host)
  | _, _ => false

def earlyDecision (defaultAllow : Bool) : Stage where
  name := ascii "early_decision"
  phase := .preCheck
  process _ _ st :=
    if hostMismatch st.tx.headers then
      (some (deny st.tx (ascii "header.host_mismatch") (ascii "host and :authority disagree") .high),
        st)
    else match st.tx.policy with
      | none =>
        if defaultAllow then (some .skipRemaining, st)
        else
          -- a blocking policy makes the executor enforce the deny
          (some (.deny
            { action := .block
              reason := ascii "default_deny_no_policy"
              statusCode := defaultBlockStatus }),
            st.setTx { st.tx with policy := some denyAll })
      | some p => if !p.enforcing then (some .skipRemaining, st) else (some .continue_, st)

end ElchiShield.Stages
