import ElchiShield.Stages.Catalog

/-! # The ext_proc processor

Package `extproc`, processor.go: one stream of messages from Envoy is one HTTP transaction,
and each message but an unknown one is answered. -/
namespace ElchiShield.Extproc
open ElchiShield.Go ElchiShield.Engine ElchiShield.Policy ElchiShield.Runtime
open ElchiShield.Pipeline ElchiShield.Stages

/-! ## Messages -/

/-- A header as Envoy sends it, its value in one of two fields. -/
structure HeaderValue where
  key : Bytes
  value : Bytes
  rawValue : Bytes := []
  deriving DecidableEq, Repr

structure HttpHeaders where
  headers : List HeaderValue := []
  endOfStream : Bool := false
  deriving DecidableEq, Repr

structure HttpBody where
  body : Bytes
  endOfStream : Bool := false
  deriving DecidableEq, Repr

/-- `attributes` are the string values of the request attributes, in the order the loops over
the two maps meet them. -/
inductive Message where
  | requestHeaders (attributes : List Bytes) (h : HttpHeaders)
  | requestBody (b : HttpBody)
  | requestTrailers
  | responseHeaders (h : HttpHeaders)
  | responseBody (b : HttpBody)
  | responseTrailers
  | other
  deriving DecidableEq, Repr

/-! ## Replies -/

inductive HeaderMode where
  | default
  | skip
  deriving DecidableEq, Repr

inductive BodyMode where
  | none
  | buffered
  deriving DecidableEq, Repr

structure ProcessingMode where
  requestBodyMode : BodyMode := .none
  responseHeaderMode : HeaderMode := .default
  responseBodyMode : BodyMode := .none
  deriving DecidableEq, Repr

/-- A CONTINUE with what it changes. -/
structure CommonResponse where
  bodyMutation : Option Bytes := none
  removeHeaders : List Bytes := []
  deriving DecidableEq, Repr

structure ImmediateResponse where
  status : Nat
  body : Bytes
  details : Bytes
  headers : List (Bytes × Bytes)
  deriving DecidableEq, Repr

inductive ProcessingResponse where
  | headers (dir : Direction) (modeOverride : Option ProcessingMode)
  | body (dir : Direction) (r : CommonResponse)
  | trailers (dir : Direction)
  | immediate (r : ImmediateResponse)
  deriving DecidableEq, Repr

def ProcessingResponse.isImmediate : ProcessingResponse → Bool
  | .immediate _ => true
  | _ => false

def ProcessingResponse.mutatesBody : ProcessingResponse → Bool
  | .body _ r => r.bodyMutation.isSome
  | _ => false

def blockHeaders (code : Nat) : List (Bytes × Bytes) :=
  (ascii "x-elchi-shield", ascii "blocked") ::
    if code = 429 then [(ascii "Retry-After", ascii "1")] else []

def immediateResponse (d : Decision) : ProcessingResponse :=
  let code := if d.statusCode = 0 then defaultBlockStatus else d.statusCode
  .immediate
    { status := code
      body := ascii "blocked by elchi-shield\n"
      details := d.reason
      headers := blockHeaders code }

def modeSkipResponse : ProcessingMode := { responseHeaderMode := .skip }
def modeBufferBody : ProcessingMode := { requestBodyMode := .buffered }
def modeBufferBodySkipResponse : ProcessingMode :=
  { requestBodyMode := .buffered, responseHeaderMode := .skip }
def modeBufferResponseBody : ProcessingMode := { responseBodyMode := .buffered }

/-- The override of the request-headers reply. A nil policy inspects no response. -/
def requestMode (p : Option CompiledPolicy) (needBody : Bool) : Option ProcessingMode :=
  let skipResp := !p.any CompiledPolicy.needsResponseInspection
  if needBody && skipResp then some modeBufferBodySkipResponse
  else if needBody then some modeBufferBody
  else if skipResp then some modeSkipResponse
  else none

def headersContinue (dir : Direction) (mode : Option ProcessingMode) : ProcessingResponse :=
  .headers dir mode
def bodyContinue (dir : Direction) : ProcessingResponse := .body dir {}
def trailersContinue (dir : Direction) : ProcessingResponse := .trailers dir

/-- The rewritten body is not encoded, and its length may be a new one. -/
def bodyMutation (dir : Direction) (body : Bytes) : ProcessingResponse :=
  .body dir
    { bodyMutation := some body
      removeHeaders := [ascii "content-encoding", ascii "content-length"] }

/-- `continueFor`. -/
def continueFor : Audit.Phase → ProcessingResponse
  | .requestHeaders => headersContinue .request none
  | .requestBody => bodyContinue .request
  | .responseHeaders => headersContinue .response none
  | .responseBody => bodyContinue .response

/-! ## The processor -/

/-- `auditor` says whether one is configured. The logger and the metrics are left out. -/
structure Processor where
  deps : Deps
  auditor : Bool
  instanceID : Bytes
  listenerID : Bytes
  maxBody : Int
  maxBody_pos : 0 < maxBody

def newProcessor (deps : Deps) (auditor : Bool) (instanceID listenerID : Bytes) (maxBody : Int) :
    Processor where
  deps
  auditor
  instanceID
  listenerID
  maxBody := if maxBody ≤ 0 then 1048576 else maxBody
  maxBody_pos := by split <;> omega

/-- The first attribute that is a non-empty string. -/
def listenerIDFromAttributes (attributes : List Bytes) : Bytes :=
  (attributes.find? (· ≠ [])).getD []

def cutDoubleColon : Bytes → Option (Bytes × Bytes)
  | a :: b :: rest =>
    if a = ch ':' ∧ b = ch ':' then some ([], rest)
    else (cutDoubleColon (b :: rest)).map fun p => (a :: p.1, p.2)
  | _ => none

/-- Listener, project and address of a node id "listener::project::ip". -/
def parseNodeID (s : Bytes) : Bytes × Bytes × Bytes :=
  match cutDoubleColon s with
  | none => ([], [], [])
  | some (listener, rest) => match cutDoubleColon rest with
    | none => (listener, rest, [])
    | some (projectID, ip) => (listener, projectID, ip)

def stripQuery (path : Bytes) : Bytes := before (ch '?') path

def loadHeaders (hs : List HeaderValue) : List Engine.Header :=
  hs.map fun h => ⟨h.key, if h.value = [] then h.rawValue else h.value⟩

namespace Processor

/-! ### Recording decisions -/

/-- A stream always has a snapshot. -/
def event (pr : Processor) (tx : Transaction) (phase : Audit.Phase) (d : Decision) : Audit.Event :=
  let (listener, projectID, _) := parseNodeID tx.nodeID
  { «instance» := pr.instanceID
    nodeID := if tx.nodeID = [] then tx.listenerID else tx.nodeID
    projectID
    listener := if listener = [] then tx.listenerID else listener
    requestID := tx.requestID
    phase
    direction := tx.direction
    decision := d
    host := tx.host
    path := stripQuery tx.path
    method := tx.method
    configVersion := (tx.snapshot.map Snapshot.version).getD [] }

def emitEvent (pr : Processor) (phase : Audit.Phase) (d : Decision) (st : Exec) : Exec :=
  st.emit (.audited (pr.event st.tx phase d))

/-- Every recorded finding, or else the decision of the phase: a finding always, an allow as
the policy's sampling rate has it. -/
def emitAudit (pr : Processor) (w : World) (phase : Audit.Phase) (d : Decision) (st : Exec) : Exec :=
  if !pr.auditor then st
  else if st.tx.findings ≠ [] then
    st.tx.findings.foldl (fun st f => pr.emitEvent phase f st) st
  else if d.action ≠ .allow ∧ d.action ≠ .continue_ then pr.emitEvent phase d st
  else
    let rate := (st.tx.policy.map CompiledPolicy.samplingRate).getD (.fin 1)
    if Audit.sample rate (w.random st.tick) then pr.emitEvent phase d st.next else st.next

def emitPhaseFindings (pr : Processor) (w : World) (phase : Audit.Phase) (d : Decision)
    (st : Exec) : Exec :=
  pr.emitAudit w phase d st

def finish (pr : Processor) (w : World) (phase : Audit.Phase) (d : Decision) (st : Exec) : Exec :=
  let st := if phase.direction = .request then st.setTx { st.tx with requestSettled := true } else st
  pr.emitAudit w phase d (st.emit (.finished phase d))

/-! ### Running pipelines -/

/-- The context of an inspect pipeline: a policy's timeout sets a deadline. -/
def inspectCtx (w : World) (st : Exec) : Ctx := fun t =>
  w.ctx t || (st.tx.policy.any fun p => 0 < p.timeout) && w.expired st.tick t

def runInspect (w : World) (p : Pipeline) (st : Exec) : Decision × Exec :=
  p.run w (inspectCtx w st) st

variable [Library]

def policyPipelines (pr : Processor) (p : CompiledPolicy) : Except Err PolicyPipelines :=
  buildPolicyPipelines pr.deps p

/-- The fail posture where the pipelines of a policy do not build. -/
def buildFailed (tx : Transaction) : Decision :=
  if tx.policy.all CompiledPolicy.failOpen then allowed tx.policyID
  else
    { action := .block
      reason := ascii "pipeline_build_failed"
      policyID := tx.policyID
      statusCode := defaultBlockStatus }

def failBuildDecision (pr : Processor) (w : World) (phase : Audit.Phase) (st : Exec) :
    Decision × Exec :=
  (buildFailed st.tx, pr.finish w phase (buildFailed st.tx) st)

/-- The reply a decision gives: an immediate response where it blocks. -/
def replyTo (d : Option Decision) (otherwise : ProcessingResponse) : ProcessingResponse :=
  match d with
  | some d => if d.isBlock then immediateResponse d else otherwise
  | none => otherwise

def failBuild (pr : Processor) (w : World) (phase : Audit.Phase) (st : Exec) :
    ProcessingResponse × Exec :=
  let (d, st) := pr.failBuildDecision w phase st
  (replyTo (some d) (continueFor phase), st)

/-- The body pipeline runs at most once per direction, and only if the header phase asked for
the body. -/
def inspectBufferedBody (pr : Processor) (w : World) (st : Exec) : Option Decision × Exec :=
  match st.tx.policy with
  | none => (none, st)
  | some p =>
    if !p.enforcing || st.tx.bodyInspected then (none, st)
    else if !st.tx.bodyRequired && !st.tx.wafEnabled then (none, st)
    else
      let st := st.setTx { st.tx with bodyInspected := true }
      let phase := Audit.bodyPhase st.tx.direction
      match pr.policyPipelines p with
      | .error _ =>
        let (d, st) := pr.failBuildDecision w phase st
        (some d, st)
      | .ok pp =>
        let (d, st) := runInspect w (pp.body st.tx.direction) st
        (some d, pr.finish w phase d st)

/-! ### Headers -/

/-- The part both header handlers share, from the lookup of the policy's pipelines on. `reply`
is the CONTINUE of the direction, by whether a body is to follow. -/
def inspectHeaders (pr : Processor) (w : World) (dir : Direction)
    (reply : Bool → ProcessingResponse) (endOfStream : Bool) (p : CompiledPolicy) (st : Exec) :
    ProcessingResponse × Exec :=
  let phase := Audit.headersPhase dir
  match pr.policyPipelines p with
  | .error _ => pr.failBuild w phase st
  | .ok pp =>
    let (d, st) := runInspect w (pp.header dir) st
    if d.isBlock then (immediateResponse d, pr.finish w phase d st)
    else if st.tx.bodyRequired || st.tx.wafEnabled then
      -- the run of the body pipeline forgets the findings of this one
      let st := if d.action = .detect ∨ d.action = .shadow then pr.emitPhaseFindings w phase d st
        else st
      if endOfStream then
        let (bd, st) := pr.inspectBufferedBody w st
        (replyTo bd (reply false), st)
      else (reply true, st)
    else (reply false, pr.finish w phase d st)

def adoptRequestID (w : World) (st : Exec) : Exec :=
  match st.tx.header (ascii "x-request-id") with
  | some (c :: rid) => st.setTx { st.tx with requestID := c :: rid }
  | _ =>
    if st.tx.requestID = [] then st.next.setTx { st.tx with requestID := w.requestID st.tick }
    else st

/-- The start of the request: its headers are loaded and it gets an id. -/
def loadRequest (w : World) (h : HttpHeaders) (st : Exec) : Exec :=
  adoptRequestID w
    (st.setTx { st.tx with direction := .request, headers := loadHeaders h.headers })

def requestReply (st : Exec) (needBody : Bool) : ProcessingResponse :=
  headersContinue .request (requestMode st.tx.policy needBody)

def onRequestHeaders (pr : Processor) (w : World) (h : HttpHeaders) (st : Exec) :
    ProcessingResponse × Exec :=
  if st.tx.requestSettled then (headersContinue .request none, st)
  else
    let (d, st) := (requestPrelude pr.deps).run w w.ctx (loadRequest w h st)
    if d.isBlock then (immediateResponse d, pr.finish w .requestHeaders d st)
    else match st.tx.policy with
      | none => (requestReply st false, pr.finish w .requestHeaders d st)
      | some p =>
        if !p.enforcing then (requestReply st false, pr.finish w .requestHeaders d st)
        else pr.inspectHeaders w .request (requestReply st) h.endOfStream p st

def responseReply (needBody : Bool) : ProcessingResponse :=
  headersContinue .response (if needBody then some modeBufferResponseBody else none)

def onResponseHeaders (pr : Processor) (w : World) (h : HttpHeaders) (st : Exec) :
    ProcessingResponse × Exec :=
  let st := beginResponse st
  let st := st.setTx { st.tx with headers := loadHeaders h.headers }
  let (d, st) := (responsePrelude pr.deps).run w w.ctx st
  match st.tx.policy with
  | none => (responseReply false, pr.finish w .responseHeaders d st)
  | some p =>
    if !p.enforcing then (responseReply false, pr.finish w .responseHeaders d st)
    else pr.inspectHeaders w .response responseReply h.endOfStream p st

/-! ### Bodies and trailers -/

def bodyLimit (pr : Processor) (tx : Transaction) (dir : Direction) : Int :=
  let policyLimit := match tx.policy, dir with
    | none, _ => 0
    | some p, .request => p.maxRequestBodyBytes
    | some p, .response => p.maxResponseBodyBytes
  if policyLimit > 0 then policyLimit else pr.maxBody

/-- `appendBody`: a chunk the budget or the cap cuts short leaves the body truncated. -/
def appendBody (pr : Processor) (w : World) (dir : Direction) (chunk : Bytes) (st : Exec) : Exec :=
  if chunk = [] then st
  else
    let grant := w.grant st.tick chunk.length
    let st := st.next.emit (.acquired grant)
    let st :=
      if grant > 0 then
        let (stored, truncated, tx) := st.tx.appendBody (chunk.take grant) (pr.bodyLimit st.tx dir)
        let st := st.setTx { tx with
          bodyReserved := tx.bodyReserved + stored
          bodyTruncated := tx.bodyTruncated || truncated }
        if stored < grant then st.emit (.released (grant - stored)) else st
      else st
    if grant < chunk.length then st.setTx { st.tx with bodyTruncated := true } else st

/-- A non-empty chunk after the inspection opens it again. -/
def reopen (chunk : Bytes) (tx : Transaction) : Transaction :=
  if chunk ≠ [] ∧ tx.bodyInspected then { tx with bodyInspected := false } else tx

/-- The body handler of either direction. A chunk is the last one of a policy that redacts:
the mutation cannot wait for the trailers. -/
def onBody (pr : Processor) (w : World) (dir : Direction) (b : HttpBody) (st : Exec) :
    ProcessingResponse × Exec :=
  match st.tx.policy with
  | none => (bodyContinue dir, st)
  | some p =>
    let st := pr.appendBody w dir b.body (st.setTx (reopen b.body st.tx))
    if !b.endOfStream && !p.mutatesBody dir then (bodyContinue dir, st)
    else
      let (bd, st) := pr.inspectBufferedBody w st
      (replyTo bd (if st.tx.bodyMutated then bodyMutation dir st.tx.body else bodyContinue dir), st)

def onRequestBody (pr : Processor) (w : World) (b : HttpBody) (st : Exec) :=
  pr.onBody w .request b st

def onResponseBody (pr : Processor) (w : World) (b : HttpBody) (st : Exec) :=
  pr.onBody w .response b st

def onTrailers (pr : Processor) (w : World) (dir : Direction) (st : Exec) :
    ProcessingResponse × Exec :=
  let (bd, st) := pr.inspectBufferedBody w st
  (replyTo bd (trailersContinue dir), st)

def onRequestTrailers (pr : Processor) (w : World) (st : Exec) := pr.onTrailers w .request st

def onResponseTrailers (pr : Processor) (w : World) (st : Exec) := pr.onTrailers w .response st

/-! ### Streams -/

/-- `handle`; a message of an unknown kind is not answered. -/
def handle (pr : Processor) (w : World) (st : Exec) (msg : Message) :
    Option ProcessingResponse × Exec :=
  match msg with
  | .requestHeaders attributes h =>
    let st := st.setTx { st.tx with nodeID := listenerIDFromAttributes attributes }
    (pr.onRequestHeaders w h st).map some id
  | .requestBody b => (pr.onRequestBody w b st).map some id
  | .requestTrailers => (pr.onRequestTrailers w st).map some id
  | .responseHeaders h => (pr.onResponseHeaders w h st).map some id
  | .responseBody b => (pr.onResponseBody w b st).map some id
  | .responseTrailers => (pr.onResponseTrailers w st).map some id
  | .other => (none, st)

/-- The start of `Process`: a clean transaction with the active snapshot pinned to it. -/
def newStream (pr : Processor) (snap : Snapshot) : Exec where
  tx := { snapshot := some snap, listenerID := pr.listenerID }

end Processor

end ElchiShield.Extproc
