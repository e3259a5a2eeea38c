import ElchiShield.Stages.Body
import ElchiShield.Stages.Waf

/-! # The stage catalog

Package `stages`, catalog.go: the preludes every stream runs, and the pipelines a policy's
stage orders compile to. -/
namespace ElchiShield.Stages
open ElchiShield.Go ElchiShield.Engine ElchiShield.Policy ElchiShield.Pipeline

/-- What the stages are built from; a nil detector disables the checks that need one. -/
structure Deps where
  defaultAllow : Bool
  detector : Option Detector := none
  trustedHops : Int := 0

variable [Library]

def requestPrelude (deps : Deps) : Pipeline where
  name := ascii "request_prelude"
  stages := [contextInit deps.trustedHops, policyResolve, earlyDecision deps.defaultAllow]

def responsePrelude (deps : Deps) : Pipeline where
  name := ascii "response_prelude"
  stages := [contextInit deps.trustedHops]

/-- The inspectors a stage order can name. -/
def inspectors (deps : Deps) : List (Bytes × Stage) :=
  [(Config.stageFastPreChecks, fastPreChecks), (Config.stageBodyChecks, bodyChecks deps.detector),
    (Config.stageWAFEngine, wafEngine)]

/-- The loop of `split`: the stages of the header and of the body pipeline. -/
def splitStages (deps : Deps) : List Bytes → Except Err (List Stage × List Stage)
  | [] => .ok ([], [])
  | name :: rest =>
    if name = Config.stageWAFEngine then do
      let (header, body) ← splitStages deps rest
      return (wafHeaderEngine :: header, wafEngine :: body)
    else match (inspectors deps).lookup name with
      | none => .error ⟨"unknown stage %q", [.str name]⟩
      | some s => do
        let (header, body) ← splitStages deps rest
        if s.phase = .preCheck then return (s :: header, body) else return (header, s :: body)

/-- The structural stages: the gate ends the header pipeline, the guards start the body
pipeline. -/
def split (deps : Deps) (dir : Bytes) (order : List Bytes) :
    Except Err (Pipeline × Pipeline) := do
  let (header, body) ← splitStages deps order
  return (⟨dir ++ ascii "_header", header ++ [bodyGate]⟩,
    ⟨dir ++ ascii "_body", bodyTruncationGuard :: bodyContentDecode :: body⟩)

def orderOrDefault (order : Option (List Bytes)) : List Bytes :=
  order.getD Config.defaultPipelineOrder

structure PolicyPipelines where
  requestHeader : Pipeline
  requestBody : Pipeline
  responseHeader : Pipeline
  responseBody : Pipeline

def PolicyPipelines.header (pp : PolicyPipelines) : Direction → Pipeline
  | .request => pp.requestHeader
  | .response => pp.responseHeader

def PolicyPipelines.body (pp : PolicyPipelines) : Direction → Pipeline
  | .request => pp.requestBody
  | .response => pp.responseBody

def buildPolicyPipelines (deps : Deps) (p : CompiledPolicy) : Except Err PolicyPipelines := do
  let (reqHdr, reqBody) ← split deps (ascii "request") (orderOrDefault p.requestOrder)
  let (respHdr, respBody) ← split deps (ascii "response") (orderOrDefault p.responseOrder)
  return ⟨reqHdr, reqBody, respHdr, respBody⟩

end ElchiShield.Stages
