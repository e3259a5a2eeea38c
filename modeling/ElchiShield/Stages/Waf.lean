import ElchiShield.Stages.Precheck

/-! # Stages that run the engines of a policy

Package `stages`, waf.go. The configured stage `waf_engine` is two stages: the engines that
need no body run with the headers. -/
namespace ElchiShield.Stages
open ElchiShield.Go ElchiShield.Engine ElchiShield.Policy ElchiShield.Pipeline

/-- The view of the transaction an engine inspects. -/
def engineRequest (tx : Transaction) : Engine.Request where
  direction := tx.direction
  host := tx.host
  path := tx.path
  method := tx.method
  contentType := tx.contentType
  sourceIP := tx.sourceIP
  body := tx.body
  headers := tx.headers

def addAnomalyScore (tx : Transaction) (v : Verdict) : Transaction :=
  if v.score > 0 then { tx with anomalyScore := tx.anomalyScore + v.score } else tx

/-- The score crosses the threshold of the policy for the first time in this direction. -/
def crossesThreshold (p : CompiledPolicy) (tx : Transaction) : Bool :=
  p.anomalyThreshold > 0 && tx.anomalyScore ≥ p.anomalyThreshold && !tx.anomalyDenied

def anomalyDecision (tx : Transaction) : Decision where
  action := .block
  reason := ascii "anomaly score crossed threshold"
  ruleID := ascii "anomaly.threshold"
  policyID := tx.policyID
  engine := ascii "anomaly"
  severity := .medium
  statusCode := defaultBlockStatus

/-- What `runEngines` makes of an inspection; a confirmed block wins over an error. -/
def applyVerdict (p : CompiledPolicy) (v : Verdict) (errs : List Bytes) (tx : Transaction) :
    StageResult × Transaction :=
  if v.action = .block then (.deny (blocked tx.policyID v), tx)
  else if errs ≠ [] then (.fail, tx)
  else
    let tx := addAnomalyScore tx v
    if crossesThreshold p tx then (.deny (anomalyDecision tx), { tx with anomalyDenied := true })
    else (.continue_, tx)

def runEngines (inspect : EngineSet → Ctx → Engine.Request → Nat →
    Option (Verdict × List Bytes) × Nat) (ctx : Ctx) (st : Exec) : Option StageResult × Exec :=
  match st.tx.policy with
  | none => (some .continue_, st)
  | some p =>
    if !p.enforcing || p.engineSet.len = 0 then (some .continue_, st)
    else match inspect p.engineSet ctx (engineRequest st.tx) st.tick with
      | (none, tick) => (none, { st with tick })
      | (some (v, errs), tick) =>
        let (res, tx) := applyVerdict p v errs st.tx
        (some res, { st with tx, tick })

def wafEngine : Stage where
  name := Config.stageWAFEngine
  phase := .waf
  process _ ctx st := runEngines EngineSet.inspectBodyPhase ctx st

def stageWAFHeaderEngine : Bytes := Config.stageWAFEngine ++ ascii "_headers"

def wafHeaderEngine : Stage where
  name := stageWAFHeaderEngine
  phase := .preCheck
  process _ ctx st := runEngines EngineSet.inspectHeaderPhase ctx st

end ElchiShield.Stages
