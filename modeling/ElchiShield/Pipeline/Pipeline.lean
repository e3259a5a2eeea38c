import ElchiShield.Lib.Chain
import ElchiShield.Pipeline.Transaction

/-! # The pipeline executor

Package `pipeline`, pipeline.go: `Run` takes a transaction through the stages of a pipeline.
It gates phases, checks the context before each stage, turns a panic into an error, maps a
deny through the mode of the policy and applies its fail posture. -/
namespace ElchiShield
open ElchiShield.Go ElchiShield.Lib ElchiShield.Engine ElchiShield.Policy ElchiShield.Pipeline

structure Pipeline where
  name : Bytes
  stages : List Stage

namespace Pipeline

/-! ## Results of stages -/

def StageResult.continue_ : StageResult := { action := .continue_ }
def StageResult.deny (d : Decision) : StageResult := { action := .deny, decision := some d }
def StageResult.skipRemaining : StageResult := { action := .skipRemaining }
def StageResult.fail : StageResult := { action := .error }

/-! ## The executor -/

/-- Whether the phase of a stage is disabled for a transaction. -/
def gated (ph : Phase) (tx : Transaction) : Bool :=
  match ph with
  | .body => !tx.bodyRequired
  | .waf => !tx.wafEnabled
  | _ => false

def runStage (w : World) (ctx : Ctx) (s : Stage) (st : Exec) : StageResult × Exec :=
  match s.process w ctx (st.emit (.ran s.name st.tx)) with
  | (some res, st) => (res, st)
  | (none, st) => (.fail, st)

/-- The running decision after a finding that is not enforced: the first finding, or a
strictly more severe one, gives all of the attribution. -/
def recordResult (final : Decision) (d : Option Decision) (mode : Action) : Decision :=
  let final := if final.action = .allow then { final with action := mode } else final
  match d with
  | none => final
  | some d =>
    if final.reason = [] ∨ final.severity.rank < d.severity.rank then
      { final with
        reason := d.reason
        ruleID := d.ruleID
        engine := d.engine
        severity := d.severity }
    else final

def record (res : StageResult) (mode : Action) (tx : Transaction) : Transaction :=
  { tx with
    result := recordResult tx.result res.decision mode
    findings := tx.findings ++ (res.decision.map fun d => { d with action := mode }).toList }

/-- The action of a finding that is not enforced. -/
def observed (tx : Transaction) : Action :=
  if tx.policy.any CompiledPolicy.shadowing then .shadow else .detect

theorem observed_ne_block (tx : Transaction) : observed tx ≠ .block := by
  unfold observed
  split <;> simp

/-- The enforced block, or none when the finding is only recorded. -/
def applyDeny (res : StageResult) (st : Exec) : Option Decision × Exec :=
  if st.tx.policy.any CompiledPolicy.blocking then
    match res.decision with
    | some d =>
      (some (if d.statusCode = 0 then { d with statusCode := defaultBlockStatus } else d), st)
    | none =>
      (some { action := .block, policyID := st.tx.policyID, statusCode := defaultBlockStatus }, st)
  else
    (none, st.setTx (record res (observed st.tx) st.tx))

theorem applyDeny_blocking {d : Decision} {st : Exec} (hd : d.statusCode ≠ 0)
    (h : st.tx.policy.any CompiledPolicy.blocking = true) :
    applyDeny (.deny d) st = (some d, st) := by
  simp [applyDeny, h, StageResult.deny, hd]

theorem applyDeny_observing {res : StageResult} {st : Exec}
    (h : st.tx.policy.any CompiledPolicy.blocking = false) :
    applyDeny res st = (none, st.setTx (record res (observed st.tx) st.tx)) := by
  simp [applyDeny, h]

/-- Without a policy the posture is to fail open. -/
def failPosture (tx : Transaction) (timedOut : Bool) : Decision :=
  if tx.policy.all CompiledPolicy.failOpen then tx.result
  else
    { action := .block
      reason := if timedOut then ascii "fail_close_timeout" else ascii "fail_close_error"
      policyID := tx.policyID
      statusCode := defaultBlockStatus }

/-- The switch of `Run` over the result of a stage: the decision that ends the run, or none
when the next stage follows. -/
def settle (res : StageResult) (st : Exec) : Option Decision × Exec :=
  match res.action with
  | .continue_ => (none, st)
  | .allow => (some (res.decision.getD st.tx.result), st)
  | .deny => applyDeny res st
  | .shadowDetect => (none, st.setTx (record res .shadow st.tx))
  | .skipBody => (none, st.setTx { st.tx with bodyRequired := false, wafEnabled := false })
  | .skipRemaining => (some st.tx.result, st)
  | .error => (some (failPosture st.tx false), st)

/-- One round of the loop of `Run`. -/
def stageStep (w : World) (ctx : Ctx) (s : Stage) (st : Exec) : Option Decision × Exec :=
  if gated s.phase st.tx then (none, st)
  else if ctx st.tick then (some (failPosture st.tx true), st.next)
  else
    let (res, st) := runStage w ctx s st.next
    settle res st

theorem stageStep_late {w : World} {ctx : Ctx} {s : Stage} (st : Exec)
    (hg : gated s.phase st.tx = false) (hc : ctx st.tick = true) :
    stageStep w ctx s st = (some (failPosture st.tx true), st.next) := by
  simp [stageStep, hg, hc]

theorem stageStep_live {w : World} {ctx : Ctx} {s : Stage} (st : Exec)
    (hg : gated s.phase st.tx = false) (hc : ctx st.tick = false) :
    stageStep w ctx s st =
      settle (runStage w ctx s st.next).1 (runStage w ctx s st.next).2 := by
  simp [stageStep, hg, hc]

/-- A stage that is due and returns a result. -/
theorem stageStep_result {w : World} {ctx : Ctx} {s : Stage} (st : Exec) {t : Exec} {res : StageResult}
    (hg : gated s.phase st.tx = false) (hc : ctx st.tick = false)
    (hs : s.process w ctx (st.next.emit (.ran s.name st.tx)) = (some res, t)) :
    stageStep w ctx s st = settle res t := by
  have hrun : runStage w ctx s st.next = (res, t) := by
    simp only [runStage, Exec.next_tx, hs]
  rw [stageStep_live st hg hc, hrun]

theorem stageStep_pass {w : World} {ctx : Ctx} {s : Stage} (st : Exec) {t : Exec}
    (hg : gated s.phase st.tx = false) (hc : ctx st.tick = false)
    (hs : s.process w ctx (st.next.emit (.ran s.name st.tx)) = (some .continue_, t)) :
    stageStep w ctx s st = (none, t) :=
  stageStep_result st hg hc hs

/-- The state at the start of a run. -/
def start (p : Pipeline) (st : Exec) : Exec :=
  (st.emit (.started p.name st.tx)).setTx
    { st.tx with result := allowed st.tx.policyID, findings := [] }

def run (p : Pipeline) (w : World) (ctx : Ctx) (st : Exec) : Decision × Exec :=
  chain (stageStep w ctx) (fun st => st.tx.result) p.stages (p.start st)

end Pipeline

end ElchiShield
