import ElchiShield.Go.Strings

/-! # Outcomes of inspection

Package `decision`: the aggregate `Decision` a pipeline run returns and the lighter
`Verdict` one engine returns. -/
namespace ElchiShield
open ElchiShield.Go

inductive Action where
  | continue_
  | allow
  | block
  | detect
  | shadow
  deriving DecidableEq, Repr

inductive Severity where
  | none
  | info
  | low
  | medium
  | high
  | critical
  deriving DecidableEq, Repr

/-- The value of the Go constant; higher is worse. -/
def Severity.rank : Severity → Nat
  | .none => 0
  | .info => 1
  | .low => 2
  | .medium => 3
  | .high => 4
  | .critical => 5

def defaultBlockStatus : Nat := 403

structure Decision where
  action : Action
  reason : Bytes := []
  ruleID : Bytes := []
  policyID : Bytes := []
  engine : Bytes := []
  severity : Severity := .none
  statusCode : Nat := 0
  deriving DecidableEq, Repr

/-- The zero `Verdict` is "no finding". -/
structure Verdict where
  action : Action := .continue_
  reason : Bytes := []
  ruleID : Bytes := []
  engine : Bytes := []
  severity : Severity := .none
  statusCode : Nat := 0
  score : Int := 0
  deriving DecidableEq, Repr

def Decision.isBlock (d : Decision) : Bool := d.action == .block

def allowed (policyID : Bytes) : Decision := { action := .allow, policyID }

def blocked (policyID : Bytes) (v : Verdict) : Decision where
  action := .block
  reason := v.reason
  ruleID := v.ruleID
  policyID := policyID
  engine := v.engine
  severity := v.severity
  statusCode := if v.statusCode = 0 then defaultBlockStatus else v.statusCode

end ElchiShield
