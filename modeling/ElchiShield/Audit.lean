import ElchiShield.Engine
import ElchiShield.Go.Library
import Mathlib.Algebra.Order.Ring.Unbundled.Rat

/-! # Audit events

Package `audit`: the record of a decision, and which allowed requests are recorded. The time
of an event is not part of the record. -/
namespace ElchiShield.Audit
open ElchiShield.Go ElchiShield.Engine

/-- The phase an event or a terminal decision is labelled with. -/
inductive Phase where
  | requestHeaders
  | requestBody
  | responseHeaders
  | responseBody
  deriving DecidableEq, Repr

/-- The direction a phase label starts with. -/
def Phase.direction : Phase → Direction
  | .requestHeaders | .requestBody => .request
  | .responseHeaders | .responseBody => .response

def headersPhase : Direction → Phase
  | .request => .requestHeaders
  | .response => .responseHeaders

def bodyPhase : Direction → Phase
  | .request => .requestBody
  | .response => .responseBody

@[simp] theorem headersPhase_direction (dir : Direction) : (headersPhase dir).direction = dir := by
  cases dir <;> rfl

@[simp] theorem bodyPhase_direction (dir : Direction) : (bodyPhase dir).direction = dir := by
  cases dir <;> rfl

structure Event where
  «instance» : Bytes
  nodeID : Bytes
  projectID : Bytes
  listener : Bytes
  requestID : Bytes
  phase : Phase
  direction : Direction
  decision : Decision
  host : Bytes
  path : Bytes
  method : Bytes
  configVersion : Bytes
  deriving DecidableEq, Repr

/-- `random` is the draw from [0, 1) the source compares the rate with. No comparison with
a NaN holds. -/
def sample (rate : Float64) (random : Rat) : Bool :=
  match rate with
  | .nan => false
  | .inf negative => !negative
  | .fin r => if r ≥ 1 then true else if r ≤ 0 then false else random < r

end ElchiShield.Audit
