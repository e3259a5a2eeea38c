import ElchiShield.Decision

/-! # Security engines

Package `engine`: the contract of a pluggable engine and the set that runs the
engines of one policy and aggregates their verdicts.

What lies outside the process (the clock behind a context's deadline, the state of
an engine other streams share) is an oracle: a *tick* counts the questions a stream
has asked so far, and an answer may depend on it in any way. -/
namespace ElchiShield.Engine
open ElchiShield.Go

structure Header where
  name : Bytes
  value : Bytes
  deriving DecidableEq, Repr

/-- `Transaction.Header`: the first value of the named header, case-insensitively. -/
def header [Unicode] (hs : List Header) (name : Bytes) : Option Bytes :=
  (hs.find? fun h => equalFold h.name name).map Header.value

/-- `Transaction.HeaderCount`. -/
def headerCount [Unicode] (hs : List Header) (name : Bytes) : Nat :=
  hs.countP fun h => equalFold h.name name

/-- Shared by the packages `engine` and `pipeline`. -/
inductive Direction where
  | request
  | response
  deriving DecidableEq, Repr

structure Request where
  direction : Direction
  host : Bytes
  path : Bytes
  method : Bytes
  contentType : Bytes
  sourceIP : Bytes
  body : Bytes
  headers : List Header
  deriving DecidableEq, Repr

/-- How a call into an engine ends. -/
inductive Outcome where
  | verdict (v : Verdict)
  | error (err : Bytes)
  | panicked
  deriving DecidableEq, Repr

/-- `inspectsResponse` is false for an engine that does not implement
`ResponseInspector`. -/
structure SecurityEngine where
  name : Bytes
  requiresBody : Bool
  inspectsResponse : Bool
  inspect : Nat → Request → Outcome

/-- A context, as the answers of `ctx.Err() != nil` by tick. -/
abbrev Ctx := Nat → Bool

/-- The engines of a policy; a nil `*Set` has the same methods as the empty one. -/
structure EngineSet where
  engines : List SecurityEngine

namespace EngineSet

def len (s : EngineSet) : Nat := s.engines.length

def requiresBody (s : EngineSet) : Bool := s.engines.any SecurityEngine.requiresBody

def inspectsResponse (s : EngineSet) : Bool := s.engines.any SecurityEngine.inspectsResponse

def names (s : EngineSet) : List Bytes := s.engines.map SecurityEngine.name

end EngineSet

/-- The three update cases of the aggregation: a block beats a non-block, the later of
two blocks of equal severity wins, a non-block has to be strictly more severe. -/
def worse (worst v : Verdict) : Verdict :=
  if v.action = .block ∧ worst.action ≠ .block then v
  else if v.action = .block ∧ worst.action = .block ∧ worst.severity.rank ≤ v.severity.rank then v
  else if v.action ≠ .block ∧ worst.action ≠ .block ∧ worst.severity.rank < v.severity.rank then v
  else worst

/-- What an inspection returns: the worst verdict and the errors joined into one. A
panic of an engine leaves the loop at once. -/
structure Inspected where
  worst : Verdict := {}
  totalScore : Int := 0
  errs : List Bytes := []

/-- The loop of `Set.inspect`, over the engines `want` selects. -/
def inspectLoop (ctx : Ctx) (req : Request) (want : SecurityEngine → Bool) :
    List SecurityEngine → Inspected → Nat → Option Inspected × Nat
  | [], acc, tick => (some acc, tick)
  | e :: rest, acc, tick =>
    if !want e then inspectLoop ctx req want rest acc tick
    else if ctx tick then
      (some { acc with errs := acc.errs ++ [ascii "context"] }, tick + 1)
    else match e.inspect (tick + 1) req with
      | .panicked => (none, tick + 2)
      | .error err =>
        inspectLoop ctx req want rest { acc with errs := acc.errs ++ [err] } (tick + 2)
      | .verdict v =>
        inspectLoop ctx req want rest
          { acc with
            worst := worse acc.worst v
            totalScore := if v.score > 0 then acc.totalScore + v.score else acc.totalScore }
          (tick + 2)

/-- `Set.inspect`: the verdict carries the summed score. -/
def EngineSet.inspect (s : EngineSet) (ctx : Ctx) (req : Request) (want : SecurityEngine → Bool)
    (tick : Nat) : Option (Verdict × List Bytes) × Nat :=
  match inspectLoop ctx req want s.engines {} tick with
  | (none, tick) => (none, tick)
  | (some acc, tick) => (some ({ acc.worst with score := acc.totalScore }, acc.errs), tick)

def EngineSet.inspectHeaderPhase (s : EngineSet) (ctx : Ctx) (req : Request) (tick : Nat) :=
  s.inspect ctx req (fun e => !e.requiresBody) tick

def EngineSet.inspectBodyPhase (s : EngineSet) (ctx : Ctx) (req : Request) (tick : Nat) :=
  s.inspect ctx req SecurityEngine.requiresBody tick

end ElchiShield.Engine
