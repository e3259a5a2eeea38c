import ElchiShield.Audit
import ElchiShield.Runtime.Snapshot

/-! # Transactions and stages

Package `pipeline`, transaction.go, stage.go, action.go and result.go: the state of one
stream, and what a stage of a pipeline is.

A stage may ask its surroundings (is the context done, how many bytes does the shared
budget grant) and may leave something behind that others see (a reservation, an audit
event). The first are the oracles of a `World`, the second the `log` of an `Exec`. -/
namespace ElchiShield.Pipeline
open ElchiShield.Go ElchiShield.Engine ElchiShield.Policy ElchiShield.Runtime

/-- Phases in the order a validated pipeline runs them. -/
inductive Phase where
  | preCheck
  | bodyGate
  | body
  | waf
  | final
  | audit
  deriving DecidableEq, Repr

def Phase.rank : Phase → Nat
  | .preCheck => 0
  | .bodyGate => 1
  | .body => 2
  | .waf => 3
  | .final => 4
  | .audit => 5

inductive StageAction where
  | continue_
  | allow
  | deny
  | shadowDetect
  | skipBody
  | skipRemaining
  | error
  deriving DecidableEq, Repr

/-- The error of a failed stage is never read and left out. -/
structure StageResult where
  action : StageAction
  decision : Option Decision := none
  deriving DecidableEq, Repr

/-- The per-stream state. The zero value is a clean transaction from the pool. -/
structure Transaction where
  requestID : Bytes := []
  direction : Direction := .request
  snapshot : Option Snapshot := none
  listenerID : Bytes := []
  nodeID : Bytes := []
  host : Bytes := []
  path : Bytes := []
  method : Bytes := []
  contentType : Bytes := []
  sourceIP : Bytes := []
  headers : List Header := []
  policy : Option CompiledPolicy := none
  bodyRequired : Bool := false
  wafEnabled : Bool := false
  bodyTruncated : Bool := false
  bodyInspected : Bool := false
  requestSettled : Bool := false
  bodyMutated : Bool := false
  anomalyScore : Int := 0
  anomalyDenied : Bool := false
  bodyReserved : Nat := 0
  body : Bytes := []
  /-- The running decision of the current pipeline run. -/
  result : Decision := { action := .continue_ }
  /-- The findings the current run recorded without enforcing them. -/
  findings : List Decision := []

/-- What a stream does that its transaction does not remember. -/
inductive Effect where
  /-- Bytes granted by the shared body budget, or returned to it. -/
  | acquired (n : Nat)
  | released (n : Nat)
  /-- A pipeline starts; a stage starts. The transaction is the one it finds. -/
  | started (pipeline : Bytes) (tx : Transaction)
  | ran (stage : Bytes) (tx : Transaction)
  /-- The terminal decision of a phase is recorded. -/
  | finished (phase : Audit.Phase) (d : Decision)
  | audited (ev : Audit.Event)

/-- A stream between two actions: its transaction, the number of questions it has asked, and
its effects, oldest first. -/
structure Exec where
  tx : Transaction
  tick : Nat := 0
  log : List Effect := []

/-- The answers the surroundings of a stream give, by tick. -/
structure World where
  /-- `ctx.Err() != nil` for the context of the stream. -/
  ctx : Ctx
  /-- Whether the deadline set at the first tick has passed at the second. -/
  expired : Nat → Ctx
  /-- What the shared body budget grants of a number of bytes. -/
  grant : Nat → Nat → Nat
  /-- `newRequestID`. -/
  requestID : Nat → Bytes
  /-- `rand.Float64`. -/
  random : Nat → Rat
  /-- A context that is done stays done. -/
  ctx_mono : ∀ s t, s ≤ t → ctx s = true → ctx t = true
  grant_le : ∀ t n, grant t n ≤ n

/-- The context is never done, no deadline passes and the budget grants everything. -/
def World.quiet : World where
  ctx _ := false
  expired _ _ := false
  grant _ n := n
  requestID _ := ascii "0000000000000000"
  random _ := 0
  ctx_mono _ _ _ h := h
  grant_le _ _ := Nat.le_refl _

/-- A result of `none` is a panic. -/
structure Stage where
  name : Bytes
  phase : Phase
  process : World → Ctx → Exec → Option StageResult × Exec

/-! ## Bookkeeping -/

namespace Exec

def emit (st : Exec) (e : Effect) : Exec := { st with log := st.log ++ [e] }

/-- One question was asked. -/
def next (st : Exec) : Exec := { st with tick := st.tick + 1 }

def setTx (st : Exec) (tx : Transaction) : Exec := { st with tx }

@[simp] theorem emit_tx (st : Exec) (e : Effect) : (st.emit e).tx = st.tx := rfl
@[simp] theorem emit_tick (st : Exec) (e : Effect) : (st.emit e).tick = st.tick := rfl
@[simp] theorem emit_log (st : Exec) (e : Effect) : (st.emit e).log = st.log ++ [e] := rfl
@[simp] theorem next_tx (st : Exec) : st.next.tx = st.tx := rfl
@[simp] theorem next_tick (st : Exec) : st.next.tick = st.tick + 1 := rfl
@[simp] theorem next_log (st : Exec) : st.next.log = st.log := rfl
@[simp] theorem setTx_tx (st : Exec) (tx : Transaction) : (st.setTx tx).tx = tx := rfl
@[simp] theorem setTx_tick (st : Exec) (tx : Transaction) : (st.setTx tx).tick = st.tick := rfl
@[simp] theorem setTx_log (st : Exec) (tx : Transaction) : (st.setTx tx).log = st.log := rfl

end Exec

/-! ## Methods of a transaction -/

namespace Transaction

def header [Unicode] (tx : Transaction) (name : Bytes) : Option Bytes := Engine.header tx.headers name

def headerCount [Unicode] (tx : Transaction) (name : Bytes) : Nat :=
  Engine.headerCount tx.headers name

def policyID (tx : Transaction) : Bytes := (tx.policy.map CompiledPolicy.id).getD []

/-- `AppendBody`: the stored bytes, and whether the limit cut the chunk short. -/
def appendBody (tx : Transaction) (chunk : Bytes) (max : Int) : Nat × Bool × Transaction :=
  if max ≤ 0 then (0, chunk ≠ [], tx)
  else
    let remaining := max - tx.body.length
    if remaining ≤ 0 then (0, chunk ≠ [], tx)
    else if chunk.length > remaining then
      (remaining.toNat, true, { tx with body := tx.body ++ chunk.take remaining.toNat })
    else (chunk.length, false, { tx with body := tx.body ++ chunk })

end Transaction

/-- `ReserveBody`: whether the budget granted all of `n` bytes. -/
def reserveBody (w : World) (n : Nat) (st : Exec) : Bool × Exec :=
  if n = 0 then (true, st)
  else
    let got := w.grant st.tick n
    (got = n, (st.next.emit (.acquired got)).setTx
      { st.tx with bodyReserved := st.tx.bodyReserved + got })

/-- `BeginResponse`: what belongs to the request is cleared, its policy stays. -/
def beginResponse (st : Exec) : Exec :=
  let tx := { st.tx with
    direction := .response
    headers := []
    contentType := []
    body := []
    bodyTruncated := false
    bodyInspected := false
    bodyMutated := false
    anomalyScore := 0
    anomalyDenied := false
    bodyRequired := false
    wafEnabled := false }
  if tx.bodyReserved > 0 then
    (st.emit (.released tx.bodyReserved)).setTx { tx with bodyReserved := 0 }
  else st.setTx tx

end ElchiShield.Pipeline
