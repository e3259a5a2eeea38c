import ElchiShield.Stages.Precheck

/-! # Stages of the body phase

Package `stages`, body.go and decode.go: the gate that asks for the body, the two guards
every body pipeline starts with, and the native body checks. -/
namespace ElchiShield.Stages
open ElchiShield.Go ElchiShield.Engine ElchiShield.Policy ElchiShield.Pipeline

/-! ## body_gate -/

def inspectsBody (p : CompiledPolicy) (dir : Direction) : Bool :=
  match dir with
  | .request => p.inspectRequestBody || p.engineSet.requiresBody
  | .response => p.inspectResponseBody || p.engineSet.requiresBody

def bodyGate : Stage where
  name := ascii "body_gate"
  phase := .bodyGate
  process _ _ st := match st.tx.policy with
    | none => (some .continue_, st)
    | some p =>
      if !p.enforcing then (some .continue_, st)
      else
        (some .continue_, st.setTx { st.tx with
          bodyRequired := inspectsBody p st.tx.direction
          wafEnabled := p.engineSet.requiresBody })

/-! ## body_truncation_guard -/

def bodyTruncationGuard : Stage :=
  pureStage (ascii "body_truncation_guard") .body fun tx =>
    match tx.policy with
    | none => .continue_
    | some p =>
      if !p.enforcing then .continue_
      else if tx.bodyTruncated then
        denyEngine tx engineBodySize (ascii "body.too_large")
          (ascii "body exceeded maximum size (truncated; not fully inspected)") .medium
      else .continue_

/-! ## body_content_decode -/

section
variable [Library]

def maxDecodedBodyBytes : Nat := 8388608

/-- `readBounded`: one byte more than the limit is an error like any other. -/
def readBounded (r : Reader) : Option Bytes :=
  if r.failed ∨ r.output.length > maxDecodedBodyBytes then none else some r.output

/-- `decodeBody`. Bytes that are no zlib stream are taken as raw DEFLATE. -/
def decodeBody (enc body : Bytes) : Option Bytes :=
  if enc = ascii "gzip" ∨ enc = ascii "x-gzip" then (Library.gzip body).bind readBounded
  else if enc = ascii "deflate" then
    match Library.zlib body with
    | some r => readBounded r
    | none => readBounded (Library.flate body)
  else none

def contentEncoding : Bytes := ascii "content-encoding"

/-- The decoded body takes the place of the received one, once its expansion is charged
against the budget. -/
def decodeInto (w : World) (enc : Bytes) (st : Exec) : StageResult × Exec :=
  match decodeBody enc st.tx.body with
  | none =>
    (denyEngine st.tx engineBodyDecode (ascii "body.undecodable_encoding")
      (ascii "body uses an encoding that cannot be inspected: " ++ enc) .medium, st)
  | some decoded =>
    match reserveBody w (decoded.length - st.tx.body.length) st with
    | (false, st) =>
      (denyEngine st.tx engineBodyDecode (ascii "body.decode_budget")
        (ascii "decoded body exceeds the in-flight inspection budget") .medium, st)
    | (true, st) => (.continue_, st.setTx { st.tx with body := decoded })

/-- An encoding that leaves the bytes as they are. -/
def isIdentity (enc : Bytes) : Prop := enc = [] ∨ enc = ascii "identity"

instance (enc : Bytes) : Decidable (isIdentity enc) := inferInstanceAs (Decidable (_ ∨ _))

def normalizeEncoding (enc : Bytes) : Bytes := toLower (trimSpace enc)

def bodyContentDecode : Stage where
  name := ascii "body_content_decode"
  phase := .body
  process w _ st := match st.tx.policy with
    | none => (some .continue_, st)
    | some p =>
      if !p.enforcing then (some .continue_, st)
      else match st.tx.header contentEncoding with
        | none => (some .continue_, st)
        | some enc =>
          if st.tx.headerCount contentEncoding > 1 then
            (some (denyEngine st.tx engineBodyDecode (ascii "body.undecodable_encoding")
              (ascii "body uses stacked content-encodings that cannot be inspected") .medium), st)
          else if isIdentity (normalizeEncoding enc) then (some .continue_, st)
          else if st.tx.body = [] then (some .continue_, st)
          else
            let (res, st) := decodeInto w (normalizeEncoding enc) st
            (some res, st)

end

/-! ## body_checks -/

/-- `sensitive.Match`: a located finding. -/
structure Match where
  start : Nat
  stop : Nat
  kind : Bytes
  deriving DecidableEq, Repr

/-- `SensitiveDataDetector`; `scan` gives the kind of what it found. -/
structure Detector where
  scan : Bytes → Bytes → Option Bytes
  «matches» : Bytes → List Match

/-- The loop of `mask` over a card number: of its digits the last four stay. -/
def maskDigits (digits : Int) : Nat → Bytes → Bytes
  | _, [] => []
  | seen, b :: bs =>
    if isDigit b then
      (if (seen + 1 : Int) > digits - 4 then b else ch '*') :: maskDigits digits (seen + 1) bs
    else b :: maskDigits digits seen bs

def mask (orig kind : Bytes) : Bytes :=
  if kind = ascii "credit_card" then maskDigits (orig.countP isDigit) 0 orig
  else ascii "[REDACTED:" ++ kind ++ ascii "]"

/-- The slice `body[a:b]`; a bound outside the body panics. -/
def slice (body : Bytes) (a b : Nat) : Option Bytes :=
  if a ≤ b ∧ b ≤ body.length then some ((body.take b).drop a) else none

/-- The loop of `redactBody`: the output so far, the end of what it covers, and whether
anything was masked. -/
def redactLoop (body : Bytes) (redact : List Bytes) :
    List Match → Bytes × Nat × Bool → Option (Bytes × Nat × Bool)
  | [], acc => some acc
  | m :: ms, (out, last, changed) =>
    if !redact.contains m.kind then redactLoop body redact ms (out, last, changed)
    else if m.start < last then
      -- what reaches past the masked region is masked too
      if m.stop > last then do
        let tail ← slice body last m.stop
        redactLoop body redact ms (out ++ mask tail m.kind, m.stop, true)
      else redactLoop body redact ms (out, last, changed)
    else do
      let keep ← slice body last m.start
      let found ← slice body m.start m.stop
      redactLoop body redact ms (out ++ keep ++ mask found m.kind, m.stop, true)

/-- The new body and whether it is a changed one; none is a panic. -/
def redactBody (body : Bytes) (ms : List Match) (redact : List Bytes) : Option (Bytes × Bool) := do
  let (out, last, changed) ← redactLoop body redact ms ([], 0, false)
  if !changed then return (body, false)
  let rest ← slice body last body.length
  return (out ++ rest, true)

def dlpApplies (dlp : CompiledDLP) (dir : Direction) : Bool :=
  match dir with
  | .response => dlp.onResponse
  | .request => dlp.onRequest

/-- `runDLP`, under the policy `p` of the transaction. -/
def runDLP (det : Detector) (p : CompiledPolicy) (dlp : CompiledDLP) (st : Exec) :
    Option StageResult × Exec :=
  let ms := det.matches st.tx.body
  match ms.find? fun m => dlp.block.contains m.kind with
  | some m =>
    (some (denyEngine st.tx engineDLP (ascii "body.dlp_block:" ++ m.kind)
      (ascii "blocked sensitive data: " ++ m.kind) .high), st)
  | none => match redactBody st.tx.body ms dlp.redact with
    | none => (none, st)
    | some (redacted, changed) =>
      if !changed then (some .continue_, st)
      else if p.blocking then
        (some .continue_, st.setTx { st.tx with body := redacted, bodyMutated := true })
      else
        -- detect and shadow must not modify traffic
        (some (denyEngine st.tx engineDLP (ascii "body.dlp_redact_would")
          (ascii "would redact sensitive data (observe-only mode)") .medium), st)

variable [Library]

/-- The media type, leniently read where it does not parse. -/
def mediaType (ct : Bytes) : Bytes :=
  (Library.parseMediaType ct).getD (toLower (trimSpace (before (ch ';') ct)))

def isJSONContentType (ct : Bytes) : Bool :=
  match cut (ch '/') (mediaType ct) with
  | none => false
  | some (_, sub) => sub = ascii "json" || (ascii "+json").isSuffixOf sub

def jsonCheck (p : CompiledPolicy) (tx : Transaction) : Option StageResult :=
  if p.checks.requireJSON && !p.skipsCheck checkJSON && tx.body ≠ [] then
    if !isJSONContentType tx.contentType then
      some (deny tx (ascii "body.unexpected_content_type")
        (ascii "non-JSON content-type on a JSON-only endpoint") .medium)
    else if !Library.jsonValid tx.body then
      some (deny tx (ascii "body.invalid_json") (ascii "body is not valid JSON") .medium)
    else none
  else none

def sensitiveCheck (detector : Option Detector) (p : CompiledPolicy) (tx : Transaction) :
    Option StageResult := do
  let det ← detector
  if p.checks.detectSensitiveData && !p.skipsCheck checkSensitiveData then
    let kind ← det.scan tx.contentType tx.body
    return denyEngine tx engineDLP (ascii "body.sensitive_data")
      (ascii "sensitive data detected: " ++ kind) .high
  else none

def bodyChecks (detector : Option Detector) : Stage where
  name := Config.stageBodyChecks
  phase := .body
  process _ _ st := match st.tx.policy with
    | none => (some .continue_, st)
    | some p =>
      if !p.enforcing then (some .continue_, st)
      else match (jsonCheck p st.tx).or (sensitiveCheck detector p st.tx) with
        | some res => (some res, st)
        | none => match p.checks.dlp, detector with
          | some dlp, some det =>
            if dlpApplies dlp st.tx.direction && st.tx.body ≠ [] then runDLP det p dlp st
            else (some .continue_, st)
          | _, _ => (some .continue_, st)

end ElchiShield.Stages
