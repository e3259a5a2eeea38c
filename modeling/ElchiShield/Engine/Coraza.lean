import ElchiShield.Engine
import ElchiShield.Go.Encoding
import ElchiShield.Lib.Scripts
import ElchiShield.Matcher

/-! # The coraza engine

Package `coraza`: every inspection opens a transaction of the WAF library, feeds it the request or
the response, and turns an interruption into a block. The library is any object that answers the
calls made to it. -/
namespace ElchiShield.Coraza
open ElchiShield.Go ElchiShield.Lib ElchiShield.Engine ElchiShield.Matcher

structure Interruption where
  ruleID : Int
  action : Bytes
  status : Int
  deriving DecidableEq, Repr

/-- The calls of a transaction. The ports and the server address of `ProcessConnection` are always
zero and empty. -/
inductive Call where
  | processConnection (client : Bytes)
  | processURI (uri method httpVersion : Bytes)
  | addRequestHeader (name value : Bytes)
  | setServerName (host : Bytes)
  | processRequestHeaders
  | writeRequestBody (body : Bytes)
  | processRequestBody
  | addResponseHeader (name value : Bytes)
  | processResponseHeaders (status : Int) (proto : Bytes)
  | writeResponseBody (body : Bytes)
  | processResponseBody
  | processLogging
  | close
  deriving DecidableEq, Repr

/-- A transaction, as what the last of the calls so far returns. -/
structure Transaction where
  panics : List Call → Bool
  interrupts : List Call → Option Interruption
  fails : List Call → Option Bytes

namespace Transaction

def call (tx : Transaction) (c : Call) : Session Call (List Call) := Session.call tx.panics c

/-- One call after the other, as `RangeHeaders` makes them. -/
def callAll (tx : Transaction) (cs : List Call) : Session Call Unit := Session.callAll tx.panics cs

/-- A call that returns an interruption, or nil. -/
def evaluate (tx : Transaction) (c : Call) : Session Call (Option Interruption) := do
  return tx.interrupts (← tx.call c)

/-- A call that may also return an error. -/
def attempt (tx : Transaction) (c : Call) : Session Call (Except Bytes (Option Interruption)) := do
  let calls ← tx.call c
  match tx.fails calls with
  | some err => return .error err
  | none => return .ok (tx.interrupts calls)

end Transaction

def verdict (it : Interruption) : Verdict where
  action := .block
  reason := ascii "coraza rule " ++ formatInt it.ruleID ++ ascii " (" ++ it.action ++ ascii ")"
  ruleID := formatInt it.ruleID
  engine := ascii "coraza"
  severity := .high
  statusCode := if it.status < 100 ∨ it.status > 599 then 0 else it.status.toNat

def writeBody : Direction → Bytes → Call
  | .request => .writeRequestBody
  | .response => .writeResponseBody

def processBody : Direction → Call
  | .request => .processRequestBody
  | .response => .processResponseBody

def bodyName : Direction → Bytes
  | .request => ascii "request body: "
  | .response => ascii "response body: "

def runBodyPhase (tx : Transaction) (dir : Direction) : Session Call (Except Bytes Verdict) := do
  match ← tx.attempt (processBody dir) with
  | .error err => return .error (ascii "coraza: process " ++ bodyName dir ++ err)
  | .ok (some it) => return .ok (verdict it)
  | .ok none => return .ok {}

/-- The end of `inspectRequest` and of `inspectResponse`: a body that is not empty is written, and
the body phase is run. -/
def inspectBody (tx : Transaction) (dir : Direction) (body : Bytes) :
    Session Call (Except Bytes Verdict) := do
  if body.length > 0 then
    match ← tx.attempt (writeBody dir body) with
    | .error err => return .error (ascii "coraza: write " ++ bodyName dir ++ err)
    | .ok (some it) => return .ok (verdict it)
    | .ok none => runBodyPhase tx dir
  else runBodyPhase tx dir

def http11 : Bytes := ascii "HTTP/1.1"

section
variable [Unicode]

def hasHost (headers : List Engine.Header) : Bool :=
  headers.any fun h => equalFold h.name (ascii "host")

def inspectRequest (tx : Transaction) (req : Engine.Request) :
    Session Call (Except Bytes Verdict) := do
  let _ ← tx.call (.processConnection req.sourceIP)
  let _ ← tx.call (.processURI req.path req.method http11)
  tx.callAll (req.headers.map fun h => .addRequestHeader h.name h.value)
  let host := normalizeHost req.host
  if !hasHost req.headers && host ≠ [] then
    let _ ← tx.call (.addRequestHeader (ascii "host") host)
  let _ ← tx.call (.setServerName host)
  match ← tx.evaluate .processRequestHeaders with
  | some it => return .ok (verdict it)
  | none => inspectBody tx .request req.body

/-- The status of a response, 200 where the header is missing or no status. -/
def responseStatus (headers : List Engine.Header) : Int :=
  match header headers (ascii ":status") with
  | none => 200
  | some v => match parseInt64 (trimSpace v) with
    | none => 200
    | some code => if code ≥ 100 ∧ code ≤ 599 then code else 200

/-- The request phase is run to set up the rules; what it finds was dealt with on the request. -/
def inspectResponse (tx : Transaction) (req : Engine.Request) :
    Session Call (Except Bytes Verdict) := do
  let _ ← tx.call (.processConnection req.sourceIP)
  let _ ← tx.call (.setServerName (normalizeHost req.host))
  let _ ← tx.call (.processURI req.path req.method http11)
  let _ ← tx.evaluate .processRequestHeaders
  tx.callAll (req.headers.map fun h => .addResponseHeader h.name h.value)
  match ← tx.evaluate (.processResponseHeaders (responseStatus req.headers) http11) with
  | some it => return .ok (verdict it)
  | none => inspectBody tx .response req.body

def inspectDirection (tx : Transaction) (req : Engine.Request) :
    Session Call (Except Bytes Verdict) :=
  if req.direction = .response then inspectResponse tx req else inspectRequest tx req

/-- The deferred calls, which run when the inspection returns and when it panics. -/
def tearDown (tx : Transaction) : Session Call Unit := do
  let _ ← tx.call .processLogging
  let _ ← tx.call .close

def outcomeOf : Option (Except Bytes Verdict) → Option Unit → Outcome
  | some (.ok v), some _ => .verdict v
  | some (.error err), some _ => .error err
  | _, _ => .panicked

/-- `Inspect`, with the transaction the WAF opens for it, or none after `Close`. The calls are
those made to the transaction. -/
def inspect (waf : Option Transaction) (req : Engine.Request) : Outcome × List Call :=
  match waf with
  | none => (.error (ascii "coraza: engine closed"), [])
  | some tx =>
    let (r, calls) := inspectDirection tx req []
    let (torn, calls) := tearDown tx calls
    (outcomeOf r torn, calls)

/-- The WAF opens a transaction for every question. -/
def securityEngine (waf : Nat → Transaction) : SecurityEngine where
  name := ascii "coraza"
  requiresBody := true
  inspectsResponse := true
  inspect tick req := (inspect (some (waf tick)) req).1

end

/-! ## The scripts

An inspection follows a script, which the request fixes, up to the first call that objects. -/

def heedInterruption (tx : Transaction) (calls : List Call) : Option (Except Bytes Verdict) :=
  (tx.interrupts calls).map fun it => .ok (verdict it)

def heedAttempt (tx : Transaction) (doing : Bytes) (calls : List Call) :
    Option (Except Bytes Verdict) :=
  match tx.fails calls with
  | some err => some (.error (doing ++ err))
  | none => heedInterruption tx calls

/-- What is made of the answer to a call that did not panic; `none` to go on. The request phase of a
response is not heeded. -/
def heed (tx : Transaction) (dir : Direction) (calls : List Call) :
    Call → Option (Except Bytes Verdict)
  | .processRequestHeaders => if dir = .request then heedInterruption tx calls else none
  | .processResponseHeaders .. => heedInterruption tx calls
  | .writeRequestBody _ | .writeResponseBody _ =>
    heedAttempt tx (ascii "coraza: write " ++ bodyName dir) calls
  | .processRequestBody | .processResponseBody =>
    heedAttempt tx (ascii "coraza: process " ++ bodyName dir) calls
  | _ => none

def bodyScript (dir : Direction) (body : Bytes) : List Call :=
  (if body.length > 0 then [writeBody dir body] else []) ++ [processBody dir]

section
variable [Unicode]

def requestScript (req : Engine.Request) : List Call :=
  .processConnection req.sourceIP :: .processURI req.path req.method http11 ::
    req.headers.map (fun h => .addRequestHeader h.name h.value) ++
    (if !hasHost req.headers && normalizeHost req.host ≠ [] then
      [.addRequestHeader (ascii "host") (normalizeHost req.host)] else []) ++
    .setServerName (normalizeHost req.host) :: .processRequestHeaders ::
    bodyScript .request req.body

def responseScript (req : Engine.Request) : List Call :=
  .processConnection req.sourceIP :: .setServerName (normalizeHost req.host) ::
    .processURI req.path req.method http11 :: .processRequestHeaders ::
    req.headers.map (fun h => .addResponseHeader h.name h.value) ++
    .processResponseHeaders (responseStatus req.headers) http11 :: bodyScript .response req.body

def script (req : Engine.Request) : List Call :=
  if req.direction = .response then responseScript req else requestScript req

end

section
variable {tx : Transaction} {dir : Direction} {script : List Call} {c : Call}

theorem evaluate_follows {k : Option Interruption → Session Call (Except Bytes Verdict)}
    (hheed : ∀ calls, heed tx dir calls c = heedInterruption tx calls)
    (hsome : ∀ it, k (some it) = pure (.ok (verdict it)))
    (h : Follows tx.panics (heed tx dir) (.ok {}) (k none) script) :
    Follows tx.panics (heed tx dir) (.ok {}) (tx.evaluate c >>= k) (c :: script) := by
  rw [Transaction.evaluate, Session.assoc]
  refine .cons ?_ ?_
  · intro calls r hr
    rw [hheed] at hr
    obtain ⟨it, hit, rfl⟩ := Option.map_eq_some_iff.mp hr
    show k (tx.interrupts calls) calls = _
    rw [hit, hsome]
    rfl
  · intro calls hr
    rw [hheed] at hr
    show k (tx.interrupts calls) calls = _
    rw [Option.map_eq_none_iff.mp hr, h]

theorem attempt_follows (doing : Bytes)
    {k : Except Bytes (Option Interruption) → Session Call (Except Bytes Verdict)}
    (hheed : ∀ calls, heed tx dir calls c = heedAttempt tx doing calls)
    (herror : ∀ err, k (.error err) = pure (.error (doing ++ err)))
    (hsome : ∀ it, k (.ok (some it)) = pure (.ok (verdict it)))
    (h : Follows tx.panics (heed tx dir) (.ok {}) (k (.ok none)) script) :
    Follows tx.panics (heed tx dir) (.ok {}) (tx.attempt c >>= k) (c :: script) := by
  rw [Transaction.attempt, Session.assoc]
  refine .cons ?_ ?_
  · intro calls r hr
    rw [hheed, heedAttempt] at hr
    cases hfails : tx.fails calls with
    | some err =>
      rw [hfails] at hr
      obtain rfl := Option.some.inj hr
      show k (.error err) calls = _
      rw [herror]
      rfl
    | none =>
      rw [hfails] at hr
      obtain ⟨it, hit, rfl⟩ := Option.map_eq_some_iff.mp hr
      show k (.ok (tx.interrupts calls)) calls = _
      rw [hit, hsome]
      rfl
  · intro calls hr
    rw [hheed, heedAttempt] at hr
    cases hfails : tx.fails calls with
    | some err =>
      rw [hfails] at hr
      cases hr
    | none =>
      rw [hfails] at hr
      show k (.ok (tx.interrupts calls)) calls = _
      rw [Option.map_eq_none_iff.mp hr, h]

theorem runBodyPhase_follows (tx : Transaction) (dir : Direction) :
    Follows tx.panics (heed tx dir) (.ok {}) (runBodyPhase tx dir) [processBody dir] := by
  refine attempt_follows (ascii "coraza: process " ++ bodyName dir) ?_ (fun _ => rfl) (fun _ => rfl)
    (fun _ => rfl)
  intro calls
  cases dir <;> rfl

theorem inspectBody_follows (tx : Transaction) (dir : Direction) (body : Bytes) :
    Follows tx.panics (heed tx dir) (.ok {}) (inspectBody tx dir body) (bodyScript dir body) := by
  unfold inspectBody bodyScript
  split
  next =>
    refine attempt_follows (ascii "coraza: write " ++ bodyName dir) ?_ (fun _ => rfl) (fun _ => rfl)
      (runBodyPhase_follows tx dir)
    intro calls
    cases dir <;> rfl
  next => exact runBodyPhase_follows tx dir

end

section
variable [Unicode]

theorem inspectRequest_follows (tx : Transaction) (req : Engine.Request) :
    Follows tx.panics (heed tx .request) (.ok {}) (inspectRequest tx req) (requestScript req) := by
  have hheaders : ∀ c ∈ req.headers.map (fun h => Call.addRequestHeader h.name h.value), ∀ calls,
      heed tx .request calls c = none := by
    intro c hc calls
    obtain ⟨h, -, rfl⟩ := List.mem_map.mp hc
    rfl
  unfold inspectRequest requestScript
  rw [List.append_assoc, List.cons_append, List.cons_append]
  refine .call (fun _ => rfl) (.call (fun _ => rfl) (.callAll hheaders ?_))
  dsimp only
  split
  next =>
    refine .call (fun _ => rfl) (.call (fun _ => rfl) ?_)
    exact evaluate_follows (fun _ => rfl) (fun _ => rfl) (inspectBody_follows tx .request req.body)
  next =>
    refine .call (fun _ => rfl) ?_
    exact evaluate_follows (fun _ => rfl) (fun _ => rfl) (inspectBody_follows tx .request req.body)

theorem inspectResponse_follows (tx : Transaction) (req : Engine.Request) :
    Follows tx.panics (heed tx .response) (.ok {}) (inspectResponse tx req) (responseScript req) := by
  have hheaders : ∀ c ∈ req.headers.map (fun h => Call.addResponseHeader h.name h.value), ∀ calls,
      heed tx .response calls c = none := by
    intro c hc calls
    obtain ⟨h, -, rfl⟩ := List.mem_map.mp hc
    rfl
  unfold inspectResponse responseScript
  refine .call (fun _ => rfl) (.call (fun _ => rfl) (.call (fun _ => rfl) ?_))
  rw [Transaction.evaluate, Session.assoc]
  refine .call (fun _ => rfl) (.callAll hheaders ?_)
  exact evaluate_follows (fun _ => rfl) (fun _ => rfl) (inspectBody_follows tx .response req.body)

theorem inspectDirection_eq (tx : Transaction) (req : Engine.Request) :
    inspectDirection tx req [] =
      performAll tx.panics (heed tx req.direction) (.ok {}) (script req) [] := by
  unfold inspectDirection script
  split
  next hdir =>
    rw [hdir]
    exact inspectResponse_follows tx req []
  next hdir =>
    have hrequest : req.direction = .request := by
      cases h : req.direction with
      | request => rfl
      | response => exact absurd h hdir
    rw [hrequest]
    exact inspectRequest_follows tx req []

end

/-! ## The deferred calls -/

/-- `Close` is left out where `ProcessLogging` panics. -/
def deferred (tx : Transaction) (made : List Call) : List Call :=
  .processLogging :: if tx.panics (made ++ [.processLogging]) then [] else [.close]

def TornDown (tx : Transaction) (made : List Call) : Prop :=
  tx.panics (made ++ [.processLogging]) = false ∧
    tx.panics (made ++ [.processLogging, .close]) = false

section
variable {tx : Transaction} {made : List Call}

theorem tearDown_spec (tx : Transaction) (made : List Call) :
    (tearDown tx made).2 = made ++ deferred tx made ∧
      (TornDown tx made ∧ (tearDown tx made).1 = some () ∨
        ¬ TornDown tx made ∧ (tearDown tx made).1 = none) := by
  unfold tearDown deferred TornDown Transaction.call
  cases hlog : tx.panics (made ++ [.processLogging]) with
  | true =>
    rw [Session.bind_none (Session.call_panics hlog)]
    simp
  | false =>
    rw [Session.bind_some (Session.call_returns hlog)]
    cases hclose : tx.panics (made ++ [.processLogging] ++ [.close]) with
    | true =>
      rw [Session.bind_none (Session.call_panics hclose)]
      simpa using hclose
    | false =>
      rw [Session.bind_some (Session.call_returns hclose)]
      refine ⟨?_, .inl ⟨⟨rfl, by simpa using hclose⟩, rfl⟩⟩
      show made ++ [.processLogging] ++ [.close] = _
      simp

theorem tearDown_eq_some : (tearDown tx made).1 = some () ↔ TornDown tx made := by
  rcases (tearDown_spec tx made).2 with ⟨htorn, heq⟩ | ⟨htorn, heq⟩ <;> simp [htorn, heq]

theorem tearDown_eq_none : (tearDown tx made).1 = none ↔ ¬ TornDown tx made := by
  rcases (tearDown_spec tx made).2 with ⟨htorn, heq⟩ | ⟨htorn, heq⟩ <;> simp [htorn, heq]

/-- The deferred calls panic exactly where the transaction is not torn down. -/
theorem deferred_panics : ¬ TornDown tx made ↔
    ∃ ds, ds ≠ [] ∧ ds <+: deferred tx made ∧ tx.panics (made ++ ds) = true := by
  unfold TornDown deferred
  cases hlog : tx.panics (made ++ [.processLogging]) with
  | true => exact iff_of_true (by simp) ⟨[.processLogging], by simp, by simp, hlog⟩
  | false =>
    cases hclose : tx.panics (made ++ [.processLogging, .close]) with
    | true => exact iff_of_true (by simp) ⟨[.processLogging, .close], by simp, by simp, hclose⟩
    | false =>
      refine iff_of_false (by simp) ?_
      rintro ⟨ds, hne, hds, hpanics⟩
      rcases List.prefix_cons_iff.mp hds with rfl | ⟨ds', rfl, hds'⟩
      · exact hne rfl
      rcases List.prefix_cons_iff.mp hds' with rfl | ⟨ds'', rfl, hnil⟩
      · cases hlog.symm.trans hpanics
      · obtain rfl := List.prefix_nil.mp hnil
        cases hclose.symm.trans hpanics

end

/-! ## The protocol -/

/-- A heeded call answers with an error or with an interruption. -/
theorem heed_cases {tx : Transaction} {dir : Direction} {c : Call} {calls : List Call}
    {r : Except Bytes Verdict} (h : heed tx dir calls c = some r) :
    (∃ err, r = .error err) ∨ ∃ it, r = .ok (verdict it) := by
  have hinterrupt : heedInterruption tx calls = some r → ∃ it, r = .ok (verdict it) := by
    intro h
    obtain ⟨it, -, rfl⟩ := Option.map_eq_some_iff.mp h
    exact ⟨it, rfl⟩
  have hattempt : ∀ doing, heedAttempt tx doing calls = some r →
      (∃ err, r = .error err) ∨ ∃ it, r = .ok (verdict it) := by
    intro doing h
    unfold heedAttempt at h
    split at h
    next err _ => exact .inl ⟨_, (Option.some.inj h).symm⟩
    next => exact .inr (hinterrupt h)
  cases c with
  | processRequestHeaders =>
    simp only [heed] at h
    split at h
    · exact .inr (hinterrupt h)
    · cases h
  | processResponseHeaders => exact .inr (hinterrupt h)
  | writeRequestBody | writeResponseBody => exact hattempt _ h
  | processRequestBody | processResponseBody => exact hattempt _ h
  | processConnection | processURI | addRequestHeader | setServerName | addResponseHeader
  | processLogging | close => cases h

theorem outcomeOf_some {r : Except Bytes Verdict} {torn : Option Unit} {v : Verdict} :
    outcomeOf (some r) torn = .verdict v ↔ r = .ok v ∧ torn = some () := by
  cases r <;> cases torn <;> simp [outcomeOf]

theorem outcomeOf_panicked {r : Option (Except Bytes Verdict)} {torn : Option Unit} :
    outcomeOf r torn = .panicked ↔ r = none ∨ torn = none := by
  rcases r with _ | _ | _ <;> cases torn <;> simp [outcomeOf]

section
variable [Unicode] {tx : Transaction} {req : Engine.Request}

/-- The first call of the script that objects is interrupted. -/
def Interrupted (tx : Transaction) (req : Engine.Request) (it : Interruption) : Prop :=
  ∃ before c, before ++ [c] <+: script req ∧
    Quiet tx.panics (heed tx req.direction) [] before ∧ tx.panics (before ++ [c]) = false ∧
    heed tx req.direction (before ++ [c]) c = some (.ok (verdict it)) ∧ TornDown tx (before ++ [c])

theorem inspect_of_performed {r : Except Bytes Verdict} {made : List Call} {v : Verdict}
    (h : performAll tx.panics (heed tx req.direction) (.ok {}) (script req) [] = (some r, made)) :
    (inspect (some tx) req).1 = .verdict v ↔ r = .ok v ∧ TornDown tx made := by
  show outcomeOf (inspectDirection tx req []).1 (tearDown tx (inspectDirection tx req []).2).1 = _ ↔ _
  rw [inspectDirection_eq, h, outcomeOf_some, tearDown_eq_some]

/-- What stands behind a verdict. -/
theorem verdict_cases {v : Verdict} (h : (inspect (some tx) req).1 = .verdict v) :
    v = {} ∧ Quiet tx.panics (heed tx req.direction) [] (script req) ∧ TornDown tx (script req) ∨
      ∃ it, v = verdict it ∧ Interrupted tx req it := by
  rcases @quiet_or_first _ _ tx.panics (heed tx req.direction) (script req) [] with
    hquiet | ⟨before, c, after, hscript, hquiet, hpanics | ⟨hreturns, r, hr⟩⟩
  · obtain ⟨hclean, htorn⟩ := (inspect_of_performed (performAll_of_quiet hquiet)).mp h
    exact .inl ⟨(Except.ok.inj hclean).symm, hquiet, htorn⟩
  · have hpanicked := @performAll_of_panic _ _ _ _ (Except.ok {}) _ _ after hquiet hpanics
    rw [← hscript, ← inspectDirection_eq] at hpanicked
    have houtcome : outcomeOf (inspectDirection tx req []).1
        (tearDown tx (inspectDirection tx req []).2).1 = .verdict v := h
    rw [hpanicked] at houtcome
    cases houtcome
  · have hheed := @performAll_of_heed _ _ _ _ (Except.ok {}) _ _ after _ hquiet hreturns hr
    rw [← hscript] at hheed
    obtain ⟨rfl, htorn⟩ := (inspect_of_performed hheed).mp h
    rcases heed_cases hr with ⟨err, herr⟩ | ⟨it, hit⟩
    · cases herr
    · obtain rfl := Except.ok.inj hit
      exact .inr ⟨it, rfl, before, c, ⟨after, by simp [hscript]⟩, hquiet, hreturns, hr, htorn⟩

theorem Interrupted.inspect {it : Interruption} (h : Interrupted tx req it) :
    (inspect (some tx) req).1 = .verdict (verdict it) := by
  obtain ⟨before, c, ⟨after, hscript⟩, hquiet, hreturns, hr, htorn⟩ := h
  have hheed := @performAll_of_heed _ _ _ _ (Except.ok {}) _ _ after _ hquiet hreturns hr
  rw [List.append_assoc, List.singleton_append] at hscript
  rw [hscript] at hheed
  exact (inspect_of_performed hheed).mpr ⟨rfl, htorn⟩

/-- Where no call objects, all of them are made. -/
theorem inspect_of_quiet (hquiet : Quiet tx.panics (heed tx req.direction) [] (script req))
    (htorn : TornDown tx (script req)) :
    inspect (some tx) req = (.verdict {}, script req ++ [.processLogging, .close]) := by
  have hperformed : inspectDirection tx req [] = (some (.ok {}), script req) := by
    rw [inspectDirection_eq, performAll_of_quiet hquiet]
  have hcalls : (tearDown tx (script req)).2 = script req ++ [.processLogging, .close] := by
    rw [(tearDown_spec tx (script req)).1, deferred, htorn.1]
    rfl
  simp only [inspect, hperformed, tearDown_eq_some.mpr htorn, hcalls]
  rfl

/-- How an inspection goes. The calls are all of the script, or those up to the first that objects,
and then the deferred ones. -/
structure Conducted (tx : Transaction) (req : Engine.Request) (outcome : Outcome)
    (calls : List Call) : Prop where
  follows : ∃ made, Made tx.panics (heed tx req.direction) (script req) made ∧
    calls = made ++ deferred tx made
  passes : outcome = .verdict {} ↔
    Quiet tx.panics (heed tx req.direction) [] (script req) ∧ TornDown tx (script req)
  blocks : ∀ v, outcome = .verdict v ∧ v.action = .block ↔ ∃ it, v = verdict it ∧ Interrupted tx req it
  panics : outcome = .panicked ↔ ∃ cs, cs ≠ [] ∧ cs <+: calls ∧ tx.panics cs = true

/-- **Every inspection follows the protocol of the WAF library**, whatever the library answers and
wherever it panics. -/
theorem inspection_follows_script (tx : Transaction) (req : Engine.Request) :
    Conducted tx req (inspect (some tx) req).1 (inspect (some tx) req).2 := by
  obtain ⟨r, made, heq, hmade, hnone⟩ :=
    @performAll_made _ _ tx.panics (heed tx req.direction) (Except.ok {}) (script req)
  have hinspect : inspect (some tx) req =
      (outcomeOf r (tearDown tx made).1, (tearDown tx made).2) := by
    rw [← inspectDirection_eq] at heq
    simp only [inspect, heq]
  refine ⟨?_, ⟨?_, ?_⟩, fun v => ⟨?_, ?_⟩, ?_⟩
  · rw [hinspect]
    exact ⟨made, hmade, (tearDown_spec tx made).1⟩
  · intro hpasses
    rcases verdict_cases hpasses with ⟨-, hall⟩ | ⟨it, hit, -⟩
    · exact hall
    · cases congrArg Verdict.action hit
  · rintro ⟨hquiet, htorn⟩
    rw [inspect_of_quiet hquiet htorn]
  · rintro ⟨hverdict, hblock⟩
    rcases verdict_cases hverdict with ⟨rfl, -⟩ | hinterrupted
    · cases hblock
    · exact hinterrupted
  · rintro ⟨it, rfl, hinterrupted⟩
    exact ⟨hinterrupted.inspect, rfl⟩
  · rw [hinspect, outcomeOf_panicked, (tearDown_spec tx made).1, hnone, tearDown_eq_none,
      deferred_panics]
    constructor
    · rintro (⟨cs, hne, hcs, hpanics⟩ | ⟨ds, hne, hds, hpanics⟩)
      · exact ⟨cs, hne, hcs.trans (List.prefix_append _ _), hpanics⟩
      · exact ⟨made ++ ds, by simp [hne], (List.prefix_append_right_inj made).mpr hds, hpanics⟩
    · rintro ⟨cs, hne, hcs, hpanics⟩
      rcases List.prefix_or_prefix_of_prefix hcs (List.prefix_append made _) with hcs | ⟨ds, rfl⟩
      · exact .inl ⟨cs, hne, hcs, hpanics⟩
      · by_cases hnil : ds = []
        · subst hnil
          rw [List.append_nil] at hne hpanics
          exact .inl ⟨made, hne, List.prefix_refl _, hpanics⟩
        · exact .inr ⟨ds, hnil, (List.prefix_append_right_inj made).mp hcs, hpanics⟩

end

end ElchiShield.Coraza
