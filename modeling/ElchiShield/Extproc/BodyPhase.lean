import ElchiShield.Extproc.Exchange
import ElchiShield.Extproc.HostGate

/-! # The body phase of a conforming exchange

The body phase can be entered from three messages: headers that end the stream, a body chunk
and trailers. Over the messages a conforming peer sends for one direction it is entered once,
with all of the body. -/
namespace ElchiShield.Extproc
open ElchiShield.Go ElchiShield.Lib ElchiShield.Engine ElchiShield.Policy ElchiShield.Runtime
open ElchiShield.Pipeline ElchiShield.Stages

section
variable [Library]

def bodyPipelineName (dir : Direction) : Bytes := directionName dir ++ ascii "_body"

/-! ## The effects of an exchange -/

def finishes (dir : Direction) : Effect → Bool
  | .finished phase _ => phase.direction = dir
  | _ => false

def runsBody (dir : Direction) : Effect → Bool
  | .started name _ => name = bodyPipelineName dir
  | _ => false

/-- The direction is finished once. If the headers asked for the body phase, the body pipeline
has run once, on no more than the cap and on all of the bytes unless the body is truncated. -/
structure Once (pr : Processor) (dir : Direction) (asked : Bool) (bytes : Bytes)
    (es : List Effect) : Prop where
  finished : (es.filter (finishes dir)).length = 1
  inspected : asked = true → ∃ tx,
    es.filter (runsBody dir) = [.started (bodyPipelineName dir) tx] ∧
      (tx.body.length : Int) ≤ pr.bodyLimit tx dir ∧ (tx.bodyTruncated = false → tx.body = bytes)

section
variable {pr : Processor} {dir : Direction} {bytes : Bytes}

omit [Library] in
theorem once_headers (pr : Processor) (dir : Direction) (bytes : Bytes) (d : Decision) :
    Once pr dir false bytes [.finished (Audit.headersPhase dir) d] :=
  ⟨by simp [finishes], by simp⟩

omit [Library] in
theorem once_body (asked : Bool) {tx : Transaction} (d : Decision)
    (hcap : (tx.body.length : Int) ≤ pr.bodyLimit tx dir)
    (hwhole : tx.bodyTruncated = false → tx.body = bytes) :
    Once pr dir asked bytes
      [.started (bodyPipelineName dir) tx, .finished (Audit.bodyPhase dir) d] :=
  ⟨by simp [finishes], fun _ => ⟨tx, by simp [runsBody], hcap, hwhole⟩⟩

omit [Library] in
/-- Other pipelines may have started before. -/
theorem Once.prepend {asked : Bool} {es : List Effect} (h : Once pr dir asked bytes es)
    {name : Bytes} (hname : name ≠ bodyPipelineName dir) (tx : Transaction) :
    Once pr dir asked bytes (.started name tx :: es) :=
  ⟨by simpa [finishes] using h.finished, by simpa [runsBody, hname] using h.inspected⟩

end

section
variable {pr : Processor} {w : World} {st t : Exec} {dir : Direction} {p : CompiledPolicy}

omit [Library] in
theorem headerName_ne (dir : Direction) :
    directionName dir ++ ascii "_header" ≠ bodyPipelineName dir := by
  cases dir <;> decide

/-- What a header phase adds to the trail, if the direction is finished with it. -/
theorem headers_once (asked : Bool) (bytes : Bytes) {d : Decision} {u : Exec}
    (hrun : Inspected pr w p (Audit.headersPhase dir) t d u) (hasks : asked = false) :
    ∃ es, trail (pr.finish w (Audit.headersPhase dir) d u) = trail t ++ es ∧
      Once pr dir asked bytes es := by
  obtain ⟨-, -, hfinish⟩ := finish_spec pr w (Audit.headersPhase dir) d u
  rw [hfinish, hasks]
  cases hrun with
  | unbuilt e build decision state =>
    rw [state]
    exact ⟨_, rfl, once_headers ..⟩
  | ran pp build run =>
    rw [(Inspected.ran pp build run).trail build, List.append_assoc, phasePipeline_headers,
      (buildPolicyPipelines_spec build dir).1.name]
    exact ⟨_, rfl, (once_headers ..).prepend (headerName_ne dir) _⟩

/-- What the body phase adds to the trail. -/
theorem Pending.once {bytes : Bytes} {log : List Effect} (h : Pending pr dir p bytes log st)
    (w : World) (asked : Bool) :
    ∃ es, Extproc.trail (pr.inspectBufferedBody w st).2 = log ++ es ∧
      Once pr dir asked bytes es := by
  obtain ⟨d, t, hrun, heq⟩ := h.inspected w
  obtain ⟨pp, hpp⟩ := h.built
  obtain ⟨-, -, hfinish⟩ := finish_spec pr w (Audit.bodyPhase dir) d t
  have hname := (buildPolicyPipelines_spec hpp dir).2.name
  have hlatched : Extproc.trail (latched st) = log := h.trail
  rw [heq, hfinish, hrun.trail hpp, phasePipeline_body, hname, hlatched, List.append_assoc]
  exact ⟨_, rfl, once_body asked d h.capped h.whole⟩

theorem Course.once {asked : Bool} {bytes : Bytes} {d : Decision} {v : Exec}
    (h : Course pr w dir asked bytes d t v) :
    ∃ es, trail v = trail t ++ es ∧ Once pr dir asked bytes es := by
  cases h with
  | passed asks rest =>
    obtain ⟨-, -, hfinish⟩ := finish_spec pr w (Audit.headersPhase dir) d t
    rw [rest.trail, hfinish, asks]
    exact ⟨_, rfl, once_headers ..⟩
  | ended policy enforcing run asks rest =>
    rw [rest.trail]
    exact headers_once asked bytes run asks
  | body policy enforcing run pass due chunks pending =>
    obtain ⟨es, hes, honce⟩ := pending.once w asked
    rw [hes, List.append_assoc]
    exact ⟨_, rfl, honce.prepend (headerName_ne dir) _⟩

/-- The prelude before. -/
theorem Course.once_from {q : Pipeline} {a : Exec} {asked : Bool} {bytes : Bytes} {d : Decision}
    {v : Exec} (h : Course pr w dir asked bytes d t v) (hrel : Resolving (q.start a) t)
    (ha : trail a = trail st) (hname : q.name ≠ bodyPipelineName dir) :
    ∃ es, trail v = trail st ++ es ∧ Once pr dir asked bytes es := by
  obtain ⟨es, hes, honce⟩ := h.once
  rw [hes, trail_outer hrel.outer, trail_start, ha, List.append_assoc]
  exact ⟨_, rfl, honce.prepend hname _⟩

/-- **A body is inspected exactly once and whole.** For the request from the start of the
stream, and for the response from any state of it. -/
theorem body_inspected_once (pr : Processor) (w : World) :
    (∀ (snap : Snapshot) (attributes : List Bytes) (x : Exchange),
      OneChunk pr w .request (pr.newStream snap) (.requestHeaders attributes x.headers) x →
      Once pr .request
        (requestAsksBody pr w x.headers (received attributes (pr.newStream snap)))
        x.parts.flatten
        (trail (deliver pr w (pr.newStream snap)
          (.requestHeaders attributes x.headers :: x.following .request)))) ∧
    ∀ (st : Exec) (x : Exchange), OneChunk pr w .response st (.responseHeaders x.headers) x →
      ∃ es, trail (deliver pr w st (.responseHeaders x.headers :: x.following .response)) =
          trail st ++ es ∧
        Once pr .response (responseAsksBody pr w x.headers st) x.parts.flatten es := by
  constructor
  · intro snap attributes x hone
    obtain ⟨d, t, hrun, -, hcourse⟩ := request_course attributes
      (newStream_opened pr w snap attributes x.headers) rfl hone
    have hrel := (requestPrelude_spec pr.deps w w.ctx
      (Processor.loadRequest w x.headers (received attributes (pr.newStream snap)))).rel
    rw [← preludeOf, hrun] at hrel
    obtain ⟨es, hes, honce⟩ := hcourse.once_from hrel (loadRequest_trail ..)
      (show ascii "request_prelude" ≠ _ by decide)
    rw [hes]
    exact honce
  · intro st x hone
    obtain ⟨d, t, hrun, -, hcourse⟩ := response_course st hone
    have hrel := (responsePrelude_spec pr.deps w w.ctx (loadResponse x.headers st)).rel
    rw [hrun] at hrel
    exact hcourse.once_from hrel (loadResponse_trail ..)
      (show ascii "response_prelude" ≠ _ by decide)

end

end

/-- A request in two chunks that trailers end. -/
def chunkedRequest : Exchange where
  headers := { getRequest [] with endOfStream := false }
  rest := some { chunks := [ascii "ab", ascii "c"] }
  ended := rfl

theorem chunked_request_is_inspected_once :
    let _ := Library.nothing
    let pr := plainProcessor true
    let st := pr.newStream (catchAllSnapshot { plainPolicy with inspectRequestBody := true })
    let es := trail (deliver pr World.quiet st
      (.requestHeaders [] chunkedRequest.headers :: chunkedRequest.following .request))
    requestAsksBody pr World.quiet chunkedRequest.headers (received [] st) = true ∧
      (es.filter (finishes .request)).length = 1 ∧
      ∃ tx, es.filter (runsBody .request) = [.started (bodyPipelineName .request) tx] ∧
        (tx.body.length : Int) ≤ pr.bodyLimit tx .request ∧
        (tx.bodyTruncated = false → tx.body = ascii "abc") := by
  intro lib pr st es
  have hasks : requestAsksBody pr World.quiet chunkedRequest.headers (received [] st) = true := by
    decide +kernel
  have hone : OneChunk pr World.quiet .request st (.requestHeaders [] chunkedRequest.headers)
      chunkedRequest := by
    intro hmutates
    exact absurd hmutates (by decide +kernel)
  have honce := (body_inspected_once pr World.quiet).1 _ [] chunkedRequest hone
  exact ⟨hasks, honce.finished, honce.inspected hasks⟩

end ElchiShield.Extproc
