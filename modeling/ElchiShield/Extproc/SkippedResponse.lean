import ElchiShield.Extproc.AuditTrail
import ElchiShield.Extproc.Decoded
import ElchiShield.Extproc.Observe

/-! # Responses that are left out

The reply to the request headers has Envoy leave out the response where the policy declares
nothing that inspects one. The response handlers do not ask for that: their gate asks for the body
wherever an engine needs a body, and the guards and checks of the body phase then run on the
response. Here is when they would have passed every response. -/
namespace ElchiShield.Extproc
open ElchiShield.Go ElchiShield.Lib ElchiShield.Engine ElchiShield.Policy ElchiShield.Runtime
open ElchiShield.Pipeline ElchiShield.Stages

/-- An engine that does not declare to inspect responses finds nothing in one. -/
def Uninvolved (p : CompiledPolicy) : Prop :=
  ∀ e ∈ p.engineSet.engines, e.inspectsResponse = false → ∀ tick req,
    req.direction = .response → e.inspect tick req = .verdict {}

/-- No context is done and no deadline passes. -/
structure Prompt (w : World) : Prop where
  ctx : ∀ t, w.ctx t = false
  expired : ∀ s t, w.expired s t = false

theorem Prompt.inspectCtx {w : World} (h : Prompt w) (st : Exec) (t : Nat) :
    Processor.inspectCtx w st t = false := by
  simp [Processor.inspectCtx, h.ctx, h.expired]

/-! ## The header phase -/

section
variable {ctx : Ctx} {req : Engine.Request} {want : SecurityEngine → Bool}

theorem inspectLoop_nothing (hctx : ∀ t, ctx t = false) {es : List SecurityEngine}
    (hes : ∀ e ∈ es, ∀ tick, e.inspect tick req = .verdict {}) (tick : Nat) :
    ∃ tick', inspectLoop ctx req want es {} tick = (some {}, tick') := by
  induction es generalizing tick with
  | nil => exact ⟨tick, rfl⟩
  | cons e es ih =>
    obtain ⟨he, hes⟩ := List.forall_mem_cons.mp hes
    unfold inspectLoop
    split
    · exact ih hes tick
    · rw [hctx tick, he]
      exact ih hes (tick + 2)

theorem inspect_nothing (hctx : ∀ t, ctx t = false) {s : EngineSet}
    (hs : ∀ e ∈ s.engines, ∀ tick, e.inspect tick req = .verdict {}) (tick : Nat) :
    ∃ tick', s.inspect ctx req want tick = (some ({}, []), tick') := by
  obtain ⟨tick', hloop⟩ := inspectLoop_nothing hctx hs tick
  refine ⟨tick', ?_⟩
  unfold EngineSet.inspect
  rw [hloop]

end

/-- A response under the policy `p`, with nothing found in it yet. -/
structure Unremarked (p : CompiledPolicy) (st : Exec) : Prop where
  policy : st.tx.policy = some p
  direction : st.tx.direction = .response
  score : st.tx.anomalyScore = 0
  findings : st.tx.findings = []
  result : st.tx.result.action = .allow

section
variable [Library] {w : World} {ctx : Ctx} {p : CompiledPolicy} {st : Exec}

omit [Library] in
theorem runEngines_unremarked (hctx : ∀ t, ctx t = false) (hp : Uninvolved p)
    (hnone : p.engineSet.inspectsResponse = false) (h : Unremarked p st) :
    ∃ tick, runEngines EngineSet.inspectHeaderPhase ctx st =
      (some .continue_, { st with tick }) := by
  have hengines : ∀ e ∈ p.engineSet.engines, ∀ tick,
      e.inspect tick (engineRequest st.tx) = .verdict {} := by
    intro e he tick
    have hdeclared : e.inspectsResponse = false := by
      simpa using List.any_eq_false.mp hnone e he
    exact hp e he hdeclared tick _ h.direction
  obtain ⟨tick, hinspect⟩ : ∃ tick, p.engineSet.inspectHeaderPhase ctx (engineRequest st.tx)
      st.tick = (some ({}, []), tick) := inspect_nothing hctx hengines st.tick
  have happly : applyVerdict p {} [] st.tx = (.continue_, st.tx) := by
    have hcross : crossesThreshold p st.tx = false := by
      unfold crossesThreshold
      rw [h.score]
      by_cases hpos : p.anomalyThreshold > 0
      · simp [not_le.mpr hpos]
      · simp [hpos]
    simp [applyVerdict, addAnomalyScore, hcross]
  unfold runEngines
  rw [h.policy]
  dsimp only
  split
  · exact ⟨st.tick, rfl⟩
  · rw [hinspect]
    dsimp only
    rw [happly]
    exact ⟨tick, rfl⟩

/-- The header stages in front of the gate pass such a response. -/
theorem stageStep_unremarked (hctx : ∀ t, ctx t = false) (hp : Uninvolved p)
    (hnone : p.engineSet.inspectsResponse = false) {s : Stage}
    (hs : s = fastPreChecks ∨ s = wafHeaderEngine) (h : Unremarked p st) :
    ∃ t, stageStep w ctx s st = (none, t) ∧ Unremarked p t := by
  obtain ⟨t, ht, hprocess⟩ : ∃ t, Unremarked p t ∧
      s.process w ctx (st.next.emit (.ran s.name st.tx)) = (some .continue_, t) := by
    have hemit : Unremarked p (st.next.emit (.ran s.name st.tx)) :=
      ⟨h.policy, h.direction, h.score, h.findings, h.result⟩
    rcases hs with rfl | rfl
    · refine ⟨_, hemit, ?_⟩
      have hpass : ∀ u : Exec, Unremarked p u →
          fastPreChecks.process w ctx u = (some .continue_, u) := by
        intro u hu
        simp [fastPreChecks, pureStage, hu.policy, hu.direction]
      exact hpass _ hemit
    · obtain ⟨tick, heq⟩ := runEngines_unremarked hctx hp hnone hemit
      refine ⟨_, ?_, heq⟩
      exact ⟨h.policy, h.direction, h.score, h.findings, h.result⟩
  refine ⟨t, stageStep_pass st ?_ (hctx _) hprocess, ht⟩
  rcases hs with rfl | rfl <;> rfl

/-- The header pipeline passes such a response, and its gate asks for the body where an engine
needs one. -/
theorem responseHeader_run (hctx : ∀ t, ctx t = false) (hp : Uninvolved p)
    (hskip : p.needsResponseInspection = false) (henf : p.enforcing = true) {q : Pipeline}
    (hq : HeaderPipeline .response q) (hpolicy : st.tx.policy = some p)
    (hdir : st.tx.direction = .response) (hscore : st.tx.anomalyScore = 0) :
    (q.run w ctx st).1.action = .allow ∧ (q.run w ctx st).2.tx.findings = [] ∧
      (q.run w ctx st).2.tx.bodyRequired = p.engineSet.requiresBody ∧
      (q.run w ctx st).2.tx.wafEnabled = p.engineSet.requiresBody := by
  obtain ⟨⟨hbody, -⟩, hnone⟩ : (p.inspectResponseBody = false ∧ _) ∧
      p.engineSet.inspectsResponse = false := by
    simpa [CompiledPolicy.needsResponseInspection, henf] using hskip
  obtain ⟨header, hstages, hheader⟩ := hq.stages
  have hstart : Unremarked p (q.start st) := ⟨hpolicy, hdir, hscore, rfl, rfl⟩
  unfold Pipeline.run
  rw [hstages]
  refine chain_append_rule (I := Unremarked p) (Q := fun (d : Decision) (t : Exec) =>
    d.action = .allow ∧ t.tx.findings = [] ∧ t.tx.bodyRequired = p.engineSet.requiresBody ∧
      t.tx.wafEnabled = p.engineSet.requiresBody) ?_ ?_ hstart
  · intro s hs t ht
    obtain ⟨u, heq, hu⟩ := stageStep_unremarked (w := w) hctx hp hnone (hheader s hs) ht
    rw [heq]
    exact hu
  · intro t ht
    have hgate := bodyGate_enforcing w ctx
      (show (t.next.emit (.ran bodyGate.name t.tx)).tx.policy = some p from ht.policy) henf
    rw [chain_cons_pass (stageStep_pass t rfl (hctx _) hgate)]
    refine ⟨ht.result, ht.findings, ?_, rfl⟩
    show inspectsBody p t.tx.direction = _
    rw [ht.direction]
    simp [inspectsBody, hbody]

/-! ## The body phase -/

omit [Library] in
/-- A deny is enforced or recorded. -/
theorem stageStep_deny {s : Stage} {d : Decision} {t : Exec} (hg : gated s.phase st.tx = false)
    (hc : ctx st.tick = false) (hd : d.action = .block)
    (hs : s.process w ctx (st.next.emit (.ran s.name st.tx)) = (some (.deny d), t)) :
    After (fun u => u.tx.findings ≠ []) (fun d _ => d.isBlock = true) (stageStep w ctx s st) := by
  rw [stageStep_result st hg hc hs]
  show After _ _ (applyDeny (.deny d) t)
  unfold applyDeny
  split
  · show (if d.statusCode = 0 then { d with statusCode := defaultBlockStatus } else d).isBlock = true
    split <;> simp [Decision.isBlock, hd]
  · simp [After, record, StageResult.deny]

omit [Library] in
/-- Findings are not taken back. -/
theorem stageStep_keeps_findings {s : Stage} (hs : Inspector s) (h : st.tx.findings ≠ []) :
    (stageStep w ctx s st).2.tx.findings ≠ [] := by
  refine stageStep_invariant (I := fun t : Exec => t.tx.findings ≠ []) hs (fun _ => id) ?_ ?_ h
  · intro t res mode ht
    simp [record, ht]
  · intro t ht _
    rw [hs.findings]
    exact ht

theorem bodyContentDecode_stacked (w : World) (ctx : Ctx) (st : Exec) (hp : st.tx.policy = some p)
    (henf : p.enforcing = true) (hcount : 1 < st.tx.headerCount contentEncoding) :
    ∃ d : Decision, d.action = .block ∧ bodyContentDecode.process w ctx st = (some (.deny d), st) := by
  obtain ⟨enc, henc⟩ : ∃ enc, st.tx.header contentEncoding = some enc := by
    obtain ⟨h, hmem, hname⟩ := List.countP_pos_iff.mp (Nat.lt_of_succ_lt hcount)
    have hsome : (st.tx.headers.find? fun h => equalFold h.name contentEncoding).isSome :=
      List.find?_isSome.mpr ⟨h, hmem, hname⟩
    obtain ⟨h', hfind⟩ := Option.isSome_iff_exists.mp hsome
    exact ⟨h'.value, by rw [Transaction.header, Engine.header, hfind]; rfl⟩
  unfold bodyContentDecode
  simp only [hp, henf, henc, Bool.not_true, Bool.false_eq_true, if_false, if_pos hcount]
  exact ⟨_, rfl, rfl⟩

/-- A body with more than one content-encoding does not pass the body phase unremarked. -/
theorem stacked_encodings_reported {deps : Deps} {dir : Direction} {q : Pipeline}
    (hctx : ∀ t, ctx t = false) (hq : BodyPipeline deps dir q) (hp : st.tx.policy = some p)
    (henf : p.enforcing = true) (hreq : st.tx.bodyRequired = true)
    (htrunc : st.tx.bodyTruncated = false) (hcount : 1 < st.tx.headerCount contentEncoding) :
    (q.run w ctx st).1.isBlock = true ∨ (q.run w ctx st).2.tx.findings ≠ [] := by
  obtain ⟨body, hstages, hbody⟩ := hq.stages
  have hgate : gated .body (q.start st).tx = false := by
    show (!st.tx.bodyRequired) = false
    rw [hreq]
    rfl
  have hguard : bodyTruncationGuard.process w ctx ((q.start st).next.emit
      (.ran bodyTruncationGuard.name (q.start st).tx)) = (some .continue_, (q.start st).next.emit
        (.ran bodyTruncationGuard.name (q.start st).tx)) := by
    have hpolicy : (q.start st).tx.policy = some p := hp
    have hfull : (q.start st).tx.bodyTruncated = false := htrunc
    simp [bodyTruncationGuard, pureStage, hpolicy, hfull]
  let Q (d : Decision) (t : Exec) : Prop := d.isBlock = true ∨ t.tx.findings ≠ []
  unfold Pipeline.run
  rw [hstages, chain_cons_pass (stageStep_pass _ hgate (hctx _) hguard)]
  -- the guard has passed the body, and the decoder denies it
  obtain ⟨a, ha⟩ : ∃ a, (q.start st).next.emit
    (.ran bodyTruncationGuard.name (q.start st).tx) = a := ⟨_, rfl⟩
  have htx : a.tx = (q.start st).tx := by rw [← ha]; rfl
  obtain ⟨d, hd, hdecode⟩ := bodyContentDecode_stacked w ctx
    (a.next.emit (.ran bodyContentDecode.name a.tx))
    (show a.tx.policy = some p by rw [htx]; exact hp) henf
    (show 1 < a.tx.headerCount contentEncoding by rw [htx]; exact hcount)
  rw [ha]
  refine chain_cons_rule (Q := Q) ((stageStep_deny (by rw [htx]; exact hgate) (hctx _) hd hdecode).imp
    (fun _ => id) (fun _ _ => .inl)) ?_
  intro t ht
  refine chain_rule (I := fun t : Exec => t.tx.findings ≠ []) (Q := Q) ?_ (fun _ => .inr) ht
  intro s hs u hu
  have hinspector : Inspector s := hq.inspector s (by rw [hstages]; simp [hs])
  exact (After.state (stageStep_keeps_findings hinspector hu)).imp (fun _ => id) (fun _ _ => .inr)

end

/-! ## Messages that change nothing -/

/-- The messages are answered without touching the traffic, and nothing is recorded. -/
def Transparent [Library] (pr : Processor) (w : World) (st : Exec) (msgs : List Message) : Prop :=
  ∀ e ∈ trace (pr.handle w) st msgs, e.output.any ProcessingResponse.touches = false ∧
    e.after.tx.bodyMutated = false ∧ recordedFindings e.after = recordedFindings st

/-- Since `st` nothing has been recorded, no body rewritten and none asked for. -/
structure Unmoved (st t : Exec) : Prop where
  recorded : recordedFindings t = recordedFindings st
  mutated : t.tx.bodyMutated = false
  idle : Idle t

section
variable [Library] {pr : Processor} {w : World} {p : CompiledPolicy} {st t : Exec}

omit [Library] in
theorem recordedFindings_finish (pr : Processor) (w : World) (phase : Audit.Phase) (d : Decision)
    (st : Exec) : recordedFindings (pr.finish w phase d st) = recordedFindings st := by
  have h := finish_auditedAs pr w phase d st
  rw [recordedFindings, h.past, h.findings, recordedFindings]

omit [Library] in
theorem recordedFindings_buffered (pr : Processor) (w : World) (dir : Direction) (chunk : Bytes)
    (st : Exec) : recordedFindings (buffered pr w dir chunk st) = recordedFindings st := by
  obtain ⟨body, truncated, reserved, tick, log, heq, hlog, -⟩ := buffered_spec pr w dir chunk st
  have houter : (buffered pr w dir chunk st).outer = st.outer := by
    rw [heq]
    exact hlog
  rw [recordedFindings, pastFindings_outer houter, heq]
  rfl

omit [Library] in
theorem Unmoved.finish (h : Unmoved st t) (pr : Processor) (w : World) (phase : Audit.Phase)
    (d : Decision) : Unmoved st (pr.finish w phase d t) := by
  refine ⟨?_, ?_, h.idle.finish pr w phase d⟩
  · rw [recordedFindings_finish, h.recorded]
  · rw [finish_keeps Transaction.bodyMutated (fun _ => rfl), h.mutated]

omit [Library] in
theorem Unmoved.buffered (h : Unmoved st t) (pr : Processor) (w : World) (dir : Direction)
    (chunk : Bytes) : Unmoved st (buffered pr w dir chunk t) := by
  refine ⟨?_, ?_, h.idle.buffered chunk⟩
  · rw [recordedFindings_buffered, h.recorded]
  · obtain ⟨_, _, _, _, _, heq, -⟩ := buffered_spec pr w dir chunk t
    rw [heq]
    exact h.mutated

theorem Unmoved.onBody (h : Unmoved st t) (pr : Processor) (w : World) (dir : Direction)
    (b : HttpBody) :
    (pr.onBody w dir b t).1.touches = false ∧ Unmoved st (pr.onBody w dir b t).2 := by
  have hu := h.buffered pr w dir b.body
  obtain ⟨-, heq⟩ | ⟨p, u, -, rfl, ⟨-, heq⟩ | ⟨-, bd, v, hrun, heq⟩⟩ := onBody_cases pr w dir b t
  · rw [heq]
    exact ⟨rfl, h⟩
  · rw [heq]
    exact ⟨rfl, hu⟩
  · obtain ⟨rfl, rfl⟩ := Prod.mk.inj (hrun.symm.trans hu.idle.inspectBufferedBody)
    rw [heq, hu.mutated]
    exact ⟨rfl, hu⟩

/-- What follows the headers changes nothing. -/
theorem Unmoved.handle (h : Unmoved st t) {r : Remainder} {dir : Direction} {m : Message}
    (hm : m ∈ r.messages dir) :
    (pr.handle w t m).1.any ProcessingResponse.touches = false ∧ Unmoved st (pr.handle w t m).2 := by
  rcases List.mem_append.mp hm with hm | hm
  · obtain ⟨chunk, -, rfl⟩ := List.mem_map.mp hm
    rw [handle_bodyMessage]
    exact h.onBody pr w dir _
  · obtain rfl := List.mem_singleton.mp hm
    cases r.last with
    | some chunk =>
      rw [lastMessage, handle_bodyMessage]
      exact h.onBody pr w dir _
    | none =>
      rw [lastMessage, handle_trailersMessage]
      unfold Processor.onTrailers
      rw [h.idle.inspectBufferedBody]
      exact ⟨rfl, h⟩

/-- Headers that change nothing make for an exchange that does. -/
theorem transparent_of_headers {m : Message} {dir : Direction} (x : Exchange)
    (htouch : (pr.handle w st m).1.any ProcessingResponse.touches = false)
    (h : Unmoved st (pr.handle w st m).2) : Transparent pr w st (m :: x.following dir) := by
  unfold Transparent
  rw [trace, List.forall_mem_cons]
  refine ⟨⟨htouch, h.mutated, h.recorded⟩, ?_⟩
  unfold Exchange.following
  split
  · simp [trace]
  next r _ =>
    refine trace_invariant (I := Unmoved st) (C := fun e => e.input ∈ r.messages dir) ?_ h
      (fun e he => trace_input_mem he)
    intro t i ht hi
    obtain ⟨htouch, hnext⟩ := ht.handle hi
    exact ⟨⟨htouch, hnext.mutated, hnext.recorded⟩, hnext⟩

/-! ## Responses -/

/-- The response has been loaded and its prelude has run. -/
structure Preluded (p : CompiledPolicy) (st t : Exec) : Prop where
  opened : Opened .response t
  policy : t.tx.policy = some p
  score : t.tx.anomalyScore = 0
  findings : t.tx.findings = []
  recorded : recordedFindings t = recordedFindings st

theorem responsePrelude_preluded (hp : st.tx.policy = some p) {h : HttpHeaders} {d : Decision}
    (hrun : (responsePrelude pr.deps).run w w.ctx (loadResponse h st) = (d, t)) :
    Preluded p st t ∧ t.tx.headers = loadHeaders h.headers := by
  have hrel := (responsePrelude_spec pr.deps w w.ctx (loadResponse h st)).rel
  have hfindings := responsePrelude_findings pr.deps w w.ctx (loadResponse h st)
  have hpolicy := responsePrelude_policy pr.deps w w.ctx (loadResponse h st)
  rw [hrun] at hrel hfindings hpolicy
  obtain ⟨reserved, log, hbegin, hlog⟩ := beginResponse_spec st
  have hload : recordedFindings (loadResponse h st) = recordedFindings st := by
    have houter : (loadResponse h st).outer = st.outer := by
      rw [loadResponse, hbegin]
      exact hlog
    rw [recordedFindings, pastFindings_outer houter, loadResponse, hbegin]
    rfl
  refine ⟨⟨(loadResponse_opened h st).resolving hrel, ?_, ?_, hfindings, ?_⟩, ?_⟩
  · rw [hpolicy, loadResponse, hbegin]
    exact hp
  · have hscore : t.tx.anomalyScore = (loadResponse h st).tx.anomalyScore :=
      (congrArg Transaction.anomalyScore hrel.unresolved :)
    rw [hscore, loadResponse, hbegin]
    rfl
  · rw [recordedFindings, hfindings, List.append_nil, pastFindings_outer hrel.outer,
      pastFindings_start, hload]
  · exact hrel.headers

/-- The findings of the runs before a phase. -/
theorem Inspected.pastFindings {phase : Audit.Phase} {a : Exec} {d : Decision} {pp : PolicyPipelines}
    (h : Inspected pr w p phase a d t) (hpp : pr.policyPipelines p = .ok pp) :
    pastFindings t = recordedFindings a := by
  cases h with
  | unbuilt e build => cases hpp.symm.trans build
  | ran pp' build run =>
    have hrel := (run_spec frame_executes (phasePipeline_inspector build phase) w
      (Processor.inspectCtx w a) a).rel
    rw [← Processor.runInspect, run] at hrel
    rw [pastFindings_outer hrel.outer, pastFindings_start]

/-- The header phase of a response has passed it, and asks for the body as an engine needs it. -/
structure HeadersPassed (p : CompiledPolicy) (st : Exec) (d : Decision) (t : Exec) : Prop where
  action : d.action = .allow
  findings : t.tx.findings = []
  recorded : recordedFindings t = recordedFindings st
  mutated : t.tx.bodyMutated = false
  required : t.tx.bodyRequired = p.engineSet.requiresBody
  waf : t.tx.wafEnabled = p.engineSet.requiresBody

theorem Preluded.inspected (hw : Prompt w) (hun : Uninvolved p)
    (hskip : p.needsResponseInspection = false) (henf : p.enforcing = true) {a : Exec}
    (ha : Preluded p st a) {pp : PolicyPipelines} (hpp : pr.policyPipelines p = .ok pp)
    {d : Decision} (h : Inspected pr w p (Audit.headersPhase .response) a d t) :
    HeadersPassed p st d t := by
  have hpast := h.pastFindings hpp
  cases h with
  | unbuilt e build => cases hpp.symm.trans build
  | ran pp' build run =>
    have hq := (buildPolicyPipelines_spec build .response).1
    obtain ⟨haction, hfindings, hrequired, hwaf⟩ := responseHeader_run (w := w) (hw.inspectCtx a) hun
      hskip henf hq ha.policy ha.opened.direction ha.score
    have hmutated := hq.keeps (f := Transaction.bodyMutated) (fun _ _ _ _ _ _ _ => rfl) w
      (Processor.inspectCtx w a) a
    rw [phasePipeline_headers] at run
    rw [← Processor.runInspect, run] at haction hfindings hrequired hwaf hmutated
    refine ⟨haction, hfindings, ?_, hmutated.trans ha.opened.mutated, hrequired, hwaf⟩
    rw [recordedFindings, hfindings, List.append_nil, hpast, ha.recorded]

/-- No engine asks for the body of a response; where the pipelines of the policy do not build, it
fails open. -/
def AsksNoBody (pr : Processor) (p : CompiledPolicy) : Prop :=
  p.enforcing = true → match pr.policyPipelines p with
    | .ok _ => p.engineSet.requiresBody = false
    | .error _ => p.failOpen = true

theorem response_headers_unmoved (hw : Prompt w) (hun : Uninvolved p)
    (hskip : p.needsResponseInspection = false) (hasks : AsksNoBody pr p)
    (hp : st.tx.policy = some p) (h : HttpHeaders) :
    (pr.onResponseHeaders w h st).1.touches = false ∧
      Unmoved st (pr.onResponseHeaders w h st).2 := by
  obtain ⟨d, t, hrun, hcases⟩ := onResponseHeaders_cases pr w h st
  obtain ⟨hpre, -⟩ := responsePrelude_preluded hp hrun
  have ht : Unmoved st t := ⟨hpre.recorded, hpre.opened.mutated, hpre.opened.idle⟩
  obtain ⟨-, heq⟩ | ⟨q, hq, henf, heq⟩ := hcases
  · rw [heq]
    exact ⟨rfl, ht.finish ..⟩
  · obtain rfl := Option.some.inj (hq.symm.trans hpre.policy)
    have hbuild := hasks henf
    rw [heq]
    obtain ⟨dh, u, hins, hcases⟩ := inspectHeaders_cases pr w .response Processor.responseReply
      h.endOfStream q t
    have hpassed : dh.isBlock = false ∧ Unmoved st u := by
      cases hpp : pr.policyPipelines q with
      | error e =>
        rw [hpp] at hbuild
        cases hins with
        | unbuilt e' build decision state =>
          subst state decision
          refine ⟨?_, ht⟩
          simp [Processor.buildFailed, hpre.policy, hbuild, allowed, Decision.isBlock]
        | ran pp build => cases hpp.symm.trans build
      | ok pp =>
        rw [hpp] at hbuild
        have hu := hpre.inspected hw hun hskip henf hpp hins
        refine ⟨by simp [Decision.isBlock, hu.action], hu.recorded, hu.mutated, ?_⟩
        intro _ _ _
        rw [hu.required, hu.waf, hbuild]
        rfl
    obtain ⟨hpass, hu⟩ := hpassed
    have hpolicy : u.tx.policy = some q := hins.inspection.policy.trans hpre.policy
    obtain ⟨c, hc, -, -, hreply⟩ | ⟨-, hasked, -⟩ := hcases
    · rw [hreply]
      refine ⟨?_, hu.finish ..⟩
      rw [replyTo_touches (by simpa using hpass)]
      rcases hc with rfl | rfl <;> rfl
    · cases (hu.idle q hpolicy henf).symm.trans hasked

/-- A response with two content-encodings and no body. -/
def stackedResponse : HttpHeaders where
  headers := [⟨contentEncoding, ascii "gzip", []⟩, ⟨contentEncoding, ascii "gzip", []⟩]
  endOfStream := true

theorem stackedResponse_count : 1 < headerCount (loadHeaders stackedResponse.headers) contentEncoding := by
  have hself : equalFold contentEncoding contentEncoding = true :=
    (equalFold_iff_lowerASCII (by decide) (by decide)).mpr rfl
  simp [stackedResponse, loadHeaders, headerCount, hself]

theorem stackedResponse_remarked (hw : Prompt w) (hun : Uninvolved p)
    (hskip : p.needsResponseInspection = false) (henf : p.enforcing = true)
    (hbody : p.engineSet.requiresBody = true) {pp : PolicyPipelines}
    (hpp : pr.policyPipelines p = .ok pp) (hp : st.tx.policy = some p) :
    (pr.onResponseHeaders w stackedResponse st).1.touches = true ∨
      recordedFindings (pr.onResponseHeaders w stackedResponse st).2 ≠ recordedFindings st := by
  obtain ⟨d, t, hrun, hcases⟩ := onResponseHeaders_cases pr w stackedResponse st
  obtain ⟨hpre, hheaders⟩ := responsePrelude_preluded hp hrun
  obtain ⟨hoff, -⟩ | ⟨q, hq, -, heq⟩ := hcases
  · rw [hpre.policy] at hoff
    simp [henf] at hoff
  obtain rfl := Option.some.inj (hq.symm.trans hpre.policy)
  rw [heq]
  obtain ⟨dh, u, hins, hcases⟩ := inspectHeaders_cases pr w .response Processor.responseReply
    stackedResponse.endOfStream q t
  have hu := hpre.inspected hw hun hskip henf hpp hins
  obtain ⟨c, -, hend, -⟩ | ⟨-, hasked, -, v, hv, hreply⟩ := hcases
  · -- the header phase neither blocks nor leaves the body out
    rcases hend with hblock | hidle | rfl
    · simp [Decision.isBlock, hu.action] at hblock
    · simp [hu.required, hbody] at hidle
    · cases hpre.opened.required.symm.trans (hu.required.trans hbody)
  have hsame : v = u := by
    rw [hv, headerFindings, if_neg (by simp [hu.action])]
  subst hsame
  rw [hreply, if_pos (show stackedResponse.endOfStream = true from rfl)]
  have hpinned := hins.inspection.pinned
  have hpolicy : v.tx.policy = some q := hins.inspection.policy.trans hpre.policy
  have hdirection : v.tx.direction = .response :=
    (congrArg Transaction.direction hpinned :).trans hpre.opened.direction
  have hinspected : v.tx.bodyInspected = false :=
    (congrArg Transaction.bodyInspected hpinned :).trans hpre.opened.inspected
  have htruncated : v.tx.bodyTruncated = false :=
    (congrArg Transaction.bodyTruncated hpinned :).trans hpre.opened.truncated
  have hcount : 1 < v.tx.headerCount contentEncoding := by
    have hsame : v.tx.headers = loadHeaders stackedResponse.headers :=
      (congrArg Transaction.headers hpinned :).trans hheaders
    rw [Transaction.headerCount, hsame]
    exact stackedResponse_count
  obtain ⟨hnot, -⟩ | ⟨q', db, x, hdue, hinsb, hbd⟩ := inspectBufferedBody_cases pr w v
  · exact absurd ⟨hpolicy, henf, hinspected, hasked⟩ (hnot q)
  obtain rfl := Option.some.inj (hdue.policy.symm.trans hpolicy)
  have hpast := hinsb.pastFindings hpp
  have hreported : db.isBlock = true ∨ x.tx.findings ≠ [] := by
    cases hinsb with
    | unbuilt e build => cases hpp.symm.trans build
    | ran pp' build run =>
      have hrep := stacked_encodings_reported (w := w) (hw.inspectCtx (latched v))
        (buildPolicyPipelines_spec build .response).2
        (show (latched v).tx.policy = some q' from hpolicy) henf
        (show v.tx.bodyRequired = true from hu.required.trans hbody) htruncated hcount
      rw [hdirection, phasePipeline_body] at run
      rw [← Processor.runInspect, run] at hrep
      exact hrep
  rw [hbd]
  rcases hreported with hblock | hsome
  · refine .inl ?_
    simp [Processor.replyTo, hblock, immediateResponse, ProcessingResponse.touches,
      ProcessingResponse.isImmediate]
  · refine .inr ?_
    have hlatched : recordedFindings (latched v) = recordedFindings st := hu.recorded
    rw [recordedFindings_finish, recordedFindings, hpast, hlatched]
    simpa using hsome

/-- A policy that fails closed blocks the responses it has no pipelines for. -/
theorem unbuilt_response_blocked {e : Err} (hpp : pr.policyPipelines p = .error e)
    (henf : p.enforcing = true) (hclosed : p.failOpen = false) (hp : st.tx.policy = some p)
    (h : HttpHeaders) : (pr.onResponseHeaders w h st).1.touches = true := by
  obtain ⟨d, t, hrun, hcases⟩ := onResponseHeaders_cases pr w h st
  obtain ⟨hpre, -⟩ := responsePrelude_preluded hp hrun
  obtain ⟨hoff, -⟩ | ⟨q, hq, -, heq⟩ := hcases
  · rw [hpre.policy] at hoff
    simp [henf] at hoff
  · obtain rfl := Option.some.inj (hq.symm.trans hpre.policy)
    have hblock : (Processor.buildFailed t.tx).isBlock = true := by
      simp [Processor.buildFailed, hpre.policy, hclosed, Decision.isBlock]
    rw [heq, Processor.inspectHeaders, hpp]
    simp [Processor.failBuild, Processor.failBuildDecision, Processor.replyTo, hblock,
      immediateResponse, ProcessingResponse.touches, ProcessingResponse.isImmediate]

/-- For a policy that declares no inspection of responses and engines that keep to it: whatever
the response, its two phases change nothing, if and only if they ask for no body. -/
theorem skipped_response_transparent_iff (pr : Processor) (hw : Prompt w) (hun : Uninvolved p)
    (hskip : p.needsResponseInspection = false) :
    (∀ (st : Exec) (x : Exchange), st.tx.policy = some p →
      Transparent pr w st (.responseHeaders x.headers :: x.following .response)) ↔
      AsksNoBody pr p := by
  refine ⟨?_, ?_⟩
  · intro hall henf
    let st : Exec := { tx := { policy := some p } }
    obtain ⟨htouch, -, hrecorded⟩ := hall st ⟨stackedResponse, none, rfl⟩ rfl _ List.mem_cons_self
    cases hpp : pr.policyPipelines p with
    | ok pp =>
      show p.engineSet.requiresBody = false
      by_contra hbody
      rw [Bool.not_eq_false] at hbody
      have hremarked := stackedResponse_remarked hw hun hskip henf hbody hpp
        (show st.tx.policy = some p from rfl)
      rcases hremarked with h | h
      · cases htouch.symm.trans h
      · exact h hrecorded
    | error e =>
      show p.failOpen = true
      by_contra hopen
      rw [Bool.not_eq_true] at hopen
      have hblocked : (pr.onResponseHeaders w stackedResponse st).1.touches = true :=
        unbuilt_response_blocked hpp henf hopen rfl stackedResponse
      cases htouch.symm.trans hblocked
  · intro hasks st x hp
    obtain ⟨htouch, hunmoved⟩ := response_headers_unmoved hw hun hskip hasks hp x.headers
    exact transparent_of_headers x htouch hunmoved

end

/-! ## A page under a policy for JSON -/

/-- A policy for JSON requests with an engine that reads request bodies. -/
def jsonPolicy (engines : List SecurityEngine) : CompiledPolicy :=
  { plainPolicy with
    inspectRequestBody := true
    checks := { requireJSON := true }
    engines := some ⟨engines⟩ }

/-- A page of HTML. -/
def pageResponse : Exchange where
  headers := { headers := [⟨ascii "content-type", ascii "text/html", []⟩] }
  rest := some { last := some (ascii "<p>") }
  ended := rfl

theorem uninvolved_of_nothing {p : CompiledPolicy}
    (h : ∀ e ∈ p.engineSet.engines, e.inspect = fun _ _ => .verdict {}) : Uninvolved p := by
  intro e he _ tick req _
  rw [h e he]

theorem prompt_quiet : Prompt World.quiet := ⟨fun _ => rfl, fun _ _ => rfl⟩

/-- The body phase blocks the page although the policy declares no inspection of responses. -/
theorem page_is_blocked_under_skipping_policy :
    let _ := Library.nothing
    let p := jsonPolicy [bodyEngine]
    p.needsResponseInspection = false ∧ Uninvolved p ∧ Prompt World.quiet ∧
      ¬ Transparent (plainProcessor true) World.quiet { tx := { policy := some p } }
        (.responseHeaders pageResponse.headers :: pageResponse.following .response) := by
  intro lib p
  refine ⟨by decide, uninvolved_of_nothing (by simp [p, jsonPolicy, CompiledPolicy.engineSet,
    bodyEngine]), prompt_quiet, ?_⟩
  intro h
  have hblocked : (trace ((plainProcessor true).handle World.quiet) { tx := { policy := some p } }
      (.responseHeaders pageResponse.headers :: pageResponse.following .response)).any
        (fun e => e.output.any ProcessingResponse.touches) = true := by
    decide +kernel
  obtain ⟨e, he, htouch⟩ := List.any_eq_true.mp hblocked
  cases (h e he).1.symm.trans htouch

/-- Without an engine that needs a body the same page passes. -/
theorem page_passes_without_body_engine :
    let _ := Library.nothing
    let p := jsonPolicy [{ bodyEngine with requiresBody := false }]
    Transparent (plainProcessor true) World.quiet { tx := { policy := some p } }
      (.responseHeaders pageResponse.headers :: pageResponse.following .response) := by
  intro lib p
  have hun : Uninvolved p := uninvolved_of_nothing (by simp [p, jsonPolicy,
    CompiledPolicy.engineSet, bodyEngine])
  obtain ⟨pp, hpp⟩ : ∃ pp, (plainProcessor true).policyPipelines p = .ok pp := ⟨_, rfl⟩
  have hasks : AsksNoBody (plainProcessor true) p := by
    intro _
    rw [hpp]
    rfl
  exact (skipped_response_transparent_iff (plainProcessor true) prompt_quiet hun (by decide)).mpr
    hasks _ pageResponse rfl

end ElchiShield.Extproc
