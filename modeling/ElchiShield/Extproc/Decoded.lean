import ElchiShield.Extproc.Exchange
import ElchiShield.Extproc.HostGate

/-! # What the body inspectors see

Every body pipeline starts with the truncation guard and the content decoder. Under a policy
that blocks, the inspectors behind them find a body that came in whole and that is decoded, as
far as it was encoded. An earlier `body_checks` stage may have redacted it. -/
namespace ElchiShield.Extproc
open ElchiShield.Go ElchiShield.Lib ElchiShield.Engine ElchiShield.Policy ElchiShield.Runtime
open ElchiShield.Pipeline ElchiShield.Stages

/-- A `body_checks` stage or a `waf_engine` stage of the body phase starts. -/
def isInspection : Effect → Bool
  | .ran name _ => name = Config.stageBodyChecks || name = Config.stageWAFEngine
  | _ => false

theorem budget_not_inspection (e : Effect) (h : e.ofBudget = true) : isInspection e = false := by
  cases e with
  | ran => cases h
  | _ => rfl

section
variable [Library]

/-- What is left of `raw`, sent under `headers`, for the inspectors: the bytes themselves where
they are not encoded, or else what they decode to. -/
inductive Decoded (headers : List Engine.Header) (raw : Bytes) : Bytes → Prop where
  | plain (absent : Engine.header headers contentEncoding = none) : Decoded headers raw raw
  | identity {enc : Bytes} (first : Engine.header headers contentEncoding = some enc)
      (identity : isIdentity (normalizeEncoding enc)) : Decoded headers raw raw
  | empty (empty : raw = []) : Decoded headers raw raw
  | decoded {enc body : Bytes} (first : Engine.header headers contentEncoding = some enc)
      (single : Engine.headerCount headers contentEncoding = 1)
      (decodes : decodeBody (normalizeEncoding enc) raw = some body) : Decoded headers raw body

/-- What an inspector of the policy `p` may find when `raw` was sent under `headers`. -/
structure Seen (detector : Option Detector) (p : CompiledPolicy) (hs : List Engine.Header)
    (raw : Bytes) (tx : Transaction) : Prop where
  policy : tx.policy = some p
  headers : tx.headers = hs
  whole : tx.bodyTruncated = false
  body : ∃ body, Decoded hs raw body ∧
    Relation.ReflTransGen (Redacts detector p) body tx.body

/-! ## The two guards -/

section
variable {w : World} {ctx : Ctx} {st : Exec} {p : CompiledPolicy}

omit [Library] in
theorem denyEngine_ne_continue (tx : Transaction) (engine ruleID reason : Bytes) (sev : Severity) :
    denyEngine tx engine ruleID reason sev ≠ .continue_ := by
  simp [denyEngine, StageResult.deny, StageResult.continue_]

omit [Library] in
theorem bodyTruncationGuard_continue (hp : st.tx.policy = some p) (henf : p.enforcing = true)
    {t : Exec} (h : bodyTruncationGuard.process w ctx st = (some .continue_, t)) :
    t = st ∧ st.tx.bodyTruncated = false := by
  obtain ⟨hres, hstate⟩ := Prod.mk.inj h
  refine ⟨hstate.symm, ?_⟩
  cases htrunc : st.tx.bodyTruncated with
  | false => rfl
  | true =>
    dsimp only at hres
    rw [hp] at hres
    simp only [henf, htrunc, Bool.not_true, Bool.false_eq_true, if_false, if_true,
      Option.some.injEq] at hres
    exact absurd hres (denyEngine_ne_continue _ _ _ _ _)

theorem headerCount_pos {tx : Transaction} {name value : Bytes}
    (h : tx.header name = some value) : 0 < tx.headerCount name := by
  obtain ⟨hd, hfind, -⟩ := Option.map_eq_some_iff.mp h
  have hname := List.find?_some hfind
  exact List.countP_pos_iff.mpr ⟨hd, List.mem_of_find?_eq_some hfind, hname⟩

theorem bodyContentDecode_continue (hp : st.tx.policy = some p) (henf : p.enforcing = true)
    {t : Exec} (h : bodyContentDecode.process w ctx st = (some .continue_, t)) :
    ∃ body bodyReserved, t.tx = { st.tx with body, bodyReserved } ∧
      Decoded st.tx.headers st.tx.body body := by
  unfold bodyContentDecode at h
  dsimp only at h
  split at h
  next hnone => cases hnone.symm.trans hp
  next q hq =>
    obtain rfl := Option.some.inj (hq.symm.trans hp)
    rw [if_neg (by simp [henf])] at h
    split at h
    next habsent =>
      obtain ⟨-, rfl⟩ := Prod.mk.inj h
      exact ⟨_, _, rfl, .plain habsent⟩
    next enc hfirst =>
      split at h
      · exact absurd (Option.some.inj (Prod.mk.inj h).1) (denyEngine_ne_continue _ _ _ _ _)
      next hcount =>
        have hsingle : st.tx.headerCount contentEncoding = 1 := by
          have := headerCount_pos hfirst
          omega
        split at h
        next hid =>
          obtain ⟨-, rfl⟩ := Prod.mk.inj h
          exact ⟨_, _, rfl, .identity hfirst hid⟩
        split at h
        next hempty =>
          obtain ⟨-, rfl⟩ := Prod.mk.inj h
          exact ⟨_, _, rfl, .empty hempty⟩
        · unfold decodeInto at h
          split at h
          · exact absurd (Option.some.inj (Prod.mk.inj h).1) (denyEngine_ne_continue _ _ _ _ _)
          next body hbody =>
            obtain ⟨reserved, tick, log, hreserve, -⟩ :=
              reserveBody_spec w (body.length - st.tx.body.length) st
            split at h
            · exact absurd (Option.some.inj (Prod.mk.inj h).1) (denyEngine_ne_continue _ _ _ _ _)
            next u hu =>
              obtain ⟨-, rfl⟩ := Prod.mk.inj h
              rw [hu] at hreserve
              dsimp only at hreserve
              subst hreserve
              exact ⟨body, reserved, rfl, .decoded hfirst hsingle hbody⟩

/-! ## The body pipeline -/

/-- The inspections from `st` to `t` found what they may find. -/
def Clean (detector : Option Detector) (p : CompiledPolicy) (hs : List Engine.Header)
    (raw : Bytes) (st t : Exec) : Prop :=
  ∃ es, t.log.filter isInspection = st.log.filter isInspection ++ es ∧
    ∀ e ∈ es, ∃ name tx, e = .ran name tx ∧ Seen detector p hs raw tx

section
variable {detector : Option Detector} {hs : List Engine.Header} {raw : Bytes} {a t u : Exec}

theorem Clean.of_log (h : t.log.filter isInspection = st.log.filter isInspection) :
    Clean detector p hs raw st t :=
  ⟨[], by simp [h], by simp⟩

theorem Clean.after (h : Clean detector p hs raw st t)
    (hlog : u.log.filter isInspection = t.log.filter isInspection) :
    Clean detector p hs raw st u := by
  obtain ⟨es, heq, hes⟩ := h
  exact ⟨es, hlog.trans heq, hes⟩

theorem Clean.before (h : Clean detector p hs raw st t)
    (hlog : st.log.filter isInspection = a.log.filter isInspection) :
    Clean detector p hs raw a t := by
  obtain ⟨es, heq, hes⟩ := h
  exact ⟨es, by rw [heq, hlog], hes⟩

/-- A stage has started that may be an inspector. -/
theorem Clean.ran (h : Clean detector p hs raw st t) (name : Bytes) {tx : Transaction}
    (hseen : Seen detector p hs raw tx) :
    Clean detector p hs raw st (t.emit (.ran name tx)) := by
  obtain ⟨es, heq, hes⟩ := h
  refine ⟨es ++ [Effect.ran name tx].filter isInspection, ?_, ?_⟩
  · rw [Exec.emit_log, List.filter_append, heq, List.append_assoc]
  · intro e he
    rcases List.mem_append.mp he with he | he
    · exact hes e he
    · obtain rfl := List.mem_singleton.mp (List.mem_filter.mp he).1
      exact ⟨name, tx, rfl, hseen⟩

/-- An inspector leaves a body the next one may find. -/
theorem Seen.process {deps : Deps} {s : Stage} (hmem : s = bodyChecks deps.detector ∨ s = wafEngine)
    (w : World) (ctx : Ctx) (st : Exec) (h : Seen deps.detector p hs raw st.tx) :
    Seen deps.detector p hs raw (s.process w ctx st).2.tx ∧
      (s.process w ctx st).2.log = st.log := by
  rcases hmem with rfl | rfl
  · obtain ⟨-, heq | ⟨q, body, hq, -, hredacts, heq⟩⟩ := bodyChecks_spec deps.detector w ctx st
    · rw [heq]
      exact ⟨h, rfl⟩
    · obtain rfl := Option.some.inj (hq.symm.trans h.policy)
      rw [heq]
      obtain ⟨b, hb, hchain⟩ := h.body
      exact ⟨⟨h.policy, h.headers, h.whole, b, hb, hchain.tail hredacts⟩, rfl⟩
  · obtain ⟨-, score, denied, tick, heq⟩ := runEngines_spec EngineSet.inspectBodyPhase ctx st
    show Seen _ _ _ _ (runEngines EngineSet.inspectBodyPhase ctx st).2.tx ∧
      (runEngines EngineSet.inspectBodyPhase ctx st).2.log = _
    rw [heq]
    exact ⟨⟨h.policy, h.headers, h.whole, h.body⟩, rfl⟩

omit [Library] in
/-- A stage that is no inspector, under a blocking policy. -/
theorem stageStep_uninspected {s : Stage} (hs : Inspector s)
    (hname : isInspection (.ran s.name st.tx) = false)
    (hlog : ∀ u, OnlyBudget u (s.process w ctx u).2) (hg : gated s.phase st.tx = false)
    (hp : st.tx.policy = some p) (hb : p.blocking = true) :
    After (fun t => s.process w ctx (st.next.emit (.ran s.name st.tx)) = (some .continue_, t) ∧
        t.log.filter isInspection = st.log.filter isInspection)
      (fun _ t => t.log.filter isInspection = st.log.filter isInspection)
      (stageStep w ctx s st) := by
  have hran : (s.process w ctx (st.next.emit (.ran s.name st.tx))).2.log.filter isInspection =
      st.log.filter isInspection := by
    rw [(hlog _).filter budget_not_inspection, Exec.emit_log, List.filter_append,
      List.filter_singleton, hname]
    exact List.append_nil _
  refine (stageStep_blocking hs hg (by rw [hp]; exact hb)).imp ?_ ?_
  · intro t ht
    rw [ht] at hran
    exact ⟨ht, hran⟩
  · rintro d t (rfl | rfl)
    · rfl
    · exact hran

/-- The inspectors, on a body they may find. -/
theorem inspectors_clean {deps : Deps} {stages : List Stage}
    (hmem : ∀ s ∈ stages, s = bodyChecks deps.detector ∨ s = wafEngine)
    (hclean : Clean deps.detector p hs raw a st) (hseen : Seen deps.detector p hs raw st.tx) :
    Clean deps.detector p hs raw a
      (chain (stageStep w ctx) (fun st => st.tx.result) stages st).2 := by
  refine (stages_invariant (R := Frame)
    (I := fun t => Clean deps.detector p hs raw a t ∧ Seen deps.detector p hs raw t.tx)
    ?_ (fun _ => id) ?_ ?_ ⟨hclean, hseen⟩).1
  · intro s hs
    rcases hmem s hs with rfl | rfl
    · exact bodyChecks_inspector _
    · exact wafEngine_inspector
  · rintro t res mode ⟨hc, hs⟩
    exact ⟨hc, hs.policy, hs.headers, hs.whole, hs.body⟩
  · rintro s hs t ⟨hc, hseen⟩ -
    obtain ⟨hnew, hlog⟩ := Seen.process (hmem s hs) w ctx (t.emit (.ran s.name t.tx)) hseen
    exact ⟨(hc.ran s.name hseen).after (by rw [hlog]), hnew⟩

/-- The decoder and the inspectors behind it, on a body that is whole. -/
theorem decoder_clean {deps : Deps} {stages : List Stage}
    (hmem : ∀ s ∈ stages, s = bodyChecks deps.detector ∨ s = wafEngine) (w : World) (ctx : Ctx)
    (hp : st.tx.policy = some p) (hb : p.blocking = true) (hreq : st.tx.bodyRequired = true)
    (hwhole : st.tx.bodyTruncated = false) :
    Clean deps.detector p st.tx.headers st.tx.body st
      (chain (stageStep w ctx) (fun st => st.tx.result) (bodyContentDecode :: stages) st).2 := by
  have hgate : gated .body st.tx = false := by simp [gated, hreq]
  refine chain_cons_rule (Q := fun _ t => Clean deps.detector p st.tx.headers st.tx.body st t)
    ((stageStep_uninspected bodyContentDecode_inspector rfl (bodyContentDecode_log w ctx) hgate
      hp hb).imp (fun _ => id) fun _ _ h => Clean.of_log h) ?_
  rintro t ⟨ht, hlog⟩
  obtain ⟨body, reserved, htx, hdecoded⟩ := bodyContentDecode_continue
    (show (st.next.emit (.ran bodyContentDecode.name st.tx)).tx.policy = some p from hp)
    (CompiledPolicy.enforcing_of_blocking hb) ht
  refine inspectors_clean hmem (.of_log hlog) ?_
  rw [htx]
  exact ⟨hp, rfl, hwhole, body, hdecoded, .refl⟩

theorem bodyPipeline_clean {deps : Deps} {dir : Direction} {q : Pipeline}
    (hq : BodyPipeline deps dir q) (w : World) (ctx : Ctx) (hp : st.tx.policy = some p)
    (hb : p.blocking = true) (hreq : st.tx.bodyRequired = true)
    (hraw : st.tx.bodyTruncated = false → st.tx.body = raw) :
    Clean deps.detector p st.tx.headers raw st (q.run w ctx st).2 := by
  obtain ⟨stages, hstages, hmem⟩ := hq.stages
  have hstart : (q.start st).log.filter isInspection = st.log.filter isInspection := by
    show (st.log ++ [Effect.started q.name st.tx]).filter isInspection = _
    rw [List.filter_append]
    exact List.append_nil _
  have hgate : gated .body (q.start st).tx = false := by
    show (!st.tx.bodyRequired) = false
    rw [hreq]
    rfl
  unfold Pipeline.run
  rw [hstages]
  refine chain_cons_rule (Q := fun _ t => Clean deps.detector p st.tx.headers raw st t)
    ((stageStep_uninspected bodyTruncationGuard_inspector rfl (fun _ => .of_log rfl) hgate
      hp hb).imp (fun _ => id) fun _ _ h => Clean.of_log (h.trans hstart)) ?_
  rintro t ⟨ht, hlog⟩
  obtain ⟨rfl, hwhole⟩ := bodyTruncationGuard_continue (by exact hp)
    (CompiledPolicy.enforcing_of_blocking hb) ht
  obtain rfl := hraw hwhole
  exact (decoder_clean hmem w ctx (by exact hp) hb (by exact hreq) hwhole).before
    (hlog.trans hstart)

end

end

/-! ## Everything else -/

section
variable {pr : Processor} {w : World} {dir : Direction} {p : CompiledPolicy} {a t : Exec}

omit [Library] in
theorem finish_inspections (pr : Processor) (w : World) (phase : Audit.Phase) (d : Decision)
    (st : Exec) : (pr.finish w phase d st).log.filter isInspection = st.log.filter isInspection := by
  have hnone : (Effect.finished phase d :: (audited pr w d st).map fun f =>
      .audited (pr.event st.tx phase f)).filter isInspection = [] := by
    simp [List.filter_eq_nil_iff, isInspection]
  rw [finish_log, List.filter_append, hnone, List.append_nil]

omit [Library] in
theorem headerFindings_inspections (pr : Processor) (w : World) (phase : Audit.Phase)
    (d : Decision) (st : Exec) :
    (headerFindings pr w phase d st).log.filter isInspection = st.log.filter isInspection := by
  unfold headerFindings
  split
  · obtain ⟨tick, -, heq⟩ := emitAudit_spec pr w phase d st
    show (pr.emitAudit w phase d st).log.filter isInspection = _
    have hnone : ((audited pr w d st).map fun f =>
        Effect.audited (pr.event st.tx phase f)).filter isInspection = [] := by
      simp [List.filter_eq_nil_iff, isInspection]
    rw [heq, List.filter_append, hnone, List.append_nil]
  · rfl

omit [Library] in
theorem Buffering.inspections (h : Buffering pr w dir a t) :
    t.log.filter isInspection = a.log.filter isInspection :=
  h.induct (I := fun u => u.log.filter isInspection = a.log.filter isInspection)
    (fun _ chunk hu => ((appendBody_log pr w dir chunk _).filter budget_not_inspection).trans hu) rfl

theorem Inspected.inspections {d : Decision}
    (h : Inspected pr w p (Audit.headersPhase dir) a d t) :
    t.log.filter isInspection = a.log.filter isInspection := by
  cases h with
  | unbuilt e build decision state => rw [state]
  | ran pp build run =>
    have hran : ∀ s ∈ [fastPreChecks, wafHeaderEngine, bodyGate], ∀ tx,
        isInspection (.ran s.name tx) = false := by
      simp only [List.forall_mem_cons]
      exact ⟨fun _ => rfl, fun _ => rfl, fun _ => rfl, by simp⟩
    have hkeep := (buildPolicyPipelines_spec build dir).1.keeps_log (fun _ => rfl) hran w
      (Processor.inspectCtx w a) a
    rw [phasePipeline_headers] at run
    rw [← Processor.runInspect, run] at hkeep
    exact hkeep

theorem Inspected.requires {d : Decision} (ho : Opened dir a)
    (h : Inspected pr w p (Audit.headersPhase dir) a d t)
    (hdue : (t.tx.bodyRequired || t.tx.wafEnabled) = true) : t.tx.bodyRequired = true := by
  have hwaf : t.tx.wafEnabled = true → t.tx.bodyRequired = true := by
    have ha : a.tx.wafEnabled = true → a.tx.bodyRequired = true := by
      intro h
      cases ho.waf.symm.trans h
    cases h with
    | unbuilt e build decision state => rw [state]; exact ha
    | ran pp build run =>
      have hkeep := (buildPolicyPipelines_spec build dir).1.waf_requires w
        (Processor.inspectCtx w a) ha
      rw [phasePipeline_headers] at run
      rw [← Processor.runInspect, run] at hkeep
      exact hkeep
  rcases Bool.or_eq_true_iff.mp hdue with h | h
  · exact h
  · exact hwaf h

/-- The inspections of an exchange, from the end of its prelude. -/
theorem Course.clean {asked : Bool} {bytes : Bytes} {d : Decision} {v : Exec}
    (h : Course pr w dir asked bytes d t v) (ho : Opened dir t) (hp : t.tx.policy = some p)
    (hb : p.blocking = true) : Clean pr.deps.detector p t.tx.headers bytes t v := by
  cases h with
  | passed asks rest =>
    exact .of_log (rest.inspections.trans (finish_inspections ..))
  | ended policy enforcing run asks rest =>
    exact .of_log (rest.inspections.trans ((finish_inspections ..).trans run.inspections))
  | @body q dh u v policy enforcing run pass due chunks pending =>
    obtain rfl := Option.some.inj (policy.symm.trans hp)
    have hnoted := headerFindings_noted pr w (Audit.headersPhase dir) dh u
    have hbefore : v.log.filter isInspection = t.log.filter isInspection :=
      chunks.inspections.trans ((headerFindings_inspections ..).trans run.inspections)
    have hkept : v.tx.bodyRequired = true ∧ v.tx.headers = t.tx.headers := by
      refine chunks.induct (I := fun s => s.tx.bodyRequired = true ∧ s.tx.headers = t.tx.headers) ?_ ?_
      · intro s chunk hs
        obtain ⟨_, _, _, _, _, heq, -⟩ := buffered_spec pr w dir chunk s
        rw [heq]
        exact hs
      · rw [hnoted.tx]
        exact ⟨run.requires ho due, (congrArg Transaction.headers run.inspection.pinned :)⟩
    obtain ⟨db, z, hrun, heq⟩ := pending.inspected w
    rw [heq]
    cases hrun with
    | unbuilt e build decision state =>
      rw [state]
      exact .of_log ((finish_inspections ..).trans hbefore)
    | ran pp build brun =>
      rw [phasePipeline_body] at brun
      have hclean := bodyPipeline_clean (buildPolicyPipelines_spec build dir).2 w
        (Processor.inspectCtx w (latched v))
        (show (latched v).tx.policy = some q from pending.due.policy) hb hkept.1 pending.whole
      rw [← Processor.runInspect, brun] at hclean
      rw [← hkept.2]
      exact (hclean.before hbefore).after (finish_inspections ..)

/-- The policy that governs the request from its headers on. -/
theorem onRequestHeaders_policy {h : HttpHeaders} {st : Exec} (hset : st.tx.requestSettled = false)
    {d : Decision} (hrun : preludeOf pr w h st = (d, t)) :
    (pr.onRequestHeaders w h st).2.tx.policy = t.tx.policy := by
  obtain ⟨d', t', hrun', hcases⟩ := onRequestHeaders_cases pr w h hset
  obtain ⟨rfl, rfl⟩ := Prod.mk.inj (hrun.symm.trans hrun')
  obtain ⟨-, heq⟩ | ⟨q, -, -, -, heq⟩ := hcases
  · rw [heq, finish_keeps Transaction.policy (fun _ => rfl)]
  · rw [heq, inspectHeaders_policy]

theorem onResponseHeaders_policy {h : HttpHeaders} {st : Exec} {d : Decision}
    (hrun : (responsePrelude pr.deps).run w w.ctx (loadResponse h st) = (d, t)) :
    (pr.onResponseHeaders w h st).2.tx.policy = t.tx.policy := by
  obtain ⟨d', t', hrun', hcases⟩ := onResponseHeaders_cases pr w h st
  obtain ⟨rfl, rfl⟩ := Prod.mk.inj (hrun.symm.trans hrun')
  obtain ⟨-, heq⟩ | ⟨q, -, -, heq⟩ := hcases
  · rw [heq, finish_keeps Transaction.policy (fun _ => rfl)]
  · rw [heq, inspectHeaders_policy]

theorem preludeOf_inspections {h : HttpHeaders} {st : Exec} {d : Decision}
    (hrun : preludeOf pr w h st = (d, t)) :
    t.log.filter isInspection = st.log.filter isInspection := by
  have hran : ∀ s ∈ (requestPrelude pr.deps).stages, ∀ tx, isInspection (.ran s.name tx) = false := by
    simp only [requestPrelude, List.forall_mem_cons]
    exact ⟨fun _ => rfl, fun _ => rfl, fun _ => rfl, by simp⟩
  have hlog := requestPrelude_log pr.deps (fun _ => rfl) hran w w.ctx (Processor.loadRequest w h st)
  rw [← preludeOf, hrun, loadRequest_log] at hlog
  exact hlog

theorem responsePrelude_inspections {h : HttpHeaders} {st : Exec} {d : Decision}
    (hrun : (responsePrelude pr.deps).run w w.ctx (loadResponse h st) = (d, t)) :
    t.log.filter isInspection = st.log.filter isInspection := by
  have hlog := responsePrelude_log (f := isInspection) pr.deps (fun _ => rfl) (fun _ => rfl) w w.ctx
    (loadResponse h st)
  rw [hrun, (loadResponse_log h st).filter budget_not_inspection] at hlog
  exact hlog

end

/-- **No inspector sees a partial or a still encoded body.** Under a blocking policy, for the
request from the start of the stream, and for the response from any state of it. -/
theorem inspectors_find_decoded_body (pr : Processor) (w : World) :
    (∀ (snap : Snapshot) (attributes : List Bytes) (x : Exchange) (p : CompiledPolicy),
      OneChunk pr w .request (pr.newStream snap) (.requestHeaders attributes x.headers) x →
      (pr.handle w (pr.newStream snap) (.requestHeaders attributes x.headers)).2.tx.policy =
        some p → p.blocking = true →
      Clean pr.deps.detector p (loadHeaders x.headers.headers) x.parts.flatten (pr.newStream snap)
        (deliver pr w (pr.newStream snap)
          (.requestHeaders attributes x.headers :: x.following .request))) ∧
    ∀ (st : Exec) (x : Exchange) (p : CompiledPolicy),
      OneChunk pr w .response st (.responseHeaders x.headers) x →
      (pr.handle w st (.responseHeaders x.headers)).2.tx.policy = some p → p.blocking = true →
      Clean pr.deps.detector p (loadHeaders x.headers.headers) x.parts.flatten st
        (deliver pr w st (.responseHeaders x.headers :: x.following .response)) := by
  constructor
  · intro snap attributes x p hone hp hb
    obtain ⟨d, t, hrun, ho, hcourse⟩ := request_course attributes
      (newStream_opened pr w snap attributes x.headers) rfl hone
    have hpolicy : t.tx.policy = some p := (onRequestHeaders_policy (by rfl) hrun).symm.trans hp
    have hheaders : t.tx.headers = loadHeaders x.headers.headers := by
      have hrel := (requestPrelude_spec pr.deps w w.ctx
        (Processor.loadRequest w x.headers (received attributes (pr.newStream snap)))).rel
      rw [← preludeOf, hrun] at hrel
      obtain ⟨requestID, hload⟩ := loadRequest_spec w x.headers (received attributes (pr.newStream snap))
      exact hrel.headers.trans (congrArg Transaction.headers hload)
    have hlog := preludeOf_inspections hrun
    rw [← hheaders]
    exact (hcourse.clean ho hpolicy hb).before hlog
  · intro st x p hone hp hb
    obtain ⟨d, t, hrun, ho, hcourse⟩ := response_course st hone
    have hpolicy : t.tx.policy = some p := (onResponseHeaders_policy hrun).symm.trans hp
    have hheaders : t.tx.headers = loadHeaders x.headers.headers := by
      have hrel := (responsePrelude_spec pr.deps w w.ctx (loadResponse x.headers st)).rel
      rw [hrun] at hrel
      exact hrel.headers
    rw [← hheaders]
    exact (hcourse.clean ho hpolicy hb).before (responsePrelude_inspections hrun)

/-- An inspector finds the received bytes, decoded where they were encoded. -/
def AsReceived (raw : Bytes) (tx : Transaction) : Prop :=
  tx.bodyTruncated = false ∧ (tx.body = [] ∨ tx.header contentEncoding = none ∨
    ∃ enc, tx.header contentEncoding = some enc ∧ (isIdentity (normalizeEncoding enc) ∨
      tx.headerCount contentEncoding = 1 ∧
        decodeBody (normalizeEncoding enc) raw = some tx.body))

end

/-! ## A redaction in front of the engines -/

/-- Every gzip stream is the text `key`. -/
@[reducible] def keyLibrary : Library :=
  { Library.nothing with gzip := fun _ => some ⟨ascii "key", false⟩ }

/-- All of a body is a secret. -/
def wholeBody : Detector where
  scan _ _ := none
  «matches» body := [⟨0, body.length, ascii "secret"⟩]

/-- An engine that needs the body and finds nothing. -/
def bodyEngine : SecurityEngine where
  name := ascii "body"
  requiresBody := true
  inspectsResponse := false
  inspect _ _ := .verdict {}

def redactingPolicy : CompiledPolicy :=
  { plainPolicy with
    checks := { dlp := some ⟨true, false, [], [ascii "secret"]⟩ }
    engines := some ⟨[bodyEngine]⟩
    requestOrder := some [Config.stageBodyChecks, Config.stageWAFEngine] }

def redactingProcessor : Processor :=
  newProcessor { defaultAllow := true, detector := some wholeBody } false [] [] 0

def gzipRequest : Exchange where
  headers := { getRequest [⟨ascii "content-encoding", ascii "gzip", []⟩] with endOfStream := false }
  rest := some { last := some (ascii "z") }
  ended := rfl

/-- The transaction `waf_engine` finds, if it runs. -/
def wafTransaction (es : List Effect) : Option Transaction :=
  es.findSome? fun
    | .ran name tx => if name = Config.stageWAFEngine then some tx else none
    | _ => none

theorem ran_of_wafTransaction {es : List Effect} {tx : Transaction}
    (h : wafTransaction es = some tx) : Effect.ran Config.stageWAFEngine tx ∈ es := by
  obtain ⟨e, he, hsome⟩ := List.exists_of_findSome?_eq_some h
  cases e with
  | ran name tx' =>
    obtain ⟨rfl, rfl⟩ : name = Config.stageWAFEngine ∧ tx' = tx := by simpa using hsome
    exact he
  | _ => cases hsome

def redactingStream : Exec := redactingProcessor.newStream (catchAllSnapshot redactingPolicy)

def gzipLog : List Effect :=
  let _ := keyLibrary
  (deliver redactingProcessor World.quiet redactingStream
    (.requestHeaders [] gzipRequest.headers :: gzipRequest.following .request)).log

theorem engines_find_redacted_body :
    let _ := keyLibrary
    ∃ tx, Effect.ran Config.stageWAFEngine tx ∈ gzipLog ∧
      tx.policy.any CompiledPolicy.blocking = true ∧
      ¬ AsReceived gzipRequest.parts.flatten tx := by
  intro lib
  have hfacts : (wafTransaction gzipLog).map (fun tx =>
      (tx.policy.any CompiledPolicy.blocking, tx.body, tx.header contentEncoding)) =
      some (true, ascii "[REDACTED:secret]", some (ascii "gzip")) := by
    decide +kernel
  obtain ⟨tx, htx, heq⟩ := Option.map_eq_some_iff.mp hfacts
  obtain ⟨hblocking, hrest⟩ := Prod.mk.inj heq
  obtain ⟨hbody, hheader⟩ := Prod.mk.inj hrest
  refine ⟨tx, ran_of_wafTransaction htx, hblocking, ?_⟩
  rintro ⟨-, hcases⟩
  rw [hbody, hheader] at hcases
  rcases hcases with h | h | ⟨enc, henc, hid | ⟨-, hdecode⟩⟩
  · exact absurd h (by decide)
  · cases h
  all_goals obtain rfl := Option.some.inj henc
  · exact absurd hid (by decide +kernel)
  · exact absurd hdecode (by decide +kernel)

theorem engines_find_decoded_and_redacted_body :
    let _ := keyLibrary
    ∃ tx, Effect.ran Config.stageWAFEngine tx ∈ gzipLog ∧
      Seen (some wholeBody) redactingPolicy (loadHeaders gzipRequest.headers.headers) (ascii "z")
        tx := by
  intro lib
  obtain ⟨es, hlog, hes⟩ := (inspectors_find_decoded_body redactingProcessor World.quiet).1
    (catchAllSnapshot redactingPolicy) [] gzipRequest redactingPolicy (fun _ => Nat.le_refl 1)
    rfl rfl
  obtain ⟨tx, htx⟩ := Option.isSome_iff_exists.mp
    (show (wafTransaction gzipLog).isSome = true by decide +kernel)
  have hmem : Effect.ran Config.stageWAFEngine tx ∈ es := by
    have hins : isInspection (.ran Config.stageWAFEngine tx) = true := rfl
    have hfiltered := List.mem_filter.mpr ⟨ran_of_wafTransaction htx, hins⟩
    rw [gzipLog, redactingStream, hlog] at hfiltered
    exact hfiltered
  obtain ⟨name, tx', heq, hseen⟩ := hes _ hmem
  obtain ⟨-, rfl⟩ := Effect.ran.inj heq
  exact ⟨tx, ran_of_wafTransaction htx, hseen⟩

end ElchiShield.Extproc
