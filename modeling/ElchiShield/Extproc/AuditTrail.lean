import ElchiShield.Extproc.HostGate
import ElchiShield.Extproc.Rule
import ElchiShield.Pipeline.Findings

/-! # The audit trail of a stream

What a stream records is audited when a phase ends. A run keeps its findings in a list that the
next run clears, and an audit emits that list where it is not empty and the decision of the
phase otherwise. Here is when every finding is emitted, and when every enforced block is. -/
namespace ElchiShield.Extproc
open ElchiShield.Go ElchiShield.Lib ElchiShield.Engine ElchiShield.Policy ElchiShield.Runtime
open ElchiShield.Pipeline ElchiShield.Stages

/-! ## Events and findings -/

def auditedDecision : Effect → Option Decision
  | .audited ev => some ev.decision
  | _ => none

/-- The decisions of the audit events, oldest first. -/
def auditedDecisions (st : Exec) : List Decision := st.log.filterMap auditedDecision

def auditedFindings (st : Exec) : List Decision := (auditedDecisions st).filter Decision.isFinding

def auditedBlocks (st : Exec) : List Decision := (auditedDecisions st).filter Decision.isBlock

/-- The findings a run clears when it starts: those of the run before it. -/
def clearedFindings : Effect → List Decision
  | .started _ tx => tx.findings
  | _ => []

def pastFindings (st : Exec) : List Decision := st.log.flatMap clearedFindings

/-- The findings of every run of a stream, oldest first: those of the last run are still with
the transaction. -/
def recordedFindings (st : Exec) : List Decision := pastFindings st ++ st.tx.findings

section
variable {a b : Exec}

theorem auditedDecisions_outer (h : b.outer = a.outer) : auditedDecisions b = auditedDecisions a := by
  have hread : ∀ st : Exec, auditedDecisions st = st.outer.filterMap auditedDecision := by
    intro st
    rw [Exec.outer, List.filterMap_filter]
    refine List.filterMap_congr ?_
    intro e _
    cases e <;> rfl
  rw [hread, hread, h]

theorem pastFindings_outer (h : b.outer = a.outer) : pastFindings b = pastFindings a := by
  have hread : ∀ es : List Effect,
      es.flatMap clearedFindings = (es.filter Effect.outer).flatMap clearedFindings := by
    intro es
    induction es with
    | nil => rfl
    | cons e es ih => cases e <;> simp [List.filter_cons, Effect.outer, clearedFindings, ih]
  rw [pastFindings, hread, ← Exec.outer, h, Exec.outer, ← hread, pastFindings]

theorem auditedDecisions_start (p : Pipeline) (st : Exec) :
    auditedDecisions (p.start st) = auditedDecisions st := by
  simp [auditedDecisions, Pipeline.start, auditedDecision]

theorem pastFindings_start (p : Pipeline) (st : Exec) :
    pastFindings (p.start st) = recordedFindings st := by
  simp [pastFindings, recordedFindings, Pipeline.start, clearedFindings]

end

/-- The decisions a phase is audited with, after those of the state it is finished in. -/
structure AuditedAs (ds : List Decision) (a b : Exec) : Prop where
  decisions : auditedDecisions b = auditedDecisions a ++ ds
  past : pastFindings b = pastFindings a
  findings : b.tx.findings = a.tx.findings
  policy : b.tx.policy = a.tx.policy
  snapshot : b.tx.snapshot = a.tx.snapshot

section
variable (pr : Processor) (w : World) (phase : Audit.Phase) (d : Decision) (st : Exec)

theorem auditedDecisions_events (ds : List Decision) (es : List Effect) :
    (es ++ ds.map fun f => Effect.audited (pr.event st.tx phase f)).filterMap auditedDecision =
        es.filterMap auditedDecision ++ ds ∧
      (es ++ ds.map fun f => Effect.audited (pr.event st.tx phase f)).flatMap clearedFindings =
        es.flatMap clearedFindings := by
  have hdecision : ∀ f, auditedDecision (.audited (pr.event st.tx phase f)) = some f := fun _ => rfl
  constructor
  · rw [List.filterMap_append, List.filterMap_map]
    simp [hdecision]
  · rw [List.flatMap_append, List.flatMap_map]
    simp [clearedFindings]

theorem emitAudit_auditedAs :
    AuditedAs (audited pr w d st) st (pr.emitAudit w phase d st) := by
  obtain ⟨tick, -, heq⟩ := emitAudit_spec pr w phase d st
  obtain ⟨hdec, hpast⟩ := auditedDecisions_events pr phase st (audited pr w d st) st.log
  rw [heq]
  exact ⟨hdec, hpast, rfl, rfl, rfl⟩

theorem finish_auditedAs : AuditedAs (audited pr w d st) st (pr.finish w phase d st) := by
  obtain ⟨hdec, hpast⟩ := auditedDecisions_events pr phase st (audited pr w d st)
    (st.log ++ [.finished phase d])
  have hlog : (pr.finish w phase d st).log = st.log ++ [.finished phase d] ++
      (audited pr w d st).map fun f => .audited (pr.event st.tx phase f) := by
    rw [finish_log, List.append_assoc]
    rfl
  rw [← hlog] at hdec hpast
  refine ⟨?_, ?_, finish_keeps Transaction.findings (fun _ => rfl) .., finish_keeps
    Transaction.policy (fun _ => rfl) .., finish_keeps Transaction.snapshot (fun _ => rfl) ..⟩
  · rw [auditedDecisions, hdec]
    simp [auditedDecisions, auditedDecision]
  · rw [pastFindings, hpast]
    simp [pastFindings, clearedFindings]

/-- What is emitted between the phases of a direction. -/
theorem headerFindings_auditedAs :
    AuditedAs (if d.isFinding then audited pr w d st else []) st
      (headerFindings pr w phase d st) := by
  unfold headerFindings
  by_cases hd : d.isFinding = true
  · rw [if_pos hd, if_pos (Decision.isFinding_iff.mp hd)]
    exact emitAudit_auditedAs pr w phase d st
  · rw [if_neg hd, if_neg (fun h => hd (Decision.isFinding_iff.mpr h))]
    exact ⟨by simp, rfl, rfl, rfl, rfl⟩

end

/-! ## The findings of a prelude -/

section
variable [Library] {deps : Deps} {w : World} {ctx : Ctx}

omit [Library] in
/-- A stage of a prelude that always continues leaves no finding. -/
theorem stageStep_continues {s : Stage} (hs : Within Resolving s)
    (hc : ∀ w ctx st, (s.process w ctx st).1 = some .continue_) {a st : Exec}
    (h : Running Resolving a st ∧ st.tx.findings = []) :
    After (fun t => Running Resolving a t ∧ t.tx.findings = []) (fun _ t => t.tx.findings = [])
      (stageStep w ctx s st) := by
  have hrun : After (Running Resolving a) (Ended Resolving a) (stageStep w ctx s st) :=
    stageStep_spec resolving_executes hs h.1
  refine (hrun.and (stageStep_findings hs h.2)).imp ?_ (fun _ _ => And.right)
  rintro t ⟨ht, hempty | ⟨-, d, hd, -⟩⟩
  · exact ⟨ht, hempty⟩
  · rw [hc] at hd
    cases hd

theorem contextInit_continues (w : World) (ctx : Ctx) (st : Exec) (hops : Int) :
    ((contextInit hops).process w ctx st).1 = some .continue_ := rfl

theorem policyResolve_continues (w : World) (ctx : Ctx) (st : Exec) :
    (policyResolve.process w ctx st).1 = some .continue_ := by
  unfold policyResolve
  dsimp only
  split <;> rfl

/-- Where the hosts agree, a deny of the early decision comes with a policy that enforces it. -/
theorem earlyDecision_deny {defaultAllow : Bool} {st : Exec} {d : Decision}
    (hm : hostMismatch st.tx.headers = false)
    (h : ((earlyDecision defaultAllow).process w ctx st).1 = some (.deny d)) :
    ((earlyDecision defaultAllow).process w ctx st).2.tx.policy = some denyAll := by
  unfold earlyDecision at h ⊢
  dsimp only at h ⊢
  rw [hm] at h ⊢
  rw [if_neg (by simp)] at h ⊢
  split at h
  next hp =>
    split at h
    · cases h
    next hdeny => simp [hdeny]
  next p hp =>
    split at h
    · cases h
    · cases h

/-- The findings of the request prelude: its one finding is recorded by its last stage, which
ends neither in a block nor under a blocking policy then. -/
theorem requestPrelude_findings (deps : Deps) (w : World) (ctx : Ctx) (st : Exec) :
    let r := (requestPrelude deps).run w ctx st
    (r.1.isBlock = true ∨ r.2.tx.policy.any CompiledPolicy.blocking = true ∨
      hostMismatch st.tx.headers = false) → r.2.tx.findings = [] := by
  let Q : Decision → Exec → Prop := fun d t =>
    (d.isBlock = true ∨ t.tx.policy.any CompiledPolicy.blocking = true ∨
      hostMismatch st.tx.headers = false) → t.tx.findings = []
  have hstart : Running Resolving ((requestPrelude deps).start st) ((requestPrelude deps).start st) ∧
      ((requestPrelude deps).start st).tx.findings = [] := ⟨⟨resolving_executes.refl _, rfl⟩, rfl⟩
  show Q (chain _ _ [_, _, _] _).1 (chain _ _ [_, _, _] _).2
  refine chain_cons_rule ((stageStep_continues (contextInit_within _)
    (fun w ctx st => contextInit_continues w ctx st _) hstart).imp (fun _ => id)
    (fun _ _ h _ => h)) ?_
  intro a ha
  refine chain_cons_rule ((stageStep_continues policyResolve_within policyResolve_continues ha).imp
    (fun _ => id) (fun _ _ h _ => h)) ?_
  rintro b ⟨hb, hbf⟩
  have hrun : After (Running Resolving ((requestPrelude deps).start st))
      (Ended Resolving ((requestPrelude deps).start st))
      (stageStep w ctx (earlyDecision deps.defaultAllow) b) :=
    stageStep_spec resolving_executes (earlyDecision_within _) hb
  refine chain_cons_rule (I := fun t : Exec => Q t.tx.result t)
    ((hrun.and (stageStep_findings (earlyDecision_within _) hbf)).imp ?_ (fun _ _ h _ => h.2))
    (fun t ht => ht)
  rintro t ⟨ht, hempty | ⟨hpolicy, d, hd, hsame⟩⟩ hor
  · exact hempty
  · rcases hor with hblock | hblock | hm
    · rw [ht.result] at hblock
      cases hblock
    · rw [hpolicy] at hblock
      cases hblock
    · have hheaders : b.tx.headers = st.tx.headers := hb.rel.headers
      rw [hsame, earlyDecision_deny (by exact hheaders ▸ hm) hd] at hpolicy
      cases hpolicy

theorem responsePrelude_findings (deps : Deps) (w : World) (ctx : Ctx) (st : Exec) :
    ((responsePrelude deps).run w ctx st).2.tx.findings = [] := by
  have hstart : Running Resolving ((responsePrelude deps).start st)
      ((responsePrelude deps).start st) ∧ ((responsePrelude deps).start st).tx.findings = [] :=
    ⟨⟨resolving_executes.refl _, rfl⟩, rfl⟩
  refine chain_rule (Q := fun _ (t : Exec) => t.tx.findings = []) ?_ (fun _ => And.right) hstart
  intro s hs t ht
  obtain rfl := List.mem_singleton.mp hs
  exact stageStep_continues (contextInit_within _)
    (fun w ctx st => contextInit_continues w ctx st _) ht

end

/-! ## Every finding is audited once -/

section
variable [Library] {pr : Processor} {w : World} {a b : Exec} {d : Decision}

/-- The findings are audited as they were recorded, and none is left for a phase that has no
pipeline to clear it. -/
structure Accounted (pr : Processor) (st : Exec) : Prop where
  audited : auditedFindings st = recordedFindings st
  unbuilt : ∀ p e, st.tx.policy = some p → pr.policyPipelines p = .error e → st.tx.findings = []

/-- A run has ended with the decision `d`: all but its own findings are audited. -/
structure Outstanding (pr : Processor) (d : Decision) (st : Exec) : Prop where
  audited : auditedFindings st = pastFindings st
  reported : Reported d st.tx
  unbuilt : ∀ p e, st.tx.policy = some p → pr.policyPipelines p = .error e → st.tx.findings = []

omit [Library] in
theorem audited_mem {f : Decision} (h : f ∈ audited pr w d a) : f ∈ a.tx.findings ∨ f = d := by
  unfold audited at h
  split at h
  · cases h
  split at h
  · exact .inl h
  split at h
  · exact .inr (List.mem_singleton.mp h)
  split at h
  · exact .inr (List.mem_singleton.mp h)
  · cases h

omit [Library] in
/-- An audit emits the findings and nothing that looks like one. -/
theorem audited_isFinding (haud : pr.auditor = true) (h : Reported d a.tx) :
    (audited pr w d a).filter Decision.isFinding = a.tx.findings := by
  unfold audited
  rw [haud, if_neg (by simp)]
  by_cases hf : a.tx.findings = []
  · have hd := h.none hf
    rw [if_neg (by simp [hf]), hf]
    split
    · simp [hd]
    · split <;> simp [hd]
  · rw [if_pos hf, List.filter_eq_self]
    exact h.findings

theorem Outstanding.accounted {ds : List Decision} (h : Outstanding pr d a) (hb : AuditedAs ds a b)
    (hds : ds.filter Decision.isFinding = a.tx.findings) : Accounted pr b := by
  refine ⟨?_, ?_⟩
  · rw [auditedFindings, hb.decisions, List.filter_append, hds, recordedFindings, hb.past, hb.findings,
      ← h.audited, auditedFindings]
  · rw [hb.policy, hb.findings]
    exact h.unbuilt

omit [Library] in
/-- The start of a run leaves only the findings of the run to be audited. -/
theorem auditedFindings_run {p : Pipeline} (hrun : b.outer = (p.start a).outer)
    (h : auditedFindings a = recordedFindings a) : auditedFindings b = pastFindings b := by
  rw [auditedFindings, auditedDecisions_outer hrun, auditedDecisions_start, pastFindings_outer hrun,
    pastFindings_start, ← h, auditedFindings]

theorem Inspected.outstanding {p : CompiledPolicy} {phase : Audit.Phase} (ha : Accounted pr a)
    (hp : a.tx.policy = some p) (h : Inspected pr w p phase a d b) : Outstanding pr d b := by
  cases h with
  | unbuilt e build decision state =>
    subst decision state
    have hnone := ha.unbuilt p e hp build
    refine ⟨?_, ⟨by simp [hnone], fun _ => ?_, fun h => absurd hnone h⟩, ha.unbuilt⟩
    · rw [ha.audited, recordedFindings, hnone, List.append_nil]
    · unfold Processor.buildFailed
      split <;> rfl
  | ran pp build run =>
    have hstages := phasePipeline_inspector build phase
    have hrel := (run_spec frame_executes hstages w (Processor.inspectCtx w a) a).rel
    have hreported := run_reported hstages w (Processor.inspectCtx w a) a
    rw [← Processor.runInspect, run] at hrel hreported
    refine ⟨auditedFindings_run hrel.outer ha.audited, hreported, ?_⟩
    intro q e hq hbuild
    obtain rfl := Option.some.inj ((hrel.policy.trans hp).symm.trans hq)
    cases build.symm.trans hbuild

/-- The rule of handlers for the audit of findings. -/
theorem accounted_phased (haud : pr.auditor = true) (w : World) :
    Phased pr w (fun h => hostMismatch (loadHeaders h.headers) = false) (Accounted pr)
      (Accounted pr) (Accounted pr) (Outstanding pr) where
  received st attributes hst := ⟨hst.audited, hst.unbuilt⟩
  request st h hst hset hm d t hrun := by
    obtain ⟨requestID, htx⟩ := loadRequest_spec w h st
    have hload : auditedFindings (Processor.loadRequest w h st) =
        recordedFindings (Processor.loadRequest w h st) := by
      rw [auditedFindings, auditedDecisions, loadRequest_log, recordedFindings, pastFindings,
        loadRequest_log, htx]
      exact hst.audited
    have hrel := (requestPrelude_spec pr.deps w w.ctx (Processor.loadRequest w h st)).rel
    have hreported := run_reported (requestPrelude_within pr.deps) w w.ctx
      (Processor.loadRequest w h st)
    have hnone := requestPrelude_findings pr.deps w w.ctx (Processor.loadRequest w h st)
      (.inr (.inr (by rw [htx]; exact hm)))
    rw [← preludeOf, hrun] at hrel hreported hnone
    have hpast := auditedFindings_run hrel.outer hload
    refine ⟨⟨hpast, hreported, fun _ _ _ _ => hnone⟩, ⟨?_, fun _ _ _ _ => hnone⟩⟩
    rw [hpast, recordedFindings, hnone, List.append_nil]
  response st h hst d t hrun := by
    have hload : auditedFindings (loadResponse h st) = recordedFindings (loadResponse h st) := by
      obtain ⟨reserved, log, hbegin, hlog⟩ := beginResponse_spec st
      have houter : (loadResponse h st).outer = st.outer := by
        rw [loadResponse, hbegin]
        exact hlog
      rw [auditedFindings, auditedDecisions_outer houter, recordedFindings, pastFindings_outer houter]
      rw [loadResponse, hbegin]
      exact hst.audited
    have hrel := (responsePrelude_spec pr.deps w w.ctx (loadResponse h st)).rel
    have hreported := run_reported (responsePrelude_within pr.deps) w w.ctx (loadResponse h st)
    have hnone := responsePrelude_findings pr.deps w w.ctx (loadResponse h st)
    rw [hrun] at hrel hreported hnone
    have hpast := auditedFindings_run hrel.outer hload
    refine ⟨⟨hpast, hreported, fun _ _ _ _ => hnone⟩, ⟨?_, fun _ _ _ _ => hnone⟩⟩
    rw [hpast, recordedFindings, hnone, List.append_nil]
  body st p hst _ := ⟨hst.audited, hst.unbuilt⟩
  phase p phase a d t ha hp _ h := h.outstanding ha hp
  passed phase d t ht hpass := by
    refine ht.accounted (headerFindings_auditedAs pr w phase d t) ?_
    split
    · exact audited_isFinding haud ht.reported
    next hd =>
      by_contra hsome
      rcases ht.reported.some (fun h => hsome (by rw [h]; rfl)) with hblock | hfinding
      · rw [hpass] at hblock
        cases hblock
      · exact hd hfinding
  buffered dir chunk st hst := by
    obtain ⟨body, truncated, reserved, tick, log, heq, hlog, -⟩ := buffered_spec pr w dir chunk st
    have houter : (buffered pr w dir chunk st).outer = st.outer := by
      rw [heq]
      exact hlog
    refine ⟨?_, ?_⟩
    · rw [auditedFindings, auditedDecisions_outer houter, recordedFindings, pastFindings_outer houter]
      rw [heq]
      exact hst.audited
    · rw [heq]
      exact hst.unbuilt
  finish phase d t ht :=
    ht.accounted (finish_auditedAs pr w phase d t) (audited_isFinding haud ht.reported)
  done _ hst := hst

/-- On a stream whose requests have hosts that agree, the findings of all runs have been audited
after every message, each once and in the order they were recorded. -/
theorem findings_audited_once (pr : Processor) (w : World) (snap : Snapshot) (msgs : List Message)
    (haud : pr.auditor = true)
    (hagree : ∀ attributes h, Message.requestHeaders attributes h ∈ msgs →
      hostMismatch (loadHeaders h.headers) = false) :
    auditedFindings (runFrom (pr.handle w) (pr.newStream snap) msgs) =
      recordedFindings (runFrom (pr.handle w) (pr.newStream snap) msgs) := by
  have hstart : Accounted pr (pr.newStream snap) := ⟨rfl, fun _ _ _ _ => rfl⟩
  refine (runFrom_invariant (I := Accounted pr) ?_ hstart).audited
  intro msg hmsg st hst
  refine ((accounted_phased haud w).handle hst ?_).1
  rintro attributes h rfl
  exact hagree attributes h hmsg

end

/-- A processor with an auditor. -/
def auditingProcessor : Processor := newProcessor { defaultAllow := true } true [] [] 0

/-- A detect-mode policy that forbids a header. -/
def forbiddingPolicy (engines : List SecurityEngine) : CompiledPolicy where
  id := ascii "forbidding"
  mode := .detect
  failMode := .failClose
  checks := { forbiddenHeaders := [ascii "x-debug"] }
  engines := some ⟨engines⟩

/-- A request with the forbidden header. -/
def debugRequest : HttpHeaders :=
  getRequest [authority (ascii "a.example"), ⟨ascii "x-debug", ascii "1", []⟩]

/-- The finding of the forbidden header, as it is recorded. -/
def forbiddenFinding : Decision where
  action := .detect
  reason := ascii "forbidden header present: x-debug"
  ruleID := ascii "header.forbidden"
  policyID := ascii "forbidding"
  engine := builtinEngine
  severity := .high
  statusCode := 403

theorem forbidden_header_audited_once :
    let _ := Library.nothing
    let st := runFrom (auditingProcessor.handle World.quiet)
      (auditingProcessor.newStream (catchAllSnapshot (forbiddingPolicy [])))
      [.requestHeaders [] debugRequest, .responseHeaders { endOfStream := true }]
    auditedFindings st = [forbiddenFinding] := by
  intro lib st
  have hagree : ∀ attributes h, Message.requestHeaders attributes h ∈
      [.requestHeaders [] debugRequest, .responseHeaders { endOfStream := true }] →
        hostMismatch (loadHeaders h.headers) = false := by
    intro attributes h hmem
    obtain ⟨-, rfl⟩ : attributes = [] ∧ h = debugRequest := by simpa using hmem
    decide +kernel
  rw [findings_audited_once _ _ _ _ rfl hagree]
  decide +kernel

/-- The finding of the host gate is cleared by the header phase before anything audits it. -/
theorem host_mismatch_is_not_audited :
    let _ := Library.nothing
    let h := getRequest [authority (ascii "a.example"), hostHeader (ascii "b.example")]
    let st := runFrom (auditingProcessor.handle World.quiet)
      (auditingProcessor.newStream (catchAllSnapshot (forbiddingPolicy [])))
      [.requestHeaders [] h, .responseHeaders { endOfStream := true }]
    (recordedFindings st).map Decision.ruleID = [ascii "header.host_mismatch"] ∧
      auditedFindings st = [] := by
  intro lib h st
  exact ⟨by decide +kernel, by decide +kernel⟩

/-! ## Every enforced block is audited -/

/-- A policy under which no run both records a finding and ends in a block: one that blocks, or
fails open, or is off. -/
def Consistent (p : CompiledPolicy) : Prop :=
  p.enforcing = true → p.blocking = true ∨ p.failOpen = true

section
variable [Library] {pr : Processor} {w : World} {snap : Snapshot} {a b st : Exec} {d : Decision}
  {blocks : List Decision}

/-- The policies a request can be given are consistent. -/
def ConsistentPolicies (snap : Snapshot) : Prop :=
  ∀ input p, (snap.resolver.getD {}).resolve input = some p → Consistent p

theorem ConsistentPolicies.provided (h : ConsistentPolicies snap) {p : CompiledPolicy}
    (hp : Provided snap p) : Consistent p := by
  rcases hp with rfl | rfl | ⟨input, hp⟩
  · exact fun _ => .inl rfl
  · exact fun henf => (nomatch henf)
  · exact h input p hp

/-- A stream on which a policy that blocks has nothing recorded. -/
structure Decisive (snap : Snapshot) (st : Exec) : Prop where
  governed : Governed snap st.tx
  findings : st.tx.policy.any CompiledPolicy.blocking = true → st.tx.findings = []

/-- A decisive stream whose audited blocks are `blocks`. -/
structure Blocks (snap : Snapshot) (blocks : List Decision) (st : Exec) : Prop where
  decisive : Decisive snap st
  audited : auditedBlocks st = blocks

/-- A run has ended with the decision `d`, which is not audited yet. -/
structure Deciding (snap : Snapshot) (blocks : List Decision) (d : Decision) (st : Exec) : Prop where
  blocks : Blocks snap blocks st
  block : d.isBlock = true → st.tx.findings = []
  reported : d.isFinding = true → ∀ f ∈ st.tx.findings, f.isFinding = true

omit [Library] in
theorem auditedBlocks_run {p : Pipeline} (hrun : b.outer = (p.start a).outer) :
    auditedBlocks b = auditedBlocks a := by
  rw [auditedBlocks, auditedDecisions_outer hrun, auditedDecisions_start, auditedBlocks]

theorem Inspected.deciding {p : CompiledPolicy} {phase : Audit.Phase}
    (hsnap : ConsistentPolicies snap) (ha : Blocks snap blocks a) (hp : a.tx.policy = some p)
    (henf : p.enforcing = true) (h : Inspected pr w p phase a d b) :
    Deciding snap blocks d b := by
  have hinsp := h.inspection
  have hpolicy := hinsp.policy
  -- a consistent policy under which a run blocks is a blocking one
  have hblocking : d.isBlock = true → a.tx.policy.any CompiledPolicy.blocking = true := by
    intro hd
    obtain ⟨q, hq, hstrict⟩ := hinsp.strict hd
    rw [hpolicy, hp] at hq
    obtain rfl := Option.some.inj hq
    rcases hstrict with hblock | hclosed
    · rw [hp]
      exact hblock
    · rcases hsnap.provided (ha.decisive.governed.provided p hp) henf with hblock | hopen
      · rw [hp]
        exact hblock
      · rw [hopen] at hclosed
        cases hclosed
  cases h with
  | unbuilt e build decision state =>
    subst decision state
    refine ⟨ha, fun hd => ha.decisive.findings (hblocking hd), ?_⟩
    intro hd
    unfold Processor.buildFailed at hd
    split at hd <;> cases hd
  | ran pp build run =>
    have hstages := phasePipeline_inspector build phase
    have hrel := (run_spec frame_executes hstages w (Processor.inspectCtx w a) a).rel
    have hreported := run_reported hstages w (Processor.inspectCtx w a) a
    have hnone := run_findings_blocking hstages w (Processor.inspectCtx w a) a
    rw [← Processor.runInspect, run] at hrel hreported hnone
    have hpinned : b.tx.snapshot = a.tx.snapshot := (congrArg Transaction.snapshot hrel.pinned :)
    refine ⟨⟨⟨ha.decisive.governed.of_eq hpinned hpolicy, ?_⟩, ?_⟩, fun hd => hnone (hblocking hd), ?_⟩
    · rw [hpolicy]
      exact hnone
    · rw [auditedBlocks_run hrel.outer, ha.audited]
    · exact fun _ => hreported.findings

theorem Decisive.auditedAs {ds : List Decision} (h : Decisive snap a) (hb : AuditedAs ds a b) :
    Decisive snap b := by
  refine ⟨h.governed.of_eq hb.snapshot hb.policy, ?_⟩
  rw [hb.policy, hb.findings]
  exact h.findings

/-- The rule of handlers for the audit of blocks. -/
theorem blocks_phased (hsnap : ConsistentPolicies snap) (pr : Processor) (w : World)
    (blocks : List Decision) :
    Phased pr w (fun _ => True) (Blocks snap blocks) (Blocks snap blocks) (Decisive snap)
      (Deciding snap blocks) where
  received st attributes hst := ⟨⟨hst.decisive.governed.of_eq rfl rfl, hst.decisive.findings⟩,
    hst.audited⟩
  request st h hst hset _ d t hrun := by
    obtain ⟨requestID, htx⟩ := loadRequest_spec w h st
    have hload : Governed snap (Processor.loadRequest w h st).tx := by
      rw [htx]
      exact hst.decisive.governed.of_eq rfl rfl
    have hgov := requestPrelude_governed pr.deps w w.ctx hload
    have hrel := (requestPrelude_spec pr.deps w w.ctx (Processor.loadRequest w h st)).rel
    have hreported := run_reported (requestPrelude_within pr.deps) w w.ctx
      (Processor.loadRequest w h st)
    have hnone := requestPrelude_findings pr.deps w w.ctx (Processor.loadRequest w h st)
    dsimp only at hnone
    rw [← preludeOf, hrun] at hrel hreported hnone hgov
    have haudited : auditedBlocks t = blocks := by
      rw [auditedBlocks_run hrel.outer, ← hst.audited, auditedBlocks, auditedDecisions,
        loadRequest_log]
      rfl
    have hblocks : Blocks snap blocks t :=
      ⟨⟨hgov, fun hb => hnone (.inr (.inl hb))⟩, haudited⟩
    exact ⟨⟨hblocks, fun hd => hnone (.inl hd), fun _ => hreported.findings⟩, hblocks⟩
  response st h hst d t hrun := by
    obtain ⟨reserved, log, hbegin, hlog⟩ := beginResponse_spec st
    have houter : (loadResponse h st).outer = st.outer := by
      rw [loadResponse, hbegin]
      exact hlog
    have hload : Governed snap (loadResponse h st).tx := by
      rw [loadResponse, hbegin]
      exact hst.decisive.governed.of_eq rfl rfl
    have hrel := (responsePrelude_spec pr.deps w w.ctx (loadResponse h st)).rel
    have hpolicy := responsePrelude_policy pr.deps w w.ctx (loadResponse h st)
    have hnone := responsePrelude_findings pr.deps w w.ctx (loadResponse h st)
    rw [hrun] at hrel hpolicy hnone
    dsimp only at hnone
    have haudited : auditedBlocks t = blocks := by
      rw [auditedBlocks_run hrel.outer, auditedBlocks, auditedDecisions_outer houter, ← hst.audited,
        auditedBlocks]
    have hblocks : Blocks snap blocks t :=
      ⟨⟨hload.of_eq hrel.snapshot hpolicy, fun _ => hnone⟩, haudited⟩
    exact ⟨⟨hblocks, fun _ => hnone, fun _ f hf => by rw [hnone] at hf; cases hf⟩, hblocks⟩
  body st p hst _ := ⟨⟨hst.decisive.governed.of_eq rfl rfl, hst.decisive.findings⟩, hst.audited⟩
  phase p phase a d t ha hp henf h := h.deciding hsnap ha hp henf
  passed phase d t ht hpass := by
    have has := headerFindings_auditedAs pr w phase d t
    refine ⟨ht.blocks.decisive.auditedAs has, ?_⟩
    rw [auditedBlocks, has.decisions, List.filter_append, ← auditedBlocks, ht.blocks.audited]
    -- nothing that is emitted between two phases is a block
    have hnone : ∀ f ∈ (if d.isFinding then audited pr w d t else []), f.isBlock = false := by
      intro f hf
      by_cases hd : d.isFinding = true
      · rw [if_pos hd] at hf
        rcases audited_mem hf with hmem | rfl
        · by_contra hblock
          have hfinding := ht.reported hd f hmem
          rw [Decision.isFinding_of_isBlock (by simpa using hblock)] at hfinding
          cases hfinding
        · exact hpass
      · rw [if_neg hd] at hf
        cases hf
    rw [List.filter_eq_nil_iff.mpr (fun f hf => by simp [hnone f hf]), List.append_nil]
  buffered dir chunk st hst := by
    obtain ⟨body, truncated, reserved, tick, log, heq, hlog, -⟩ := buffered_spec pr w dir chunk st
    have houter : (buffered pr w dir chunk st).outer = st.outer := by
      rw [heq]
      exact hlog
    refine ⟨?_, ?_⟩
    · rw [heq]
      exact ⟨hst.decisive.governed.of_eq rfl rfl, hst.decisive.findings⟩
    · rw [auditedBlocks, auditedDecisions_outer houter]
      exact hst.audited
  finish phase d t ht := ht.blocks.decisive.auditedAs (finish_auditedAs pr w phase d t)
  done _ hst := hst.decisive

theorem newStream_decisive (pr : Processor) (snap : Snapshot) : Decisive snap (pr.newStream snap) :=
  ⟨newStream_governed pr snap, fun _ => rfl⟩

/-- On a stream whose policies are consistent, each immediate response comes with one audited
block, and that block has the reason the response gives. -/
theorem blocks_audited (pr : Processor) (w : World) (snap : Snapshot) (msgs : List Message)
    (haud : pr.auditor = true) (hsnap : ConsistentPolicies snap) :
    ∀ e ∈ trace (pr.handle w) (pr.newStream snap) msgs, ∀ r, e.output = some (.immediate r) →
      ∃ d, auditedBlocks e.after = auditedBlocks e.before ++ [d] ∧ d.reason = r.details := by
  refine trace_invariant (C := fun _ => True) (I := Decisive snap) ?_ (newStream_decisive pr snap)
    (fun _ _ => trivial)
  intro st msg hst _
  obtain ⟨hK, hreply⟩ := (blocks_phased hsnap pr w (auditedBlocks st)).handle ⟨hst, rfl⟩
    (fun _ _ (_ : msg = _) => trivial)
  refine ⟨?_, hK⟩
  intro r hr
  obtain ⟨phase, d, t, hd, hblock, hreason, heq⟩ := hreply (.immediate r) hr r rfl
  refine ⟨d, ?_, hreason.symm⟩
  have haction : d.action = .block := by simpa [Decision.isBlock] using hblock
  have hone : audited pr w d t = [d] := by
    simp [audited, haud, hd.block hblock, haction]
  show auditedBlocks (pr.handle w st msg).2 = _
  rw [heq, auditedBlocks, (finish_auditedAs pr w phase d t).decisions, List.filter_append, hone,
    ← auditedBlocks, hd.blocks.audited, List.filter_cons_of_pos hblock, List.filter_nil]
  rfl

end

/-- An engine that fails on every request. -/
def failingEngine : SecurityEngine where
  name := ascii "failing"
  requiresBody := false
  inspectsResponse := false
  inspect _ _ := .error (ascii "unavailable")

/-- A finding and then a failed engine under a policy that detects and fails closed: the request
is blocked, and the audit has only the finding. -/
theorem failed_engine_block_is_not_audited :
    let _ := Library.nothing
    let r := auditingProcessor.handle World.quiet
      (auditingProcessor.newStream (catchAllSnapshot (forbiddingPolicy [failingEngine])))
      (.requestHeaders [] debugRequest)
    r.1 = some (immediateResponse (failPosture { policy := some (forbiddingPolicy []) } false)) ∧
      auditedDecisions r.2 = [forbiddenFinding] := by
  intro lib r
  exact ⟨by decide +kernel, by decide +kernel⟩

/-- The same under a policy that blocks: the finding is the block, and it is audited. -/
theorem forbidden_header_block_is_audited :
    let _ := Library.nothing
    let snap := catchAllSnapshot { forbiddingPolicy [failingEngine] with mode := .block }
    ∀ e ∈ trace (auditingProcessor.handle World.quiet) (auditingProcessor.newStream snap)
      [.requestHeaders [] debugRequest],
      ∃ r d, e.output = some (.immediate r) ∧ auditedBlocks e.after = [d] ∧ d.reason = r.details := by
  intro lib snap e he
  have hsnap : ConsistentPolicies snap := by
    intro input p hp
    obtain rfl : { forbiddingPolicy [failingEngine] with mode := .block } = p :=
      Option.some.inj ((catchAllSnapshot_resolve _ input).symm.trans hp)
    exact fun _ => .inl rfl
  have hall := blocks_audited auditingProcessor World.quiet snap
    [.requestHeaders [] debugRequest] rfl hsnap e he
  obtain rfl := List.mem_singleton.mp he
  have hreply : (auditingProcessor.handle World.quiet (auditingProcessor.newStream snap)
      (.requestHeaders [] debugRequest)).1.any ProcessingResponse.isImmediate = true := by
    decide +kernel
  obtain ⟨reply, hsome, himm⟩ := (Option.any_eq_true _ _).mp hreply
  cases reply with
  | immediate r =>
    obtain ⟨d, haudited, hreason⟩ := hall r hsome
    exact ⟨r, d, hsome, haudited, hreason⟩
  | headers dir mode => cases himm
  | body dir r => cases himm
  | trailers dir => cases himm

end ElchiShield.Extproc
