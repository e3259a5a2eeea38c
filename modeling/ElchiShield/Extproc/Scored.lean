import ElchiShield.Extproc.BodyPhase
import ElchiShield.Stages.Scoring

/-! # The anomaly score of a direction

A direction starts without a score. Its header pipeline is run once and its body pipeline for every
inspection of the body; what the processor does in between leaves the score alone. -/
namespace ElchiShield.Extproc
open ElchiShield.Go ElchiShield.Lib ElchiShield.Engine ElchiShield.Policy ElchiShield.Runtime
open ElchiShield.Pipeline ElchiShield.Stages

section
variable [Library]

/-- The state in which the header pipeline of a direction is run, behind the prelude. -/
inductive Begun (pr : Processor) (w : World) : Direction → Exec → Prop where
  | request (snap : Snapshot) (attributes : List Bytes) (h : HttpHeaders) :
      Begun pr w .request (preludeOf pr w h (received attributes (pr.newStream snap))).2
  | response (st : Exec) (h : HttpHeaders) :
      Begun pr w .response ((responsePrelude pr.deps).run w w.ctx (loadResponse h st)).2

/-- The passes of the engines in a direction, from its beginning in `t` to a state. -/
inductive DirectionPasses (pr : Processor) (w : World) (dir : Direction) (pp : PolicyPipelines)
    (t : Exec) : List Pass → Exec → Prop where
  | headers {d : Decision} {u : Exec} (run : Processor.runInspect w (pp.header dir) t = (d, u)) :
      DirectionPasses pr w dir pp t
        (pipelinePasses w (Processor.inspectCtx w t) (pp.header dir) t)
        (headerFindings pr w (Audit.headersPhase dir) d u)
  | body {passes : List Pass} {a v u : Exec} {d : Decision}
      (before : DirectionPasses pr w dir pp t passes a) (chunks : Buffering pr w dir a v)
      (run : Processor.runInspect w (pp.body dir) (latched v) = (d, u)) :
      DirectionPasses pr w dir pp t
        (passes ++
          pipelinePasses w (Processor.inspectCtx w (latched v)) (pp.body dir) (latched v))
        (pr.finish w (Audit.bodyPhase dir) d u)

section
variable {pr : Processor} {w : World} {dir : Direction} {p : CompiledPolicy} {pp : PolicyPipelines}
  {t u : Exec} {passes : List Pass}

theorem Begun.fresh (h : Begun pr w dir t) :
    t.tx.anomalyScore = 0 ∧ t.tx.anomalyDenied = false := by
  cases h with
  | request snap attributes h =>
    have hrel := (requestPrelude_spec pr.deps w w.ctx
      (Processor.loadRequest w h (received attributes (pr.newStream snap)))).rel
    obtain ⟨requestID, hload⟩ := loadRequest_spec w h (received attributes (pr.newStream snap))
    exact ⟨(congrArg Transaction.anomalyScore hrel.unresolved :).trans
        (congrArg Transaction.anomalyScore hload),
      (congrArg Transaction.anomalyDenied hrel.unresolved :).trans
        (congrArg Transaction.anomalyDenied hload)⟩
  | response st h =>
    have hrel := (responsePrelude_spec pr.deps w w.ctx (loadResponse h st)).rel
    obtain ⟨reserved, log, hbegin, -⟩ := beginResponse_spec st
    have hload : (loadResponse h st).tx.anomalyScore = 0 ∧
        (loadResponse h st).tx.anomalyDenied = false := by
      unfold loadResponse
      rw [hbegin]
      exact ⟨rfl, rfl⟩
    exact ⟨(congrArg Transaction.anomalyScore hrel.unresolved :).trans hload.1,
      (congrArg Transaction.anomalyDenied hrel.unresolved :).trans hload.2⟩

omit [Library] in
theorem Buffering.sameScore (h : Buffering pr w dir t u) : SameScore t u := by
  refine h.induct (I := SameScore t) ?_ (.refl t)
  intro s chunk hs
  obtain ⟨_, _, _, _, _, heq, -⟩ := buffered_spec pr w dir chunk s
  rw [heq]
  exact ⟨hs.policy, hs.score, hs.denied⟩

/-- Between its passes a direction leaves the score alone. -/
theorem DirectionPasses.carries (h : DirectionPasses pr w dir pp t passes u)
    (hpp : pr.policyPipelines p = .ok pp) : Carries t passes u := by
  obtain ⟨hheader, hbody⟩ := buildPolicyPipelines_spec hpp dir
  induction h with
  | @headers d u run =>
    have hcarries := hheader.carries w (Processor.inspectCtx w t) t
    rw [← Processor.runInspect, run] at hcarries
    have htx := (headerFindings_noted pr w (Audit.headersPhase dir) d u).tx
    exact hcarries.before ⟨by rw [htx], by rw [htx], by rw [htx]⟩
  | @body passes a v u d before chunks run ih =>
    have hcarries := hbody.carries w (Processor.inspectCtx w (latched v)) (latched v)
    rw [← Processor.runInspect, run] at hcarries
    have hlatched : SameScore v (latched v) := ⟨rfl, rfl, rfl⟩
    have hfinish : SameScore u (pr.finish w (Audit.bodyPhase dir) d u) :=
      ⟨finish_keeps Transaction.policy (fun _ => rfl) .., finish_keeps Transaction.anomalyScore
        (fun _ => rfl) .., finish_keeps Transaction.anomalyDenied (fun _ => rfl) ..⟩
    exact ih.append ((hcarries.before hfinish).after (chunks.sameScore.trans hlatched))

end

/-- Each engine is evaluated in one of the phases. The aggregate of a phase is a matter of its
verdicts, in any order. Over the two stages of a direction a deny is a block of an engine or a
score that reaches the threshold; the threshold is reported once. Both hold of all the passes that
the pipelines of a direction make, however often its body is inspected. -/
theorem scoring_order_independent (s : EngineSet) (ctx : Ctx) (hctx : ∀ t, ctx t = false) :
    (∀ req req' tick tick', (∀ e ∈ s.engines, Answers req e ∧ Answers req' e) →
      ((evaluated req withHeaders s.engines tick).map Prod.fst ++
        (evaluated req' withBody s.engines tick').map Prod.fst).Perm s.engines) ∧
    (∀ req want tick, (∀ e ∈ s.engines, Answers req e) →
      ∃ v, s.inspect ctx req want tick =
          (some (v, []), tick + 2 * (evaluated req want s.engines tick).length) ∧
        Aggregates (verdicts req want s.engines tick) v ∧
        ∀ (s' : EngineSet) (tick' : Nat), (∀ e ∈ s'.engines, Answers req e) →
          (evaluated req want s'.engines tick').Perm (evaluated req want s.engines tick) →
          ∃ v', (s'.inspect ctx req want tick').1 = some (v', []) ∧
            (v'.action = .block ↔ v.action = .block) ∧ v'.severity = v.severity ∧
            v'.score = v.score) ∧
    (∀ p st st', p.engineSet = s → p.blocking = true → st.tx.policy = some p →
      st.tx.anomalyScore = 0 → st.tx.anomalyDenied = false → StageAnswers p st →
      SameScore (wafStage withHeaders ctx st).2 st' → StageAnswers p st' →
      (Denies (wafStage withHeaders ctx st) ∨ Denies (wafStage withBody ctx st') ↔
        (∃ v ∈ stageVerdicts p withHeaders st ++ stageVerdicts p withBody st',
          v.action = .block) ∨
        Reached p (positiveScore
          (stageVerdicts p withHeaders st ++ stageVerdicts p withBody st')))) ∧
    (∀ passes : List Pass, Pass.Linked passes →
      passes.Pairwise fun a b => ¬ (a.Reports ∧ b.Reports)) ∧
    ∀ (pr : Processor) (w : World) (dir : Direction) (p : CompiledPolicy) (pp : PolicyPipelines)
      (t u : Exec) (passes : List Pass), pr.policyPipelines p = .ok pp → Begun pr w dir t →
      t.tx.policy = some p → DirectionPasses pr w dir pp t passes u →
      (passes.Pairwise fun a b => ¬ (a.Reports ∧ b.Reports)) ∧
      (p.blocking = true → (∀ a ∈ passes, a.Answered p) →
        ((∃ a ∈ passes, a.DeniesAt) ↔
          (∃ v ∈ passes.flatMap (Pass.verdicts p), v.action = .block) ∨
          Reached p (positiveScore (passes.flatMap (Pass.verdicts p))))) := by
  refine ⟨fun req req' tick tick' h => phases_perm h tick tick', fun req want tick h => ?_, ?_,
    fun passes => Pass.reports_once, ?_⟩
  · have hlen : (evaluated req want s.engines tick).length = (s.engines.filter want).length := by
      rw [← evaluated_fst h, List.length_map]
    refine ⟨_, by rw [inspect_eq hctx h, hlen], aggregates_aggregate _, fun s' tick' h' hperm => ?_⟩
    have hverdicts : (verdicts req want s'.engines tick').Perm (verdicts req want s.engines tick) :=
      hperm.map Prod.snd
    exact ⟨_, by rw [inspect_eq hctx h'], aggregate_perm hverdicts⟩
  · rintro p st st' rfl hblock hp hscore hdenied h hsame h'
    exact direction_denies_iff hp (CompiledPolicy.enforcing_of_blocking hblock) hctx hscore hdenied h
      hsame h'
  · intro pr w dir p pp t u passes hpp hbegun hp hpasses
    have hcarries := hpasses.carries hpp
    refine ⟨Pass.reports_once (Pass.linked_of_carries hcarries), fun hblock hanswered => ?_⟩
    obtain ⟨hscore, hdenied⟩ := hbegun.fresh
    have hdenies := hcarries.denies_iff hp (CompiledPolicy.enforcing_of_blocking hblock)
      ⟨hdenied, fun hpos => by omega⟩ hanswered
    rwa [hscore, Int.zero_add] at hdenies

end

/-- An engine that answers every request with the same score. -/
def scorer (score : Int) (requiresBody : Bool) : SecurityEngine where
  name := ascii "bot"
  requiresBody := requiresBody
  inspectsResponse := false
  inspect _ _ := .verdict { score }

/-- A score of 40 for the headers and of 30 for the body, against a threshold of 60. -/
def scoringPolicy : CompiledPolicy :=
  { plainPolicy with
    anomalyThreshold := 60
    engines := some ⟨[scorer 40 false, scorer (-1000) true, scorer 30 true]⟩ }

/-- The pipelines of that policy, which names no order of its own. -/
def scoringPipelines [Library] : PolicyPipelines where
  requestHeader := ⟨ascii "request_header", [fastPreChecks, wafHeaderEngine, bodyGate]⟩
  requestBody := ⟨ascii "request_body",
    [bodyTruncationGuard, bodyContentDecode, bodyChecks none, wafEngine]⟩
  responseHeader := ⟨ascii "response_header", [fastPreChecks, wafHeaderEngine, bodyGate]⟩
  responseBody := ⟨ascii "response_body",
    [bodyTruncationGuard, bodyContentDecode, bodyChecks none, wafEngine]⟩

theorem scoringPolicy_answers (req : Engine.Request) :
    ∀ e ∈ scoringPolicy.engineSet.engines, Answers req e := by
  show ∀ e ∈ [scorer 40 false, scorer (-1000) true, scorer 30 true], Answers req e
  simp only [List.mem_cons, List.not_mem_nil, or_false, forall_eq_or_imp, forall_eq]
  exact ⟨fun _ => ⟨_, rfl⟩, fun _ => ⟨_, rfl⟩, fun _ => ⟨_, rfl⟩⟩

/-- Negative scores do not count, in either order of the engines. The threshold is reached with the
body, in the two stages by themselves and in the pipelines of a request. -/
theorem threshold_reached_with_body :
    let _ := Library.nothing
    let ctx : Ctx := fun _ => false
    let engines := scoringPolicy.engineSet.engines
    let pr := plainProcessor true
    let t := (preludeOf pr World.quiet chunkedRequest.headers
      (received [] (pr.newStream (catchAllSnapshot scoringPolicy)))).2
    let body := (wafStage withHeaders ctx t).2
    ((evaluated (engineRequest t.tx) withHeaders engines 0).map Prod.fst ++
      (evaluated (engineRequest t.tx) withBody engines 0).map Prod.fst).Perm engines ∧
    (∃ v v', scoringPolicy.engineSet.inspect ctx (engineRequest t.tx) (fun _ => true) 0 =
        (some (v, []), 6) ∧
      ((EngineSet.mk engines.reverse).inspect ctx (engineRequest t.tx) (fun _ => true) 0).1 =
        some (v', []) ∧ v.score = 70 ∧ v'.score = 70) ∧
    (Denies (wafStage withHeaders ctx t) ∨ Denies (wafStage withBody ctx body)) ∧
    ([⟨withHeaders, ctx, t⟩, ⟨withBody, ctx, body⟩].Pairwise fun a b : Pass =>
      ¬ (a.Reports ∧ b.Reports)) ∧
    ∃ passes u, pr.policyPipelines scoringPolicy = .ok scoringPipelines ∧
      DirectionPasses pr World.quiet .request scoringPipelines t passes u ∧ passes.length = 2 ∧
      (∃ a ∈ passes, a.DeniesAt) ∧ passes.Pairwise fun a b => ¬ (a.Reports ∧ b.Reports) := by
  intro lib ctx engines pr t body
  obtain ⟨hphases, haggregate, hstages, hreports, hpipelines⟩ :=
    scoring_order_independent scoringPolicy.engineSet ctx fun _ => rfl
  have hp : t.tx.policy = some scoringPolicy := by rfl
  have hbegun : Begun pr World.quiet .request t := .request ..
  refine ⟨hphases _ _ 0 0 fun e he =>
    ⟨scoringPolicy_answers _ e he, scoringPolicy_answers _ e he⟩, ?_, ?_, ?_, ?_⟩
  · obtain ⟨v, hv, hagg, hperm⟩ :=
      haggregate (engineRequest t.tx) (fun _ => true) 0 (scoringPolicy_answers _)
    have hreverse : evaluated (engineRequest t.tx) (fun _ => true) engines.reverse 0 =
        (evaluated (engineRequest t.tx) (fun _ => true) engines 0).reverse := rfl
    obtain ⟨v', hv', -, -, hscore⟩ := hperm ⟨engines.reverse⟩ 0
      (fun e he => scoringPolicy_answers _ e (List.mem_reverse.mp he))
      (hreverse ▸ List.reverse_perm _)
    exact ⟨v, v', hv, hv', hagg.score, hscore.trans hagg.score⟩
  · refine (hstages scoringPolicy t body rfl rfl hp hbegun.fresh.1 hbegun.fresh.2
      (scoringPolicy_answers _) (.refl _) (scoringPolicy_answers _)).mpr (.inr ?_)
    unfold Reached
    decide +kernel
  · exact hreports _ (.cons_cons rfl (.singleton _))
  · have hpp : pr.policyPipelines scoringPolicy = .ok scoringPipelines := by rfl
    obtain ⟨passes, u, hpasses, st, st', rfl⟩ : ∃ passes u,
        DirectionPasses pr World.quiet .request scoringPipelines t passes u ∧
        ∃ st st', passes = [⟨withHeaders, ctx, st⟩, ⟨withBody, ctx, st'⟩] :=
      ⟨_, _, .body (.headers rfl) .refl rfl, _, _, rfl⟩
    obtain ⟨honce, hdenies⟩ := hpipelines pr World.quiet .request scoringPolicy scoringPipelines t u
      _ hpp hbegun hp hpasses
    refine ⟨_, u, hpp, hpasses, rfl, (hdenies rfl ?_).mpr (.inr ?_), honce⟩
    · simp only [List.mem_cons, List.not_mem_nil, or_false, forall_eq_or_imp, forall_eq]
      exact ⟨⟨fun _ => rfl, scoringPolicy_answers _⟩, ⟨fun _ => rfl, scoringPolicy_answers _⟩⟩
    · have hverdicts : [⟨withHeaders, ctx, st⟩, ⟨withBody, ctx, st'⟩].flatMap
          (Pass.verdicts scoringPolicy) = [{ score := 40 }, { score := -1000 }, { score := 30 }] :=
        rfl
      rw [hverdicts]
      unfold Reached
      decide

end ElchiShield.Extproc
