import ElchiShield.Engine.Aggregate
import ElchiShield.Stages.Inspectors

/-! # The anomaly score over the stages of one direction

The engines of a policy run in two stages, with the headers and with the body. Both add to one
score of the transaction, and the first of them at which the score has reached the threshold of
the policy reports it. The other stages of a pipeline leave the score alone. -/
namespace ElchiShield.Stages
open ElchiShield.Go ElchiShield.Lib ElchiShield.Engine ElchiShield.Policy ElchiShield.Pipeline

/-! ## One stage -/

/-- The two stages differ in the engines they select. -/
def wafStage (want : SecurityEngine → Bool) (ctx : Ctx) (st : Exec) : Option StageResult × Exec :=
  runEngines (fun s ctx req tick => s.inspect ctx req want tick) ctx st

def withHeaders (e : SecurityEngine) : Bool := !e.requiresBody

def withBody (e : SecurityEngine) : Bool := e.requiresBody

theorem wafHeaderEngine_process (w : World) (ctx : Ctx) (st : Exec) :
    wafHeaderEngine.process w ctx st = wafStage withHeaders ctx st := rfl

theorem wafEngine_process (w : World) (ctx : Ctx) (st : Exec) :
    wafEngine.process w ctx st = wafStage withBody ctx st := rfl

section
variable {p : CompiledPolicy} {v : Verdict} {tx : Transaction} {ctx : Ctx} {st : Exec}
  {want : SecurityEngine → Bool}

/-- Inversion of `applyVerdict` without errors. -/
theorem applyVerdict_cases (p : CompiledPolicy) (v : Verdict) (tx : Transaction) :
    (v.action = .block ∧ applyVerdict p v [] tx = (.deny (blocked tx.policyID v), tx)) ∨
    (v.action ≠ .block ∧ crossesThreshold p (addAnomalyScore tx v) = true ∧
      applyVerdict p v [] tx = (.deny (anomalyDecision (addAnomalyScore tx v)),
        { addAnomalyScore tx v with anomalyDenied := true })) ∨
    (v.action ≠ .block ∧ crossesThreshold p (addAnomalyScore tx v) = false ∧
      applyVerdict p v [] tx = (.continue_, addAnomalyScore tx v)) := by
  unfold applyVerdict
  by_cases hv : v.action = .block
  · exact .inl ⟨hv, if_pos hv⟩
  · rw [if_neg hv, if_neg (by simp)]
    cases hcross : crossesThreshold p (addAnomalyScore tx v) with
    | true => exact .inr (.inl ⟨hv, rfl, by simp [hcross]⟩)
    | false => exact .inr (.inr ⟨hv, rfl, by simp [hcross]⟩)

/-- The verdicts a stage gets, from the state it starts in. -/
def stageVerdicts (p : CompiledPolicy) (want : SecurityEngine → Bool) (st : Exec) : List Verdict :=
  verdicts (engineRequest st.tx) want p.engineSet.engines st.tick

/-- The engines of a policy answer what a stage asks them. -/
def StageAnswers (p : CompiledPolicy) (st : Exec) : Prop :=
  ∀ e ∈ p.engineSet.engines, Answers (engineRequest st.tx) e

def Denies (r : Option StageResult × Exec) : Prop := ∃ d, r.1 = some (.deny d)

theorem denies_deny (d : Decision) (st : Exec) : Denies (some (.deny d), st) := ⟨d, rfl⟩

theorem not_denies_continue (st : Exec) : ¬ Denies (some .continue_, st) := by
  rintro ⟨d, hd⟩
  cases hd

theorem wafStage_eq (want : SecurityEngine → Bool) (hp : st.tx.policy = some p)
    (henf : p.enforcing = true) (hne : p.engineSet.len ≠ 0) (hctx : ∀ t, ctx t = false)
    (h : StageAnswers p st) : ∃ tick, wafStage want ctx st =
      (some (applyVerdict p (aggregate (stageVerdicts p want st)) [] st.tx).1,
        { st with tx := (applyVerdict p (aggregate (stageVerdicts p want st)) [] st.tx).2, tick }) :=
  ⟨_, runEngines_verdict hp henf hne (inspect_eq hctx h)⟩

/-- What a stage without engines to ask does. -/
theorem wafStage_empty (want : SecurityEngine → Bool) (ctx : Ctx) (hp : st.tx.policy = some p)
    (hne : p.engineSet.len = 0) :
    wafStage want ctx st = (some .continue_, st) ∧ stageVerdicts p want st = [] := by
  have hnil : p.engineSet.engines = [] := List.eq_nil_of_length_eq_zero hne
  refine ⟨?_, by rw [stageVerdicts, verdicts, hnil]; rfl⟩
  simp [wafStage, runEngines, hp, hne]

/-- The score is below the threshold, and no crossing was reported. -/
structure Below (p : CompiledPolicy) (tx : Transaction) : Prop where
  denied : tx.anomalyDenied = false
  score : 0 < p.anomalyThreshold → tx.anomalyScore < p.anomalyThreshold

/-- A positive threshold that a score has reached. -/
def Reached (p : CompiledPolicy) (score : Int) : Prop :=
  0 < p.anomalyThreshold ∧ p.anomalyThreshold ≤ score

theorem addAnomalyScore_aggregate (tx : Transaction) (vs : List Verdict) :
    addAnomalyScore tx (aggregate vs) =
      { tx with anomalyScore := tx.anomalyScore + positiveScore vs } := by
  have hnonneg := @positiveScore_nonneg vs
  unfold addAnomalyScore
  split
  next => rfl
  next hpos =>
    have hzero : positiveScore vs = 0 := by
      have : ¬ 0 < positiveScore vs := hpos
      omega
    rw [hzero, Int.add_zero]

theorem crossesThreshold_iff (hd : tx.anomalyDenied = false) (score : Int) :
    crossesThreshold p { tx with anomalyScore := score } = true ↔ Reached p score := by
  simp [crossesThreshold, Reached, hd]

/-- One stage: it denies if an engine blocks or the score reaches the threshold, and otherwise
leaves the score with what its engines added. -/
theorem wafStage_spec (want : SecurityEngine → Bool) (hp : st.tx.policy = some p)
    (henf : p.enforcing = true) (hctx : ∀ t, ctx t = false) (h : StageAnswers p st)
    (hbelow : Below p st.tx) :
    (Denies (wafStage want ctx st) ↔ (∃ v ∈ stageVerdicts p want st, v.action = .block) ∨
      Reached p (st.tx.anomalyScore + positiveScore (stageVerdicts p want st))) ∧
    (¬ Denies (wafStage want ctx st) → (wafStage want ctx st).2.tx.anomalyDenied = false ∧
      (wafStage want ctx st).2.tx.anomalyScore =
        st.tx.anomalyScore + positiveScore (stageVerdicts p want st)) := by
  by_cases hne : p.engineSet.len = 0
  · obtain ⟨heq, hnil⟩ := wafStage_empty want ctx hp hne
    have hnot : ¬ Reached p (st.tx.anomalyScore + positiveScore []) := by
      rintro ⟨hpos, hle⟩
      have := hbelow.score hpos
      simp only [positiveScore, List.foldr_nil] at hle
      omega
    rw [heq, hnil]
    exact ⟨by simp [not_denies_continue, hnot], fun _ => ⟨hbelow.denied, (Int.add_zero _).symm⟩⟩
  · obtain ⟨tick, heq⟩ := wafStage_eq want hp henf hne hctx h
    have hblock : (aggregate (stageVerdicts p want st)).action = .block ↔ _ := aggregate_blocks
    have hcross := @crossesThreshold_iff p _ hbelow.denied
      (st.tx.anomalyScore + positiveScore (stageVerdicts p want st))
    rw [← addAnomalyScore_aggregate] at hcross
    rw [heq, ← hblock, ← hcross]
    obtain ⟨hv, heq⟩ | ⟨hv, hc, heq⟩ | ⟨hv, hc, heq⟩ :=
      applyVerdict_cases p (aggregate (stageVerdicts p want st)) st.tx <;> rw [heq]
    · exact ⟨iff_of_true (denies_deny ..) (.inl hv), fun hnot => absurd (denies_deny ..) hnot⟩
    · exact ⟨iff_of_true (denies_deny ..) (.inr hc), fun hnot => absurd (denies_deny ..) hnot⟩
    · refine ⟨iff_of_false (not_denies_continue _) (by simp [hv, hc]), fun _ => ?_⟩
      rw [addAnomalyScore_aggregate]
      exact ⟨hbelow.denied, rfl⟩

end

/-! ## Passes of the stages -/

/-- The score, and what there is of its reports, is as it was. -/
structure SameScore (a b : Exec) : Prop where
  policy : b.tx.policy = a.tx.policy
  score : b.tx.anomalyScore = a.tx.anomalyScore
  denied : b.tx.anomalyDenied = a.tx.anomalyDenied

theorem SameScore.refl (a : Exec) : SameScore a a := ⟨rfl, rfl, rfl⟩

theorem SameScore.trans {a b c : Exec} (hab : SameScore a b) (hbc : SameScore b c) : SameScore a c :=
  ⟨hbc.policy.trans hab.policy, hbc.score.trans hab.score, hbc.denied.trans hab.denied⟩

/-- A run of one of the stages, from a state. -/
structure Pass where
  want : SecurityEngine → Bool
  ctx : Ctx
  st : Exec

namespace Pass

def after (a : Pass) : Exec := (wafStage a.want a.ctx a.st).2

def DeniesAt (a : Pass) : Prop := Denies (wafStage a.want a.ctx a.st)

/-- The engines are asked without a deadline that is over, and answer. -/
structure Answered (p : CompiledPolicy) (a : Pass) : Prop where
  ctx : ∀ tick, a.ctx tick = false
  answers : StageAnswers p a.st

def verdicts (p : CompiledPolicy) (a : Pass) : List Verdict := stageVerdicts p a.want a.st

theorem after_policy (a : Pass) : a.after.tx.policy = a.st.tx.policy := by
  obtain ⟨-, score, denied, tick, heq⟩ :=
    runEngines_spec (fun s ctx req tick => s.inspect ctx req a.want tick) a.ctx a.st
  rw [after, wafStage, heq]

end Pass

/-- The engines are asked in these passes from the state `a` to the state `b`, and in between the
score is left alone. -/
inductive Carries : Exec → List Pass → Exec → Prop where
  | nil {a b : Exec} (same : SameScore a b) : Carries a [] b
  | cons {a b : Exec} {pass : Pass} {passes : List Pass} (same : SameScore a pass.st)
      (rest : Carries pass.after passes b) : Carries a (pass :: passes) b

namespace Carries
variable {a b c : Exec} {passes passes' : List Pass} {p : CompiledPolicy}

theorem after (h : SameScore a b) (h' : Carries b passes c) : Carries a passes c := by
  cases h' with
  | nil same => exact .nil (h.trans same)
  | cons same rest => exact .cons (h.trans same) rest

theorem append (h : Carries a passes b) (h' : Carries b passes' c) :
    Carries a (passes ++ passes') c := by
  induction h with
  | nil same => exact h'.after same
  | cons same _ ih => exact .cons same (ih h')

theorem before (h : Carries a passes b) (h' : SameScore b c) : Carries a passes c := by
  simpa using h.append (.nil h')

/-- Passes deny if an engine blocks, or if the score they add up to reaches the threshold. -/
theorem denies_iff (h : Carries a passes b) (hp : a.tx.policy = some p) (henf : p.enforcing = true)
    (hbelow : Below p a.tx) (hanswered : ∀ pass ∈ passes, pass.Answered p) :
    (∃ pass ∈ passes, pass.DeniesAt) ↔
      (∃ v ∈ passes.flatMap (Pass.verdicts p), v.action = .block) ∨
        Reached p (a.tx.anomalyScore + positiveScore (passes.flatMap (Pass.verdicts p))) := by
  induction h with
  | nil same =>
    refine iff_of_false (by simp) ?_
    rintro (⟨v, hv, -⟩ | ⟨hpos, hle⟩)
    · simp at hv
    · have hlt := hbelow.score hpos
      simp only [List.flatMap_nil, positiveScore, List.foldr_nil] at hle
      omega
  | @cons a b pass passes same rest ih =>
    obtain ⟨hpass, hpasses⟩ := List.forall_mem_cons.mp hanswered
    have hp' : pass.st.tx.policy = some p := same.policy.trans hp
    have hbelow' : Below p pass.st.tx := ⟨same.denied.trans hbelow.denied, same.score ▸ hbelow.score⟩
    obtain ⟨hdenies, hleft⟩ := wafStage_spec pass.want hp' henf hpass.ctx hpass.answers hbelow'
    rw [← Pass.DeniesAt, ← Pass.verdicts, same.score] at hdenies hleft
    simp only [List.flatMap_cons, positiveScore_append, List.mem_cons, exists_eq_or_imp]
    have hnonneg := @positiveScore_nonneg (passes.flatMap (Pass.verdicts p))
    by_cases hdeny : pass.DeniesAt
    · refine iff_of_true (.inl hdeny) ?_
      obtain ⟨v, hv, hblock⟩ | ⟨hpos, hle⟩ := hdenies.mp hdeny
      · exact .inl ⟨v, List.mem_append_left _ hv, hblock⟩
      · exact .inr ⟨hpos, by omega⟩
    · -- the pass did not deny, so that its engines did not block and the score is below
      obtain ⟨hdenied, hscore⟩ := hleft hdeny
      obtain ⟨hnone, hnot⟩ := not_or.mp (mt hdenies.mpr hdeny)
      have hafter : Below p pass.after.tx := by
        refine ⟨hdenied, fun hpos => ?_⟩
        rw [Pass.after, hscore]
        exact Int.not_le.mp fun hle => hnot ⟨hpos, hle⟩
      rw [or_iff_right hdeny, ih (pass.after_policy.trans hp') hafter hpasses, Pass.after, hscore,
        Int.add_assoc]
      simp only [List.mem_append, or_and_right, exists_or, or_iff_right hnone]

end Carries

/-! ## One report -/

namespace Pass

/-- The branch of `runEngines` that reports the threshold is taken. -/
def Reports (a : Pass) : Prop :=
  ∃ p v tick, a.st.tx.policy = some p ∧ p.enforcing = true ∧ p.engineSet.len ≠ 0 ∧
    p.engineSet.inspect a.ctx (engineRequest a.st.tx) a.want a.st.tick = (some (v, []), tick) ∧
    v.action ≠ .block ∧ crossesThreshold p (addAnomalyScore a.st.tx v) = true

theorem addAnomalyScore_denied (tx : Transaction) (v : Verdict) :
    (addAnomalyScore tx v).anomalyDenied = tx.anomalyDenied := by
  unfold addAnomalyScore
  split <;> rfl

/-- A report is a denial, and is made where none was made before. -/
theorem Reports.spec {a : Pass} (h : a.Reports) :
    a.st.tx.anomalyDenied = false ∧ a.after.tx.anomalyDenied = true ∧
    ∃ tx, (wafStage a.want a.ctx a.st).1 = some (.deny (anomalyDecision tx)) := by
  obtain ⟨p, v, tick, hp, henf, hne, hinspect, hv, hcross⟩ := h
  have hdenied : a.st.tx.anomalyDenied = false := by
    rw [crossesThreshold, addAnomalyScore_denied] at hcross
    simpa using ((Bool.and_eq_true _ _).mp hcross).2
  have heq : wafStage a.want a.ctx a.st =
      (some (.deny (anomalyDecision (addAnomalyScore a.st.tx v))),
        { a.st with tx := { addAnomalyScore a.st.tx v with anomalyDenied := true }, tick }) := by
    rw [wafStage, runEngines_verdict hp henf hne hinspect]
    simp [applyVerdict, hv, hcross]
  refine ⟨hdenied, ?_, addAnomalyScore a.st.tx v, by rw [heq]⟩
  rw [after, heq]

theorem applyVerdict_denied {p : CompiledPolicy} {v : Verdict} {errs : List Bytes}
    {tx : Transaction} (h : tx.anomalyDenied = true) :
    (applyVerdict p v errs tx).2.anomalyDenied = true := by
  unfold applyVerdict
  split
  · exact h
  split
  · exact h
  dsimp only
  split
  · rfl
  · exact (addAnomalyScore_denied tx v).trans h

/-- No stage takes a report back. -/
theorem after_denied {a : Pass} (h : a.st.tx.anomalyDenied = true) :
    a.after.tx.anomalyDenied = true := by
  unfold after wafStage runEngines
  split
  · exact h
  split
  · exact h
  split
  · exact h
  · exact applyVerdict_denied h

/-- Each pass starts with what the one before it left of the reports. -/
def Linked (passes : List Pass) : Prop :=
  passes.IsChain fun a b => b.st.tx.anomalyDenied = a.after.tx.anomalyDenied

theorem Linked.none {a : Pass} {rest : List Pass} (h : Linked (a :: rest))
    (ha : a.after.tx.anomalyDenied = true) : ∀ b ∈ rest, ¬ b.Reports := by
  induction rest generalizing a with
  | nil => simp
  | cons b rest ih =>
    obtain ⟨hlink, hrest⟩ := List.isChain_cons_cons.mp h
    have hb : b.st.tx.anomalyDenied = true := hlink.trans ha
    intro c hc
    rcases List.mem_cons.mp hc with rfl | hc
    · intro hreports
      rw [hreports.spec.1] at hb
      cases hb
    · exact ih hrest (after_denied hb) c hc

theorem reports_once {passes : List Pass} (h : Linked passes) :
    passes.Pairwise fun a b => ¬ (a.Reports ∧ b.Reports) := by
  induction passes with
  | nil => exact .nil
  | cons a rest ih =>
    refine .cons (fun b hb hboth => ?_) (ih (List.isChain_of_isChain_cons h))
    exact h.none hboth.1.spec.2.1 b hb hboth.2

/-- Passes with nothing in between but what leaves the score alone. -/
theorem linked_of_carries {passes : List Pass} {a b : Exec} (h : Carries a passes b) :
    Linked passes := by
  induction h with
  | nil => exact .nil
  | @cons a b pass passes _ rest ih =>
    cases rest with
    | nil => exact .singleton _
    | cons same rest => exact .cons_cons same.denied ih

end Pass

/-! ## Passes of a pipeline -/

/-- The pass a stage makes in a state, if it asks the engines. -/
def stagePasses (ctx : Ctx) (s : Stage) (st : Exec) : List Pass :=
  if s.name = wafHeaderEngine.name then [⟨withHeaders, ctx, st⟩]
  else if s.name = wafEngine.name then [⟨withBody, ctx, st⟩]
  else []

/-- The passes of a run over stages. -/
def wafPasses (w : World) (ctx : Ctx) : List Stage → Exec → List Pass
  | [], _ => []
  | s :: rest, st =>
    (if gated s.phase st.tx || ctx st.tick then []
      else stagePasses ctx s (st.next.emit (.ran s.name st.tx))) ++
    match stageStep w ctx s st with
    | (none, t) => wafPasses w ctx rest t
    | (some _, _) => []

/-- The stage changes the score only by the pass it makes. -/
def Scored (s : Stage) : Prop :=
  ∀ w ctx st, Carries st (stagePasses ctx s st) (s.process w ctx st).2

theorem wafHeaderEngine_scored : Scored wafHeaderEngine := by
  intro w ctx st
  rw [stagePasses, if_pos rfl, wafHeaderEngine_process]
  exact .cons (.refl st) (.nil (.refl _))

theorem wafEngine_scored : Scored wafEngine := by
  intro w ctx st
  rw [stagePasses, if_neg (show wafEngine.name ≠ wafHeaderEngine.name by decide), if_pos rfl,
    wafEngine_process]
  exact .cons (.refl st) (.nil (.refl _))

section
variable [Library] {deps : Deps} {dir : Direction} {q : Pipeline}

/-- The other stages of a direction leave the score alone. -/
theorem others_scored {s : Stage} (detector : Option Detector)
    (hs : s ∈ [fastPreChecks, bodyGate, bodyTruncationGuard, bodyContentDecode,
      bodyChecks detector]) : Scored s := by
  intro w ctx st
  have hname : s.name ≠ wafHeaderEngine.name ∧ s.name ≠ wafEngine.name := by
    simp only [List.mem_cons, List.not_mem_nil, or_false] at hs
    rcases hs with rfl | rfl | rfl | rfl | rfl
    · exact ⟨show Config.stageFastPreChecks ≠ _ by decide, show Config.stageFastPreChecks ≠ _ by decide⟩
    · exact ⟨show ascii "body_gate" ≠ _ by decide, show ascii "body_gate" ≠ _ by decide⟩
    · exact ⟨show ascii "body_truncation_guard" ≠ _ by decide,
        show ascii "body_truncation_guard" ≠ _ by decide⟩
    · exact ⟨show ascii "body_content_decode" ≠ _ by decide,
        show ascii "body_content_decode" ≠ _ by decide⟩
    · exact ⟨show Config.stageBodyChecks ≠ _ by decide, show Config.stageBodyChecks ≠ _ by decide⟩
  rw [stagePasses, if_neg hname.1, if_neg hname.2]
  refine .nil ?_
  simp only [List.mem_cons, List.not_mem_nil, or_false] at hs
  rcases hs with rfl | rfl | rfl | rfl | rfl
  · exact .refl st
  · obtain ⟨-, required, waf, heq⟩ := bodyGate_spec w ctx st
    rw [heq]
    exact ⟨rfl, rfl, rfl⟩
  · exact .refl st
  · obtain ⟨-, body, reserved, tick, log, heq, -⟩ := bodyContentDecode_spec w ctx st
    rw [heq]
    exact ⟨rfl, rfl, rfl⟩
  · obtain ⟨-, heq | ⟨p, body, -, -, -, heq⟩⟩ := bodyChecks_spec detector w ctx st
    · rw [heq]
      exact .refl st
    · rw [heq]
      exact ⟨rfl, rfl, rfl⟩

omit [Library] in
theorem settle_sameScore (res : StageResult) (st : Exec) : SameScore st (settle res st).2 := by
  unfold settle applyDeny
  repeat' split
  all_goals exact ⟨rfl, rfl, rfl⟩

omit [Library] in
theorem stageStep_carries {s : Stage} (hs : Scored s) (w : World) (ctx : Ctx) (st : Exec) :
    Carries st (if gated s.phase st.tx || ctx st.tick then []
      else stagePasses ctx s (st.next.emit (.ran s.name st.tx))) (stageStep w ctx s st).2 := by
  cases hg : gated s.phase st.tx with
  | true =>
    rw [stageStep, hg]
    exact .nil (.refl st)
  | false =>
    cases hctx : ctx st.tick with
    | true =>
      rw [stageStep_late st hg hctx]
      exact .nil ⟨rfl, rfl, rfl⟩
    | false =>
      have hpass := hs w ctx (st.next.emit (.ran s.name st.tx))
      have hran : (runStage w ctx s st.next).2 =
          (s.process w ctx (st.next.emit (.ran s.name st.tx))).2 := by
        rw [runStage, Exec.next_tx]
        split <;> simp_all
      have hnext : SameScore st (st.next.emit (.ran s.name st.tx)) := ⟨rfl, rfl, rfl⟩
      rw [← hran] at hpass
      rw [stageStep_live st hg hctx]
      exact (hpass.before (settle_sameScore _ _)).after hnext

omit [Library] in
theorem stages_carry {stages : List Stage} (hs : ∀ s ∈ stages, Scored s) (w : World) (ctx : Ctx)
    (st : Exec) : Carries st (wafPasses w ctx stages st)
      (chain (stageStep w ctx) (fun st => st.tx.result) stages st).2 := by
  induction stages generalizing st with
  | nil => exact .nil (.refl st)
  | cons s stages ih =>
    obtain ⟨hs, hstages⟩ := List.forall_mem_cons.mp hs
    have hfirst := stageStep_carries hs w ctx st
    obtain ⟨⟨d, t⟩, heq⟩ : ∃ r, stageStep w ctx s st = r := ⟨_, rfl⟩
    rw [heq] at hfirst
    cases d with
    | none =>
      rw [chain_cons_pass heq, wafPasses, heq]
      exact hfirst.append (ih hstages t)
    | some d =>
      rw [chain_cons_stop heq, wafPasses, heq]
      simpa using hfirst

/-- The passes of a run of a pipeline. -/
def pipelinePasses (w : World) (ctx : Ctx) (q : Pipeline) (st : Exec) : List Pass :=
  wafPasses w ctx q.stages (q.start st)

theorem HeaderPipeline.carries (hq : HeaderPipeline dir q) (w : World) (ctx : Ctx) (st : Exec) :
    Carries st (pipelinePasses w ctx q st) (q.run w ctx st).2 := by
  have hstart : SameScore st (q.start st) := ⟨rfl, rfl, rfl⟩
  refine (stages_carry (fun s hs => ?_) w ctx (q.start st)).after hstart
  rcases hq.mem hs with rfl | rfl | rfl
  · exact others_scored none (by simp)
  · exact wafHeaderEngine_scored
  · exact others_scored none (by simp)

theorem BodyPipeline.carries (hq : BodyPipeline deps dir q) (w : World) (ctx : Ctx) (st : Exec) :
    Carries st (pipelinePasses w ctx q st) (q.run w ctx st).2 := by
  have hstart : SameScore st (q.start st) := ⟨rfl, rfl, rfl⟩
  refine (stages_carry (fun s hs => ?_) w ctx (q.start st)).after hstart
  rcases hq.mem hs with rfl | rfl | rfl | rfl
  · exact others_scored none (by simp)
  · exact others_scored none (by simp)
  · exact others_scored deps.detector (by simp)
  · exact wafEngine_scored

end

/-! ## Scoring does not depend on the order of the engines -/

/-- What an inspection returns, of the verdicts it got. -/
structure Aggregates (vs : List Verdict) (v : Verdict) : Prop where
  block : v.action = .block ↔ ∃ u ∈ vs, u.action = .block
  severity : v.severity.rank = maxRank (considered vs)
  score : v.score = positiveScore vs

theorem aggregates_aggregate (vs : List Verdict) : Aggregates vs (aggregate vs) :=
  ⟨aggregate_blocks, aggregate_rank, rfl⟩

/-- Each engine that answers is evaluated in one of the phases. -/
theorem phases_perm {s : EngineSet} {req req' : Request}
    (h : ∀ e ∈ s.engines, Answers req e ∧ Answers req' e) (tick tick' : Nat) :
    ((evaluated req withHeaders s.engines tick).map Prod.fst ++
      (evaluated req' withBody s.engines tick').map Prod.fst).Perm s.engines := by
  rw [evaluated_fst fun e he => (h e he).1, evaluated_fst fun e he => (h e he).2]
  exact (List.filter_append_perm withBody s.engines).symm.trans List.perm_append_comm |>.symm

/-- Verdicts in another order are aggregated to the same action, severity and score. -/
theorem aggregate_perm {vs vs' : List Verdict} (h : vs'.Perm vs) :
    ((aggregate vs').action = .block ↔ (aggregate vs).action = .block) ∧
      (aggregate vs').severity = (aggregate vs).severity ∧
      (aggregate vs').score = (aggregate vs).score := by
  refine ⟨?_, ?_, positiveScore_perm h⟩
  · rw [aggregate_blocks, aggregate_blocks]
    simp only [h.mem_iff]
  · refine rank_injective ?_
    rw [aggregate_rank, aggregate_rank, maxRank_perm (considered_perm h)]

/-- The two stages of a direction, with anything in between that leaves the score alone. -/
theorem direction_denies_iff {p : CompiledPolicy} {ctx : Ctx} {st st' : Exec}
    (hp : st.tx.policy = some p) (henf : p.enforcing = true) (hctx : ∀ t, ctx t = false)
    (hscore : st.tx.anomalyScore = 0) (hdenied : st.tx.anomalyDenied = false)
    (h : StageAnswers p st) (hsame : SameScore (wafStage withHeaders ctx st).2 st')
    (h' : StageAnswers p st') :
    Denies (wafStage withHeaders ctx st) ∨ Denies (wafStage withBody ctx st') ↔
      (∃ v ∈ stageVerdicts p withHeaders st ++ stageVerdicts p withBody st', v.action = .block) ∨
      Reached p (positiveScore
        (stageVerdicts p withHeaders st ++ stageVerdicts p withBody st')) := by
  have hcarries : Carries st [⟨withHeaders, ctx, st⟩, ⟨withBody, ctx, st'⟩]
      (wafStage withBody ctx st').2 :=
    .cons (.refl st) (.cons hsame (.nil (.refl _)))
  have hdenies := hcarries.denies_iff hp henf ⟨hdenied, fun hpos => by omega⟩
    (List.forall_mem_cons.mpr ⟨⟨hctx, h⟩, List.forall_mem_singleton.mpr ⟨hctx, h'⟩⟩)
  rw [hscore, Int.zero_add] at hdenies
  simpa [Pass.DeniesAt, Pass.verdicts] using hdenies

end ElchiShield.Stages
