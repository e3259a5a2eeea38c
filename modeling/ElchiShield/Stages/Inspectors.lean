import ElchiShield.Lib.Attempt
import ElchiShield.Pipeline.Frame
import ElchiShield.Stages.Catalog

/-! # The stages of a policy's pipelines

For each stage a lemma says what it can write; that it is an inspector follows. The pipelines
`buildPolicyPipelines` returns are made of these stages and no others. -/
namespace ElchiShield.Stages
open ElchiShield.Go ElchiShield.Engine ElchiShield.Policy ElchiShield.Pipeline

theorem plain_denyEngine (tx : Transaction) (engine ruleID reason : Bytes) (sev : Severity) :
    Plain (denyEngine tx engine ruleID reason sev) := .deny _ rfl

theorem plain_deny (tx : Transaction) (ruleID reason : Bytes) (sev : Severity) :
    Plain (deny tx ruleID reason sev) := .deny _ rfl

theorem plain_of_some {r : StageResult} (hr : Plain r) : ∀ res, some r = some res → Plain res := by
  intro res h
  exact Option.some.inj h ▸ hr

theorem pureStage_inspector {name : Bytes} {phase : Phase} {check : Transaction → StageResult}
    (h : ∀ tx, Plain (check tx)) : Inspector (pureStage name phase check) := by
  refine ⟨fun _ _ st => .refl st, ?_, fun _ _ _ => rfl, fun _ _ _ => rfl⟩
  intro w ctx st
  exact plain_of_some (h st.tx)

/-! ## Header stages -/

section
variable [Library]

theorem requestHeaderChecks_plain (p : CompiledPolicy) (tx : Transaction) :
    Plain (requestHeaderChecks p tx) := by
  unfold requestHeaderChecks
  dsimp only
  split
  · exact plain_deny ..
  split
  · exact plain_deny ..
  split
  · exact plain_deny ..
  split
  · exact plain_deny ..
  · exact .continue_

theorem fastPreChecks_inspector : Inspector fastPreChecks := by
  refine pureStage_inspector fun tx => ?_
  split
  · exact .continue_
  split
  · exact .continue_
  split
  · exact .continue_
  · exact requestHeaderChecks_plain ..

end

theorem applyVerdict_spec (p : CompiledPolicy) (v : Verdict) (errs : List Bytes)
    (tx : Transaction) :
    Plain (applyVerdict p v errs tx).1 ∧ ∃ score denied,
      (applyVerdict p v errs tx).2 = { tx with anomalyScore := score, anomalyDenied := denied } := by
  have hadd : ∃ score, addAnomalyScore tx v = { tx with anomalyScore := score } := by
    unfold addAnomalyScore
    split
    · exact ⟨_, rfl⟩
    · exact ⟨_, rfl⟩
  obtain ⟨score, hadd⟩ := hadd
  unfold applyVerdict
  split
  · exact ⟨.deny _ rfl, _, _, rfl⟩
  split
  · exact ⟨.fail, _, _, rfl⟩
  dsimp only
  rw [hadd]
  split
  · exact ⟨.deny _ rfl, _, _, rfl⟩
  · exact ⟨.continue_, _, _, rfl⟩

/-- Engines that are asked and answer. -/
theorem runEngines_verdict {inspect : EngineSet → Ctx → Engine.Request → Nat →
    Option (Verdict × List Bytes) × Nat} {ctx : Ctx} {st : Exec} {p : CompiledPolicy} {v : Verdict}
    {errs : List Bytes} {tick : Nat} (hp : st.tx.policy = some p) (henf : p.enforcing = true)
    (hne : p.engineSet.len ≠ 0)
    (h : inspect p.engineSet ctx (engineRequest st.tx) st.tick = (some (v, errs), tick)) :
    runEngines inspect ctx st = (some (applyVerdict p v errs st.tx).1,
      { st with tx := (applyVerdict p v errs st.tx).2, tick }) := by
  have hskip : ¬ (!p.enforcing || decide (p.engineSet.len = 0)) = true := by simp [henf, hne]
  unfold runEngines
  rw [hp]
  dsimp only
  rw [if_neg hskip, h]

/-- The engines change the anomaly score and nothing else. -/
theorem runEngines_spec (inspect : EngineSet → Ctx → Engine.Request → Nat →
    Option (Verdict × List Bytes) × Nat) (ctx : Ctx) (st : Exec) :
    (∀ res, (runEngines inspect ctx st).1 = some res → Plain res) ∧ ∃ score denied tick,
      (runEngines inspect ctx st).2 =
        { st with tx := { st.tx with anomalyScore := score, anomalyDenied := denied }, tick } := by
  unfold runEngines
  split
  · exact ⟨plain_of_some .continue_, _, _, _, rfl⟩
  next p _ =>
    split
    · exact ⟨plain_of_some .continue_, _, _, _, rfl⟩
    split
    · exact ⟨by simp, _, _, _, rfl⟩
    next v errs tick _ =>
      obtain ⟨hplain, score, denied, htx⟩ := applyVerdict_spec p v errs st.tx
      refine ⟨plain_of_some hplain, score, denied, tick, ?_⟩
      show ({ st with tx := (applyVerdict p v errs st.tx).2, tick } : Exec) = _
      rw [htx]

theorem runEngines_inspector {s : Stage} {inspect : EngineSet → Ctx → Engine.Request → Nat →
    Option (Verdict × List Bytes) × Nat} (h : ∀ w ctx st, s.process w ctx st =
      runEngines inspect ctx st) : Inspector s := by
  refine ⟨?_, ?_, ?_, ?_⟩ <;> intro w ctx st
  all_goals
    rw [h]
    obtain ⟨hplain, score, denied, tick, heq⟩ := runEngines_spec inspect ctx st
  · rw [heq]; exact ⟨rfl, rfl, fun _ => rfl⟩
  · exact hplain
  · rw [heq]
  · rw [heq]

theorem wafEngine_inspector : Inspector wafEngine := runEngines_inspector fun _ _ _ => rfl

theorem wafHeaderEngine_inspector : Inspector wafHeaderEngine :=
  runEngines_inspector fun _ _ _ => rfl

/-- The gate writes the two flags and nothing else. -/
theorem bodyGate_spec (w : World) (ctx : Ctx) (st : Exec) :
    (bodyGate.process w ctx st).1 = some .continue_ ∧ ∃ bodyRequired wafEnabled,
      (bodyGate.process w ctx st).2 = st.setTx { st.tx with bodyRequired, wafEnabled } := by
  unfold bodyGate
  dsimp only
  split
  · exact ⟨rfl, _, _, rfl⟩
  split
  · exact ⟨rfl, _, _, rfl⟩
  · exact ⟨rfl, _, _, rfl⟩

/-- What the gate asks for under an enforcing policy. -/
theorem bodyGate_enforcing (w : World) (ctx : Ctx) {st : Exec} {p : CompiledPolicy}
    (hp : st.tx.policy = some p) (henf : p.enforcing = true) :
    bodyGate.process w ctx st = (some .continue_, st.setTx { st.tx with
      bodyRequired := inspectsBody p st.tx.direction
      wafEnabled := p.engineSet.requiresBody }) := by
  unfold bodyGate
  dsimp only
  split
  next h => rw [hp] at h; cases h
  next q h =>
    obtain rfl := Option.some.inj (hp.symm.trans h)
    rw [henf]
    rfl

theorem bodyGate_inspector : Inspector bodyGate := by
  refine ⟨?_, ?_, ?_, ?_⟩ <;> intro w ctx st
  all_goals obtain ⟨hres, b, wf, heq⟩ := bodyGate_spec w ctx st
  · rw [heq]; exact ⟨rfl, rfl, fun _ => rfl⟩
  · rw [hres]; exact plain_of_some .continue_
  · rw [heq]; rfl
  · rw [heq]; rfl

/-! ## Body stages -/

theorem bodyTruncationGuard_inspector : Inspector bodyTruncationGuard := by
  refine pureStage_inspector fun tx => ?_
  split
  · exact .continue_
  split
  · exact .continue_
  split
  · exact plain_denyEngine ..
  · exact .continue_

theorem reserveBody_spec (w : World) (n : Nat) (st : Exec) :
    ∃ bodyReserved tick log, (reserveBody w n st).2 =
        { tx := { st.tx with bodyReserved }, tick, log } ∧
      log.filter Effect.outer = st.outer := by
  unfold reserveBody
  split
  · exact ⟨_, _, _, rfl, rfl⟩
  · exact ⟨_, _, _, rfl, by simp [Exec.outer, Effect.outer]⟩

theorem reserveBody_log (w : World) (n : Nat) (st : Exec) : OnlyBudget st (reserveBody w n st).2 := by
  unfold reserveBody
  split
  · exact .of_log rfl
  · exact ⟨[.acquired (w.grant st.tick n)], rfl, by simp [Effect.ofBudget]⟩

section
variable [Library]

/-- The decoder writes the body and what it reserves for it. -/
theorem decodeInto_spec (w : World) (enc : Bytes) (st : Exec) :
    Plain (decodeInto w enc st).1 ∧ ∃ body bodyReserved tick log, (decodeInto w enc st).2 =
        { tx := { st.tx with body, bodyReserved }, tick, log } ∧
      log.filter Effect.outer = st.outer := by
  unfold decodeInto
  split
  · exact ⟨plain_denyEngine .., _, _, _, _, rfl, rfl⟩
  next decoded _ =>
    obtain ⟨reserved, tick, log, heq, hlog⟩ :=
      reserveBody_spec w (decoded.length - st.tx.body.length) st
    split
    next t ht =>
      rw [ht] at heq
      subst heq
      exact ⟨plain_denyEngine .., _, _, _, _, rfl, hlog⟩
    next t ht =>
      rw [ht] at heq
      subst heq
      exact ⟨.continue_, _, _, _, _, rfl, hlog⟩

theorem bodyContentDecode_spec (w : World) (ctx : Ctx) (st : Exec) :
    (∀ res, (bodyContentDecode.process w ctx st).1 = some res → Plain res) ∧
    ∃ body bodyReserved tick log, (bodyContentDecode.process w ctx st).2 =
        { tx := { st.tx with body, bodyReserved }, tick, log } ∧
      log.filter Effect.outer = st.outer := by
  unfold bodyContentDecode
  dsimp only
  split
  · exact ⟨plain_of_some .continue_, _, _, _, _, rfl, rfl⟩
  split
  · exact ⟨plain_of_some .continue_, _, _, _, _, rfl, rfl⟩
  split
  · exact ⟨plain_of_some .continue_, _, _, _, _, rfl, rfl⟩
  split
  · exact ⟨plain_of_some (plain_denyEngine ..), _, _, _, _, rfl, rfl⟩
  split
  · exact ⟨plain_of_some .continue_, _, _, _, _, rfl, rfl⟩
  split
  · exact ⟨plain_of_some .continue_, _, _, _, _, rfl, rfl⟩
  · obtain ⟨hres, hwrites⟩ := decodeInto_spec w _ st
    exact ⟨plain_of_some hres, hwrites⟩

theorem bodyContentDecode_log (w : World) (ctx : Ctx) (st : Exec) :
    OnlyBudget st (bodyContentDecode.process w ctx st).2 := by
  unfold bodyContentDecode
  dsimp only
  split
  · exact .of_log rfl
  split
  · exact .of_log rfl
  split
  · exact .of_log rfl
  split
  · exact .of_log rfl
  split
  · exact .of_log rfl
  split
  · exact .of_log rfl
  · unfold decodeInto
    split
    · exact .of_log rfl
    next decoded _ =>
      have hlog := reserveBody_log w (decoded.length - st.tx.body.length) st
      split
      next t ht => rw [ht] at hlog; exact hlog
      next t ht => rw [ht] at hlog; exact hlog

theorem bodyContentDecode_inspector : Inspector bodyContentDecode := by
  refine ⟨?_, ?_, ?_, ?_⟩ <;> intro w ctx st
  all_goals obtain ⟨hplain, body, reserved, tick, log, heq, hlog⟩ := bodyContentDecode_spec w ctx st
  · rw [heq]; exact ⟨rfl, hlog, fun _ => rfl⟩
  · exact hplain
  · rw [heq]
  · rw [heq]

/-- The body `b'` is what the policy's redaction makes of `b`. -/
def Redacts (detector : Option Detector) (p : CompiledPolicy) (b b' : Bytes) : Prop :=
  ∃ det dlp, detector = some det ∧ p.checks.dlp = some dlp ∧ b ≠ [] ∧
    redactBody b (det.matches b) dlp.redact = some (b', true)

/-- The state `t` is `st`, or `st` with its body redacted under a blocking policy. -/
def Redacted (detector : Option Detector) (st t : Exec) : Prop :=
  t = st ∨ ∃ p body, st.tx.policy = some p ∧ p.blocking = true ∧
    Redacts detector p st.tx.body body ∧ t = st.setTx { st.tx with body, bodyMutated := true }

omit [Library] in
theorem runDLP_spec (det : Detector) {p : CompiledPolicy} {dlp : CompiledDLP} {st : Exec}
    (hp : st.tx.policy = some p) (hdlp : p.checks.dlp = some dlp) (hbody : st.tx.body ≠ []) :
    (∀ res, (runDLP det p dlp st).1 = some res → Plain res) ∧
      Redacted (some det) st (runDLP det p dlp st).2 := by
  unfold runDLP
  dsimp only
  split
  · exact ⟨plain_of_some (plain_denyEngine ..), .inl rfl⟩
  split
  · exact ⟨by simp, .inl rfl⟩
  next redacted changed hred =>
    split
    · exact ⟨plain_of_some .continue_, .inl rfl⟩
    next hchanged =>
      obtain rfl : changed = true := by simpa using hchanged
      split
      next hblock =>
        exact ⟨plain_of_some .continue_,
          .inr ⟨p, _, hp, hblock, ⟨det, dlp, rfl, hdlp, hbody, hred⟩, rfl⟩⟩
      · exact ⟨plain_of_some (plain_denyEngine ..), .inl rfl⟩

theorem jsonCheck_plain {p : CompiledPolicy} {tx : Transaction} {res : StageResult}
    (h : jsonCheck p tx = some res) : Plain res := by
  unfold jsonCheck at h
  split at h
  · split at h
    · exact Option.some.inj h ▸ plain_deny ..
    split at h
    · exact Option.some.inj h ▸ plain_deny ..
    · cases h
  · cases h

omit [Library] in
theorem sensitiveCheck_plain {detector : Option Detector} {p : CompiledPolicy} {tx : Transaction}
    {res : StageResult} (h : sensitiveCheck detector p tx = some res) : Plain res := by
  unfold sensitiveCheck at h
  obtain ⟨det, -, h⟩ := Option.bind_eq_some_iff.mp h
  split at h
  · obtain ⟨kind, -, h⟩ := Option.bind_eq_some_iff.mp h
    exact Option.some.inj h ▸ plain_denyEngine ..
  · cases h

theorem bodyChecks_spec (detector : Option Detector) (w : World) (ctx : Ctx) (st : Exec) :
    (∀ res, ((bodyChecks detector).process w ctx st).1 = some res → Plain res) ∧
      Redacted detector st ((bodyChecks detector).process w ctx st).2 := by
  unfold bodyChecks
  dsimp only
  split
  · exact ⟨plain_of_some .continue_, .inl rfl⟩
  next p hp =>
    split
    · exact ⟨plain_of_some .continue_, .inl rfl⟩
    split
    next res hres =>
      refine ⟨plain_of_some ?_, .inl rfl⟩
      rcases Option.or_eq_some_iff.mp hres with h | ⟨-, h⟩
      · exact jsonCheck_plain h
      · exact sensitiveCheck_plain h
    · split
      next hdlp _ =>
        split
        next hdue =>
          have hbody := of_decide_eq_true ((Bool.and_eq_true _ _).mp hdue).2
          exact runDLP_spec _ hp hdlp hbody
        · exact ⟨plain_of_some .continue_, .inl rfl⟩
      · exact ⟨plain_of_some .continue_, .inl rfl⟩

theorem bodyChecks_inspector (detector : Option Detector) : Inspector (bodyChecks detector) := by
  refine ⟨?_, ?_, ?_, ?_⟩ <;> intro w ctx st
  all_goals obtain ⟨hplain, heq | ⟨p, body, hp, hblock, -, heq⟩⟩ := bodyChecks_spec detector w ctx st
  all_goals try rw [heq]
  · exact .refl st
  · exact ⟨rfl, rfl, fun h => by rw [hp, Option.any_some, hblock] at h; cases h⟩
  · exact hplain
  · exact hplain
  · rfl
  · rfl

/-! ## The pipelines of a policy -/

/-- The stages `splitStages` sorts into the header and into the body pipeline. -/
theorem splitStages_mem {deps : Deps} {order : List Bytes} {header body : List Stage}
    (h : splitStages deps order = .ok (header, body)) :
    (∀ s ∈ header, s = fastPreChecks ∨ s = wafHeaderEngine) ∧
      ∀ s ∈ body, s = bodyChecks deps.detector ∨ s = wafEngine := by
  induction order generalizing header body with
  | nil =>
    obtain ⟨rfl, rfl⟩ := Prod.mk.inj (Except.ok.inj h)
    simp
  | cons name rest ih =>
    unfold splitStages at h
    split at h
    · obtain ⟨r, hrest, h⟩ := Lib.bind_eq_ok h
      obtain ⟨rfl, rfl⟩ := Prod.mk.inj (Except.ok.inj h)
      obtain ⟨hh, hb⟩ := ih hrest
      exact ⟨List.forall_mem_cons.mpr ⟨.inr rfl, hh⟩, List.forall_mem_cons.mpr ⟨.inr rfl, hb⟩⟩
    next hwaf =>
      split at h
      · cases h
      next s hs =>
        obtain ⟨r, hrest, h⟩ := Lib.bind_eq_ok h
        obtain ⟨hh, hb⟩ := ih hrest
        -- an inspector under another name than waf_engine
        have hcases : s = fastPreChecks ∨ s = bodyChecks deps.detector := by
          simp only [inspectors, List.lookup_cons] at hs
          split at hs
          · exact .inl (Option.some.inj hs).symm
          split at hs
          · exact .inr (Option.some.inj hs).symm
          split at hs
          next hname => exact absurd (by simpa using hname) hwaf
          · cases hs
        rcases hcases with rfl | rfl
        · obtain ⟨rfl, rfl⟩ := Prod.mk.inj (Except.ok.inj h)
          exact ⟨List.forall_mem_cons.mpr ⟨.inl rfl, hh⟩, hb⟩
        · obtain ⟨rfl, rfl⟩ := Prod.mk.inj (Except.ok.inj h)
          exact ⟨hh, List.forall_mem_cons.mpr ⟨.inl rfl, hb⟩⟩

def directionName : Direction → Bytes
  | .request => ascii "request"
  | .response => ascii "response"

/-- The header pipeline of a direction. -/
structure HeaderPipeline (dir : Direction) (p : Pipeline) : Prop where
  name : p.name = directionName dir ++ ascii "_header"
  stages : ∃ header, p.stages = header ++ [bodyGate] ∧
    ∀ s ∈ header, s = fastPreChecks ∨ s = wafHeaderEngine

/-- The body pipeline of a direction. -/
structure BodyPipeline (deps : Deps) (dir : Direction) (p : Pipeline) : Prop where
  name : p.name = directionName dir ++ ascii "_body"
  stages : ∃ body, p.stages = bodyTruncationGuard :: bodyContentDecode :: body ∧
    ∀ s ∈ body, s = bodyChecks deps.detector ∨ s = wafEngine

theorem split_spec {deps : Deps} {dir : Direction} {order : List Bytes} {header body : Pipeline}
    (h : split deps (directionName dir) order = .ok (header, body)) :
    HeaderPipeline dir header ∧ BodyPipeline deps dir body := by
  unfold split at h
  obtain ⟨r, hs, h⟩ := Lib.bind_eq_ok h
  obtain ⟨rfl, rfl⟩ := Prod.mk.inj (Except.ok.inj h)
  obtain ⟨hh, hb⟩ := splitStages_mem hs
  exact ⟨⟨rfl, _, rfl, hh⟩, ⟨rfl, _, rfl, hb⟩⟩

theorem buildPolicyPipelines_spec {deps : Deps} {p : CompiledPolicy} {pp : PolicyPipelines}
    (h : buildPolicyPipelines deps p = .ok pp) (dir : Direction) :
    HeaderPipeline dir (pp.header dir) ∧ BodyPipeline deps dir (pp.body dir) := by
  unfold buildPolicyPipelines at h
  obtain ⟨req, hreq, h⟩ := Lib.bind_eq_ok h
  obtain ⟨resp, hresp, h⟩ := Lib.bind_eq_ok h
  obtain rfl := Except.ok.inj h
  cases dir with
  | request => exact split_spec hreq
  | response => exact split_spec hresp

theorem HeaderPipeline.mem {dir : Direction} {p : Pipeline} (h : HeaderPipeline dir p) {s : Stage}
    (hs : s ∈ p.stages) : s = fastPreChecks ∨ s = wafHeaderEngine ∨ s = bodyGate := by
  obtain ⟨header, hst, hh⟩ := h.stages
  rw [hst, List.mem_append, List.mem_singleton] at hs
  rcases hs with hs | rfl
  · exact (hh s hs).imp_right .inl
  · exact .inr (.inr rfl)

theorem HeaderPipeline.inspector {dir : Direction} {p : Pipeline} (h : HeaderPipeline dir p) :
    ∀ s ∈ p.stages, Inspector s := by
  intro s hs
  rcases h.mem hs with rfl | rfl | rfl
  · exact fastPreChecks_inspector
  · exact wafHeaderEngine_inspector
  · exact bodyGate_inspector

/-- Header stages write the anomaly score, the two flags of the gate and nothing else. -/
theorem HeaderPipeline.keeps {α : Type} {f : Transaction → α} {dir : Direction} {p : Pipeline}
    (h : HeaderPipeline dir p)
    (hf : ∀ tx result findings bodyRequired wafEnabled anomalyScore anomalyDenied,
      f { tx with result, findings, bodyRequired, wafEnabled, anomalyScore, anomalyDenied } = f tx)
    (w : World) (ctx : Ctx) (st : Exec) : f (p.run w ctx st).2.tx = f st.tx := by
  refine run_keeps h.inspector (fun tx result findings => hf tx result findings _ _ _ _) ?_ w ctx st
  intro s hs w ctx st
  rcases h.mem hs with rfl | rfl | rfl
  · rfl
  · obtain ⟨-, score, denied, tick, heq⟩ := runEngines_spec EngineSet.inspectHeaderPhase ctx st
    show f (runEngines EngineSet.inspectHeaderPhase ctx st).2.tx = f st.tx
    rw [heq]
    exact hf st.tx _ _ _ _ _ _
  · obtain ⟨-, required, waf, heq⟩ := bodyGate_spec w ctx st
    rw [heq]
    exact hf st.tx _ _ _ _ _ _

theorem HeaderPipeline.keeps_log {f : Effect → Bool} {dir : Direction} {p : Pipeline}
    (h : HeaderPipeline dir p) (hstart : ∀ tx, f (.started p.name tx) = false)
    (hran : ∀ s ∈ [fastPreChecks, wafHeaderEngine, bodyGate], ∀ tx, f (.ran s.name tx) = false)
    (w : World) (ctx : Ctx) (st : Exec) : (p.run w ctx st).2.log.filter f = st.log.filter f := by
  refine run_keeps_log h.inspector hstart ?_ ?_ w ctx st
  · intro s hs
    exact hran s (by simpa using h.mem hs)
  · intro s hs w ctx st
    rcases h.mem hs with rfl | rfl | rfl
    · rfl
    · obtain ⟨-, score, denied, tick, heq⟩ := runEngines_spec EngineSet.inspectHeaderPhase ctx st
      show (runEngines EngineSet.inspectHeaderPhase ctx st).2.log.filter f = _
      rw [heq]
    · obtain ⟨-, required, waf, heq⟩ := bodyGate_spec w ctx st
      rw [heq]
      rfl

/-- The gate never asks for the engines of the body phase alone. -/
theorem HeaderPipeline.waf_requires {dir : Direction} {q : Pipeline}
    (hq : HeaderPipeline dir q) (w : World) (ctx : Ctx) {st : Exec}
    (hst : st.tx.wafEnabled = true → st.tx.bodyRequired = true) :
    (q.run w ctx st).2.tx.wafEnabled = true → (q.run w ctx st).2.tx.bodyRequired = true := by
  refine stages_invariant (R := Frame)
    (I := fun t => t.tx.wafEnabled = true → t.tx.bodyRequired = true) hq.inspector (fun _ => id)
    (fun _ _ _ => id) ?_ hst
  intro s hs t ht _
  rcases hq.mem hs with rfl | rfl | rfl
  · exact ht
  · obtain ⟨-, score, denied, tick, heq⟩ := runEngines_spec EngineSet.inspectHeaderPhase ctx
      (t.emit (.ran wafHeaderEngine.name t.tx))
    show (runEngines _ _ _).2.tx.wafEnabled = true → (runEngines _ _ _).2.tx.bodyRequired = true
    rw [heq]
    exact ht
  · show (bodyGate.process w ctx (t.emit _)).2.tx.wafEnabled = true → _
    unfold bodyGate
    dsimp only
    split
    · exact ht
    next p _ =>
      split
      · exact ht
      · intro hwaf
        show inspectsBody p t.tx.direction = true
        have hbody : p.engineSet.requiresBody = true := hwaf
        cases hdir : t.tx.direction <;> simp [inspectsBody, hbody]

theorem BodyPipeline.mem {deps : Deps} {dir : Direction} {p : Pipeline} (h : BodyPipeline deps dir p)
    {s : Stage} (hs : s ∈ p.stages) : s = bodyTruncationGuard ∨ s = bodyContentDecode ∨
      s = bodyChecks deps.detector ∨ s = wafEngine := by
  obtain ⟨body, hst, hb⟩ := h.stages
  rw [hst, List.mem_cons, List.mem_cons] at hs
  rcases hs with rfl | rfl | hs
  · exact .inl rfl
  · exact .inr (.inl rfl)
  · exact .inr (.inr (hb s hs))

theorem BodyPipeline.inspector {deps : Deps} {dir : Direction} {p : Pipeline}
    (h : BodyPipeline deps dir p) : ∀ s ∈ p.stages, Inspector s := by
  intro s hs
  rcases h.mem hs with rfl | rfl | rfl | rfl
  · exact bodyTruncationGuard_inspector
  · exact bodyContentDecode_inspector
  · exact bodyChecks_inspector _
  · exact wafEngine_inspector

/-- Body stages write the body, what is reserved for it, the anomaly score and nothing else. -/
theorem BodyPipeline.keeps {α : Type} {f : Transaction → α} {deps : Deps} {dir : Direction}
    {p : Pipeline} (h : BodyPipeline deps dir p)
    (hf : ∀ tx result findings body bodyReserved bodyMutated anomalyScore anomalyDenied,
      f { tx with result, findings, body, bodyReserved, bodyMutated, anomalyScore, anomalyDenied } =
        f tx)
    (w : World) (ctx : Ctx) (st : Exec) : f (p.run w ctx st).2.tx = f st.tx := by
  refine run_keeps h.inspector (fun tx result findings => hf tx result findings _ _ _ _ _) ?_ w ctx st
  intro s hs w ctx st
  rcases h.mem hs with rfl | rfl | rfl | rfl
  · rfl
  · obtain ⟨-, body, reserved, tick, log, heq, -⟩ := bodyContentDecode_spec w ctx st
    rw [heq]
    exact hf st.tx _ _ _ _ _ _ _
  · obtain ⟨-, heq | ⟨q, body, -, -, -, heq⟩⟩ := bodyChecks_spec deps.detector w ctx st <;> rw [heq]
    exact hf st.tx _ _ _ _ _ _ _
  · obtain ⟨-, score, denied, tick, heq⟩ := runEngines_spec EngineSet.inspectBodyPhase ctx st
    show f (runEngines EngineSet.inspectBodyPhase ctx st).2.tx = f st.tx
    rw [heq]
    exact hf st.tx _ _ _ _ _ _ _

theorem BodyPipeline.keeps_log {f : Effect → Bool} {deps : Deps} {dir : Direction} {p : Pipeline}
    (h : BodyPipeline deps dir p) (hstart : ∀ tx, f (.started p.name tx) = false)
    (hran : ∀ s ∈ [bodyTruncationGuard, bodyContentDecode, bodyChecks deps.detector, wafEngine],
      ∀ tx, f (.ran s.name tx) = false)
    (hbudget : ∀ e, e.ofBudget = true → f e = false)
    (w : World) (ctx : Ctx) (st : Exec) : (p.run w ctx st).2.log.filter f = st.log.filter f := by
  refine run_keeps_log h.inspector hstart ?_ ?_ w ctx st
  · intro s hs
    exact hran s (by simpa using h.mem hs)
  · intro s hs w ctx st
    rcases h.mem hs with rfl | rfl | rfl | rfl
    · rfl
    · exact (bodyContentDecode_log w ctx st).filter hbudget
    · obtain ⟨-, heq | ⟨q, body, -, -, -, heq⟩⟩ := bodyChecks_spec deps.detector w ctx st <;>
        rw [heq]
      rfl
    · obtain ⟨-, score, denied, tick, heq⟩ := runEngines_spec EngineSet.inspectBodyPhase ctx st
      show (runEngines EngineSet.inspectBodyPhase ctx st).2.log.filter f = _
      rw [heq]

end

end ElchiShield.Stages
