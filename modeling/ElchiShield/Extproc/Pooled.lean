import ElchiShield.Extproc.Phases
import ElchiShield.Lib.Lockstep

/-! # Pooled transactions

`Transaction.Reset`, `Pool` and the start of `Process`: a stream gets a transaction that others
have used before it. What they left of it is the running decision of their last pipeline, and
no stream reads that before a run of its own has replaced it. -/
namespace ElchiShield.Pipeline
open ElchiShield.Go ElchiShield.Lib ElchiShield.Engine ElchiShield.Policy

/-- `Reset`. The running decision is not among what it clears. -/
def Transaction.reset (tx : Transaction) : Transaction :=
  { tx with
    requestID := []
    direction := .request
    snapshot := none
    listenerID := []
    nodeID := []
    host := []
    path := []
    method := []
    contentType := []
    sourceIP := []
    headers := []
    policy := none
    bodyRequired := false
    wafEnabled := false
    bodyTruncated := false
    bodyInspected := false
    bodyMutated := false
    requestSettled := false
    anomalyScore := 0
    anomalyDenied := false
    bodyReserved := 0
    body := []
    findings := [] }

/-- The transactions that wait for their next stream. -/
structure Pool where
  free : List Transaction := []

/-- `Acquire`: one of the released transactions, or a new one. -/
def Pool.acquire (pool : Pool) (choice : Nat) : Transaction × Pool :=
  match pool.free[choice]? with
  | some tx => (tx, ⟨pool.free.eraseIdx choice⟩)
  | none => ({}, pool)

def Pool.release (pool : Pool) (tx : Transaction) : Pool := ⟨tx.reset :: pool.free⟩

/-- A stream takes a transaction; a stream ends, whatever it has made of its transaction; the
collector takes one that is free. -/
inductive PoolStep where
  | acquire (choice : Nat)
  | release (tx : Transaction)
  | collect (i : Nat)

def Pool.step (pool : Pool) : PoolStep → Pool
  | .acquire choice => (pool.acquire choice).2
  | .release tx => pool.release tx
  | .collect i => ⟨pool.free.eraseIdx i⟩

/-- The pool after these steps, with any number of streams. -/
def Pool.after (steps : List PoolStep) : Pool := steps.foldl Pool.step {}

def Transaction.withResult (tx : Transaction) (result : Decision) : Transaction := { tx with result }

/-- A new transaction up to its running decision. -/
def Clean (tx : Transaction) : Prop := ∃ result, tx = ({} : Transaction).withResult result

theorem reset_clean (tx : Transaction) : Clean tx.reset := ⟨tx.result, rfl⟩

theorem step_clean {pool : Pool} (h : ∀ tx ∈ pool.free, Clean tx) (s : PoolStep) :
    ∀ tx ∈ (pool.step s).free, Clean tx := by
  cases s with
  | acquire choice =>
    unfold Pool.step Pool.acquire
    dsimp only
    split
    · exact fun tx htx => h tx (List.mem_of_mem_eraseIdx htx)
    · exact h
  | release tx => exact List.forall_mem_cons.mpr ⟨reset_clean tx, h⟩
  | collect i => exact fun tx htx => h tx (List.mem_of_mem_eraseIdx htx)

theorem after_clean (steps : List PoolStep) : ∀ tx ∈ (Pool.after steps).free, Clean tx := by
  unfold Pool.after
  refine List.foldlRecOn steps Pool.step (motive := fun pool => ∀ tx ∈ pool.free, Clean tx) ?_ ?_
  · simp
  · intro pool h s _
    exact step_clean h s

theorem acquire_clean (steps : List PoolStep) (choice : Nat) :
    Clean ((Pool.after steps).acquire choice).1 := by
  unfold Pool.acquire
  split
  next tx htx => exact after_clean steps tx (List.mem_of_getElem? htx)
  next => exact ⟨_, rfl⟩

/-! ## What a run depends on -/

/-- What leaves the stream: what it takes from the budget, its decisions and its audit events. -/
def Effect.leaves : Effect → Bool
  | .acquired _ | .released _ | .finished .. | .audited _ => true
  | .started .. | .ran .. => false

def Exec.published (st : Exec) : List Effect := st.log.filter Effect.leaves

/-- The states differ in what their logs say about the transaction at most. -/
structure Twin (a b : Exec) : Prop where
  tx : a.tx = b.tx
  tick : a.tick = b.tick
  published : a.published = b.published

/-- The states differ in the running decision too. -/
structure Alike (a b : Exec) : Prop where
  tx : ∃ result, b.tx = a.tx.withResult result
  tick : a.tick = b.tick
  published : a.published = b.published

theorem Twin.alike {a b : Exec} (h : Twin a b) : Alike a b := ⟨⟨_, h.tx.symm⟩, h.tick, h.published⟩

section
variable {a b : Exec}

theorem published_emit (h : a.published = b.published) (e : Effect) :
    (a.emit e).published = (b.emit e).published := by
  simp only [Exec.published, Exec.emit_log, List.filter_append] at h ⊢
  rw [h]

/-- An effect that stays within the stream may differ. -/
theorem published_emit_inner (h : a.published = b.published) {e e' : Effect}
    (he : e.leaves = false) (he' : e'.leaves = false) :
    (a.emit e).published = (b.emit e').published := by
  have hnone : ∀ (st : Exec) (e : Effect), e.leaves = false →
      (st.emit e).published = st.published := by
    intro st e he
    simp [Exec.published, he]
  rw [hnone a e he, hnone b e' he', h]

theorem Twin.setTx (h : Twin a b) (tx : Transaction) : Twin (a.setTx tx) (b.setTx tx) :=
  ⟨rfl, h.tick, h.published⟩

theorem Twin.next (h : Twin a b) : Twin a.next b.next :=
  ⟨h.tx, congrArg (· + 1) h.tick, h.published⟩

theorem Twin.emit (h : Twin a b) (e : Effect) : Twin (a.emit e) (b.emit e) :=
  ⟨h.tx, h.tick, published_emit h.published e⟩

theorem Alike.next (h : Alike a b) : Alike a.next b.next :=
  ⟨h.tx, congrArg (· + 1) h.tick, h.published⟩

theorem Alike.emit (h : Alike a b) (e : Effect) : Alike (a.emit e) (b.emit e) :=
  ⟨h.tx, h.tick, published_emit h.published e⟩

/-- An update that leaves the running decision alone. -/
theorem Alike.setTx (h : Alike a b) {f : Transaction → Transaction}
    (hf : ∀ tx result, f (tx.withResult result) = (f tx).withResult result) :
    Alike (a.setTx (f a.tx)) (b.setTx (f b.tx)) := by
  obtain ⟨result, htx⟩ := h.tx
  refine ⟨⟨result, ?_⟩, h.tick, h.published⟩
  show f b.tx = (f a.tx).withResult result
  rw [htx, hf]

/-- What is read of the transaction is not the running decision. -/
theorem Alike.read {α : Type} (h : Alike a b) {f : Transaction → α}
    (hf : ∀ tx result, f (tx.withResult result) = f tx) : f a.tx = f b.tx := by
  obtain ⟨result, htx⟩ := h.tx
  rw [htx, hf]

end

/-- A stage that reads the transaction and asks its questions, but not the log. -/
def Unaware (s : Stage) : Prop :=
  ∀ w ctx a b, Twin a b → Agree Twin (s.process w ctx a) (s.process w ctx b)

section
variable {s : Stage} {w : World} {ctx : Ctx} {a b : Exec}

theorem runStage_agree (hs : Unaware s) (h : Twin a b) :
    Agree Twin (runStage w ctx s a) (runStage w ctx s b) := by
  have hprocess := hs w ctx _ _ (h.emit (.ran s.name a.tx))
  unfold runStage
  rw [← h.tx]
  obtain ⟨r, t, u, ht, hu, htu⟩ := hprocess.cases
  rw [ht, hu]
  cases r with
  | some res => exact ⟨rfl, htu⟩
  | none => exact ⟨rfl, htu⟩

theorem applyDeny_agree (res : StageResult) (h : Twin a b) :
    Agree Twin (applyDeny res a) (applyDeny res b) := by
  unfold applyDeny
  rw [h.tx]
  split
  next =>
    cases res.decision with
    | none => exact ⟨rfl, h⟩
    | some d => exact ⟨rfl, h⟩
  next => exact ⟨rfl, h.setTx _⟩

theorem settle_agree (res : StageResult) (h : Twin a b) :
    Agree Twin (settle res a) (settle res b) := by
  unfold settle
  cases res.action with
  | continue_ => exact ⟨rfl, h⟩
  | allow => exact ⟨by rw [h.tx], h⟩
  | deny => exact applyDeny_agree res h
  | shadowDetect => exact ⟨rfl, by rw [h.tx]; exact h.setTx _⟩
  | skipBody => exact ⟨rfl, by rw [h.tx]; exact h.setTx _⟩
  | skipRemaining => exact ⟨by rw [h.tx], h⟩
  | error => exact ⟨by rw [h.tx], h⟩

theorem stageStep_agree (hs : Unaware s) (h : Twin a b) :
    Agree Twin (stageStep w ctx s a) (stageStep w ctx s b) := by
  unfold stageStep
  rw [h.tx, h.tick]
  split
  next => exact ⟨rfl, h⟩
  split
  next => exact ⟨rfl, h.next⟩
  next => exact (runStage_agree hs h.next).bind fun res _ _ => settle_agree res

end

theorem start_twin (p : Pipeline) {a b : Exec} (h : Alike a b) : Twin (p.start a) (p.start b) := by
  obtain ⟨⟨result, htx⟩, htick, hpub⟩ := h
  refine ⟨?_, htick, published_emit_inner hpub rfl rfl⟩
  show ({ a.tx with result := allowed a.tx.policyID, findings := [] } : Transaction) =
    { b.tx with result := allowed b.tx.policyID, findings := [] }
  rw [htx]
  rfl

/-- A run replaces the running decision before anything reads it. -/
theorem run_agree {p : Pipeline} (hp : ∀ s ∈ p.stages, Unaware s) (w : World) (ctx : Ctx)
    {a b : Exec} (h : Alike a b) : Agree Alike (p.run w ctx a) (p.run w ctx b) := by
  have hrun : Agree Twin (p.run w ctx a) (p.run w ctx b) :=
    chain_agree (fun s hs _ _ => stageStep_agree (hp s hs)) (fun _ _ ht => by rw [ht.tx])
      (start_twin p h)
  exact hrun.imp fun _ _ => Twin.alike

end ElchiShield.Pipeline

namespace ElchiShield.Stages
open ElchiShield.Go ElchiShield.Lib ElchiShield.Engine ElchiShield.Policy ElchiShield.Pipeline

/-! ## The stages -/

section
variable {w : World} {ctx : Ctx} {a b : Exec}

theorem pureStage_unaware (name : Bytes) (phase : Phase) (check : Transaction → StageResult) :
    Unaware (pureStage name phase check) := by
  intro w ctx a b h
  exact ⟨congrArg (fun tx => some (check tx)) h.tx, h⟩

theorem runEngines_agree (inspect : EngineSet → Ctx → Engine.Request → Nat →
    Option (Verdict × List Bytes) × Nat) (h : Twin a b) :
    Agree Twin (runEngines inspect ctx a) (runEngines inspect ctx b) := by
  unfold runEngines
  rw [h.tx, h.tick]
  cases b.tx.policy with
  | none => exact ⟨rfl, h⟩
  | some p =>
    dsimp only
    split
    next => exact ⟨rfl, h⟩
    next =>
      obtain ⟨v | v, tick⟩ := inspect p.engineSet ctx (engineRequest b.tx) b.tick
      · exact ⟨rfl, rfl, rfl, h.published⟩
      · exact ⟨rfl, rfl, rfl, h.published⟩

theorem wafEngine_unaware : Unaware wafEngine := fun _ _ _ _ => runEngines_agree _

theorem wafHeaderEngine_unaware : Unaware wafHeaderEngine := fun _ _ _ _ => runEngines_agree _

theorem bodyGate_unaware : Unaware bodyGate := by
  intro w ctx a b h
  unfold bodyGate
  dsimp only
  rw [h.tx]
  cases b.tx.policy with
  | none => exact ⟨rfl, h⟩
  | some p =>
    dsimp only
    split
    next => exact ⟨rfl, h⟩
    next => exact ⟨rfl, h.setTx _⟩

theorem reserveBody_agree (n : Nat) (h : Twin a b) :
    Agree Twin (reserveBody w n a) (reserveBody w n b) := by
  unfold reserveBody
  rw [h.tx, h.tick]
  split
  next => exact ⟨rfl, h⟩
  next => exact ⟨rfl, (h.next.emit _).setTx _⟩

variable [Library]

theorem contextInit_unaware (hops : Int) : Unaware (contextInit hops) := by
  intro w ctx a b h
  refine ⟨rfl, ?_⟩
  show Twin (a.setTx (initContext hops a.tx)) (b.setTx (initContext hops b.tx))
  rw [h.tx]
  exact h.setTx _

theorem policyResolve_unaware : Unaware policyResolve := by
  intro w ctx a b h
  unfold policyResolve
  dsimp only
  rw [h.tx]
  cases b.tx.snapshot with
  | none => exact ⟨rfl, h⟩
  | some snap => exact ⟨rfl, h.setTx _⟩

theorem earlyDecision_unaware (defaultAllow : Bool) : Unaware (earlyDecision defaultAllow) := by
  intro w ctx a b h
  unfold earlyDecision
  dsimp only
  rw [h.tx]
  split
  next => exact ⟨rfl, h⟩
  next =>
    cases b.tx.policy with
    | none =>
      dsimp only
      split
      next => exact ⟨rfl, h⟩
      next => exact ⟨rfl, h.setTx _⟩
    | some p =>
      dsimp only
      split
      next => exact ⟨rfl, h⟩
      next => exact ⟨rfl, h⟩

theorem decodeInto_agree (enc : Bytes) (h : Twin a b) :
    Agree Twin (decodeInto w enc a) (decodeInto w enc b) := by
  unfold decodeInto
  rw [h.tx]
  cases decodeBody enc b.tx.body with
  | none => exact ⟨rfl, h⟩
  | some decoded =>
    have hreserve := reserveBody_agree (w := w) (decoded.length - b.tx.body.length) h
    obtain ⟨granted, t, u, ht, hu, htu⟩ := hreserve.cases
    dsimp only
    rw [ht, hu]
    cases granted with
    | false =>
      dsimp only
      rw [htu.tx]
      exact ⟨rfl, htu⟩
    | true =>
      dsimp only
      rw [htu.tx]
      exact ⟨rfl, htu.setTx _⟩

theorem bodyContentDecode_unaware : Unaware bodyContentDecode := by
  intro w ctx a b h
  unfold bodyContentDecode
  dsimp only
  rw [h.tx]
  cases b.tx.policy with
  | none => exact ⟨rfl, h⟩
  | some p =>
    dsimp only
    split
    next => exact ⟨rfl, h⟩
    next =>
      cases b.tx.header contentEncoding with
      | none => exact ⟨rfl, h⟩
      | some enc =>
        dsimp only
        split
        next => exact ⟨rfl, h⟩
        split
        next => exact ⟨rfl, h⟩
        split
        next => exact ⟨rfl, h⟩
        next =>
          exact (decodeInto_agree _ h).bind (k := fun res t => (some res, t)) fun _ _ _ ht => ⟨rfl, ht⟩

omit [Library] in
theorem runDLP_agree (det : Detector) (p : CompiledPolicy) (dlp : CompiledDLP) (h : Twin a b) :
    Agree Twin (runDLP det p dlp a) (runDLP det p dlp b) := by
  unfold runDLP
  dsimp only
  rw [h.tx]
  cases (det.matches b.tx.body).find? fun m => dlp.block.contains m.kind with
  | some m => exact ⟨rfl, h⟩
  | none =>
    dsimp only
    cases redactBody b.tx.body (det.matches b.tx.body) dlp.redact with
    | none => exact ⟨rfl, h⟩
    | some r =>
      obtain ⟨redacted, changed⟩ := r
      dsimp only
      split
      next => exact ⟨rfl, h⟩
      split
      next => exact ⟨rfl, h.setTx _⟩
      next => exact ⟨rfl, h⟩

theorem bodyChecks_unaware (detector : Option Detector) : Unaware (bodyChecks detector) := by
  intro w ctx a b h
  unfold bodyChecks
  dsimp only
  rw [h.tx]
  cases b.tx.policy with
  | none => exact ⟨rfl, h⟩
  | some p =>
    dsimp only
    split
    next => exact ⟨rfl, h⟩
    next =>
      cases (jsonCheck p b.tx).or (sensitiveCheck detector p b.tx) with
      | some res => exact ⟨rfl, h⟩
      | none =>
        dsimp only
        cases p.checks.dlp with
        | none => exact ⟨rfl, h⟩
        | some dlp =>
          cases detector with
          | none => exact ⟨rfl, h⟩
          | some det =>
            dsimp only
            split
            next => exact runDLP_agree det p dlp h
            next => exact ⟨rfl, h⟩

theorem HeaderPipeline.unaware {dir : Direction} {p : Pipeline} (h : HeaderPipeline dir p) :
    ∀ s ∈ p.stages, Unaware s := by
  intro s hs
  rcases h.mem hs with rfl | rfl | rfl
  · exact pureStage_unaware _ _ _
  · exact wafHeaderEngine_unaware
  · exact bodyGate_unaware

theorem BodyPipeline.unaware {deps : Deps} {dir : Direction} {p : Pipeline}
    (h : BodyPipeline deps dir p) : ∀ s ∈ p.stages, Unaware s := by
  obtain ⟨body, hstages, hbody⟩ := h.stages
  rw [hstages]
  refine List.forall_mem_cons.mpr ⟨pureStage_unaware _ _ _, ?_⟩
  refine List.forall_mem_cons.mpr ⟨bodyContentDecode_unaware, fun s hs => ?_⟩
  rcases hbody s hs with rfl | rfl
  · exact bodyChecks_unaware _
  · exact wafEngine_unaware

theorem requestPrelude_unaware (deps : Deps) : ∀ s ∈ (requestPrelude deps).stages, Unaware s := by
  refine List.forall_mem_cons.mpr ⟨contextInit_unaware _, ?_⟩
  refine List.forall_mem_cons.mpr ⟨policyResolve_unaware, ?_⟩
  exact List.forall_mem_singleton.mpr (earlyDecision_unaware _)

theorem responsePrelude_unaware (deps : Deps) : ∀ s ∈ (responsePrelude deps).stages, Unaware s :=
  List.forall_mem_singleton.mpr (contextInit_unaware _)

end

end ElchiShield.Stages

namespace ElchiShield.Extproc
open ElchiShield.Go ElchiShield.Lib ElchiShield.Engine ElchiShield.Policy ElchiShield.Runtime
open ElchiShield.Pipeline ElchiShield.Stages

/-! ## The handlers -/

section
variable {a b : Exec} (pr : Processor) (w : World) (phase : Audit.Phase) (d : Decision)

theorem emitEvent_alike (h : Alike a b) :
    Alike (pr.emitEvent phase d a) (pr.emitEvent phase d b) := by
  have hevent : pr.event a.tx phase d = pr.event b.tx phase d :=
    h.read (f := fun tx => pr.event tx phase d) fun _ _ => rfl
  unfold Processor.emitEvent
  rw [hevent]
  exact h.emit _

theorem emitEvents_alike (fs : List Decision) (h : Alike a b) :
    Alike (fs.foldl (fun st f => pr.emitEvent phase f st) a)
      (fs.foldl (fun st f => pr.emitEvent phase f st) b) := by
  induction fs generalizing a b with
  | nil => exact h
  | cons f fs ih => exact ih (emitEvent_alike pr phase f h)

theorem emitAudit_alike (h : Alike a b) :
    Alike (pr.emitAudit w phase d a) (pr.emitAudit w phase d b) := by
  have hfindings : a.tx.findings = b.tx.findings := h.read fun _ _ => rfl
  have hpolicy : a.tx.policy = b.tx.policy := h.read fun _ _ => rfl
  unfold Processor.emitAudit
  rw [hfindings, hpolicy, h.tick]
  split
  next => exact h
  split
  next => exact emitEvents_alike pr phase _ h
  split
  next => exact emitEvent_alike pr phase d h
  dsimp only
  split
  next => exact emitEvent_alike pr phase d h.next
  next => exact h.next

theorem finish_alike (h : Alike a b) : Alike (pr.finish w phase d a) (pr.finish w phase d b) := by
  have hsettled : Alike
      (if phase.direction = .request then a.setTx { a.tx with requestSettled := true } else a)
      (if phase.direction = .request then b.setTx { b.tx with requestSettled := true } else b) := by
    split
    next => exact h.setTx (f := fun tx => { tx with requestSettled := true }) fun _ _ => rfl
    next => exact h
  exact emitAudit_alike pr w phase d (hsettled.emit _)

theorem failBuildDecision_agree (h : Alike a b) :
    Agree Alike (pr.failBuildDecision w phase a) (pr.failBuildDecision w phase b) := by
  have hfailed : Processor.buildFailed a.tx = Processor.buildFailed b.tx := h.read fun _ _ => rfl
  unfold Processor.failBuildDecision
  rw [hfailed]
  exact ⟨rfl, finish_alike pr w phase _ h⟩

variable [Library]

/-- A phase ends alike where it starts alike. -/
theorem runInspect_agree {p : CompiledPolicy} {pp : PolicyPipelines}
    (hpp : pr.policyPipelines p = .ok pp) (h : Alike a b) :
    Agree Alike (Processor.runInspect w (phasePipeline pp phase) a)
      (Processor.runInspect w (phasePipeline pp phase) b) := by
  have hctx : Processor.inspectCtx w a = Processor.inspectCtx w b := by
    have hpolicy : a.tx.policy = b.tx.policy := h.read fun _ _ => rfl
    unfold Processor.inspectCtx
    rw [hpolicy, h.tick]
  unfold Processor.runInspect
  rw [hctx]
  refine run_agree ?_ w _ h
  cases phase with
  | requestHeaders => exact (buildPolicyPipelines_spec hpp .request).1.unaware
  | requestBody => exact (buildPolicyPipelines_spec hpp .request).2.unaware
  | responseHeaders => exact (buildPolicyPipelines_spec hpp .response).1.unaware
  | responseBody => exact (buildPolicyPipelines_spec hpp .response).2.unaware

theorem inspectBufferedBody_agree (h : Alike a b) :
    Agree Alike (pr.inspectBufferedBody w a) (pr.inspectBufferedBody w b) := by
  have hpolicy : a.tx.policy = b.tx.policy := h.read fun _ _ => rfl
  have hinspected : a.tx.bodyInspected = b.tx.bodyInspected := h.read fun _ _ => rfl
  have hrequired : a.tx.bodyRequired = b.tx.bodyRequired := h.read fun _ _ => rfl
  have hwaf : a.tx.wafEnabled = b.tx.wafEnabled := h.read fun _ _ => rfl
  have hdirection : a.tx.direction = b.tx.direction := h.read fun _ _ => rfl
  have hlatched : Alike (latched a) (latched b) :=
    h.setTx (f := fun tx => { tx with bodyInspected := true }) fun _ _ => rfl
  unfold Processor.inspectBufferedBody
  rw [hpolicy, hinspected, hrequired, hwaf]
  cases b.tx.policy with
  | none => exact ⟨rfl, h⟩
  | some p =>
    dsimp only
    split
    next => exact ⟨rfl, h⟩
    split
    next => exact ⟨rfl, h⟩
    rw [show (latched a).tx.direction = (latched b).tx.direction from hdirection]
    cases hpp : pr.policyPipelines p with
    | error e =>
      exact (failBuildDecision_agree pr w _ hlatched).bind (k := fun d t => (some d, t))
        fun _ _ _ ht => ⟨rfl, ht⟩
    | ok pp =>
      have hrun := runInspect_agree pr w (Audit.bodyPhase (latched b).tx.direction) hpp hlatched
      rw [phasePipeline_body] at hrun
      exact hrun.bind (k := fun d t => (some d, pr.finish w _ d t))
        fun d _ _ ht => ⟨rfl, finish_alike pr w _ d ht⟩

theorem inspectHeaders_agree (dir : Direction) (reply : Bool → ProcessingResponse)
    (endOfStream : Bool) (p : CompiledPolicy) (h : Alike a b) :
    Agree Alike (pr.inspectHeaders w dir reply endOfStream p a)
      (pr.inspectHeaders w dir reply endOfStream p b) := by
  unfold Processor.inspectHeaders
  dsimp only
  cases hpp : pr.policyPipelines p with
  | error e =>
    exact (failBuildDecision_agree pr w _ h).bind
      (k := fun d t => (Processor.replyTo (some d) (continueFor (Audit.headersPhase dir)), t))
      fun _ _ _ ht => ⟨rfl, ht⟩
  | ok pp =>
    have hrun := runInspect_agree pr w (Audit.headersPhase dir) hpp h
    rw [phasePipeline_headers] at hrun
    obtain ⟨d, t, u, ht, hu, htu⟩ := hrun.cases
    have hrequired : t.tx.bodyRequired = u.tx.bodyRequired := htu.read fun _ _ => rfl
    have hwaf : t.tx.wafEnabled = u.tx.wafEnabled := htu.read fun _ _ => rfl
    dsimp only
    rw [ht, hu]
    dsimp only
    rw [hrequired, hwaf]
    split
    next => exact ⟨rfl, finish_alike pr w _ d htu⟩
    split
    next =>
      have hfindings : Alike (headerFindings pr w (Audit.headersPhase dir) d t)
          (headerFindings pr w (Audit.headersPhase dir) d u) := by
        unfold headerFindings
        split
        next => exact emitAudit_alike pr w _ d htu
        next => exact htu
      split
      next =>
        exact (inspectBufferedBody_agree pr w hfindings).bind
          (k := fun bd t => (Processor.replyTo bd (reply false), t)) fun _ _ _ ht => ⟨rfl, ht⟩
      next => exact ⟨rfl, hfindings⟩
    next => exact ⟨rfl, finish_alike pr w _ d htu⟩

theorem adoptRequestID_alike (h : Alike a b) :
    Alike (Processor.adoptRequestID w a) (Processor.adoptRequestID w b) := by
  have hheader : a.tx.header (ascii "x-request-id") = b.tx.header (ascii "x-request-id") :=
    h.read (f := fun tx => tx.header _) fun _ _ => rfl
  have hid : a.tx.requestID = b.tx.requestID := h.read fun _ _ => rfl
  have hminted : Alike
      (if b.tx.requestID = [] then a.next.setTx { a.tx with requestID := w.requestID b.tick } else a)
      (if b.tx.requestID = [] then b.next.setTx { b.tx with requestID := w.requestID b.tick }
        else b) := by
    split
    next =>
      exact h.next.setTx (f := fun tx => { tx with requestID := w.requestID b.tick }) fun _ _ => rfl
    next => exact h
  unfold Processor.adoptRequestID
  rw [hheader, hid, h.tick]
  cases b.tx.header (ascii "x-request-id") with
  | none => exact hminted
  | some rid =>
    cases rid with
    | nil => exact hminted
    | cons c rid => exact h.setTx (f := fun tx => { tx with requestID := c :: rid }) fun _ _ => rfl

theorem loadRequest_alike (hs : HttpHeaders) (h : Alike a b) :
    Alike (Processor.loadRequest w hs a) (Processor.loadRequest w hs b) :=
  adoptRequestID_alike w (h.setTx
    (f := fun tx => { tx with direction := .request, headers := loadHeaders hs.headers })
    fun _ _ => rfl)

omit [Library] in
theorem beginResponse_alike (h : Alike a b) : Alike (beginResponse a) (beginResponse b) := by
  have hreserved : a.tx.bodyReserved = b.tx.bodyReserved := h.read fun _ _ => rfl
  obtain ⟨result, htx⟩ := h.tx
  unfold beginResponse
  dsimp only
  rw [hreserved]
  split
  next =>
    refine ⟨⟨result, ?_⟩, h.tick, published_emit h.published _⟩
    rw [htx]
    rfl
  next =>
    refine ⟨⟨result, ?_⟩, h.tick, h.published⟩
    rw [htx]
    rfl

omit [Library] in
theorem loadResponse_alike (hs : HttpHeaders) (h : Alike a b) :
    Alike (loadResponse hs a) (loadResponse hs b) :=
  (beginResponse_alike h).setTx (f := fun tx => { tx with headers := loadHeaders hs.headers })
    fun _ _ => rfl

omit [Library] in
theorem appendBody_withResult (tx : Transaction) (result : Decision) (chunk : Bytes) (max : Int) :
    (tx.withResult result).appendBody chunk max = ((tx.appendBody chunk max).1,
      (tx.appendBody chunk max).2.1, (tx.appendBody chunk max).2.2.withResult result) := by
  unfold Transaction.appendBody
  dsimp only [Transaction.withResult]
  split
  next => rfl
  split
  next => rfl
  split
  next => rfl
  next => rfl

omit [Library] in
theorem truncated_alike (c : Prop) [Decidable c] (h : Alike a b) :
    Alike (if c then a.setTx { a.tx with bodyTruncated := true } else a)
      (if c then b.setTx { b.tx with bodyTruncated := true } else b) := by
  split
  next => exact h.setTx (f := fun tx => { tx with bodyTruncated := true }) fun _ _ => rfl
  next => exact h

omit [Library] in
theorem appendBody_alike (dir : Direction) (chunk : Bytes) (h : Alike a b) :
    Alike (pr.appendBody w dir chunk a) (pr.appendBody w dir chunk b) := by
  have hlimit : pr.bodyLimit a.tx dir = pr.bodyLimit b.tx dir :=
    h.read (f := fun tx => pr.bodyLimit tx dir) fun _ _ => rfl
  have hacquired := h.next.emit (.acquired (w.grant b.tick chunk.length))
  obtain ⟨result, htx⟩ := h.tx
  unfold Processor.appendBody
  rw [h.tick]
  split
  next => exact h
  next =>
    refine truncated_alike _ ?_
    split
    next =>
      dsimp only [Exec.emit_tx, Exec.next_tx]
      rw [hlimit, htx, appendBody_withResult]
      dsimp only
      split
      next =>
        exact ⟨⟨result, rfl⟩, hacquired.tick, published_emit hacquired.published _⟩
      next => exact ⟨⟨result, rfl⟩, hacquired.tick, hacquired.published⟩
    next => exact hacquired

omit [Library] in
theorem buffered_alike (dir : Direction) (chunk : Bytes) (h : Alike a b) :
    Alike (buffered pr w dir chunk a) (buffered pr w dir chunk b) := by
  refine appendBody_alike pr w dir chunk (h.setTx (f := Processor.reopen chunk) fun tx result => ?_)
  rw [reopen_eq, reopen_eq]
  rfl

theorem onRequestHeaders_agree (hs : HttpHeaders) (h : Alike a b) :
    Agree Alike (pr.onRequestHeaders w hs a) (pr.onRequestHeaders w hs b) := by
  have hsettled : a.tx.requestSettled = b.tx.requestSettled := h.read fun _ _ => rfl
  have hprelude := run_agree (requestPrelude_unaware pr.deps) w w.ctx (loadRequest_alike w hs h)
  obtain ⟨d, t, u, ht, hu, htu⟩ := hprelude.cases
  have hpolicy : t.tx.policy = u.tx.policy := htu.read fun _ _ => rfl
  have hreply : Processor.requestReply t = Processor.requestReply u := by
    unfold Processor.requestReply
    rw [hpolicy]
  have hfinish := finish_alike pr w .requestHeaders d htu
  unfold Processor.onRequestHeaders
  rw [hsettled, ht, hu]
  dsimp only
  rw [hpolicy, hreply]
  split
  next => exact ⟨rfl, h⟩
  split
  next => exact ⟨rfl, hfinish⟩
  cases u.tx.policy with
  | none => exact ⟨rfl, hfinish⟩
  | some p =>
    dsimp only
    split
    next => exact ⟨rfl, hfinish⟩
    next => exact inspectHeaders_agree pr w .request _ _ p htu

theorem onResponseHeaders_agree (hs : HttpHeaders) (h : Alike a b) :
    Agree Alike (pr.onResponseHeaders w hs a) (pr.onResponseHeaders w hs b) := by
  have hprelude := run_agree (responsePrelude_unaware pr.deps) w w.ctx (loadResponse_alike hs h)
  obtain ⟨d, t, u, ht, hu, htu⟩ := hprelude.cases
  have hpolicy : t.tx.policy = u.tx.policy := htu.read fun _ _ => rfl
  have hfinish := finish_alike pr w .responseHeaders d htu
  unfold Processor.onResponseHeaders
  dsimp only
  rw [← loadResponse, ← loadResponse, ht, hu]
  dsimp only
  rw [hpolicy]
  cases u.tx.policy with
  | none => exact ⟨rfl, hfinish⟩
  | some p =>
    dsimp only
    split
    next => exact ⟨rfl, hfinish⟩
    next => exact inspectHeaders_agree pr w .response _ _ p htu

theorem onBody_agree (dir : Direction) (body : HttpBody) (h : Alike a b) :
    Agree Alike (pr.onBody w dir body a) (pr.onBody w dir body b) := by
  have hpolicy : a.tx.policy = b.tx.policy := h.read fun _ _ => rfl
  have hbuffered := buffered_alike pr w dir body.body h
  obtain ⟨bd, t, u, ht, hu, htu⟩ := (inspectBufferedBody_agree pr w hbuffered).cases
  have hmutated : t.tx.bodyMutated = u.tx.bodyMutated := htu.read fun _ _ => rfl
  have hbody : t.tx.body = u.tx.body := htu.read fun _ _ => rfl
  unfold Processor.onBody
  rw [hpolicy]
  cases b.tx.policy with
  | none => exact ⟨rfl, h⟩
  | some p =>
    dsimp only
    rw [← buffered, ← buffered, ht, hu]
    split
    next => exact ⟨rfl, hbuffered⟩
    next =>
      dsimp only
      rw [hmutated, hbody]
      exact ⟨rfl, htu⟩

theorem handle_agree (m : Message) (h : Alike a b) :
    Agree Alike (pr.handle w a m) (pr.handle w b m) := by
  have hsome : ∀ {x y : ProcessingResponse × Exec}, Agree Alike x y →
      Agree Alike (x.map some id) (y.map some id) := fun hxy => ⟨congrArg some hxy.1, hxy.2⟩
  have htrailers : ∀ dir, Agree Alike (pr.onTrailers w dir a) (pr.onTrailers w dir b) :=
    fun dir => (inspectBufferedBody_agree pr w h).bind
      (k := fun bd t => (Processor.replyTo bd (trailersContinue dir), t)) fun _ _ _ ht => ⟨rfl, ht⟩
  cases m with
  | requestHeaders attributes hs =>
    exact hsome (onRequestHeaders_agree pr w hs
      (h.setTx (f := fun tx => { tx with nodeID := listenerIDFromAttributes attributes })
        fun _ _ => rfl))
  | requestBody body => exact hsome (onBody_agree pr w .request body h)
  | requestTrailers => exact hsome (htrailers .request)
  | responseHeaders hs => exact hsome (onResponseHeaders_agree pr w hs h)
  | responseBody body => exact hsome (onBody_agree pr w .response body h)
  | responseTrailers => exact hsome (htrailers .response)
  | other => exact ⟨rfl, h⟩

end

/-- The start of `Process` with the transaction it has acquired. -/
def Processor.openStream (pr : Processor) (snap : Snapshot) (tx : Transaction) : Exec where
  tx := { tx with snapshot := some snap, listenerID := pr.listenerID }

/-- Whatever streams were served before, and whichever transaction of theirs a stream gets: its
replies, decisions and audit events are those of a stream with a new transaction. -/
theorem pooled_stream_is_new [Library] (steps : List PoolStep) (choice : Nat) (pr : Processor)
    (w : World) (snap : Snapshot) (ms : List Message) :
    let pooled := pr.openStream snap ((Pool.after steps).acquire choice).1
    (trace (pr.handle w) pooled ms).map Event.output =
        (trace (pr.handle w) (pr.newStream snap) ms).map Event.output ∧
      (runFrom (pr.handle w) pooled ms).published =
        (runFrom (pr.handle w) (pr.newStream snap) ms).published := by
  obtain ⟨result, htx⟩ := acquire_clean steps choice
  have halike : Alike (pr.newStream snap) (pr.openStream snap ((Pool.after steps).acquire choice).1) := by
    refine ⟨⟨result, ?_⟩, rfl, rfl⟩
    rw [htx]
    rfl
  obtain ⟨houtputs, hend⟩ := trace_agree (R := Alike) (fun _ _ m => handle_agree pr w m) ms halike
  exact ⟨houtputs.symm, hend.published.symm⟩

end ElchiShield.Extproc
