import ElchiShield.Extproc.Processor
import ElchiShield.Stages.Inspectors

/-! # The parts of a handler

What the handlers of the processor are made of: recording a decision, the two preludes, and
buffering a chunk. Of the log a handler's *trail* matters here: which pipelines it starts and
which decisions it finishes with. -/
namespace ElchiShield.Extproc
open ElchiShield.Go ElchiShield.Lib ElchiShield.Engine ElchiShield.Policy ElchiShield.Runtime
open ElchiShield.Pipeline ElchiShield.Stages

def isAudit : Effect → Bool
  | .audited _ => true
  | _ => false

/-- The pipelines a stream has started and the decisions it has finished with. -/
def trail (st : Exec) : List Effect := st.outer.filter fun e => !isAudit e

theorem trail_outer {a b : Exec} (h : b.outer = a.outer) : trail b = trail a := by
  rw [trail, h, trail]

theorem trail_start (p : Pipeline) (st : Exec) :
    trail (p.start st) = trail st ++ [.started p.name st.tx] := by
  simp [trail, Exec.outer, Pipeline.start, Effect.outer, isAudit]

/-! ## Recording a decision -/

/-- Only the log and the tick have moved on, and no pipeline was started or finished. -/
structure Noted (a b : Exec) : Prop where
  tx : b.tx = a.tx
  tick : a.tick ≤ b.tick
  trail : trail b = trail a

theorem Noted.refl (st : Exec) : Noted st st := ⟨rfl, Nat.le_refl _, rfl⟩

theorem Noted.trans {a b c : Exec} (hab : Noted a b) (hbc : Noted b c) : Noted a c :=
  ⟨hbc.tx.trans hab.tx, hab.tick.trans hbc.tick, hbc.trail.trans hab.trail⟩

/-- The decisions that an audit emits an event for. -/
def audited (pr : Processor) (w : World) (d : Decision) (st : Exec) : List Decision :=
  if !pr.auditor then []
  else if st.tx.findings ≠ [] then st.tx.findings
  else if d.action ≠ .allow ∧ d.action ≠ .continue_ then [d]
  else if Audit.sample ((st.tx.policy.map CompiledPolicy.samplingRate).getD (.fin 1))
      (w.random st.tick) then [d]
  else []

theorem emitEvents_log (pr : Processor) (phase : Audit.Phase) (fs : List Decision) (st : Exec) :
    fs.foldl (fun st f => pr.emitEvent phase f st) st =
      { st with log := st.log ++ fs.map fun f => .audited (pr.event st.tx phase f) } := by
  induction fs generalizing st with
  | nil => simp
  | cons f fs ih =>
    rw [List.foldl_cons, ih]
    simp [Processor.emitEvent, Exec.emit]

/-- The effects of an audit. -/
theorem emitAudit_spec (pr : Processor) (w : World) (phase : Audit.Phase) (d : Decision)
    (st : Exec) : ∃ tick, st.tick ≤ tick ∧ pr.emitAudit w phase d st =
      { st with
        tick
        log := st.log ++ (audited pr w d st).map fun f => .audited (pr.event st.tx phase f) } := by
  unfold Processor.emitAudit audited
  split
  · exact ⟨st.tick, Nat.le_refl _, by simp⟩
  split
  · exact ⟨st.tick, Nat.le_refl _, emitEvents_log ..⟩
  split
  · exact ⟨st.tick, Nat.le_refl _, rfl⟩
  dsimp only
  split
  · exact ⟨st.tick + 1, Nat.le_succ _, rfl⟩
  · exact ⟨st.tick + 1, Nat.le_succ _, by simp [Exec.next]⟩

theorem emitAudit_noted (pr : Processor) (w : World) (phase : Audit.Phase) (d : Decision)
    (st : Exec) : Noted st (pr.emitAudit w phase d st) := by
  obtain ⟨tick, hle, heq⟩ := emitAudit_spec pr w phase d st
  rw [heq]
  refine ⟨rfl, hle, ?_⟩
  have hnone : ∀ ds : List Decision,
      (ds.map fun f => Effect.audited (pr.event st.tx phase f)).filter (fun e => !isAudit e) = [] := by
    intro ds
    simp [List.filter_eq_nil_iff, isAudit]
  have houter : ∀ ds : List Decision,
      (ds.map fun f => Effect.audited (pr.event st.tx phase f)).filter Effect.outer =
        ds.map fun f => Effect.audited (pr.event st.tx phase f) := by
    intro ds
    simp [List.filter_eq_self, Effect.outer]
  simp only [trail, Exec.outer, List.filter_append, houter, hnone, List.append_nil]

/-- What finishing a phase does: a request phase settles the request. -/
theorem finish_spec (pr : Processor) (w : World) (phase : Audit.Phase) (d : Decision)
    (st : Exec) :
    (pr.finish w phase d st).tx = (if phase.direction = .request then
        { st.tx with requestSettled := true } else st.tx) ∧
      st.tick ≤ (pr.finish w phase d st).tick ∧
      trail (pr.finish w phase d st) = trail st ++ [.finished phase d] := by
  obtain ⟨t, ht⟩ : ∃ t, t = if phase.direction = .request then
      st.setTx { st.tx with requestSettled := true } else st := ⟨_, rfl⟩
  have h := emitAudit_noted pr w phase d (t.emit (.finished phase d))
  have htrail : trail (t.emit (.finished phase d)) = trail t ++ [.finished phase d] := by
    simp [trail, Exec.outer, Effect.outer, isAudit]
  unfold Processor.finish
  dsimp only
  rw [← ht]
  refine ⟨?_, ?_, ?_⟩
  · rw [h.tx, ht]; split <;> rfl
  · refine Nat.le_trans ?_ h.tick
    rw [ht]; split <;> exact Nat.le_refl _
  · rw [h.trail, htrail, ht]; split <;> rfl

/-- The effects of finishing a phase. -/
theorem finish_log (pr : Processor) (w : World) (phase : Audit.Phase) (d : Decision) (st : Exec) :
    (pr.finish w phase d st).log = st.log ++ .finished phase d ::
      (audited pr w d st).map fun f => .audited (pr.event st.tx phase f) := by
  unfold Processor.finish
  dsimp only
  split
  all_goals
    obtain ⟨tick, -, heq⟩ := emitAudit_spec pr w phase d _
    rw [heq]
    show st.log ++ [.finished phase d] ++
      (audited pr w d st).map (fun f => .audited (pr.event st.tx phase f)) = _
    rw [List.append_assoc]
    rfl

/-- Finishing a phase writes no other field of the transaction. -/
theorem finish_keeps {α : Type} (f : Transaction → α)
    (hf : ∀ tx, f { tx with requestSettled := true } = f tx) (pr : Processor) (w : World)
    (phase : Audit.Phase) (d : Decision) (st : Exec) :
    f (pr.finish w phase d st).tx = f st.tx := by
  rw [(finish_spec pr w phase d st).1]
  split
  · exact hf _
  · rfl

/-! ## The start of the response -/

theorem beginResponse_spec (st : Exec) : ∃ bodyReserved log, beginResponse st =
    { st with
      tx := { st.tx with
        direction := .response, headers := [], contentType := [], body := [], bodyTruncated := false,
        bodyInspected := false, bodyMutated := false, anomalyScore := 0, anomalyDenied := false,
        bodyRequired := false, wafEnabled := false, bodyReserved }
      log } ∧ log.filter Effect.outer = st.outer := by
  unfold beginResponse
  dsimp only
  split
  · exact ⟨_, _, rfl, by simp [Exec.outer, Effect.outer]⟩
  · exact ⟨_, _, rfl, rfl⟩

theorem beginResponse_log (st : Exec) : OnlyBudget st (beginResponse st) := by
  unfold beginResponse
  dsimp only
  split
  · exact ⟨[.released st.tx.bodyReserved], rfl, by simp [Effect.ofBudget]⟩
  · exact .of_log rfl

/-! ## The preludes -/

/-- A transaction without what the preludes derive from its headers. -/
def unresolved (tx : Transaction) : Transaction :=
  { tx with
    host := []
    path := []
    method := []
    contentType := []
    sourceIP := []
    policy := none
    result := { action := .continue_ }
    findings := [] }

/-- Between `a` and `b` the attributes and the policy of the request were resolved. -/
structure Resolving (a b : Exec) : Prop where
  unresolved : unresolved b.tx = unresolved a.tx
  outer : b.outer = a.outer

namespace Resolving
variable {a b : Exec}

theorem snapshot (h : Resolving a b) : b.tx.snapshot = a.tx.snapshot :=
  (congrArg Transaction.snapshot h.unresolved :)

theorem direction (h : Resolving a b) : b.tx.direction = a.tx.direction :=
  (congrArg Transaction.direction h.unresolved :)

theorem headers (h : Resolving a b) : b.tx.headers = a.tx.headers :=
  (congrArg Transaction.headers h.unresolved :)

theorem bodyReserved (h : Resolving a b) : b.tx.bodyReserved = a.tx.bodyReserved :=
  (congrArg Transaction.bodyReserved h.unresolved :)

theorem body (h : Resolving a b) : b.tx.body = a.tx.body :=
  (congrArg Transaction.body h.unresolved :)

theorem bodyRequired (h : Resolving a b) : b.tx.bodyRequired = a.tx.bodyRequired :=
  (congrArg Transaction.bodyRequired h.unresolved :)

theorem wafEnabled (h : Resolving a b) : b.tx.wafEnabled = a.tx.wafEnabled :=
  (congrArg Transaction.wafEnabled h.unresolved :)

theorem bodyTruncated (h : Resolving a b) : b.tx.bodyTruncated = a.tx.bodyTruncated :=
  (congrArg Transaction.bodyTruncated h.unresolved :)

theorem bodyInspected (h : Resolving a b) : b.tx.bodyInspected = a.tx.bodyInspected :=
  (congrArg Transaction.bodyInspected h.unresolved :)

theorem bodyMutated (h : Resolving a b) : b.tx.bodyMutated = a.tx.bodyMutated :=
  (congrArg Transaction.bodyMutated h.unresolved :)

theorem requestSettled (h : Resolving a b) : b.tx.requestSettled = a.tx.requestSettled :=
  (congrArg Transaction.requestSettled h.unresolved :)

end Resolving

theorem resolving_executes : Executes Resolving where
  refl _ := ⟨rfl, rfl⟩
  trans _ _ _ hab hbc := ⟨hbc.unresolved.trans hab.unresolved, hbc.outer.trans hab.outer⟩
  next _ := ⟨rfl, rfl⟩
  ran _ _ _ := ⟨rfl, by simp [Exec.outer, Effect.outer]⟩
  record _ _ _ := ⟨rfl, rfl⟩

section
variable [Library]

theorem initContext_spec (hops : Int) (tx : Transaction) :
    ∃ host path method contentType sourceIP,
      initContext hops tx = { tx with host, path, method, contentType, sourceIP } := by
  unfold initContext
  dsimp only
  split
  · exact ⟨_, _, _, _, _, rfl⟩
  · exact ⟨_, _, _, _, _, rfl⟩

theorem contextInit_within (hops : Int) : Within Resolving (contextInit hops) := by
  refine ⟨?_, fun _ _ _ => plain_of_some .continue_, ?_, ?_⟩ <;> intro w ctx st
  all_goals
    obtain ⟨host, path, method, contentType, sourceIP, heq⟩ := initContext_spec hops st.tx
    unfold contextInit
    dsimp only
    rw [heq]
  · exact ⟨rfl, rfl⟩
  · rfl
  · rfl

theorem policyResolve_within : Within Resolving policyResolve := by
  have hprocess : ∀ w ctx st, ∃ policy,
      policyResolve.process w ctx st = (some .continue_, st.setTx { st.tx with policy }) := by
    intro w ctx st
    unfold policyResolve
    dsimp only
    split
    · exact ⟨_, rfl⟩
    · exact ⟨_, rfl⟩
  refine ⟨?_, ?_, ?_, ?_⟩ <;> intro w ctx st
  all_goals
    obtain ⟨policy, heq⟩ := hprocess w ctx st
    rw [heq]
  · exact ⟨rfl, rfl⟩
  · exact plain_of_some .continue_
  · rfl
  · rfl

theorem earlyDecision_within (defaultAllow : Bool) : Within Resolving (earlyDecision defaultAllow) := by
  have hprocess : ∀ w ctx st, ∃ res policy, Plain res ∧
      (earlyDecision defaultAllow).process w ctx st = (some res, st.setTx { st.tx with policy }) := by
    intro w ctx st
    unfold earlyDecision
    dsimp only
    split
    · exact ⟨_, _, plain_deny .., rfl⟩
    split
    · split
      · exact ⟨_, _, .skipRemaining, rfl⟩
      · exact ⟨_, _, .deny _ rfl, rfl⟩
    · split
      · exact ⟨_, _, .skipRemaining, rfl⟩
      · exact ⟨_, _, .continue_, rfl⟩
  refine ⟨?_, ?_, ?_, ?_⟩ <;> intro w ctx st
  all_goals
    obtain ⟨res, policy, hplain, heq⟩ := hprocess w ctx st
    rw [heq]
  · exact ⟨rfl, rfl⟩
  · exact plain_of_some hplain
  · rfl
  · rfl

theorem requestPrelude_within (deps : Deps) :
    ∀ s ∈ (requestPrelude deps).stages, Within Resolving s := by
  simp only [requestPrelude, List.forall_mem_cons]
  exact ⟨contextInit_within _, policyResolve_within, earlyDecision_within _, by simp⟩

theorem responsePrelude_within (deps : Deps) :
    ∀ s ∈ (responsePrelude deps).stages, Within Resolving s := by
  simp only [responsePrelude, List.forall_mem_cons]
  exact ⟨contextInit_within _, by simp⟩

theorem requestPrelude_spec (deps : Deps) (w : World) (ctx : Ctx) (st : Exec) :
    Ended Resolving ((requestPrelude deps).start st) ((requestPrelude deps).run w ctx st).1
      ((requestPrelude deps).run w ctx st).2 :=
  run_spec resolving_executes (requestPrelude_within deps) w ctx st

theorem responsePrelude_spec (deps : Deps) (w : World) (ctx : Ctx) (st : Exec) :
    Ended Resolving ((responsePrelude deps).start st) ((responsePrelude deps).run w ctx st).1
      ((responsePrelude deps).run w ctx st).2 :=
  run_spec resolving_executes (responsePrelude_within deps) w ctx st

theorem requestPrelude_stage_log {deps : Deps} {s : Stage} (hs : s ∈ (requestPrelude deps).stages)
    (w : World) (ctx : Ctx) (st : Exec) : (s.process w ctx st).2.log = st.log := by
  simp only [requestPrelude, List.mem_cons, List.not_mem_nil, or_false] at hs
  rcases hs with rfl | rfl | rfl
  · rfl
  · unfold policyResolve
    dsimp only
    split <;> rfl
  · unfold earlyDecision
    dsimp only
    repeat' split
    all_goals rfl

theorem requestPrelude_log {f : Effect → Bool} (deps : Deps)
    (hstart : ∀ tx, f (.started (ascii "request_prelude") tx) = false)
    (hran : ∀ s ∈ (requestPrelude deps).stages, ∀ tx, f (.ran s.name tx) = false)
    (w : World) (ctx : Ctx) (st : Exec) :
    ((requestPrelude deps).run w ctx st).2.log.filter f = st.log.filter f := by
  refine run_keeps_log (requestPrelude_within deps) hstart hran ?_ w ctx st
  intro s hs w ctx st
  rw [requestPrelude_stage_log hs]

theorem responsePrelude_log {f : Effect → Bool} (deps : Deps)
    (hstart : ∀ tx, f (.started (ascii "response_prelude") tx) = false)
    (hran : ∀ tx, f (.ran (ascii "context_init") tx) = false)
    (w : World) (ctx : Ctx) (st : Exec) :
    ((responsePrelude deps).run w ctx st).2.log.filter f = st.log.filter f := by
  refine run_keeps_log (responsePrelude_within deps) hstart ?_ ?_ w ctx st
  · simp only [responsePrelude, List.forall_mem_cons]
    exact ⟨hran, by simp⟩
  · simp only [responsePrelude, List.forall_mem_cons]
    exact ⟨fun _ _ _ => rfl, by simp⟩

/-- A response is governed by the policy of its request. -/
theorem responsePrelude_policy (deps : Deps) (w : World) (ctx : Ctx) (st : Exec) :
    ((responsePrelude deps).run w ctx st).2.tx.policy = st.tx.policy := by
  refine run_keeps (f := Transaction.policy) (responsePrelude_within deps) (fun _ _ _ => rfl) ?_ w ctx
    st
  simp only [responsePrelude, List.forall_mem_cons]
  refine ⟨?_, by simp⟩
  intro w ctx st
  obtain ⟨_, _, _, _, _, heq⟩ := initContext_spec deps.trustedHops st.tx
  show (initContext deps.trustedHops st.tx).policy = st.tx.policy
  rw [heq]

/-! ## The start of the request -/

theorem loadRequest_spec (w : World) (h : HttpHeaders) (st : Exec) : ∃ requestID,
    (Processor.loadRequest w h st).tx =
      { st.tx with direction := .request, headers := loadHeaders h.headers, requestID } := by
  unfold Processor.loadRequest Processor.adoptRequestID
  split
  · exact ⟨_, rfl⟩
  · split
    · exact ⟨_, rfl⟩
    · exact ⟨_, rfl⟩

theorem loadRequest_log (w : World) (h : HttpHeaders) (st : Exec) :
    (Processor.loadRequest w h st).log = st.log := by
  unfold Processor.loadRequest Processor.adoptRequestID
  split
  · rfl
  · split <;> rfl

theorem loadRequest_trail (w : World) (h : HttpHeaders) (st : Exec) :
    trail (Processor.loadRequest w h st) = trail st := by
  rw [trail, Exec.outer, loadRequest_log]
  rfl

/-! ## Header pipelines -/

/-- A header pipeline that finds the context done ends at its first stage. -/
theorem headerPipeline_late {dir : Direction} {p : Pipeline} (hp : HeaderPipeline dir p) {w : World}
    {ctx : Ctx} {st : Exec} (hc : ctx st.tick = true) :
    p.run w ctx st = (failPosture (p.start st).tx true, (p.start st).next) := by
  obtain ⟨header, hst, hmem⟩ := hp.stages
  have hfirst : ∃ s rest, p.stages = s :: rest ∧ ∀ tx, gated s.phase tx = false := by
    cases header with
    | nil => exact ⟨_, _, hst, fun _ => rfl⟩
    | cons s header =>
      refine ⟨_, _, hst, ?_⟩
      rcases hmem s List.mem_cons_self with rfl | rfl <;> exact fun _ => rfl
  obtain ⟨s, rest, heq, hgate⟩ := hfirst
  unfold Pipeline.run
  rw [heq]
  exact chain_cons_stop (stageStep_late (p.start st) (hgate _) hc)

end

end ElchiShield.Extproc
