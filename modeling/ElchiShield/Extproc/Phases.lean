import ElchiShield.Extproc.Handlers

/-! # The phases of an inspection

A direction is inspected in two phases, each with a pipeline of its policy: the headers, and
then the body if the headers asked for it. Here is what each of the handlers can do, so that
the rest of the development need not look into them. -/
namespace ElchiShield.Extproc
open ElchiShield.Go ElchiShield.Lib ElchiShield.Engine ElchiShield.Policy ElchiShield.Runtime
open ElchiShield.Pipeline ElchiShield.Stages

variable [Library]

/-! ## One phase -/

/-- The pipeline of a phase. -/
def phasePipeline (pp : PolicyPipelines) : Audit.Phase → Pipeline
  | .requestHeaders => pp.header .request
  | .requestBody => pp.body .request
  | .responseHeaders => pp.header .response
  | .responseBody => pp.body .response

omit [Library] in
@[simp] theorem phasePipeline_headers (pp : PolicyPipelines) (dir : Direction) :
    phasePipeline pp (Audit.headersPhase dir) = pp.header dir := by
  cases dir <;> rfl

omit [Library] in
@[simp] theorem phasePipeline_body (pp : PolicyPipelines) (dir : Direction) :
    phasePipeline pp (Audit.bodyPhase dir) = pp.body dir := by
  cases dir <;> rfl

theorem phasePipeline_inspector {pr : Processor} {p : CompiledPolicy} {pp : PolicyPipelines}
    (h : pr.policyPipelines p = .ok pp) (phase : Audit.Phase) :
    ∀ s ∈ (phasePipeline pp phase).stages, Inspector s := by
  cases phase with
  | requestHeaders => exact (buildPolicyPipelines_spec h .request).1.inspector
  | requestBody => exact (buildPolicyPipelines_spec h .request).2.inspector
  | responseHeaders => exact (buildPolicyPipelines_spec h .response).1.inspector
  | responseBody => exact (buildPolicyPipelines_spec h .response).2.inspector

/-- The phase starts in `a` and ends in `t` with the decision `d`: that of the pipeline, or the
fail posture where the pipelines of the policy do not build. -/
inductive Inspected (pr : Processor) (w : World) (p : CompiledPolicy) (phase : Audit.Phase)
    (a : Exec) (d : Decision) (t : Exec) : Prop where
  | unbuilt (e : Err) (build : pr.policyPipelines p = .error e)
      (decision : d = Processor.buildFailed a.tx) (state : t = a)
  | ran (pp : PolicyPipelines) (build : pr.policyPipelines p = .ok pp)
      (run : Processor.runInspect w (phasePipeline pp phase) a = (d, t))

/-- What every phase keeps, and when it may end in a block. -/
structure Inspection (a : Exec) (d : Decision) (t : Exec) : Prop where
  pinned : t.tx.pinned = a.tx.pinned
  mutated : a.tx.policy.any CompiledPolicy.blocking = false → t.tx.bodyMutated = a.tx.bodyMutated
  strict : d.isBlock = true → Strict t.tx.policy

omit [Library] in
theorem buildFailed_strict {tx : Transaction} (h : (Processor.buildFailed tx).isBlock = true) :
    Strict tx.policy := by
  unfold Processor.buildFailed at h
  split at h
  · cases h
  next hopen =>
    cases hp : tx.policy with
    | none => simp [hp] at hopen
    | some p => exact ⟨p, rfl, .inr (by simpa [hp] using hopen)⟩

section
variable {pr : Processor} {w : World} {p : CompiledPolicy} {phase : Audit.Phase} {a t : Exec}
  {d : Decision}

theorem Inspected.inspection (h : Inspected pr w p phase a d t) : Inspection a d t := by
  cases h with
  | unbuilt e build decision state =>
    subst decision state
    exact ⟨rfl, fun _ => rfl, buildFailed_strict⟩
  | ran pp build run =>
    have hrun := run_spec frame_executes (phasePipeline_inspector build phase) w
      (Processor.inspectCtx w a) a
    rw [← Processor.runInspect, run] at hrun
    exact ⟨hrun.rel.pinned, hrun.rel.mutated, hrun.strict⟩

/-- The trail of a phase whose pipelines build. -/
theorem Inspected.trail (h : Inspected pr w p phase a d t) {pp : PolicyPipelines}
    (hpp : pr.policyPipelines p = .ok pp) :
    trail t = trail a ++ [.started (phasePipeline pp phase).name a.tx] := by
  cases h with
  | unbuilt e build => cases hpp.symm.trans build
  | ran pp' build run =>
    obtain rfl := Except.ok.inj (hpp.symm.trans build)
    have hrun := run_spec frame_executes (phasePipeline_inspector build phase) w
      (Processor.inspectCtx w a) a
    rw [← Processor.runInspect, run] at hrun
    rw [trail_outer hrun.rel.outer, trail_start]

theorem Inspected.body {dir : Direction} (h : Inspected pr w p (Audit.headersPhase dir) a d t) :
    t.tx.body = a.tx.body := by
  cases h with
  | unbuilt e build decision state => rw [state]
  | ran pp build run =>
    have hkeep := (buildPolicyPipelines_spec build dir).1.keeps (f := Transaction.body)
      (fun _ _ _ _ _ _ _ => rfl) w (Processor.inspectCtx w a) a
    rw [phasePipeline_headers] at run
    rw [← Processor.runInspect, run] at hkeep
    exact hkeep

omit [Library] in
theorem Inspection.policy (h : Inspection a d t) : t.tx.policy = a.tx.policy :=
  (congrArg Transaction.policy h.pinned :)

end

/-! ## The body phase -/

/-- The body phase is still to come. -/
structure BodyDue (p : CompiledPolicy) (st : Exec) : Prop where
  policy : st.tx.policy = some p
  enforcing : p.enforcing = true
  inspected : st.tx.bodyInspected = false
  asked : (st.tx.bodyRequired || st.tx.wafEnabled) = true

/-- The state in which the body pipeline starts. -/
abbrev latched (st : Exec) : Exec := st.setTx { st.tx with bodyInspected := true }

/-- Inversion of `inspectBufferedBody`. -/
theorem inspectBufferedBody_cases (pr : Processor) (w : World) (st : Exec) :
    ((∀ p, ¬ BodyDue p st) ∧ pr.inspectBufferedBody w st = (none, st)) ∨
      ∃ p d t, BodyDue p st ∧
        Inspected pr w p (Audit.bodyPhase st.tx.direction) (latched st) d t ∧
        pr.inspectBufferedBody w st =
          (some d, pr.finish w (Audit.bodyPhase st.tx.direction) d t) := by
  unfold Processor.inspectBufferedBody
  split
  next hp =>
    refine .inl ⟨fun p h => ?_, rfl⟩
    cases hp.symm.trans h.policy
  next p hp =>
    have hunique : ∀ {q}, BodyDue q st → q = p := fun h => Option.some.inj (h.policy.symm.trans hp)
    split
    next hoff =>
      refine .inl ⟨fun q h => ?_, rfl⟩
      have hq := hunique h
      subst hq
      simp [h.enforcing, h.inspected] at hoff
    next hon =>
      simp only [Bool.or_eq_true, Bool.not_eq_true', not_or, Bool.not_eq_false,
        Bool.not_eq_true] at hon
      split
      next hnone =>
        refine .inl ⟨fun q h => ?_, rfl⟩
        have hasked := h.asked
        rw [← Bool.not_or] at hnone
        simp [hasked] at hnone
      next hsome =>
        simp only [← Bool.not_or, Bool.not_eq_true', Bool.not_eq_false] at hsome
        have hdue : BodyDue p st := ⟨hp, hon.1, hon.2, hsome⟩
        refine .inr ⟨p, ?_⟩
        dsimp only
        split
        next e hpp => exact ⟨_, _, hdue, .unbuilt e hpp rfl rfl, rfl⟩
        next pp hpp =>
          exact ⟨_, _, hdue, .ran pp hpp (by rw [phasePipeline_body]; rfl), rfl⟩

theorem inspectBufferedBody_policy (pr : Processor) (w : World) (st : Exec) :
    (pr.inspectBufferedBody w st).2.tx.policy = st.tx.policy := by
  obtain ⟨-, heq⟩ | ⟨p, d, t, -, hrun, heq⟩ := inspectBufferedBody_cases pr w st
  · rw [heq]
  · rw [heq, finish_keeps Transaction.policy (fun _ => rfl), hrun.inspection.policy]
    rfl

/-- BodyRequired or WAFEnabled is set. -/
def flagged (tx : Transaction) : Bool := tx.bodyRequired || tx.wafEnabled

theorem inspectBufferedBody_flagged (pr : Processor) (w : World) (st : Exec) :
    flagged (pr.inspectBufferedBody w st).2.tx = flagged st.tx := by
  obtain ⟨-, heq⟩ | ⟨p, d, t, -, hrun, heq⟩ := inspectBufferedBody_cases pr w st <;> rw [heq]
  rw [finish_keeps flagged (fun _ => rfl)]
  cases hrun with
  | unbuilt e build decision state => rw [state]; rfl
  | ran pp build run =>
    have hkeep := (buildPolicyPipelines_spec build st.tx.direction).2.keeps (f := flagged)
      (fun _ _ _ _ _ _ _ _ => rfl) w (Processor.inspectCtx w (latched st)) (latched st)
    rw [phasePipeline_body] at run
    rw [← Processor.runInspect, run] at hkeep
    exact hkeep

omit [Library] in
/-- A decision whose answer is no immediate response is no block. -/
theorem not_block_of_reply {d : Decision} {c : ProcessingResponse}
    (h : (Processor.replyTo (some d) c).isImmediate = false) : d.isBlock = false := by
  cases hd : d.isBlock with
  | false => rfl
  | true => simp [Processor.replyTo, hd, immediateResponse, ProcessingResponse.isImmediate] at h

/-! ## The header phase -/

/-- The findings of a header phase that a body phase follows. -/
def headerFindings (pr : Processor) (w : World) (phase : Audit.Phase) (d : Decision) (st : Exec) :
    Exec :=
  if d.action = .detect ∨ d.action = .shadow then pr.emitPhaseFindings w phase d st else st

omit [Library] in
theorem headerFindings_noted (pr : Processor) (w : World) (phase : Audit.Phase) (d : Decision)
    (st : Exec) : Noted st (headerFindings pr w phase d st) := by
  unfold headerFindings
  split
  · exact emitAudit_noted ..
  · exact .refl st

/-- Whether the header pipeline lets the direction pass and asks for the body phase. -/
def asksBody (pr : Processor) (w : World) (dir : Direction) (p : CompiledPolicy) (st : Exec) : Bool :=
  match pr.policyPipelines p with
  | .error _ => false
  | .ok pp =>
    let (d, t) := Processor.runInspect w (pp.header dir) st
    !d.isBlock && (t.tx.bodyRequired || t.tx.wafEnabled)

/-- Inversion of `inspectHeaders`: the phase ends the direction, or the body phase follows. -/
theorem inspectHeaders_cases (pr : Processor) (w : World) (dir : Direction)
    (reply : Bool → ProcessingResponse) (endOfStream : Bool) (p : CompiledPolicy) (st : Exec) :
    ∃ d t, Inspected pr w p (Audit.headersPhase dir) st d t ∧
      ((∃ c, (c = continueFor (Audit.headersPhase dir) ∨ c = reply false) ∧
          (d.isBlock = true ∨ (t.tx.bodyRequired || t.tx.wafEnabled) = false ∨ t = st) ∧
          asksBody pr w dir p st = false ∧
          pr.inspectHeaders w dir reply endOfStream p st =
            (Processor.replyTo (some d) c, pr.finish w (Audit.headersPhase dir) d t)) ∨
        d.isBlock = false ∧ (t.tx.bodyRequired || t.tx.wafEnabled) = true ∧
          (∃ pp, pr.policyPipelines p = .ok pp) ∧
          ∃ u, u = headerFindings pr w (Audit.headersPhase dir) d t ∧
            pr.inspectHeaders w dir reply endOfStream p st =
              if endOfStream then
                (Processor.replyTo (pr.inspectBufferedBody w u).1 (reply false),
                  (pr.inspectBufferedBody w u).2)
              else (reply true, u)) := by
  unfold Processor.inspectHeaders
  dsimp only
  split
  next e hpp =>
    exact ⟨_, _, .unbuilt e hpp rfl rfl,
      .inl ⟨_, .inl rfl, .inr (.inr rfl), by simp [asksBody, hpp], rfl⟩⟩
  next pp hpp =>
    obtain ⟨⟨d, t⟩, hrun⟩ : ∃ r, Processor.runInspect w (pp.header dir) st = r := ⟨_, rfl⟩
    refine ⟨d, t, .ran pp hpp (by rw [phasePipeline_headers, hrun]), ?_⟩
    rw [hrun]
    dsimp only
    split
    next hblock =>
      exact .inl ⟨_, .inl rfl, .inl hblock, by simp [asksBody, hpp, hrun, hblock],
        by simp [Processor.replyTo, hblock]⟩
    next hblock =>
      rw [Bool.not_eq_true] at hblock
      split
      next hasked => exact .inr ⟨hblock, hasked, ⟨pp, hpp⟩, _, rfl, rfl⟩
      next hasked =>
        rw [Bool.not_eq_true] at hasked
        exact .inl ⟨_, .inr rfl, .inr (.inl hasked), by simp [asksBody, hpp, hrun, hasked],
          by simp [Processor.replyTo, hblock]⟩

theorem inspectHeaders_policy (pr : Processor) (w : World) (dir : Direction)
    (reply : Bool → ProcessingResponse) (endOfStream : Bool) (p : CompiledPolicy) (st : Exec) :
    (pr.inspectHeaders w dir reply endOfStream p st).2.tx.policy = st.tx.policy := by
  obtain ⟨d, t, hrun, ⟨c, -, -, -, heq⟩ | ⟨-, -, -, u, rfl, heq⟩⟩ :=
    inspectHeaders_cases pr w dir reply endOfStream p st
  · rw [heq, finish_keeps Transaction.policy (fun _ => rfl), hrun.inspection.policy]
  · have hpolicy : (headerFindings pr w (Audit.headersPhase dir) d t).tx.policy = st.tx.policy := by
      rw [(headerFindings_noted ..).tx, hrun.inspection.policy]
    rw [heq]
    split
    · exact (inspectBufferedBody_policy pr w _).trans hpolicy
    · exact hpolicy

/-! ## Chunks of a body -/

omit [Library] in
theorem appendBody_body (tx : Transaction) (chunk : Bytes) (max : Int) :
    ∃ body, (tx.appendBody chunk max).2.2 = { tx with body } ∧
      ((tx.appendBody chunk max).2.1 = false → body = tx.body ++ chunk) ∧
      ((tx.body.length : Int) ≤ max → (body.length : Int) ≤ max) := by
  unfold Transaction.appendBody
  split
  · exact ⟨tx.body, rfl, by simp, id⟩
  dsimp only
  split
  · exact ⟨tx.body, rfl, by simp, id⟩
  split
  · refine ⟨_, rfl, by simp, fun hle => ?_⟩
    rw [List.length_append, List.length_take]
    omega
  · refine ⟨_, rfl, fun _ => rfl, fun hle => ?_⟩
    rw [List.length_append]
    omega

omit [Library] in
/-- Buffering a chunk: a body that is not truncated has all of it. -/
theorem appendBody_spec (pr : Processor) (w : World) (dir : Direction) (chunk : Bytes) (st : Exec) :
    ∃ body bodyTruncated bodyReserved tick log, pr.appendBody w dir chunk st =
        ⟨{ st.tx with body, bodyTruncated, bodyReserved }, tick, log⟩ ∧
      log.filter Effect.outer = st.outer ∧
      (bodyTruncated = false → st.tx.bodyTruncated = false ∧ body = st.tx.body ++ chunk) ∧
      ((st.tx.body.length : Int) ≤ pr.bodyLimit st.tx dir →
        (body.length : Int) ≤ pr.bodyLimit st.tx dir) := by
  unfold Processor.appendBody
  split
  next hempty => exact ⟨_, _, _, _, _, rfl, rfl, by simp [hempty], id⟩
  next hempty =>
    have hle := w.grant_le st.tick chunk.length
    have hpos : 0 < chunk.length := List.length_pos_iff.mpr hempty
    obtain ⟨g, hg⟩ : ∃ g, w.grant st.tick chunk.length = g := ⟨_, rfl⟩
    rw [hg] at hle ⊢
    obtain ⟨body, hbody, hfull, hcap⟩ :=
      appendBody_body st.tx (chunk.take g) (pr.bodyLimit st.tx dir)
    obtain ⟨⟨stored, truncated, tx⟩, happ⟩ : ∃ r,
      st.tx.appendBody (chunk.take g) (pr.bodyLimit st.tx dir) = r := ⟨_, rfl⟩
    rw [happ] at hbody hfull
    dsimp only at hbody hfull
    subst hbody
    simp only [Exec.emit_tx, Exec.next_tx, happ]
    by_cases hshort : g < chunk.length
    · -- the budget cut the chunk, so the body is truncated whatever the cap did
      simp only [hshort, if_true]
      split
      · split
        all_goals
          exact ⟨_, _, _, _, _, rfl, by simp [Exec.outer, Effect.outer], fun h => (nomatch h), hcap⟩
      · exact ⟨_, _, _, _, _, rfl, by simp [Exec.outer, Effect.outer], fun h => (nomatch h), id⟩
    · have htake : chunk.take g = chunk := List.take_of_length_le (by omega)
      have hgpos : g > 0 := by omega
      rw [htake] at hfull
      simp only [hshort, hgpos, if_true, if_false]
      have hwhole : (st.tx.bodyTruncated || truncated) = false →
          st.tx.bodyTruncated = false ∧ body = st.tx.body ++ chunk := by
        intro h
        obtain ⟨hold, hnew⟩ := Bool.or_eq_false_iff.mp h
        exact ⟨hold, hfull hnew⟩
      split
      all_goals
        exact ⟨_, _, _, _, _, rfl, by simp [Exec.outer, Effect.outer], hwhole, hcap⟩

omit [Library] in
theorem appendBody_tick_le (pr : Processor) (w : World) (dir : Direction) (chunk : Bytes) (st : Exec) :
    st.tick ≤ (pr.appendBody w dir chunk st).tick := by
  unfold Processor.appendBody
  dsimp only
  split
  · exact le_refl _
  · repeat' split
    all_goals exact Nat.le_succ _

omit [Library] in
/-- A chunk is paid for first; what the cap does not let in is given back. -/
theorem appendBody_effects (pr : Processor) (w : World) (dir : Direction) {chunk : Bytes}
    (hne : chunk ≠ []) (st : Exec) : ∃ back, (back = [] ∨ ∃ n, back = [Effect.released n]) ∧
      (pr.appendBody w dir chunk st).log =
        st.log ++ .acquired (w.grant st.tick chunk.length) :: back := by
  unfold Processor.appendBody
  rw [if_neg hne]
  obtain ⟨⟨stored, truncated, tx⟩, happ⟩ : ∃ r, st.tx.appendBody
    (chunk.take (w.grant st.tick chunk.length)) (pr.bodyLimit st.tx dir) = r := ⟨_, rfl⟩
  simp only [Exec.emit_tx, Exec.next_tx, happ]
  obtain ⟨g, hg⟩ : ∃ g, w.grant st.tick chunk.length = g := ⟨_, rfl⟩
  rw [hg]
  by_cases hpos : 0 < g
  · by_cases hpart : stored < g
    · refine ⟨[.released (g - stored)], .inr ⟨_, rfl⟩, ?_⟩
      rw [if_pos hpos, if_pos hpart]
      split <;> simp
    · refine ⟨[], .inl rfl, ?_⟩
      rw [if_pos hpos, if_neg hpart]
      split <;> simp
  · refine ⟨[], .inl rfl, ?_⟩
    rw [if_neg hpos]
    split <;> simp

omit [Library] in
theorem appendBody_log (pr : Processor) (w : World) (dir : Direction) (chunk : Bytes) (st : Exec) :
    OnlyBudget st (pr.appendBody w dir chunk st) := by
  by_cases hempty : chunk = []
  · rw [Processor.appendBody, if_pos hempty]
    exact .of_log rfl
  obtain ⟨back, hback, hlog⟩ := appendBody_effects pr w dir hempty st
  refine ⟨_, hlog, ?_⟩
  rcases hback with rfl | ⟨n, rfl⟩ <;> simp [Effect.ofBudget]

/-- The state in which a chunk is in the buffer. -/
def buffered (pr : Processor) (w : World) (dir : Direction) (chunk : Bytes) (st : Exec) : Exec :=
  pr.appendBody w dir chunk (st.setTx (Processor.reopen chunk st.tx))

/-- Inversion of `onBody`. -/
theorem onBody_cases (pr : Processor) (w : World) (dir : Direction) (b : HttpBody) (st : Exec) :
    (st.tx.policy = none ∧ pr.onBody w dir b st = (bodyContinue dir, st)) ∨
      ∃ p u, st.tx.policy = some p ∧ u = buffered pr w dir b.body st ∧
        ((b.endOfStream || p.mutatesBody dir) = false ∧
            pr.onBody w dir b st = (bodyContinue dir, u) ∨
          (b.endOfStream || p.mutatesBody dir) = true ∧ ∃ bd v,
            pr.inspectBufferedBody w u = (bd, v) ∧
            pr.onBody w dir b st = (Processor.replyTo bd
              (if v.tx.bodyMutated then bodyMutation dir v.tx.body else bodyContinue dir), v)) := by
  unfold Processor.onBody
  split
  next hp => exact .inl ⟨hp, rfl⟩
  next p hp =>
    refine .inr ⟨p, _, hp, rfl, ?_⟩
    dsimp only
    split
    next hmore => exact .inl ⟨by simpa using hmore, rfl⟩
    next hlast =>
      simp only [← Bool.not_or, Bool.not_eq_true', Bool.not_eq_false] at hlast
      exact .inr ⟨hlast, _, _, rfl, rfl⟩

omit [Library] in
theorem reopen_eq (chunk : Bytes) (tx : Transaction) : Processor.reopen chunk tx =
    { tx with bodyInspected := tx.bodyInspected && decide (chunk = []) } := by
  unfold Processor.reopen
  split
  next h => simp [h.1]
  next h =>
    have hsame : tx.bodyInspected = (tx.bodyInspected && decide (chunk = [])) := by
      by_cases hc : chunk = []
      · simp [hc]
      · simp [hc, show tx.bodyInspected = false by simpa [hc] using h]
    rw [← hsame]

omit [Library] in
theorem buffered_spec (pr : Processor) (w : World) (dir : Direction) (chunk : Bytes) (st : Exec) :
    ∃ body bodyTruncated bodyReserved tick log, buffered pr w dir chunk st =
        ⟨{ st.tx with
            body, bodyTruncated, bodyReserved
            bodyInspected := st.tx.bodyInspected && decide (chunk = []) }, tick, log⟩ ∧
      log.filter Effect.outer = st.outer ∧
      (bodyTruncated = false → st.tx.bodyTruncated = false ∧ body = st.tx.body ++ chunk) ∧
      ((st.tx.body.length : Int) ≤ pr.bodyLimit st.tx dir →
        (body.length : Int) ≤ pr.bodyLimit st.tx dir) := by
  unfold buffered
  rw [reopen_eq]
  exact appendBody_spec ..

omit [Library] in
theorem buffered_tick_le (pr : Processor) (w : World) (dir : Direction) (chunk : Bytes) (st : Exec) :
    st.tick ≤ (buffered pr w dir chunk st).tick :=
  appendBody_tick_le pr w dir chunk (st.setTx (Processor.reopen chunk st.tx))

/-! ## The start of a direction -/

/-- The state the request-headers handler is called in. -/
abbrev received (attributes : List Bytes) (st : Exec) : Exec :=
  st.setTx { st.tx with nodeID := listenerIDFromAttributes attributes }

/-- The prelude of a request-headers message. -/
abbrev preludeOf (pr : Processor) (w : World) (h : HttpHeaders) (st : Exec) : Decision × Exec :=
  (requestPrelude pr.deps).run w w.ctx (Processor.loadRequest w h st)

/-- Inversion of `onRequestHeaders` for a request that is not settled. -/
theorem onRequestHeaders_cases (pr : Processor) (w : World) (h : HttpHeaders) {st : Exec}
    (hset : st.tx.requestSettled = false) :
    ∃ d t, preludeOf pr w h st = (d, t) ∧
      ((d.isBlock = true ∨ t.tx.policy.all (fun p => !p.enforcing) = true) ∧
          pr.onRequestHeaders w h st =
            (Processor.replyTo (some d) (Processor.requestReply t false),
              pr.finish w .requestHeaders d t) ∨
        ∃ p, d.isBlock = false ∧ t.tx.policy = some p ∧ p.enforcing = true ∧
          pr.onRequestHeaders w h st =
            pr.inspectHeaders w .request (Processor.requestReply t) h.endOfStream p t) := by
  obtain ⟨⟨d, t⟩, hrun⟩ : ∃ r, preludeOf pr w h st = r := ⟨_, rfl⟩
  refine ⟨d, t, hrun, ?_⟩
  unfold Processor.onRequestHeaders
  rw [if_neg (by simp [hset]), ← preludeOf, hrun]
  dsimp only
  split
  next hblock => exact .inl ⟨.inl hblock, by simp [Processor.replyTo, hblock]⟩
  next hblock =>
    rw [Bool.not_eq_true] at hblock
    split
    next hp => exact .inl ⟨.inr (by rw [hp]; rfl), by simp [Processor.replyTo, hblock]⟩
    next p hp =>
      split
      next henf => exact .inl ⟨.inr (by rw [hp]; exact henf), by simp [Processor.replyTo, hblock]⟩
      next henf => exact .inr ⟨p, hblock, hp, by simpa using henf, rfl⟩

/-- The state in which the response prelude starts. -/
def loadResponse (h : HttpHeaders) (st : Exec) : Exec :=
  (beginResponse st).setTx { (beginResponse st).tx with headers := loadHeaders h.headers }

omit [Library] in
theorem loadResponse_trail (h : HttpHeaders) (st : Exec) : trail (loadResponse h st) = trail st := by
  obtain ⟨reserved, log, hbegin, hlog⟩ := beginResponse_spec st
  unfold loadResponse
  rw [hbegin]
  exact trail_outer hlog

omit [Library] in
theorem loadResponse_log (h : HttpHeaders) (st : Exec) : OnlyBudget st (loadResponse h st) :=
  beginResponse_log st

/-- Inversion of `onResponseHeaders`. -/
theorem onResponseHeaders_cases (pr : Processor) (w : World) (h : HttpHeaders) (st : Exec) :
    ∃ d t, (responsePrelude pr.deps).run w w.ctx (loadResponse h st) = (d, t) ∧
      (t.tx.policy.all (fun p => !p.enforcing) = true ∧ pr.onResponseHeaders w h st =
          (Processor.responseReply false, pr.finish w .responseHeaders d t) ∨
        ∃ p, t.tx.policy = some p ∧ p.enforcing = true ∧ pr.onResponseHeaders w h st =
          pr.inspectHeaders w .response Processor.responseReply h.endOfStream p t) := by
  obtain ⟨⟨d, t⟩, hrun⟩ : ∃ r, (responsePrelude pr.deps).run w w.ctx (loadResponse h st) = r :=
    ⟨_, rfl⟩
  refine ⟨d, t, hrun, ?_⟩
  unfold Processor.onResponseHeaders
  dsimp only
  rw [← loadResponse, hrun]
  dsimp only
  split
  next hp => exact .inl ⟨by rw [hp]; rfl, rfl⟩
  next p hp =>
    split
    next henf => exact .inl ⟨by rw [hp]; exact henf, rfl⟩
    next henf => exact .inr ⟨p, hp, by simpa using henf, rfl⟩

/-- Nothing of the direction has been buffered, asked for or inspected yet. -/
structure Opened (dir : Direction) (st : Exec) : Prop where
  direction : st.tx.direction = dir
  body : st.tx.body = []
  truncated : st.tx.bodyTruncated = false
  inspected : st.tx.bodyInspected = false
  mutated : st.tx.bodyMutated = false
  required : st.tx.bodyRequired = false
  waf : st.tx.wafEnabled = false

omit [Library] in
theorem loadResponse_opened (h : HttpHeaders) (st : Exec) : Opened .response (loadResponse h st) := by
  obtain ⟨reserved, log, hbegin, -⟩ := beginResponse_spec st
  unfold loadResponse
  rw [hbegin]
  exact ⟨rfl, rfl, rfl, rfl, rfl, rfl, rfl⟩

omit [Library] in
/-- A prelude leaves an opened direction opened. -/
theorem Opened.resolving {dir : Direction} {p : Pipeline} {a b : Exec} (ha : Opened dir a)
    (h : Resolving (p.start a) b) : Opened dir b :=
  ⟨h.direction.trans ha.direction, h.body.trans ha.body, h.bodyTruncated.trans ha.truncated,
    h.bodyInspected.trans ha.inspected, h.bodyMutated.trans ha.mutated,
    h.bodyRequired.trans ha.required, h.wafEnabled.trans ha.waf⟩

end ElchiShield.Extproc
