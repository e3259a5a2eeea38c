import ElchiShield.Extproc.FailClosed
import ElchiShield.Extproc.HostGate
import ElchiShield.Extproc.Rule
import ElchiShield.Lib.Runs

/-! # What the shared budget is charged for

The handlers of body messages do not charge the shared budget for a stream without a policy, so
that bytes nobody inspects do not take the place of others. They ask for the policy alone: what
the header phase has left of the flags is first looked at when the chunk is in the buffer. Here
is what the header phases leave set, for which messages the budget is charged, and when the
charge is one for bytes that the header phase of their direction asked for. -/
namespace ElchiShield.Extproc
open ElchiShield.Go ElchiShield.Lib ElchiShield.Engine ElchiShield.Policy ElchiShield.Runtime
open ElchiShield.Pipeline ElchiShield.Stages

/-! ## What the header phases leave set -/

/-- A body gate that runs, or the start of a response. -/
def marks : Effect → Bool
  | .ran name _ => name = bodyGate.name
  | .started name _ => name = ascii "response_prelude"
  | _ => false

def ranOn : Effect → Option Transaction
  | .ran _ tx => some tx
  | _ => none

/-- What the last body gate ran on, if no response has begun after it. -/
def lastGate (log : List Effect) : Option Transaction := (log.filter marks).getLast?.bind ranOn

/-- The policy is enforced, and inspects the bodies of the direction or has an engine that needs
them. -/
def wantsBody (tx : Transaction) : Bool :=
  tx.policy.any fun p => p.enforcing && inspectsBody p tx.direction

/-- The flags are those of the last gate. -/
def FromGate (st : Exec) : Prop := flagged st.tx = (lastGate st.log).any wantsBody

theorem FromGate.congr {a b : Exec} (h : FromGate a) (hflagged : flagged b.tx = flagged a.tx)
    (hlog : b.log.filter marks = a.log.filter marks) : FromGate b := by
  rw [FromGate, hflagged, lastGate, hlog]
  exact h

theorem FromGate.budget {a b : Exec} (h : FromGate a) (hflagged : flagged b.tx = flagged a.tx)
    (hlog : OnlyBudget a b) : FromGate b := by
  refine h.congr hflagged (hlog.filter fun e he => ?_)
  cases e <;> first | rfl | cases he

/-- The gate of a policy that is enforced. -/
theorem fromGate_gate (w : World) (ctx : Ctx) {st : Exec} {p : CompiledPolicy}
    (hp : st.tx.policy = some p) (henf : p.enforcing = true) :
    FromGate (bodyGate.process w ctx (st.emit (.ran bodyGate.name st.tx))).2 := by
  rw [bodyGate_enforcing w ctx (show (st.emit (.ran bodyGate.name st.tx)).tx.policy = some p from hp)
    henf]
  have hgate : lastGate (st.log ++ [.ran bodyGate.name st.tx]) = some st.tx := by
    simp [lastGate, marks, ranOn]
  have hwants : wantsBody st.tx = (inspectsBody p st.tx.direction || p.engineSet.requiresBody) := by
    rw [wantsBody, hp]
    cases hdir : st.tx.direction <;> simp [henf, inspectsBody]
  show (inspectsBody p st.tx.direction || p.engineSet.requiresBody) = (lastGate (st.log ++ _)).any _
  rw [hgate, ← hwants]
  rfl

section
variable [Library] {pr : Processor} {w : World} {st : Exec}

theorem headerPipeline_fromGate {dir : Direction} {q : Pipeline} (hq : HeaderPipeline dir q)
    {p : CompiledPolicy} (hp : st.tx.policy = some p) (henf : p.enforcing = true)
    (h : FromGate st) (w : World) (ctx : Ctx) : FromGate (q.run w ctx st).2 := by
  have hstart : FromGate (q.start st) := by
    refine h.congr rfl ?_
    have hname : marks (.started q.name st.tx) = false := by
      rw [hq.name]
      cases dir <;> rfl
    show (st.log ++ [_]).filter marks = _
    simp [hname]
  have hopens : (q.start st).tx.policy = some p ∧ FromGate (q.start st) := ⟨hp, hstart⟩
  refine (stages_invariant (I := fun t => t.tx.policy = some p ∧ FromGate t) hq.inspector
    (fun _ => id) (fun _ _ _ => id) ?_ hopens).2
  intro s hs t ht _
  have hpolicy := ((hq.inspector s hs).rel w ctx (t.emit (.ran s.name t.tx))).policy.trans ht.1
  refine ⟨hpolicy, ?_⟩
  have hran : s ≠ bodyGate → FromGate (t.emit (.ran s.name t.tx)) := by
    intro hne
    refine ht.2.congr rfl ?_
    have hname : marks (.ran s.name t.tx) = false := by
      rcases hq.mem hs with rfl | rfl | rfl
      · rfl
      · rfl
      · exact absurd rfl hne
    show (t.log ++ [_]).filter marks = _
    simp [hname]
  rcases hq.mem hs with rfl | rfl | rfl
  · exact hran fun h => by cases congrArg Stage.phase h
  · have hbefore := hran fun h => by cases congrArg Stage.name h
    obtain ⟨-, score, denied, tick, heq⟩ := runEngines_spec EngineSet.inspectHeaderPhase ctx
      (t.emit (.ran wafHeaderEngine.name t.tx))
    show FromGate (runEngines _ _ _).2
    rw [heq]
    exact hbefore
  · exact fromGate_gate w ctx ht.1 henf

theorem bodyPipeline_fromGate {deps : Deps} {dir : Direction} {q : Pipeline}
    (hq : BodyPipeline deps dir q) (h : FromGate st) (w : World) (ctx : Ctx) :
    FromGate (q.run w ctx st).2 := by
  refine h.congr (hq.keeps (fun _ _ _ _ _ _ _ _ => rfl) w ctx st) (hq.keeps_log ?_ ?_ ?_ w ctx st)
  · intro tx
    rw [hq.name]
    cases dir <;> rfl
  · intro s hs tx
    simp only [List.mem_cons, List.not_mem_nil, or_false] at hs
    rcases hs with rfl | rfl | rfl | rfl <;> rfl
  · intro e he
    cases e <;> first | rfl | cases he

omit [Library] in
theorem FromGate.finish (h : FromGate st) (pr : Processor) (w : World) (phase : Audit.Phase)
    (d : Decision) : FromGate (pr.finish w phase d st) := by
  refine h.congr (finish_keeps flagged (fun _ => rfl) ..) ?_
  rw [finish_log, List.filter_append]
  simp [marks, List.filter_map, Function.comp_def]

/-- A response starts without a gate. -/
theorem responsePrelude_gate (deps : Deps) (w : World) (ctx : Ctx) (st : Exec) :
    lastGate ((responsePrelude deps).run w ctx st).2.log = none := by
  have hstart : lastGate ((responsePrelude deps).start st).log = none := by
    show lastGate (st.log ++ [.started (ascii "response_prelude") st.tx]) = none
    simp [lastGate, marks, ranOn]
  refine stages_invariant (I := fun t => lastGate t.log = none) (responsePrelude_within deps)
    (fun _ => id) (fun _ _ _ => id) ?_ hstart
  simp only [responsePrelude, List.forall_mem_cons]
  refine ⟨fun t ht _ => ?_, by simp⟩
  show lastGate (t.log ++ [.ran (ascii "context_init") t.tx]) = none
  have hname : [Effect.ran (ascii "context_init") t.tx].filter marks = [] := rfl
  rw [lastGate, List.filter_append, hname, List.append_nil]
  exact ht

/-- Every message leaves the flags to the gates. -/
theorem fromGate_phased (pr : Processor) (w : World) :
    Phased pr w (fun _ => True) FromGate FromGate FromGate fun _ => FromGate where
  received _ _ h := h.congr rfl rfl
  request st h hst _ _ d t hrun := by
    have hrel := (requestPrelude_spec pr.deps w w.ctx (Processor.loadRequest w h st)).rel
    have hlog := requestPrelude_log (f := marks) pr.deps (fun _ => rfl) ?_ w w.ctx
      (Processor.loadRequest w h st)
    · rw [← preludeOf, hrun] at hrel hlog
      obtain ⟨requestID, hload⟩ := loadRequest_spec w h st
      have ht : FromGate t := by
        refine hst.congr ?_ ?_
        · rw [flagged, hrel.bodyRequired, hrel.wafEnabled]
          show flagged (Processor.loadRequest w h st).tx = _
          rw [hload]
          rfl
        · rw [hlog, loadRequest_log]
      exact ⟨ht, ht⟩
    · intro s hs tx
      simp only [requestPrelude, List.mem_cons, List.not_mem_nil, or_false] at hs
      rcases hs with rfl | rfl | rfl <;> rfl
  response st h _ d t hrun := by
    have hrel := (responsePrelude_spec pr.deps w w.ctx (loadResponse h st)).rel
    have hgate := responsePrelude_gate pr.deps w w.ctx (loadResponse h st)
    rw [hrun] at hrel hgate
    have hopened := (loadResponse_opened h st).resolving hrel
    have ht : FromGate t := by
      rw [FromGate, flagged, hopened.required, hopened.waf, hgate]
      rfl
    exact ⟨ht, ht⟩
  body _ _ h _ := h.congr rfl rfl
  phase p phase a d t ha hp henf hrun := by
    cases hrun with
    | unbuilt e build decision state => rwa [state]
    | ran pp build run =>
      have hend : FromGate (Processor.runInspect w (phasePipeline pp phase) a).2 := by
        cases phase with
        | requestHeaders =>
          exact headerPipeline_fromGate (buildPolicyPipelines_spec build .request).1 hp henf ha w _
        | requestBody => exact bodyPipeline_fromGate (buildPolicyPipelines_spec build .request).2 ha w _
        | responseHeaders =>
          exact headerPipeline_fromGate (buildPolicyPipelines_spec build .response).1 hp henf ha w _
        | responseBody => exact bodyPipeline_fromGate (buildPolicyPipelines_spec build .response).2 ha w _
      rw [run] at hend
      exact hend
  passed phase d t h _ := by
    unfold headerFindings
    split
    · obtain ⟨tick, -, heq⟩ := emitAudit_spec pr w phase d t
      rw [Processor.emitPhaseFindings, heq]
      refine h.congr rfl ?_
      simp [marks, List.filter_append, List.filter_map, Function.comp_def]
    · exact h
  buffered dir chunk st h := by
    obtain ⟨_, _, _, _, _, heq, -⟩ := buffered_spec pr w dir chunk st
    refine h.budget ?_ (appendBody_log pr w dir chunk _)
    rw [heq]
    rfl
  finish phase d t h := h.finish pr w phase d
  done _ h := h

end

/-! ## Streams with their header phases -/

/-- The direction whose header phase a message runs; the headers of a settled request run none. -/
def headerPhase (st : Exec) : Message → Option Direction
  | .requestHeaders .. => if st.tx.requestSettled then none else some .request
  | .responseHeaders _ => some .response
  | _ => none

/-- A stream, and what the last header phase of a direction left: whether BodyRequired or
WAFEnabled was set, and what the body gate had last run on. -/
structure Followed where
  exec : Exec
  left : Direction → Bool
  gate : Direction → Option Transaction

def followed [Library] (pr : Processor) (snap : Snapshot) : Followed :=
  ⟨pr.newStream snap, fun _ => false, fun _ => none⟩

def follow [Library] (pr : Processor) (w : World) (s : Followed) (m : Message) :
    Option ProcessingResponse × Followed :=
  let (reply, t) := pr.handle w s.exec m
  let ends (dir : Direction) : Bool := headerPhase s.exec m = some dir
  (reply,
    { exec := t
      left := fun dir => if ends dir then flagged t.tx else s.left dir
      gate := fun dir => if ends dir then lastGate t.log else s.gate dir })

section
variable [Library] {pr : Processor} {w : World} {s : Followed} {m : Message} {dir : Direction}

theorem follow_ends (h : headerPhase s.exec m = some dir) :
    (follow pr w s m).2.left dir = flagged (pr.handle w s.exec m).2.tx ∧
      (follow pr w s m).2.gate dir = lastGate (pr.handle w s.exec m).2.log := by
  unfold follow
  simp only [h, decide_true, if_true, and_self]

theorem follow_keeps (h : headerPhase s.exec m ≠ some dir) :
    (follow pr w s m).2.left dir = s.left dir ∧ (follow pr w s m).2.gate dir = s.gate dir := by
  unfold follow
  simp only [h, decide_false, Bool.false_eq_true, if_false, and_self]

end

/-- The direction and the bytes of a body message. -/
def Message.chunk : Message → Option (Direction × Bytes)
  | .requestBody b => some (.request, b.body)
  | .responseBody b => some (.response, b.body)
  | _ => none

/-! ## Charges -/

/-- The effects of a message up to the start of a pipeline or the record of a decision. -/
def ahead (a b : Exec) : List Effect := (b.log.drop a.log.length).takeWhile fun e => !e.outer

def isCharge : Effect → Bool
  | .acquired n => 0 < n
  | _ => false

/-- The budget gave bytes for what the message brought, as opposed to what a stage makes of it. -/
def charged (a b : Exec) : Bool := (ahead a b).any isCharge

/-- A body message that charges the budget is one the header phase of its direction asked for. -/
def ChargedIfLeft (e : Event Followed Message (Option ProcessingResponse)) : Prop :=
  ∀ dir chunk, e.input.chunk = some (dir, chunk) →
    charged e.before.exec e.after.exec = true → e.before.left dir = true

/-- A body message without a policy, without bytes, with nothing left of the budget, or in a
direction whose header phase ended behind a body gate that ran under a policy which is enforced
and looks at the bodies of the direction. -/
def Chargeable (w : World) (e : Event Followed Message (Option ProcessingResponse)) : Prop :=
  ∀ dir chunk, e.input.chunk = some (dir, chunk) → e.before.exec.tx.policy = none ∨ chunk = [] ∨
    w.grant e.before.exec.tick chunk.length = 0 ∨ (e.before.gate dir).any wantsBody = true

/-- Headers that pass a policy which fails closed leave the flags that its settings ask for. -/
def LeavesAsked (e : Event Followed Message (Option ProcessingResponse)) : Prop :=
  ∀ dir p, headerPhase e.before.exec e.input = some dir → e.after.exec.tx.policy = some p →
    FailsClosed p → e.output.any ProcessingResponse.isImmediate = false →
      e.after.left dir = inspectsBody p dir

/-! ### The effects of a body message -/

section
variable {a b : Exec}

theorem charged_of_log {es : List Effect} (h : b.log = a.log ++ es) :
    charged a b = (es.takeWhile fun e => !e.outer).any isCharge := by
  unfold charged ahead
  rw [h, List.drop_left]

theorem charged_self (a : Exec) : charged a a = false := by
  have hnone : a.log = a.log ++ [] := (List.append_nil _).symm
  rw [charged_of_log hnone]
  rfl

/-- What an inspection adds is not looked at. -/
theorem charged_append {es rest : List Effect} (hes : ∀ e ∈ es, e.ofBudget = true)
    (hrest : ∀ e, rest.head? = some e → e.outer = true) (h : b.log = a.log ++ (es ++ rest)) :
    charged a b = es.any isCharge := by
  have hinner : ∀ e ∈ es, (!e.outer) = true := by
    intro e he
    have hbudget := hes e he
    cases e <;> first | rfl | cases hbudget
  have hstop : rest.takeWhile (fun e => !e.outer) = [] := by
    cases rest with
    | nil => rfl
    | cons e rest =>
      rw [List.takeWhile_cons_of_neg]
      simp [hrest e rfl]
  rw [charged_of_log h, List.takeWhile_append_of_pos hinner, hstop, List.append_nil]

end

section
variable [Library] {pr : Processor} {w : World} {st : Exec}

/-- The stages of a body pipeline add to the log. -/
theorem bodyPipeline_log {deps : Deps} {dir : Direction} {q : Pipeline}
    (hq : BodyPipeline deps dir q) (w : World) (ctx : Ctx) (st : Exec) :
    (q.start st).log <+: (q.run w ctx st).2.log := by
  refine stages_invariant (I := fun t => (q.start st).log <+: t.log) hq.inspector (fun _ => id)
    (fun _ _ _ => id) ?_ List.prefix_rfl
  intro s hs t ht _
  have hran : (q.start st).log <+: (t.emit (.ran s.name t.tx)).log :=
    ht.trans (List.prefix_append _ _)
  rcases hq.mem hs with rfl | rfl | rfl | rfl
  · exact hran
  · obtain ⟨es, hlog, -⟩ := bodyContentDecode_log w ctx
      (t.emit (.ran bodyContentDecode.name t.tx))
    rw [hlog]
    exact hran.trans (List.prefix_append _ _)
  · obtain ⟨-, heq | ⟨p, body, -, -, -, heq⟩⟩ := bodyChecks_spec deps.detector w ctx
      (t.emit (.ran (bodyChecks deps.detector).name t.tx)) <;> rw [heq] <;> exact hran
  · obtain ⟨-, score, denied, tick, heq⟩ := runEngines_spec EngineSet.inspectBodyPhase ctx
      (t.emit (.ran wafEngine.name t.tx))
    show _ <+: (runEngines _ _ _).2.log
    rw [heq]
    exact hran

/-- The first thing an inspection does is to start its pipeline, or to record that there is
none. -/
theorem inspectBufferedBody_effects (pr : Processor) (w : World) (st : Exec) :
    ∃ rest, (pr.inspectBufferedBody w st).2.log = st.log ++ rest ∧
      ∀ e, rest.head? = some e → e.outer = true := by
  obtain ⟨-, heq⟩ | ⟨p, d, t, -, hrun, heq⟩ := inspectBufferedBody_cases pr w st
  · exact ⟨[], by rw [heq, List.append_nil], by simp⟩
  rw [heq, finish_log]
  cases hrun with
  | unbuilt e build decision state =>
    rw [state]
    exact ⟨_, rfl, by simp [Effect.outer]⟩
  | ran pp build run =>
    obtain ⟨es, hes⟩ := bodyPipeline_log (buildPolicyPipelines_spec build st.tx.direction).2 w
      (Processor.inspectCtx w (latched st)) (latched st)
    rw [phasePipeline_body] at run
    rw [← Processor.runInspect, run] at hes
    have hstart : t.log = st.log ++ .started (pp.body st.tx.direction).name (latched st).tx :: es := by
      rw [← hes]
      simp [Pipeline.start]
    rw [hstart, List.append_assoc, List.cons_append]
    exact ⟨_, rfl, by simp [Effect.outer]⟩

/-- The effects of a body message under a policy: those of its chunk, then those of the
inspection. -/
theorem onBody_effects {p : CompiledPolicy} (hp : st.tx.policy = some p) (pr : Processor)
    (w : World) (dir : Direction) (b : HttpBody) :
    ∃ rest, (pr.onBody w dir b st).2.log = (buffered pr w dir b.body st).log ++ rest ∧
      ∀ e, rest.head? = some e → e.outer = true := by
  obtain ⟨hnone, -⟩ | ⟨q, u, -, rfl, ⟨-, heq⟩ | ⟨-, bd, v, hrun, heq⟩⟩ := onBody_cases pr w dir b st
  · cases hp.symm.trans hnone
  · rw [heq]
    exact ⟨[], (List.append_nil _).symm, by simp⟩
  · rw [heq]
    have heffects := inspectBufferedBody_effects pr w (buffered pr w dir b.body st)
    rw [hrun] at heffects
    exact heffects

/-- The budget is charged for every byte it grants to a stream with a policy, whatever the
flags. -/
theorem onBody_charged (pr : Processor) (w : World) (dir : Direction) (b : HttpBody) (st : Exec) :
    charged st (pr.onBody w dir b st).2 = true ↔
      st.tx.policy ≠ none ∧ b.body ≠ [] ∧ w.grant st.tick b.body.length ≠ 0 := by
  cases hp : st.tx.policy with
  | none =>
    have hsame : (pr.onBody w dir b st).2 = st := by
      simp [Processor.onBody, hp]
    rw [hsame, charged_self]
    simp
  | some p =>
    obtain ⟨rest, hlog, hrest⟩ := onBody_effects hp pr w dir b
    by_cases hempty : b.body = []
    · have hsame : (buffered pr w dir b.body st).log = st.log := by
        rw [buffered, Processor.appendBody, if_pos hempty]
        rfl
      rw [hsame, ← List.nil_append rest] at hlog
      rw [charged_append (by simp) hrest hlog]
      simp [hempty]
    · obtain ⟨back, hback, happend⟩ := appendBody_effects pr w dir hempty
        (st.setTx (Processor.reopen b.body st.tx))
      rw [← buffered, Exec.setTx_log, Exec.setTx_tick] at happend
      rw [happend, List.append_assoc] at hlog
      rw [charged_append ?_ hrest hlog]
      · rcases hback with rfl | ⟨n, rfl⟩ <;> simp [isCharge, hempty, Nat.pos_iff_ne_zero]
      · rcases hback with rfl | ⟨n, rfl⟩ <;> simp [Effect.ofBudget]

end

/-! ### The flags behind a header phase -/

section
variable [Library] {pr : Processor} {w : World} {st : Exec} {p : CompiledPolicy} {dir : Direction}

omit [Library] in
theorem headerFindings_flagged (pr : Processor) (w : World) (phase : Audit.Phase) (d : Decision)
    (st : Exec) : flagged (headerFindings pr w phase d st).tx = flagged st.tx := by
  unfold headerFindings
  split
  · obtain ⟨tick, -, heq⟩ := emitAudit_spec pr w phase d st
    rw [Processor.emitPhaseFindings, heq]
  · rfl

theorem inspectHeaders_flagged {reply : Bool → ProcessingResponse} {endOfStream : Bool}
    (hc : FailsClosed p) (hp : st.tx.policy = some p) (hdir : st.tx.direction = dir)
    (hpass : (pr.inspectHeaders w dir reply endOfStream p st).1.isImmediate = false) :
    flagged (pr.inspectHeaders w dir reply endOfStream p st).2.tx = inspectsBody p dir := by
  obtain ⟨d, t, hrun, hcases⟩ := inspectHeaders_cases pr w dir reply endOfStream p st
  have hflagged : d.isBlock = false → flagged t.tx = inspectsBody p dir := by
    intro hd
    obtain ⟨-, hrequired, hwaf⟩ := hrun.passes hc hp hdir hd (le_refl _)
    rw [flagged, hrequired, hwaf]
    cases dir <;> simp [inspectsBody]
  obtain ⟨c, -, -, -, heq⟩ | ⟨hd, -, -, u, rfl, heq⟩ := hcases
  · rw [heq] at hpass ⊢
    rw [finish_keeps flagged (fun _ => rfl)]
    exact hflagged (not_block_of_reply hpass)
  · rw [heq]
    split
    · rw [inspectBufferedBody_flagged, headerFindings_flagged, hflagged hd]
    · rw [headerFindings_flagged, hflagged hd]

theorem onRequestHeaders_flagged {attributes : List Bytes} {h : HttpHeaders} (hc : FailsClosed p)
    (hset : st.tx.requestSettled = false)
    (hp : (pr.onRequestHeaders w h (received attributes st)).2.tx.policy = some p)
    (hpass : (pr.onRequestHeaders w h (received attributes st)).1.isImmediate = false) :
    flagged (pr.onRequestHeaders w h (received attributes st)).2.tx = inspectsBody p .request := by
  obtain ⟨d, t, hrun, hcases⟩ := onRequestHeaders_cases pr w h
    (show (received attributes st).tx.requestSettled = false from hset)
  have hdir : t.tx.direction = .request := by
    rw [← (preludeOf_request pr w h attributes st).1, hrun]
  obtain ⟨hend, heq⟩ | ⟨q, -, hq, -, heq⟩ := hcases <;> rw [heq] at hp hpass ⊢
  · rw [finish_keeps Transaction.policy (fun _ => rfl)] at hp
    simp [hp, CompiledPolicy.enforcing_of_blocking hc.blocking, not_block_of_reply hpass] at hend
  · rw [inspectHeaders_policy, hq] at hp
    cases hp
    exact inspectHeaders_flagged hc hq hdir hpass

theorem onResponseHeaders_flagged {h : HttpHeaders} (hc : FailsClosed p)
    (hp : (pr.onResponseHeaders w h st).2.tx.policy = some p)
    (hpass : (pr.onResponseHeaders w h st).1.isImmediate = false) :
    flagged (pr.onResponseHeaders w h st).2.tx = inspectsBody p .response := by
  obtain ⟨d, t, hrun, hcases⟩ := onResponseHeaders_cases pr w h st
  have hrel := (responsePrelude_spec pr.deps w w.ctx (loadResponse h st)).rel
  rw [hrun] at hrel
  have hdir := ((loadResponse_opened h st).resolving hrel).direction
  obtain ⟨hend, heq⟩ | ⟨q, hq, -, heq⟩ := hcases <;> rw [heq] at hp hpass ⊢
  · rw [finish_keeps Transaction.policy (fun _ => rfl)] at hp
    simp [hp, CompiledPolicy.enforcing_of_blocking hc.blocking] at hend
  · rw [inspectHeaders_policy, hq] at hp
    cases hp
    exact inspectHeaders_flagged hc hq hdir hpass

end

/-! ## Runs -/

section
variable [Library]

theorem leavesAsked (pr : Processor) (w : World) (s : Followed) (m : Message) :
    LeavesAsked (event (follow pr w) s m) := by
  intro dir p hphase hp hc hpass
  have hphase : headerPhase s.exec m = some dir := hphase
  show (follow pr w s m).2.left dir = _
  rw [(follow_ends hphase).1]
  cases m with
  | requestHeaders attributes h =>
    cases hset : s.exec.tx.requestSettled with
    | true => simp [headerPhase, hset] at hphase
    | false =>
      obtain rfl : Direction.request = dir := by simpa [headerPhase, hset] using hphase
      exact onRequestHeaders_flagged hc hset hp hpass
  | responseHeaders h =>
    obtain rfl : Direction.response = dir := by simpa [headerPhase] using hphase
    exact onResponseHeaders_flagged hc hp hpass
  | requestBody | requestTrailers | responseBody | responseTrailers | other => cases hphase

/-- The flags a header phase left are those of the gate it ended behind. -/
structure Gated (s : Followed) : Prop where
  exec : FromGate s.exec
  left : ∀ dir, s.left dir = (s.gate dir).any wantsBody

theorem Gated.follow {pr : Processor} {w : World} {s : Followed} (h : Gated s) (m : Message) :
    Gated (follow pr w s m).2 := by
  have hexec : FromGate (pr.handle w s.exec m).2 :=
    ((fromGate_phased pr w).handle h.exec (fun _ _ _ => trivial)).1
  refine ⟨hexec, fun dir => ?_⟩
  by_cases hphase : headerPhase s.exec m = some dir
  · obtain ⟨hleft, hgate⟩ := follow_ends (w := w) hphase
    rw [hleft, hgate]
    exact hexec
  · obtain ⟨hleft, hgate⟩ := follow_keeps (w := w) hphase
    rw [hleft, hgate]
    exact h.left dir

theorem chargedIfLeft_iff {pr : Processor} {w : World} {s : Followed} (h : Gated s) (m : Message) :
    ChargedIfLeft (event (follow pr w) s m) ↔ Chargeable w (event (follow pr w) s m) := by
  have hbody : ∀ (dir : Direction) (b : HttpBody),
      (charged s.exec (pr.onBody w dir b s.exec).2 = true → s.left dir = true) ↔
        (s.exec.tx.policy = none ∨ b.body = [] ∨ w.grant s.exec.tick b.body.length = 0 ∨
          (s.gate dir).any wantsBody = true) := by
    intro dir b
    rw [onBody_charged, h.left dir]
    tauto
  cases m with
  | requestBody b =>
    have horder : (charged s.exec (follow pr w s (.requestBody b)).2.exec = true → _) ↔ _ :=
      hbody .request b
    simpa [ChargedIfLeft, Chargeable, event, Message.chunk] using horder
  | responseBody b =>
    have horder : (charged s.exec (follow pr w s (.responseBody b)).2.exec = true → _) ↔ _ :=
      hbody .response b
    simpa [ChargedIfLeft, Chargeable, event, Message.chunk] using horder
  | requestHeaders | requestTrailers | responseHeaders | responseTrailers | other =>
    simp [ChargedIfLeft, Chargeable, event, Message.chunk]

/-- **The budget is charged for the bytes of a stream with a policy.** In every run the charges
are for bytes the header phase of their direction asked for exactly where the other chunks come
without a policy or find nothing left of the budget; and headers that pass a policy which fails
closed ask for what its settings say. -/
theorem charges_in_order_iff (pr : Processor) (w : World) (snap : Snapshot)
    (msgs : List Message) :
    ((∀ e ∈ trace (follow pr w) (followed pr snap) msgs, ChargedIfLeft e) ↔
      ∀ e ∈ trace (follow pr w) (followed pr snap) msgs, Chargeable w e) ∧
    ∀ e ∈ trace (follow pr w) (followed pr snap) msgs, LeavesAsked e := by
  have hstart : Gated (followed pr snap) := ⟨rfl, fun _ => rfl⟩
  have hevent : ∀ e ∈ trace (follow pr w) (followed pr snap) msgs,
      (ChargedIfLeft e ↔ Chargeable w e) ∧ LeavesAsked e :=
    trace_invariant (C := fun _ => True) (I := Gated)
      (fun s m hs _ => ⟨⟨chargedIfLeft_iff hs m, leavesAsked pr w s m⟩, hs.follow m⟩)
      hstart (fun _ _ => trivial)
  exact ⟨forall₂_congr fun e he => (hevent e he).1, fun e he => (hevent e he).2⟩

end

/-- The body of a policy that inspects requests is asked for, and charged. -/
theorem asked_body_is_charged :
    let _ := Library.nothing
    let pr := plainProcessor true
    let snap := catchAllSnapshot { plainPolicy with inspectRequestBody := true }
    let run := trace (follow pr World.quiet) (followed pr snap)
      [.requestHeaders [] { getRequest [] with endOfStream := false },
        .requestBody ⟨ascii "ab", true⟩]
    run.map (fun e => charged e.before.exec e.after.exec) = [false, true] ∧
      (∀ e ∈ run, Chargeable World.quiet e) ∧ ∀ e ∈ run, ChargedIfLeft e := by
  intro lib pr snap run
  have hcharged : run.map (fun e => charged e.before.exec e.after.exec) = [false, true] := by
    decide +kernel
  have hchargeable : ∀ e ∈ run, Chargeable World.quiet e := by
    refine List.forall_mem_cons.mpr ⟨fun dir chunk h => ?_, List.forall_mem_cons.mpr
      ⟨fun dir chunk h => ?_, fun e he => absurd he List.not_mem_nil⟩⟩
    · cases h
    · cases h
      exact .inr (.inr (.inr (by decide +kernel)))
  exact ⟨hcharged, hchargeable, (charges_in_order_iff pr World.quiet snap _).1.mpr hchargeable⟩

/-- A policy that inspects headers only is charged for a body that it never looks at. -/
theorem body_of_header_policy_is_charged :
    let _ := Library.nothing
    let pr := plainProcessor true
    let snap := catchAllSnapshot plainPolicy
    let headers := { getRequest [] with endOfStream := false }
    ¬ (∀ e ∈ trace (follow pr World.quiet) (followed pr snap)
        [.requestHeaders [] headers, .requestBody ⟨ascii "ab", true⟩], ChargedIfLeft e) ∧
      ¬ ∀ e ∈ trace (follow pr World.quiet) (followed pr snap)
        [.requestHeaders [] headers, .responseHeaders {}, .responseBody ⟨ascii "ab", true⟩],
          ChargedIfLeft e := by
  intro lib pr snap headers
  refine ⟨fun h => ?_, fun h => ?_⟩
  · have hlast := h _ (List.mem_cons_of_mem _ List.mem_cons_self) .request (ascii "ab") rfl
    exact absurd (hlast (by decide +kernel)) (by decide +kernel)
  · have hlast := h _ (List.mem_cons_of_mem _ (List.mem_cons_of_mem _ List.mem_cons_self))
      .response (ascii "ab") rfl
    exact absurd (hlast (by decide +kernel)) (by decide +kernel)

end ElchiShield.Extproc
