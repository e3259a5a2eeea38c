import ElchiShield.Extproc.Request
import ElchiShield.Matcher.Hosts

/-! # Default deny and the host gate

The early decision denies a request no policy matches under the default-deny posture, and one
whose :authority and Host headers disagree. Each deny goes through the mode of the policy, and
what the client sees of it is decided by the handler. -/
namespace ElchiShield.Extproc
open ElchiShield.Go ElchiShield.Lib ElchiShield.Engine ElchiShield.Policy ElchiShield.Runtime
open ElchiShield.Pipeline ElchiShield.Stages ElchiShield.Matcher

section
variable [Library]

/-- The reply to the first request headers of a stream on which `earlier` came before. -/
def firstReply (pr : Processor) (w : World) (snap : Snapshot) (earlier : List Message)
    (attributes : List Bytes) (h : HttpHeaders) : Option ProcessingResponse × Exec :=
  pr.handle w (runFrom (pr.handle w) (pr.newStream snap) earlier) (.requestHeaders attributes h)

variable {pr : Processor} {w : World} {snap : Snapshot} {st : Exec} {h : HttpHeaders}
  {attributes : List Bytes}

omit [Library] in
theorem Fresh.received (hf : Fresh snap st) (attributes : List Bytes) :
    Fresh snap (received attributes st) :=
  ⟨hf.snapshot, hf.policy, hf.settled, hf.bodyRequired, hf.wafEnabled⟩

/-- What a fresh stream brings to the prelude. -/
theorem Fresh.loadRequest (hf : Fresh snap st) (w : World) (h : HttpHeaders) :
    Fresh snap (Processor.loadRequest w h st) ∧
      (Processor.loadRequest w h st).tx.headers = loadHeaders h.headers := by
  obtain ⟨requestID, htx⟩ := loadRequest_spec w h st
  refine ⟨⟨?_, ?_, ?_, ?_, ?_⟩, ?_⟩ <;> rw [htx]
  · exact hf.snapshot
  · exact hf.policy
  · exact hf.settled
  · exact hf.bodyRequired
  · exact hf.wafEnabled

theorem requestPolicy_received (deps : Deps) (snap : Snapshot) (h : HttpHeaders)
    (attributes : List Bytes) (st : Exec) :
    requestPolicy deps snap h (received attributes st).tx = requestPolicy deps snap h st.tx :=
  resolvedPolicy_congr snap.resolver deps.trustedHops
    { st.tx with direction := .request, headers := loadHeaders h.headers } st.tx.requestID
    (listenerIDFromAttributes attributes) st.tx.result st.tx.findings

omit [Library] in
theorem requestReply_ne_immediate (st : Exec) (needBody : Bool) (r : ImmediateResponse) :
    Processor.requestReply st needBody ≠ .immediate r := by
  simp [Processor.requestReply, headersContinue]

/-! ## Default deny -/

/-- The prelude of a request no policy matches, with a context that is done at its end. -/
theorem Fresh.prelude_done (hf : Fresh snap st) (hp : requestPolicy pr.deps snap h st.tx = none)
    (hd : w.ctx ((Processor.loadRequest w h st).tick + 2) = true) :
    (preludeOf pr w h st).1.isBlock = false ∧ (preludeOf pr w h st).2.tx.policy = none ∧
      w.ctx (preludeOf pr w h st).2.tick = true := by
  obtain ⟨hload, -⟩ := hf.loadRequest w h
  by_cases hl : w.ctx ((Processor.loadRequest w h st).tick + 1) = true
  · obtain ⟨hdec, hpol, htick⟩ := requestPrelude_unresolved pr.deps hl hload.policy
    exact ⟨by rw [preludeOf, hdec]; rfl, hpol, htick⟩
  · rw [Bool.not_eq_true] at hl
    have hnone := (resolved_policy pr.deps snap w h st).trans hp
    obtain ⟨-, hresult, -, -⟩ := resolved_spec pr.deps snap (Processor.loadRequest w h st)
    rw [preludeOf, requestPrelude_late pr.deps hload.snapshot hl hd]
    refine ⟨?_, hnone, w.ctx_mono _ _ (Nat.le_succ _) hd⟩
    simp only [failPosture, hnone, hresult]
    rfl

/-- Under default deny, a request no policy matches is answered with a block exactly where
its hosts agree: the deny of the host gate is recorded without a policy, which enforces
nothing, and keeps the default deny from being reached. -/
theorem default_deny_iff_hosts_agree (pr : Processor) (w : World) (snap : Snapshot)
    (earlier : List Message) (attributes : List Bytes) (h : HttpHeaders)
    (hdeny : pr.deps.defaultAllow = false)
    (hfirst : ∀ m ∈ earlier, m.isRequestHeaders = false)
    (hlive : w.ctx (firstReply pr w snap earlier attributes h).2.tick = false)
    (hpath : (snap.resolver.getD {}).excluded (matchPath (requestTx pr.deps h
      (runFrom (pr.handle w) (pr.newStream snap) earlier).tx).path) = false)
    (hnone : (snap.resolver.getD {}).resolve (resolveInput (requestTx pr.deps h
      (runFrom (pr.handle w) (pr.newStream snap) earlier).tx)) = none) :
    (∃ r, (firstReply pr w snap earlier attributes h).1 = some (.immediate r)) ↔
      hostMismatch (loadHeaders h.headers) = false := by
  have hf := ((newStream_fresh pr snap).runFrom pr w hfirst).received attributes
  have hpol := requestPolicy_received pr.deps snap h attributes
    (runFrom (pr.handle w) (pr.newStream snap) earlier)
  obtain ⟨st, hst⟩ : ∃ st, st = received attributes
    (runFrom (pr.handle w) (pr.newStream snap) earlier) := ⟨_, rfl⟩
  have hreply : firstReply pr w snap earlier attributes h =
      (some (pr.onRequestHeaders w h st).1, (pr.onRequestHeaders w h st).2) := by rw [hst]; rfl
  have hres : requestPolicy pr.deps snap h st.tx = none := by
    rw [hst, hpol, requestPolicy, resolvedPolicy, hpath, hnone]
    rfl
  rw [← hst] at hf
  rw [hreply] at hlive ⊢
  obtain ⟨hload, hheaders⟩ := hf.loadRequest w h
  have hpolicy := (resolved_policy pr.deps snap w h st).trans hres
  -- the context is live at the last check of the prelude, or the reply would have come too late
  have hl : w.ctx ((Processor.loadRequest w h st).tick + 2) = false := by
    by_contra hd
    obtain ⟨hb, hp, htick⟩ := hf.prelude_done hres (by simpa using hd)
    obtain ⟨-, hfin⟩ := onRequestHeaders_pass pr w h hf.settled hb (by rw [hp]; rfl)
    obtain ⟨-, hle, -⟩ := finish_spec pr w .requestHeaders (preludeOf pr w h st).1
      (preludeOf pr w h st).2
    rw [hfin, w.ctx_mono _ _ hle htick] at hlive
    cases hlive
  cases hm : hostMismatch (loadHeaders h.headers) with
  | false =>
    have hb := requestPrelude_default hload.snapshot hl (by rw [hheaders]; exact hm) hpolicy hdeny
    simp [onRequestHeaders_block pr w h hf.settled hb, immediateResponse]
  | true =>
    obtain ⟨hb, hp⟩ := requestPrelude_mismatch pr.deps hload.snapshot hl
      (by rw [hheaders]; exact hm)
    rw [hpolicy] at hb hp
    obtain ⟨hpass, -⟩ := onRequestHeaders_pass pr w h hf.settled hb (by rw [hp]; rfl)
    simp [hpass, requestReply_ne_immediate]

end

/-- A processor that audits nothing and detects nothing. -/
def plainProcessor (defaultAllow : Bool) : Processor :=
  newProcessor { defaultAllow } false [] [] 0

/-- The headers of a request for `/`. -/
def getRequest (hosts : List HeaderValue) : HttpHeaders where
  headers := hosts ++ [⟨ascii ":path", ascii "/", []⟩, ⟨ascii ":method", ascii "GET", []⟩]
  endOfStream := true

def authority (value : Bytes) : HeaderValue := ⟨ascii ":authority", value, []⟩
def hostHeader (value : Bytes) : HeaderValue := ⟨ascii "host", value, []⟩

theorem unmatched_request_is_denied :
    let _ := Library.nothing
    let h := getRequest [authority (ascii "a.example")]
    ∃ r, (firstReply (plainProcessor false) World.quiet emptySnapshot [] [] h).1 =
      some (.immediate r) := by
  intro lib h
  exact (default_deny_iff_hosts_agree (plainProcessor false) World.quiet emptySnapshot [] [] h rfl
    (by simp) rfl (by decide +kernel) (by rfl)).mpr (by decide +kernel)

/-- The empty snapshot has no policy for any request; one whose hosts disagree is let through
although the posture is to deny. -/
theorem smuggled_request_passes_default_deny :
    let _ := Library.nothing
    let h := getRequest [authority (ascii "a.example"), hostHeader (ascii "b.example")]
    let pr := plainProcessor false
    pr.deps.defaultAllow = false ∧
      requestPolicy pr.deps emptySnapshot h (pr.newStream emptySnapshot).tx = none ∧
      (firstReply pr World.quiet emptySnapshot [] [] h).1 =
        some (.headers .request (some modeSkipResponse)) := by
  intro lib h pr
  exact ⟨rfl, by rfl, by decide +kernel⟩

/-! ## The host gate -/

section
variable [Library] {pr : Processor} {w : World} {snap : Snapshot} {st : Exec} {h : HttpHeaders}

/-- For ASCII values to differ is for their normal forms to differ. -/
theorem equalFold_normalizeHost {a b : Bytes} (ha : isASCII a = true) (hb : isASCII b = true) :
    equalFold (normalizeHost a) (normalizeHost b) = true ↔ normalizeHost a = normalizeHost b := by
  have hlower : ∀ {c : Bytes}, isASCII c = true →
      isASCII (normalizeHost c) = true ∧ lowerASCII (normalizeHost c) = normalizeHost c := by
    intro c hc
    rw [normalizeHost_of_isASCII hc, lowerASCII_lowerASCII]
    exact ⟨isASCII_lowerASCII (isASCII_of_subset (bareHost_subset c) hc), rfl⟩
  rw [equalFold_iff_lowerASCII (hlower ha).1 (hlower hb).1, (hlower ha).2, (hlower hb).2]

/-- A header phase whose context is done from its start, under a policy that fails open. -/
theorem inspectHeaders_late {dir : Direction} {reply : Bool → ProcessingResponse}
    {endOfStream : Bool} {p : CompiledPolicy} (hp : st.tx.policy = some p)
    (hopen : p.failOpen = true) (hc : w.ctx st.tick = true) (hb : st.tx.bodyRequired = false)
    (hw : st.tx.wafEnabled = false) :
    (pr.inspectHeaders w dir reply endOfStream p st).1 = reply false ∨
      (pr.inspectHeaders w dir reply endOfStream p st).1 =
        continueFor (Audit.headersPhase dir) := by
  unfold Processor.inspectHeaders
  dsimp only
  split
  · refine .inr ?_
    simp [Processor.failBuild, Processor.failBuildDecision, Processor.buildFailed, hp, hopen,
      Processor.replyTo, allowed, Decision.isBlock]
  next pp hpp =>
    refine .inl ?_
    obtain ⟨hheader, -⟩ := buildPolicyPipelines_spec hpp dir
    have hctx : Processor.inspectCtx w st st.tick = true := by simp [Processor.inspectCtx, hc]
    have hrun : Processor.runInspect w (pp.header dir) st =
        (allowed p.id, ((pp.header dir).start st).next) := by
      rw [Processor.runInspect, headerPipeline_late hheader hctx]
      simp [failPosture, Pipeline.start, hp, hopen, Transaction.policyID]
    rw [hrun]
    simp [allowed, Decision.isBlock, Pipeline.start, hb, hw]

/-- When the deny of the host gate reaches the client, for a policy that blocks or is off, or
for none: the context is live when the policy is resolved, and then either it is live at the
early decision too and the policy blocks, or it is done and the policy fails closed. The
prelude first checks the context at tick `t`. -/
def GateHolds (w : World) (t : Nat) (policy : Option CompiledPolicy) : Prop :=
  w.ctx (t + 1) = false ∧
    (w.ctx (t + 2) = false ∧ policy.any CompiledPolicy.blocking = true ∨
      w.ctx (t + 2) = true ∧ policy.any (fun p => !p.failOpen) = true)

omit [Library] in
theorem not_enforcing_of_off {p : CompiledPolicy} (h : p.mode = .off) : p.enforcing = false := by
  simp [CompiledPolicy.enforcing, h]

/-- The context is live at the early decision: the deny reaches the client if the policy blocks. -/
theorem Fresh.gate_live (hf : Fresh snap st) (hm : hostMismatch (loadHeaders h.headers) = true)
    (hkind : ∀ p, requestPolicy pr.deps snap h st.tx = some p → p.mode = .block ∨ p.mode = .off)
    (hl : w.ctx ((Processor.loadRequest w h st).tick + 2) = false) :
    (∃ r, (pr.onRequestHeaders w h st).1 = .immediate r) ↔
      (requestPolicy pr.deps snap h st.tx).any CompiledPolicy.blocking = true := by
  obtain ⟨hload, hheaders⟩ := hf.loadRequest w h
  obtain ⟨hb, hp⟩ := requestPrelude_mismatch pr.deps hload.snapshot hl (by rw [hheaders]; exact hm)
  rw [resolved_policy] at hb hp
  obtain ⟨policy, hpol⟩ : ∃ policy, requestPolicy pr.deps snap h st.tx = policy := ⟨_, rfl⟩
  rw [hpol] at hkind hb hp ⊢
  cases hblock : policy.any CompiledPolicy.blocking with
  | true =>
    have hreply := onRequestHeaders_block pr w h hf.settled (hb.trans hblock)
    simp [hreply, immediateResponse]
  | false =>
    have hpassive : policy.all (fun p => !p.enforcing) = true := by
      cases policy with
      | none => rfl
      | some p =>
        rcases hkind p rfl with hmode | hmode
        · simp [CompiledPolicy.blocking, hmode] at hblock
        · simp [not_enforcing_of_off hmode]
    obtain ⟨hpass, -⟩ := onRequestHeaders_pass pr w h hf.settled (hb.trans hblock)
      (by rw [preludeOf, hp]; exact hpassive)
    simp [hpass, requestReply_ne_immediate]

/-- The context is done before the early decision: only the fail posture is left. -/
theorem Fresh.prelude_late (hf : Fresh snap st) (pr : Processor)
    (hl : w.ctx ((Processor.loadRequest w h st).tick + 1) = false)
    (hd : w.ctx ((Processor.loadRequest w h st).tick + 2) = true) :
    (preludeOf pr w h st).1.isBlock =
        (requestPolicy pr.deps snap h st.tx).any (fun p => !p.failOpen) ∧
      (preludeOf pr w h st).2.tx.policy = requestPolicy pr.deps snap h st.tx ∧
      w.ctx (preludeOf pr w h st).2.tick = true ∧
      (preludeOf pr w h st).2.tx.bodyRequired = false ∧
      (preludeOf pr w h st).2.tx.wafEnabled = false := by
  have hload := (hf.loadRequest w h).1
  have hpolicy := resolved_policy pr.deps snap w h st
  obtain ⟨-, hresult, hrequired, hwaf⟩ := resolved_spec pr.deps snap (Processor.loadRequest w h st)
  rw [preludeOf, requestPrelude_late pr.deps hload.snapshot hl hd]
  refine ⟨?_, hpolicy, w.ctx_mono _ _ (Nat.le_succ _) hd, hrequired.trans hload.bodyRequired,
    hwaf.trans hload.wafEnabled⟩
  rw [failPosture, hpolicy, hresult]
  cases requestPolicy pr.deps snap h st.tx with
  | none => rfl
  | some p => cases hopen : p.failOpen <;> simp [hopen, Decision.isBlock, allowed]

theorem Fresh.gate_late (hf : Fresh snap st)
    (hl : w.ctx ((Processor.loadRequest w h st).tick + 1) = false)
    (hd : w.ctx ((Processor.loadRequest w h st).tick + 2) = true) :
    (∃ r, (pr.onRequestHeaders w h st).1 = .immediate r) ↔
      (requestPolicy pr.deps snap h st.tx).any (fun p => !p.failOpen) = true := by
  obtain ⟨hblock, hpolicy, htick, hrequired, hwaf⟩ := hf.prelude_late pr hl hd
  obtain ⟨d, t, hrun, hcases⟩ := onRequestHeaders_cases pr w h hf.settled
  rw [hrun] at hblock hpolicy htick hrequired hwaf
  rw [← hblock]
  obtain ⟨-, heq⟩ | ⟨p, hpass, hp, -, heq⟩ := hcases <;> rw [heq]
  · cases hb : d.isBlock with
    | true => simp [Processor.replyTo, hb, immediateResponse]
    | false => simp [Processor.replyTo, hb, requestReply_ne_immediate]
  · -- the header phase runs, and its first check finds the context done as well
    have hopen : p.failOpen = true := by
      rw [← hpolicy, hp] at hblock
      simpa using hblock.symm.trans hpass
    refine iff_of_false ?_ (by simp [hpass])
    rintro ⟨r, hr⟩
    rcases inspectHeaders_late hp hopen htick hrequired hwaf with hlate | hlate
    · exact requestReply_ne_immediate _ _ r (hlate.symm.trans hr)
    · cases hlate.symm.trans hr

/-- The reply to the request headers of a fresh stream whose hosts disagree. -/
theorem Fresh.gate_iff (hf : Fresh snap st) (hm : hostMismatch (loadHeaders h.headers) = true)
    (hkind : ∀ p, requestPolicy pr.deps snap h st.tx = some p → p.mode = .block ∨ p.mode = .off) :
    (∃ r, (pr.onRequestHeaders w h st).1 = .immediate r) ↔
      GateHolds w (Processor.loadRequest w h st).tick (requestPolicy pr.deps snap h st.tx) := by
  unfold GateHolds
  cases hl : w.ctx ((Processor.loadRequest w h st).tick + 1) with
  | true =>
    obtain ⟨hdec, hp, -⟩ := requestPrelude_unresolved pr.deps hl (hf.loadRequest w h).1.policy
    obtain ⟨hpass, -⟩ := onRequestHeaders_pass pr w h hf.settled
      (by rw [preludeOf, hdec]; rfl) (by rw [preludeOf, hp]; rfl)
    simp [hpass, requestReply_ne_immediate]
  | false =>
    cases hl2 : w.ctx ((Processor.loadRequest w h st).tick + 2) with
    | false => simp [hf.gate_live hm hkind hl2]
    | true => simp [hf.gate_late hl hl2]

end

/-- A snapshot with one policy, for every host and path. -/
def catchAllSnapshot (p : CompiledPolicy) : Snapshot where
  version := ascii "catch-all"
  hash := ascii "catch-all"
  sources := []
  cfg := {}
  resolver := some { wildcard := [⟨[.catchAll], [], p⟩] }

section
variable [Library]

theorem catchAllSnapshot_resolve (p : CompiledPolicy) (input : Input) :
    ((catchAllSnapshot p).resolver.getD {}).resolve input = some p := by
  simp [catchAllSnapshot, Resolver.resolve, Resolver.bestDomain, Resolver.exactDomains, betterDomain,
    CompiledDomain.hostSpecificity, bestSpecificity, Host.match, Host.specificity,
    CompiledDomain.policyFor]

theorem catchAllSnapshot_resolves (p : CompiledPolicy) (tx : Transaction) :
    resolvedPolicy (catchAllSnapshot p).resolver tx = some p := by
  rw [resolvedPolicy, catchAllSnapshot_resolve]
  simp [catchAllSnapshot, Resolver.excluded]

/-- A blocking policy without any checks. -/
def plainPolicy : CompiledPolicy := { id := ascii "plain", mode := .block }

/-- The two values of a request are the first of their names. -/
theorem getRequest_hosts (auth host : Bytes) :
    let headers := loadHeaders (getRequest [authority auth, hostHeader host]).headers
    Engine.header headers (ascii ":authority") = some auth ∧
      Engine.header headers (ascii "host") = some host := by
  have hvalue : ∀ v : Bytes, (if v = [] then [] else v) = v := by
    intro v
    split
    next h => exact h.symm
    next => rfl
  have hne : equalFold (ascii ":authority") (ascii "host") = false := by
    rw [← Bool.not_eq_true, equalFold_iff_lowerASCII (by decide) (by decide)]
    decide
  have hself : ∀ s : Bytes, equalFold s s = true := by simp [equalFold]
  simp [loadHeaders, getRequest, authority, hostHeader, Engine.header, List.find?, hvalue, hne, hself]

/-- Between two stages of its header phase: nothing was found and no body asked for. -/
structure Untouched (st : Exec) : Prop where
  policy : st.tx.policy = some plainPolicy
  result : st.tx.result.isBlock = false
  bodyRequired : st.tx.bodyRequired = false
  wafEnabled : st.tx.wafEnabled = false

theorem process_plain {w : World} {ctx : Ctx} {st : Exec} (hst : Untouched st) {s : Stage}
    (hs : s ∈ [fastPreChecks, wafHeaderEngine, bodyGate]) :
    ∃ t, s.process w ctx st = (some .continue_, t) ∧ Untouched t := by
  simp only [List.mem_cons, List.not_mem_nil, or_false] at hs
  rcases hs with rfl | rfl | rfl
  · have hchecks : requestHeaderChecks plainPolicy st.tx = .continue_ := rfl
    exact ⟨st, by simp [fastPreChecks, pureStage, hst.policy, hchecks], hst⟩
  · have hlen : plainPolicy.engineSet.len = 0 := rfl
    exact ⟨st, by simp [wafHeaderEngine, runEngines, hst.policy, hlen], hst⟩
  · refine ⟨_, bodyGate_enforcing w ctx hst.policy rfl, ⟨hst.policy, hst.result, ?_, rfl⟩⟩
    show inspectsBody plainPolicy st.tx.direction = false
    cases st.tx.direction <;> rfl

/-- The header phase of the policy without checks. -/
theorem inspectHeaders_plain {pr : Processor} {st : Exec} {reply : Bool → ProcessingResponse}
    {endOfStream : Bool} (hp : st.tx.policy = some plainPolicy)
    (hb : st.tx.bodyRequired = false) (hw : st.tx.wafEnabled = false) :
    (pr.inspectHeaders World.quiet .request reply endOfStream plainPolicy st).1 = reply false := by
  obtain ⟨pp, hpp, hstages⟩ : ∃ pp, pr.policyPipelines plainPolicy = .ok pp ∧
      (pp.header .request).stages = [fastPreChecks, wafHeaderEngine, bodyGate] := ⟨_, rfl, rfl⟩
  have hlive : ∀ t, Processor.inspectCtx World.quiet st t = false := by
    simp [Processor.inspectCtx, World.quiet]
  obtain ⟨⟨d, t⟩, hrun⟩ : ∃ r, Processor.runInspect World.quiet (pp.header .request) st = r :=
    ⟨_, rfl⟩
  have hstep : ∀ s ∈ (pp.header .request).stages, ∀ u, Untouched u →
      After Untouched (fun d t => d.isBlock = false ∧ Untouched t)
        (stageStep World.quiet (Processor.inspectCtx World.quiet st) s u) := by
    intro s hs u hu
    rw [hstages] at hs
    have hgate : gated s.phase u.tx = false := by
      simp only [List.mem_cons, List.not_mem_nil, or_false] at hs
      rcases hs with rfl | rfl | rfl <;> rfl
    have hu' : Untouched (u.next.emit (.ran s.name u.tx)) :=
      ⟨hu.policy, hu.result, hu.bodyRequired, hu.wafEnabled⟩
    obtain ⟨v, hv, hv'⟩ := process_plain hu' hs
    rw [stageStep_pass u hgate (hlive _) hv]
    exact hv'
  have hend : d.isBlock = false ∧ Untouched t := by
    have h : (Processor.runInspect World.quiet (pp.header .request) st).1.isBlock = false ∧
        Untouched (Processor.runInspect World.quiet (pp.header .request) st).2 :=
      chain_rule hstep (fun s hs => ⟨hs.result, hs⟩) ⟨hp, rfl, hb, hw⟩
    rwa [hrun] at h
  obtain ⟨hd, ht⟩ := hend
  simp [Processor.inspectHeaders, hpp, hrun, hd, ht.bodyRequired, ht.wafEnabled]

/-- Two values that `EqualFold` takes for the same host pass the gate, whatever their normal
forms. -/
theorem folded_hosts_pass {auth host : Bytes}
    (hfold : equalFold (normalizeHost auth) (normalizeHost host) = true) (r : ImmediateResponse) :
    (firstReply (plainProcessor true) World.quiet (catchAllSnapshot plainPolicy) [] []
      (getRequest [authority auth, hostHeader host])).1 ≠ some (.immediate r) := by
  obtain ⟨h, hh⟩ : ∃ h, h = getRequest [authority auth, hostHeader host] := ⟨_, rfl⟩
  obtain ⟨ha, hb⟩ := getRequest_hosts auth host
  rw [← hh] at ha hb ⊢
  have hm : hostMismatch (loadHeaders h.headers) = false := by
    simp [hostMismatch, ha, hb, hfold]
  obtain ⟨st, hst⟩ : ∃ st, st = received []
    ((plainProcessor true).newStream (catchAllSnapshot plainPolicy)) := ⟨_, rfl⟩
  have hf : Fresh (catchAllSnapshot plainPolicy) st := hst ▸ (newStream_fresh _ _).received []
  obtain ⟨hload, hheaders⟩ := hf.loadRequest World.quiet h
  have hpolicy := (resolved_policy (plainProcessor true).deps _ World.quiet h st).trans
    (catchAllSnapshot_resolves plainPolicy _)
  have hlive : World.quiet.ctx ((Processor.loadRequest World.quiet h st).tick + 2) = false := rfl
  have hrun := requestPrelude_enforcing (plainProcessor true).deps hload.snapshot hlive
    (by rw [hheaders]; exact hm) hpolicy rfl
  have hreply : (firstReply (plainProcessor true) World.quiet (catchAllSnapshot plainPolicy) [] [] h).1
      = some ((plainProcessor true).onRequestHeaders World.quiet h st).1 := by rw [hst]; rfl
  rw [hreply, onRequestHeaders_inspect _ _ _ hf.settled (by rw [preludeOf, hrun]; rfl)
    (by rw [preludeOf, hrun]; exact hpolicy) rfl, preludeOf, hrun]
  obtain ⟨-, -, hrequired, hwaf⟩ := resolved_spec (plainProcessor true).deps
    (catchAllSnapshot plainPolicy) (Processor.loadRequest World.quiet h st)
  dsimp only
  rw [inspectHeaders_plain (by exact hpolicy) (by exact hrequired.trans hload.bodyRequired)
    (by exact hwaf.trans hload.wafEnabled)]
  simpa using requestReply_ne_immediate _ _ r

/-- The gate, for a request that resolves to a blocking policy, to one that is off (as an
excluded path does) or to none. Values that differ beyond letter case are answered with a block
exactly where `GateHolds`; values that `EqualFold` identifies are let through under a blocking
policy with a live context. -/
theorem host_gate_iff (pr : Processor) (w : World) (snap : Snapshot) (earlier : List Message)
    (attributes : List Bytes) (h : HttpHeaders) (auth host : Bytes)
    (hfirst : ∀ m ∈ earlier, m.isRequestHeaders = false)
    (hauth : Engine.header (loadHeaders h.headers) (ascii ":authority") = some auth)
    (hhost : Engine.header (loadHeaders h.headers) (ascii "host") = some host)
    (hkind : ∀ p, requestPolicy pr.deps snap h
      (received attributes (runFrom (pr.handle w) (pr.newStream snap) earlier)).tx = some p →
        p.mode = .block ∨ p.mode = .off) :
    let st := received attributes (runFrom (pr.handle w) (pr.newStream snap) earlier)
    (equalFold (normalizeHost auth) (normalizeHost host) = false →
      ((∃ r, (firstReply pr w snap earlier attributes h).1 = some (.immediate r)) ↔
        GateHolds w (Processor.loadRequest w h st).tick (requestPolicy pr.deps snap h st.tx))) ∧
    (equalFold (normalizeHost auth) (normalizeHost host) = true →
      ∃ snap' h' p, Engine.header (loadHeaders h'.headers) (ascii ":authority") = some auth ∧
        Engine.header (loadHeaders h'.headers) (ascii "host") = some host ∧
        (∀ deps tx, requestPolicy deps snap' h' tx = some p) ∧ p.mode = .block ∧
        ∀ r, (firstReply (plainProcessor true) World.quiet snap' [] [] h').1 ≠
          some (.immediate r)) := by
  intro st
  refine ⟨fun hne => ?_, fun hfold => ?_⟩
  · have hf := ((newStream_fresh pr snap).runFrom pr w hfirst).received attributes
    have hm : hostMismatch (loadHeaders h.headers) = true := by
      simp [hostMismatch, hauth, hhost, hne]
    have hreply : (firstReply pr w snap earlier attributes h).1 =
        some (pr.onRequestHeaders w h st).1 := rfl
    simp only [hreply, Option.some.injEq]
    exact hf.gate_iff hm hkind
  · obtain ⟨ha, hb⟩ := getRequest_hosts auth host
    exact ⟨_, _, plainPolicy, ha, hb, fun _ _ => catchAllSnapshot_resolves _ _, rfl,
      folded_hosts_pass hfold⟩

end

theorem smuggled_request_is_blocked :
    let _ := Library.nothing
    let h := getRequest [authority (ascii "a.example"), hostHeader (ascii "b.example")]
    ∃ r, (firstReply (plainProcessor true) World.quiet (catchAllSnapshot plainPolicy) [] [] h).1 =
      some (.immediate r) := by
  intro lib h
  have hgate := host_gate_iff (plainProcessor true) World.quiet (catchAllSnapshot plainPolicy) [] []
    h (ascii "a.example") (ascii "b.example") (by simp) (by decide +kernel) (by decide +kernel)
    (fun p hp => .inl (Option.some.inj ((catchAllSnapshot_resolves plainPolicy _).symm.trans hp) ▸ rfl))
  have hne : equalFold (normalizeHost (ascii "a.example")) (normalizeHost (ascii "b.example")) =
      false := by
    rw [← Bool.not_eq_true, equalFold_normalizeHost rfl rfl]
    decide +kernel
  refine (hgate.1 hne).mpr ⟨rfl, .inl ⟨rfl, ?_⟩⟩
  rw [requestPolicy, catchAllSnapshot_resolves]
  rfl

/-- A policy that is off. -/
def offPolicy : CompiledPolicy := { id := ascii "off", mode := .off }

/-- The same request under a policy that is off, and on an excluded path, is let through. -/
theorem smuggled_request_passes_off_policy :
    let _ := Library.nothing
    let h := getRequest [authority (ascii "a.example"), hostHeader (ascii "b.example")]
    let excluding : Snapshot :=
      { catchAllSnapshot plainPolicy with resolver := some { excludes := [ascii "/"] } }
    normalizeHost (ascii "a.example") ≠ normalizeHost (ascii "b.example") ∧
      (firstReply (plainProcessor false) World.quiet (catchAllSnapshot offPolicy) [] [] h).1 =
        some (.headers .request (some modeSkipResponse)) ∧
      (firstReply (plainProcessor false) World.quiet excluding [] [] h).1 =
        some (.headers .request (some modeSkipResponse)) := by
  intro lib h excluding
  exact ⟨by decide +kernel, by decide +kernel, by decide +kernel⟩

end ElchiShield.Extproc
