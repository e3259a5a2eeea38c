import ElchiShield.Extproc.Phases
import ElchiShield.Lib.Runs

/-! # The first request headers of a stream

How the request prelude decides, by the check at which it finds the context done, and what the
reply to the request headers is in the cases that end there. -/
namespace ElchiShield.Extproc
open ElchiShield.Go ElchiShield.Lib ElchiShield.Engine ElchiShield.Policy ElchiShield.Runtime
open ElchiShield.Pipeline ElchiShield.Stages

variable [Library]

/-! ## Runs of the prelude -/

section
variable {deps : Deps} {w : World} {st : Exec} {snap : Snapshot}

/-- The prelude after its first stage, and after its second. -/
def initialised (deps : Deps) (st : Exec) : Exec :=
  let s := (requestPrelude deps).start st
  (s.next.emit (.ran (ascii "context_init") s.tx)).setTx (initContext deps.trustedHops s.tx)

def resolved (deps : Deps) (snap : Snapshot) (st : Exec) : Exec :=
  let s := initialised deps st
  (s.next.emit (.ran (ascii "policy_resolve") s.tx)).setTx
    { s.tx with policy := resolvedPolicy snap.resolver s.tx }

theorem contextInit_step (hc : w.ctx st.tick = false) :
    stageStep w w.ctx (contextInit deps.trustedHops) ((requestPrelude deps).start st) =
      (none, initialised deps st) :=
  stageStep_pass ((requestPrelude deps).start st) rfl hc rfl

theorem initialised_spec (deps : Deps) (st : Exec) : ∃ host path method contentType sourceIP,
    (initialised deps st).tx = { st.tx with
      host, path, method, contentType, sourceIP,
      result := allowed st.tx.policyID, findings := [] } :=
  initContext_spec deps.trustedHops ((requestPrelude deps).start st).tx

theorem policyResolve_process {ctx : Ctx} (hs : st.tx.snapshot = some snap) :
    policyResolve.process w ctx st =
      (some .continue_, st.setTx { st.tx with policy := resolvedPolicy snap.resolver st.tx }) := by
  unfold policyResolve
  dsimp only
  split
  next h => rw [hs] at h; cases h
  next h =>
    obtain rfl := Option.some.inj (hs.symm.trans h)
    rfl

theorem policyResolve_step (hs : st.tx.snapshot = some snap) (hc : w.ctx (st.tick + 1) = false) :
    stageStep w w.ctx policyResolve (initialised deps st) = (none, resolved deps snap st) := by
  have hsnap : (initialised deps st).tx.snapshot = some snap := by
    obtain ⟨_, _, _, _, _, h⟩ := initialised_spec deps st
    rw [h, hs]
  exact stageStep_pass (initialised deps st) rfl hc (policyResolve_process hsnap)

omit [Library] in
theorem live_before {t : Nat} (h : w.ctx (t + 1) = false) : w.ctx t = false := by
  by_contra hc
  rw [w.ctx_mono t (t + 1) (Nat.le_succ t) (by simpa using hc)] at h
  cases h

/-- The context is done before the policy is resolved: the request passes without one. -/
theorem requestPrelude_unresolved (deps : Deps) (hd : w.ctx (st.tick + 1) = true) (hp : st.tx.policy = none) :
    ((requestPrelude deps).run w w.ctx st).1 = allowed [] ∧
      ((requestPrelude deps).run w w.ctx st).2.tx.policy = none ∧
      w.ctx ((requestPrelude deps).run w w.ctx st).2.tick = true := by
  show (chain _ _ [_, _, _] ((requestPrelude deps).start st)).1 = _ ∧
    (chain _ _ [_, _, _] ((requestPrelude deps).start st)).2.tx.policy = _ ∧
    w.ctx (chain _ _ [_, _, _] ((requestPrelude deps).start st)).2.tick = _
  by_cases hc : w.ctx st.tick = true
  · rw [chain_cons_stop (stageStep_late ((requestPrelude deps).start st) rfl hc)]
    refine ⟨?_, hp, hd⟩
    simp [failPosture, Pipeline.start, hp, Transaction.policyID]
  · rw [Bool.not_eq_true] at hc
    obtain ⟨_, _, _, _, _, htx⟩ := initialised_spec deps st
    rw [chain_cons_pass (contextInit_step hc),
      chain_cons_stop (stageStep_late (initialised deps st) rfl hd)]
    refine ⟨?_, ?_, w.ctx_mono _ (st.tick + 2) (by omega) hd⟩
    · simp [failPosture, htx, hp, Transaction.policyID]
    · rw [Exec.next_tx, htx]; exact hp

/-- The context is done between the resolution of the policy and the early decision. -/
theorem requestPrelude_late (deps : Deps) (hs : st.tx.snapshot = some snap)
    (hl : w.ctx (st.tick + 1) = false) (hd : w.ctx (st.tick + 2) = true) :
    (requestPrelude deps).run w w.ctx st =
      (failPosture (resolved deps snap st).tx true, (resolved deps snap st).next) := by
  show chain _ _ [_, _, _] ((requestPrelude deps).start st) = _
  rw [chain_cons_pass (contextInit_step (live_before hl)), chain_cons_pass (policyResolve_step hs hl),
    chain_cons_stop (stageStep_late (resolved deps snap st) rfl hd)]

theorem requestPrelude_live (hs : st.tx.snapshot = some snap) (hl : w.ctx (st.tick + 2) = false) :
    (requestPrelude deps).run w w.ctx st =
      chain (stageStep w w.ctx) (fun st => st.tx.result) [earlyDecision deps.defaultAllow]
        (resolved deps snap st) := by
  show chain _ _ [_, _, _] ((requestPrelude deps).start st) = _
  rw [chain_cons_pass (contextInit_step (live_before (live_before hl))),
    chain_cons_pass (policyResolve_step hs (live_before hl))]

theorem resolved_spec (deps : Deps) (snap : Snapshot) (st : Exec) :
    (resolved deps snap st).tx.headers = st.tx.headers ∧
      (resolved deps snap st).tx.result = allowed st.tx.policyID ∧
      (resolved deps snap st).tx.bodyRequired = st.tx.bodyRequired ∧
      (resolved deps snap st).tx.wafEnabled = st.tx.wafEnabled := by
  obtain ⟨_, _, _, _, _, h⟩ := initialised_spec deps st
  simp only [resolved, Exec.setTx_tx, h, and_self]

theorem earlyDecision_mismatch (st : Exec) (defaultAllow : Bool) (hc : w.ctx st.tick = false)
    (hm : hostMismatch st.tx.headers = true) :
    stageStep w w.ctx (earlyDecision defaultAllow) st =
      applyDeny
        (deny st.tx (ascii "header.host_mismatch") (ascii "host and :authority disagree") .high)
        (st.next.emit (.ran (ascii "early_decision") st.tx)) := by
  have hprocess : (earlyDecision defaultAllow).process w w.ctx
      (st.next.emit (.ran (ascii "early_decision") st.tx)) =
      (some (deny st.tx (ascii "header.host_mismatch") (ascii "host and :authority disagree") .high),
        st.next.emit (.ran (ascii "early_decision") st.tx)) := by
    simp [earlyDecision, hm]
  exact stageStep_result st rfl hc hprocess

theorem earlyDecision_default (st : Exec) (hc : w.ctx st.tick = false)
    (hm : hostMismatch st.tx.headers = false) (hp : st.tx.policy = none) :
    stageStep w w.ctx (earlyDecision false) st =
      applyDeny
        (.deny
          { action := .block
            reason := ascii "default_deny_no_policy"
            statusCode := defaultBlockStatus })
        ((st.next.emit (.ran (ascii "early_decision") st.tx)).setTx
          { st.tx with policy := some denyAll }) := by
  have hprocess : (earlyDecision false).process w w.ctx
      (st.next.emit (.ran (ascii "early_decision") st.tx)) =
      (some (.deny
          { action := .block
            reason := ascii "default_deny_no_policy"
            statusCode := defaultBlockStatus }),
        (st.next.emit (.ran (ascii "early_decision") st.tx)).setTx
          { st.tx with policy := some denyAll }) := by
    simp [earlyDecision, hm, hp]
  exact stageStep_result st rfl hc hprocess

/-- Where the hosts agree, a request with an enforcing policy goes on to its inspection. -/
theorem requestPrelude_enforcing (deps : Deps) (hs : st.tx.snapshot = some snap)
    (hl : w.ctx (st.tick + 2) = false) (hm : hostMismatch st.tx.headers = false)
    {p : CompiledPolicy} (hp : (resolved deps snap st).tx.policy = some p)
    (henf : p.enforcing = true) :
    (requestPrelude deps).run w w.ctx st = (allowed st.tx.policyID,
      (resolved deps snap st).next.emit
        (.ran (ascii "early_decision") (resolved deps snap st).tx)) := by
  obtain ⟨hheaders, hresult, -, -⟩ := resolved_spec deps snap st
  have hprocess : (earlyDecision deps.defaultAllow).process w w.ctx
      ((resolved deps snap st).next.emit
        (.ran (ascii "early_decision") (resolved deps snap st).tx)) =
      (some .continue_, (resolved deps snap st).next.emit
        (.ran (ascii "early_decision") (resolved deps snap st).tx)) := by
    simp [earlyDecision, hheaders, hm, hp, henf]
  rw [requestPrelude_live hs hl,
    chain_cons_pass (stageStep_pass (resolved deps snap st) rfl hl hprocess), chain, ← hresult]
  rfl

/-- A request whose hosts disagree is blocked exactly under a blocking policy. -/
theorem requestPrelude_mismatch (deps : Deps) (hs : st.tx.snapshot = some snap)
    (hl : w.ctx (st.tick + 2) = false) (hm : hostMismatch st.tx.headers = true) :
    ((requestPrelude deps).run w w.ctx st).1.isBlock =
        (resolved deps snap st).tx.policy.any CompiledPolicy.blocking ∧
      ((requestPrelude deps).run w w.ctx st).2.tx.policy = (resolved deps snap st).tx.policy := by
  obtain ⟨hheaders, hresult, -, -⟩ := resolved_spec deps snap st
  have hstep := earlyDecision_mismatch (resolved deps snap st) deps.defaultAllow hl
    (by rw [hheaders]; exact hm)
  rw [requestPrelude_live hs hl]
  by_cases hb : (resolved deps snap st).tx.policy.any CompiledPolicy.blocking = true
  · have hstatus : defaultBlockStatus ≠ 0 := by decide
    rw [chain_cons_stop (hstep.trans (applyDeny_blocking hstatus hb)), hb]
    exact ⟨rfl, rfl⟩
  · rw [Bool.not_eq_true] at hb
    rw [chain_cons_pass (hstep.trans (applyDeny_observing hb)), hb]
    refine ⟨recordResult_isBlock (observed_ne_block _) ?_, rfl⟩
    rw [Exec.emit_tx, Exec.next_tx, hresult]
    rfl

/-- Without a policy and with the hosts agreeing, the default posture decides. -/
theorem requestPrelude_default (hs : st.tx.snapshot = some snap)
    (hl : w.ctx (st.tick + 2) = false) (hm : hostMismatch st.tx.headers = false)
    (hp : (resolved deps snap st).tx.policy = none) (hd : deps.defaultAllow = false) :
    ((requestPrelude deps).run w w.ctx st).1.isBlock = true := by
  obtain ⟨hheaders, -, -, -⟩ := resolved_spec deps snap st
  have hstep := earlyDecision_default (resolved deps snap st) hl
    (by rw [hheaders]; exact hm) hp
  have hstatus : defaultBlockStatus ≠ 0 := by decide
  rw [requestPrelude_live hs hl, hd,
    chain_cons_stop (hstep.trans (applyDeny_blocking hstatus rfl))]
  rfl

end

/-! ## The reply -/

/-- The transaction `tx` with the headers of a request and the attributes derived from them. -/
def requestTx (deps : Deps) (h : HttpHeaders) (tx : Transaction) : Transaction :=
  initContext deps.trustedHops { tx with direction := .request, headers := loadHeaders h.headers }

/-- The policy the headers of a request resolve to. -/
def requestPolicy (deps : Deps) (snap : Snapshot) (h : HttpHeaders) (tx : Transaction) :
    Option CompiledPolicy :=
  resolvedPolicy snap.resolver (requestTx deps h tx)

section
variable {st : Exec}

theorem resolvedPolicy_congr (r : Option Resolver) (hops : Int) (tx : Transaction)
    (requestID nodeID : Bytes) (result : Decision) (findings : List Decision) :
    resolvedPolicy r (initContext hops { tx with requestID, nodeID, result, findings }) =
      resolvedPolicy r (initContext hops tx) := by
  unfold initContext
  cases tx.direction <;> rfl

theorem resolved_policy (deps : Deps) (snap : Snapshot) (w : World) (h : HttpHeaders) (st : Exec) :
    (resolved deps snap (Processor.loadRequest w h st)).tx.policy =
      requestPolicy deps snap h st.tx := by
  obtain ⟨requestID, htx⟩ := loadRequest_spec w h st
  show resolvedPolicy snap.resolver (initContext deps.trustedHops
    { (Processor.loadRequest w h st).tx with
      result := allowed (Processor.loadRequest w h st).tx.policyID, findings := [] }) = _
  rw [htx]
  exact resolvedPolicy_congr _ _ _ _ _ _ _

theorem onRequestHeaders_block (pr : Processor) (w : World) (h : HttpHeaders)
    (hset : st.tx.requestSettled = false)
    (hb : (preludeOf pr w h st).1.isBlock = true) :
    (pr.onRequestHeaders w h st).1 = immediateResponse (preludeOf pr w h st).1 := by
  simp [Processor.onRequestHeaders, hset, hb]

/-- A prelude that leaves the request without inspection: the reply is a CONTINUE. -/
theorem onRequestHeaders_pass (pr : Processor) (w : World) (h : HttpHeaders)
    (hset : st.tx.requestSettled = false)
    (hb : (preludeOf pr w h st).1.isBlock = false)
    (hp : (preludeOf pr w h st).2.tx.policy.all (fun p => !p.enforcing) = true) :
    (pr.onRequestHeaders w h st).1 = Processor.requestReply (preludeOf pr w h st).2 false ∧
      (pr.onRequestHeaders w h st).2 =
        pr.finish w .requestHeaders (preludeOf pr w h st).1 (preludeOf pr w h st).2 := by
  unfold Processor.onRequestHeaders
  obtain ⟨⟨d, t⟩, hrun⟩ : ∃ r, preludeOf pr w h st = r := ⟨_, rfl⟩
  rw [hrun] at hb hp ⊢
  simp only [hset, hrun, hb]
  cases hpol : t.tx.policy with
  | none => simp
  | some p =>
    have henf : p.enforcing = false := by simpa [hpol] using hp
    simp [henf]

theorem onRequestHeaders_inspect (pr : Processor) (w : World) (h : HttpHeaders)
    (hset : st.tx.requestSettled = false) (hb : (preludeOf pr w h st).1.isBlock = false)
    {p : CompiledPolicy} (hp : (preludeOf pr w h st).2.tx.policy = some p)
    (henf : p.enforcing = true) :
    pr.onRequestHeaders w h st = pr.inspectHeaders w .request
      (Processor.requestReply (preludeOf pr w h st).2) h.endOfStream p (preludeOf pr w h st).2 := by
  unfold Processor.onRequestHeaders
  obtain ⟨⟨d, t⟩, hrun⟩ : ∃ r, preludeOf pr w h st = r := ⟨_, rfl⟩
  rw [hrun] at hb hp ⊢
  dsimp only at hp
  simp [hset, hrun, hb, hp, henf]

end

/-! ## Where policies come from -/

/-- A policy the prelude can give a request. -/
def Provided (snap : Snapshot) (p : CompiledPolicy) : Prop :=
  p = denyAll ∨ p = passThroughPolicy ∨ ∃ input, (snap.resolver.getD {}).resolve input = some p

/-- A stream pinned to a snapshot, under a policy it provides. -/
structure Governed (snap : Snapshot) (tx : Transaction) : Prop where
  snapshot : tx.snapshot = some snap
  provided : ∀ p, tx.policy = some p → Provided snap p

theorem Governed.of_eq {snap : Snapshot} {a b : Transaction} (h : Governed snap a)
    (hs : b.snapshot = a.snapshot) (hp : b.policy = a.policy) : Governed snap b :=
  ⟨hs.trans h.snapshot, by rw [hp]; exact h.provided⟩

theorem newStream_governed (pr : Processor) (snap : Snapshot) :
    Governed snap (pr.newStream snap).tx :=
  ⟨rfl, fun _ hp => (nomatch hp)⟩

theorem resolvedPolicy_provided {snap : Snapshot} {tx : Transaction} {p : CompiledPolicy}
    (h : resolvedPolicy snap.resolver tx = some p) : Provided snap p := by
  unfold resolvedPolicy at h
  split at h
  · exact .inr (.inl (Option.some.inj h).symm)
  · exact .inr (.inr ⟨_, h⟩)

/-- The stages of the request prelude keep a stream governed. -/
theorem requestPrelude_stage_governed {deps : Deps} {snap : Snapshot} {s : Stage}
    (hs : s ∈ (requestPrelude deps).stages) (w : World) (ctx : Ctx) {st : Exec}
    (h : Governed snap st.tx) : Governed snap (s.process w ctx st).2.tx := by
  simp only [requestPrelude, List.mem_cons, List.not_mem_nil, or_false] at hs
  rcases hs with rfl | rfl | rfl
  · obtain ⟨_, _, _, _, _, heq⟩ := initContext_spec deps.trustedHops st.tx
    show Governed snap (initContext deps.trustedHops st.tx)
    rw [heq]
    exact h.of_eq rfl rfl
  · rw [policyResolve_process h.snapshot]
    exact ⟨h.snapshot, fun p hp => resolvedPolicy_provided hp⟩
  · unfold earlyDecision
    dsimp only
    split
    · exact h
    split
    · split
      · exact h
      · exact ⟨h.snapshot, fun p hp => .inl (Option.some.inj hp).symm⟩
    · split
      · exact h
      · exact h

theorem requestPrelude_governed (deps : Deps) {snap : Snapshot} (w : World) (ctx : Ctx) {st : Exec}
    (h : Governed snap st.tx) : Governed snap ((requestPrelude deps).run w ctx st).2.tx := by
  refine stages_invariant (I := fun t => Governed snap t.tx) (requestPrelude_within deps) (fun _ => id)
    (fun _ _ _ ht => ht.of_eq rfl rfl) ?_ (h.of_eq rfl rfl)
  intro s hs t ht _
  exact requestPrelude_stage_governed hs w ctx (ht.of_eq rfl rfl)

/-! ## Before the first request headers -/

def Message.isRequestHeaders : Message → Bool
  | .requestHeaders .. => true
  | _ => false

/-- A stream that has seen no request headers yet: nothing is resolved, nothing settled and no
body asked for. -/
structure Fresh (snap : Snapshot) (st : Exec) : Prop where
  snapshot : st.tx.snapshot = some snap
  policy : st.tx.policy = none
  settled : st.tx.requestSettled = false
  bodyRequired : st.tx.bodyRequired = false
  wafEnabled : st.tx.wafEnabled = false

omit [Library] in
theorem newStream_fresh (pr : Processor) (snap : Snapshot) : Fresh snap (pr.newStream snap) :=
  ⟨rfl, rfl, rfl, rfl, rfl⟩

section
variable {pr : Processor} {w : World} {st : Exec} {snap : Snapshot}

theorem Fresh.onResponseHeaders (hf : Fresh snap st) (h : HttpHeaders) :
    Fresh snap (pr.onResponseHeaders w h st).2 := by
  obtain ⟨reserved, log, hbegin, -⟩ := beginResponse_spec st
  have hrel := (responsePrelude_spec pr.deps w w.ctx (loadResponse h st)).rel
  have hpolicy := responsePrelude_policy pr.deps w w.ctx (loadResponse h st)
  obtain ⟨d, t, hrun, hcases⟩ := onResponseHeaders_cases pr w h st
  rw [hrun] at hrel hpolicy
  have hopened := (loadResponse_opened h st).resolving hrel
  have hnone : t.tx.policy = none := by
    rw [hpolicy, loadResponse, hbegin]
    exact hf.policy
  obtain ⟨-, heq⟩ | ⟨p, hp, -⟩ := hcases
  · obtain ⟨htx, -, -⟩ := finish_spec pr w .responseHeaders d t
    rw [if_neg (by decide)] at htx
    rw [heq]
    refine ⟨?_, ?_, ?_, ?_, ?_⟩ <;> rw [htx]
    · rw [hrel.snapshot]
      show (loadResponse h st).tx.snapshot = some snap
      rw [loadResponse, hbegin]
      exact hf.snapshot
    · exact hnone
    · rw [hrel.requestSettled]
      show (loadResponse h st).tx.requestSettled = false
      rw [loadResponse, hbegin]
      exact hf.settled
    · exact hopened.required
    · exact hopened.waf
  · rw [hnone] at hp
    cases hp

theorem inspectBufferedBody_fresh (hf : Fresh snap st) :
    pr.inspectBufferedBody w st = (none, st) := by
  simp [Processor.inspectBufferedBody, hf.policy]

theorem Fresh.handle (hf : Fresh snap st) {m : Message} (hm : m.isRequestHeaders = false) :
    Fresh snap (pr.handle w st m).2 := by
  cases m with
  | requestHeaders attributes h => cases hm
  | responseHeaders h => exact hf.onResponseHeaders h
  | other => exact hf
  | requestBody b =>
    simpa [Processor.handle, Processor.onRequestBody, Processor.onBody, hf.policy] using hf
  | responseBody b =>
    simpa [Processor.handle, Processor.onResponseBody, Processor.onBody, hf.policy] using hf
  | requestTrailers =>
    simpa [Processor.handle, Processor.onRequestTrailers, Processor.onTrailers,
      inspectBufferedBody_fresh hf] using hf
  | responseTrailers =>
    simpa [Processor.handle, Processor.onResponseTrailers, Processor.onTrailers,
      inspectBufferedBody_fresh hf] using hf

theorem Fresh.runFrom (hf : Fresh snap st) (pr : Processor) (w : World) {earlier : List Message}
    (he : ∀ m ∈ earlier, m.isRequestHeaders = false) :
    Fresh snap (runFrom (pr.handle w) st earlier) := by
  induction earlier generalizing st with
  | nil => exact hf
  | cons m earlier ih =>
    obtain ⟨hm, hrest⟩ := List.forall_mem_cons.mp he
    exact ih (hf.handle hm) hrest

end

end ElchiShield.Extproc
