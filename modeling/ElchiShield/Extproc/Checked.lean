import ElchiShield.Extproc.FailClosed
import ElchiShield.Sensitive

/-! # What the native checks keep out

The checks a policy configures itself, from the message of the proxy to the header, the JSON text
or the card number they are about. As for the engines, the policy blocks and fails closed. -/
namespace ElchiShield.Extproc
open ElchiShield.Go ElchiShield.Lib ElchiShield.Engine ElchiShield.Policy ElchiShield.Runtime
open ElchiShield.Pipeline ElchiShield.Stages

section
variable [Library] {deps : Deps} {dir : Direction} {q : Pipeline} {p : CompiledPolicy} {w : World}
  {ctx : Ctx} {st : Exec}

/-! ## Headers -/

/-- The header checks of a policy hold of a request. -/
structure HeadersMeet (p : CompiledPolicy) (tx : Transaction) : Prop where
  host : p.skipsCheck checkHost = false → p.checks.enforceValidHost = true → trimSpace tx.host ≠ []
  forbidden : p.skipsCheck checkForbiddenHeaders = false →
    ∀ name ∈ p.checks.forbiddenHeaders, tx.header name = none
  required : p.skipsCheck checkRequiredHeaders = false →
    ∀ name ∈ p.checks.requiredHeaders, (tx.header name).isSome = true
  sizes : p.skipsCheck checkOversizedHeaders = false → p.checks.maxHeaderValueBytes > 0 →
    ∀ h ∈ tx.headers, (h.value.length : Int) ≤ p.checks.maxHeaderValueBytes

omit [Library] in
theorem deny_ne_continue (tx : Transaction) (ruleID reason : Bytes) (sev : Severity) :
    deny tx ruleID reason sev ≠ .continue_ := denyEngine_ne_continue _ _ _ _ _

omit [Library] in
/-- A search that is made unless the check is skipped has found nothing. -/
theorem find?_unless_skipped {α : Type} {skip : Bool} {found : α → Bool} {l : List α}
    (h : (if skip then none else l.find? found) = none) (hskip : skip = false) :
    ∀ a ∈ l, found a = false := by
  rw [hskip] at h
  intro a ha
  simpa using List.find?_eq_none.mp h a ha

theorem requestHeaderChecks_continue {tx : Transaction}
    (h : requestHeaderChecks p tx = .continue_) : HeadersMeet p tx := by
  unfold requestHeaderChecks at h
  dsimp only at h
  split at h
  next => exact absurd h (deny_ne_continue _ _ _ _)
  next hhost =>
    split at h
    next => exact absurd h (deny_ne_continue _ _ _ _)
    next hforbidden =>
      split at h
      next => exact absurd h (deny_ne_continue _ _ _ _)
      next hrequired =>
        split at h
        next => exact absurd h (deny_ne_continue _ _ _ _)
        next hsizes =>
          refine ⟨?_, ?_, ?_, ?_⟩
          · intro hskip henforce hempty
            simp [hskip, henforce, hempty] at hhost
          · intro hskip name hname
            simpa using find?_unless_skipped hforbidden hskip name hname
          · intro hskip name hname
            simpa [Option.isSome_iff_ne_none] using find?_unless_skipped hrequired hskip name hname
          · intro hskip hpos hdr hmem
            rw [hskip, decide_eq_true hpos] at hsizes
            simpa using List.find?_eq_none.mp hsizes hdr hmem

theorem headers_checked (hc : FailsClosed p) (hq : HeaderPipeline .request q)
    (hmem : fastPreChecks ∈ q.stages) (hp : st.tx.policy = some p)
    (hdir : st.tx.direction = .request) (hpass : (q.run w ctx st).1.isBlock = false) :
    HeadersMeet p st.tx := by
  obtain ⟨t, u, ⟨hp', hreq, -⟩, ⟨hgated, -⟩ | hcontinue, -⟩ := headers_passed hc hq hmem hp hpass
  · cases hgated
  have hcheck := Option.some.inj (Prod.mk.inj hcontinue).1
  have hdir' : t.tx.direction = .request :=
    (congrArg Engine.Request.direction hreq :).trans hdir
  rw [Exec.emit_tx, Exec.next_tx] at hcheck
  simp only [hp', CompiledPolicy.enforcing_of_blocking hc.blocking, hdir', Bool.not_true,
    Bool.false_eq_true, if_false, ne_eq, not_true_eq_false] at hcheck
  have hmeet := requestHeaderChecks_continue hcheck
  have hhost : t.tx.host = st.tx.host := congrArg Engine.Request.host hreq
  have hheaders : t.tx.headers = st.tx.headers := congrArg Engine.Request.headers hreq
  refine ⟨?_, ?_, ?_, ?_⟩
  · exact hhost ▸ hmeet.host
  · simpa only [Transaction.header, hheaders] using hmeet.forbidden
  · simpa only [Transaction.header, hheaders] using hmeet.required
  · exact hheaders ▸ hmeet.sizes

/-! ## Bodies -/

/-- The body checks of a policy hold of a body. -/
structure BodyMeets (detector : Option Detector) (p : CompiledPolicy) (dir : Direction)
    (contentType body : Bytes) : Prop where
  json : p.skipsCheck checkJSON = false → p.checks.requireJSON = true → body ≠ [] →
    isJSONContentType contentType = true ∧ Library.jsonValid body = true
  sensitive : p.skipsCheck checkSensitiveData = false → p.checks.detectSensitiveData = true →
    ∀ det, detector = some det → det.scan contentType body = none
  dlp : ∀ det dlp, detector = some det → p.checks.dlp = some dlp → dlpApplies dlp dir = true →
    body ≠ [] → ∀ m ∈ det.matches body, m.kind ∉ dlp.block

theorem jsonCheck_eq_none {tx : Transaction} (h : jsonCheck p tx = none)
    (hskip : p.skipsCheck checkJSON = false) (hrequire : p.checks.requireJSON = true)
    (hbody : tx.body ≠ []) :
    isJSONContentType tx.contentType = true ∧ Library.jsonValid tx.body = true := by
  unfold jsonCheck at h
  rw [if_pos (by simp [hskip, hrequire, hbody])] at h
  split at h
  next => cases h
  next hcontent =>
    split at h
    next => cases h
    next hvalid => exact ⟨by simpa using hcontent, by simpa using hvalid⟩

omit [Library] in
theorem sensitiveCheck_eq_none {det : Detector} {tx : Transaction}
    (h : sensitiveCheck (some det) p tx = none) (hskip : p.skipsCheck checkSensitiveData = false)
    (hdetect : p.checks.detectSensitiveData = true) : det.scan tx.contentType tx.body = none := by
  cases hscan : det.scan tx.contentType tx.body with
  | none => rfl
  | some kind => simp [sensitiveCheck, hskip, hdetect, hscan] at h

omit [Library] in
theorem runDLP_continue {det : Detector} {dlp : CompiledDLP} {t : Exec}
    (h : runDLP det p dlp st = (some .continue_, t)) :
    ∀ m ∈ det.matches st.tx.body, m.kind ∉ dlp.block := by
  unfold runDLP at h
  dsimp only at h
  split at h
  next => exact absurd (Option.some.inj (Prod.mk.inj h).1) (denyEngine_ne_continue _ _ _ _ _)
  next hnone =>
    intro m hm hblock
    have hfound := List.find?_eq_none.mp hnone m hm
    simp [hblock] at hfound

theorem bodyChecks_continue {detector : Option Detector} {t : Exec} (hp : st.tx.policy = some p)
    (henf : p.enforcing = true)
    (h : (bodyChecks detector).process w ctx st = (some .continue_, t)) :
    BodyMeets detector p st.tx.direction st.tx.contentType st.tx.body := by
  simp only [bodyChecks, hp, henf, Bool.not_true, Bool.false_eq_true, if_false] at h
  split at h
  next res hres =>
    obtain rfl : res = .continue_ := Option.some.inj (Prod.mk.inj h).1
    rcases Option.or_eq_some_iff.mp hres with hjson | ⟨-, hsensitive⟩
    · cases jsonCheck_action hjson
    · cases sensitiveCheck_action hsensitive
  next hnone =>
    obtain ⟨hjson, hsensitive⟩ := Option.or_eq_none_iff.mp hnone
    refine ⟨jsonCheck_eq_none hjson, ?_, ?_⟩
    · rintro hskip hdetect det rfl
      exact sensitiveCheck_eq_none hsensitive hskip hdetect
    · rintro det dlp rfl hdlp happlies hbody
      rw [hdlp] at h
      dsimp only at h
      rw [if_pos (by simp [happlies, hbody])] at h
      exact runDLP_continue h

theorem body_checked {raw : Bytes} (hc : FailsClosed p) (hq : BodyPipeline deps dir q)
    (hmem : bodyChecks deps.detector ∈ q.stages) (hp : st.tx.policy = some p)
    (hreq : st.tx.bodyRequired = true) (hraw : st.tx.bodyTruncated = false → st.tx.body = raw)
    (hpass : (q.run w ctx st).1.isBlock = false) :
    ∃ body, Decoded st.tx.headers raw body ∧
      BodyMeets deps.detector p st.tx.direction st.tx.contentType body := by
  obtain ⟨body, hstages, hbody⟩ := hq.stages
  obtain ⟨u, hdecoded, -, hkept, hrun⟩ := body_decoded hc hq hstages hp hreq hraw hpass
  rw [hrun] at hpass
  -- the engines in front of the first check leave the body alone
  have hkeeps : ∀ s ∈ body, s ≠ bodyChecks deps.detector → ∀ t v,
      Decoded st.tx.headers raw t.tx.body ∧ Kept st t → Passed w ctx s t v →
      Decoded st.tx.headers raw v.tx.body ∧ Kept st v := by
    rintro s hs hne t v ⟨hdecoded, hkept⟩ hpassed
    refine ⟨?_, hkept.passed (hbody s hs) hpassed⟩
    rcases hpassed with ⟨-, rfl⟩ | hcontinue
    · exact hdecoded
    · obtain rfl := (hbody s hs).resolve_left hne
      obtain ⟨-, score, denied, tick, heq⟩ := runEngines_spec EngineSet.inspectBodyPhase ctx
        (t.next.emit (.ran wafEngine.name t.tx))
      obtain rfl := heq.symm.trans (Prod.mk.inj hcontinue).2
      exact hdecoded
  have hfirm := bodyPipeline_firm hq
  rw [hstages] at hfirm
  obtain ⟨t, v, -, ⟨hdecoded, hkept⟩, ⟨hgated, -⟩ | hcontinue, -⟩ := runStages_mem hc
    (fun s hs => hfirm s (by simp [hs])) (fun _ h => h.2.policy.trans hp) hkeeps ⟨hdecoded, hkept⟩
    (bodyPipeline_mem hstages (.inl rfl) hmem) hpass
  · simp [bodyChecks, gated, hkept.required, hreq] at hgated
  have hp' : (t.next.emit (.ran (bodyChecks deps.detector).name t.tx)).tx.policy = some p :=
    hkept.policy.trans hp
  have hmeets := bodyChecks_continue hp' (CompiledPolicy.enforcing_of_blocking hc.blocking) hcontinue
  have hdirection : t.tx.direction = st.tx.direction :=
    (congrArg Transaction.direction hkept.pinned :)
  have hcontent : t.tx.contentType = st.tx.contentType :=
    (congrArg Transaction.contentType hkept.pinned :)
  rw [← hdirection, ← hcontent]
  exact ⟨t.tx.body, hdecoded, hmeets⟩

/-! ## Exchanges -/

variable {pr : Processor} {t : Exec} {raw : Bytes} {stop : Nat}

theorem Passes.headers_checked (h : Passes pr w p .request t raw stop) (hc : FailsClosed p)
    (hp : t.tx.policy = some p) (hdir : t.tx.direction = .request)
    (hlisted : Config.stageFastPreChecks ∈ effectiveOrder p .request) : HeadersMeet p t.tx := by
  obtain ⟨pp, hpp, hheaders⟩ := h.headers
  have hstages := (pipelines_list hpp (i := .headerChecks) hlisted).1 fastPreChecks rfl
  exact Extproc.headers_checked hc (buildPolicyPipelines_spec hpp .request).1 hstages hp hdir
    hheaders.pass

theorem Passes.body_checked (h : Passes pr w p dir t raw stop) (hc : FailsClosed p)
    (hdir : t.tx.direction = dir) (hlisted : Config.stageBodyChecks ∈ effectiveOrder p dir)
    (hbody : inspectsBody p dir = true) :
    ∃ body, Decoded t.tx.headers raw body ∧
      BodyMeets pr.deps.detector p dir t.tx.contentType body := by
  obtain ⟨pp, v, hpp, hstart, hrun⟩ := h.body hbody
  have hstages := (pipelines_list hpp (i := .bodyChecks) hlisted).2 _ rfl
  have hchecked := Extproc.body_checked hc (buildPolicyPipelines_spec hpp dir).2 hstages hstart.policy
    hstart.required hstart.whole hrun.pass
  have hheaders : v.tx.headers = t.tx.headers := congrArg Engine.Request.headers hstart.request
  have hcontent : v.tx.contentType = t.tx.contentType :=
    congrArg Engine.Request.contentType hstart.request
  have hdirection : v.tx.direction = t.tx.direction :=
    congrArg Engine.Request.direction hstart.request
  rwa [hheaders, hcontent, hdirection, hdir] at hchecked

/-- **What passes a policy that fails closed meets its native checks.** A request that is not
finished with a block has none of the forbidden headers, all of the required ones, and so on; and
where the policy looks at the body of a request or of a response, the whole, decoded body is JSON
where that is required, and holds nothing of the kinds that are to be blocked. -/
theorem unblocked_exchange_meets_checks (pr : Processor) (w : World) (p : CompiledPolicy)
    (hc : FailsClosed p) :
    (∀ (snap : Snapshot) (attributes : List Bytes) (x : Exchange) (d : Decision) (t : Exec),
      OneChunk pr w .request (pr.newStream snap) (.requestHeaders attributes x.headers) x →
      preludeOf pr w x.headers (received attributes (pr.newStream snap)) = (d, t) →
      t.tx.policy = some p →
      Unblocked .request (deliver pr w (pr.newStream snap)
        (.requestHeaders attributes x.headers :: x.following .request)) →
      (Config.stageFastPreChecks ∈ effectiveOrder p .request → HeadersMeet p t.tx) ∧
      (Config.stageBodyChecks ∈ effectiveOrder p .request → inspectsBody p .request = true →
        ∃ body, Decoded t.tx.headers x.parts.flatten body ∧
          BodyMeets pr.deps.detector p .request t.tx.contentType body)) ∧
    ∀ (st : Exec) (x : Exchange) (d : Decision) (t : Exec),
      OneChunk pr w .response st (.responseHeaders x.headers) x →
      (responsePrelude pr.deps).run w w.ctx (loadResponse x.headers st) = (d, t) →
      t.tx.policy = some p →
      Unblocked .response (deliver pr w st (.responseHeaders x.headers :: x.following .response)) →
      Config.stageBodyChecks ∈ effectiveOrder p .response → inspectsBody p .response = true →
      ∃ body, Decoded t.tx.headers x.parts.flatten body ∧
        BodyMeets pr.deps.detector p .response t.tx.contentType body := by
  constructor
  · intro snap attributes x d t hone hrun hp hpass
    have hpasses := unblocked_request_passes hc hone hrun hp hpass
    have hrel := (requestPrelude_spec pr.deps w w.ctx
      (Processor.loadRequest w x.headers (received attributes (pr.newStream snap)))).rel
    rw [← preludeOf, hrun] at hrel
    have hdir : t.tx.direction = .request :=
      ((newStream_opened pr w snap attributes x.headers).resolving hrel).direction
    exact ⟨hpasses.headers_checked hc hp hdir, hpasses.body_checked hc hdir⟩
  · intro st x d t hone hrun hp hpass
    have hpasses := unblocked_response_passes hc hone hrun hp hpass
    have hrel := (responsePrelude_spec pr.deps w w.ctx (loadResponse x.headers st)).rel
    rw [hrun] at hrel
    have hdir : t.tx.direction = .response :=
      ((loadResponse_opened x.headers st).resolving hrel).direction
    exact hpasses.body_checked hc hdir

end

/-- No debug header, and no card numbers in requests. -/
def checkingPolicy : CompiledPolicy :=
  { plainPolicy with
    failMode := .failClose
    inspectRequestBody := true
    checks :=
      { forbiddenHeaders := [ascii "x-debug"]
        dlp := some ⟨true, false, [ascii "credit_card"], []⟩ } }

theorem chunked_request_meets_checks :
    let _ := Library.nothing
    let detector := some (Sensitive.new Sensitive.insertionSort)
    let pr := newProcessor { defaultAllow := true, detector } false [] [] 0
    let st := pr.newStream (catchAllSnapshot checkingPolicy)
    let t := (preludeOf pr World.quiet chunkedRequest.headers (received [] st)).2
    Unblocked .request (deliver pr World.quiet st
      (.requestHeaders [] chunkedRequest.headers :: chunkedRequest.following .request)) ∧
    HeadersMeet checkingPolicy t.tx ∧
    ∃ body, Decoded t.tx.headers (ascii "abc") body ∧
      BodyMeets detector checkingPolicy .request t.tx.contentType body := by
  intro lib detector pr st t
  have hone : OneChunk pr World.quiet .request st (.requestHeaders [] chunkedRequest.headers)
      chunkedRequest := by
    intro hmutates
    exact absurd hmutates (by decide +kernel)
  have hpass : Unblocked .request (deliver pr World.quiet st
      (.requestHeaders [] chunkedRequest.headers :: chunkedRequest.following .request)) := by
    unfold Unblocked
    decide +kernel
  obtain ⟨hheaders, hbody⟩ :=
    (unblocked_exchange_meets_checks pr World.quiet checkingPolicy ⟨rfl, rfl⟩).1 _ [] chunkedRequest _ t
      hone rfl (by rfl) hpass
  exact ⟨hpass, hheaders (by decide), hbody (by decide) rfl⟩

end ElchiShield.Extproc
