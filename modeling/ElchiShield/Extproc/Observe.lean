import ElchiShield.Extproc.HostGate
import ElchiShield.Extproc.Phases

/-! # Policies that observe

A detect or shadow policy records what it finds. What reaches the traffic all the same is its
fail posture: the executor does not ask for the mode when a stage fails or the deadline
passes, and neither does the processor when the pipelines do not build. -/
namespace ElchiShield.Extproc
open ElchiShield.Go ElchiShield.Lib ElchiShield.Engine ElchiShield.Policy ElchiShield.Runtime
open ElchiShield.Pipeline ElchiShield.Stages

/-- A reply that blocks the traffic or rewrites it. -/
def ProcessingResponse.touches (r : ProcessingResponse) : Bool := r.isImmediate || r.mutatesBody

theorem replyTo_touches {bd : Option Decision} {c : ProcessingResponse}
    (hbd : ∀ d, bd = some d → d.isBlock = false) :
    (Processor.replyTo bd c).touches = c.touches := by
  cases bd with
  | none => rfl
  | some d => simp [Processor.replyTo, hbd d rfl]

/-- Nothing is to reach the traffic: the policy neither blocks nor fails closed, and no body
has been rewritten. -/
structure Lenient (st : Exec) : Prop where
  policy : ¬ Strict st.tx.policy
  mutated : st.tx.bodyMutated = false

theorem Lenient.congr {a b : Exec} (h : Lenient a) (hp : b.tx.policy = a.tx.policy)
    (hm : b.tx.bodyMutated = a.tx.bodyMutated) : Lenient b :=
  ⟨by rw [hp]; exact h.policy, by rw [hm]; exact h.mutated⟩

theorem Lenient.finish {st : Exec} (h : Lenient st) (pr : Processor) (w : World)
    (phase : Audit.Phase) (d : Decision) : Lenient (pr.finish w phase d st) :=
  h.congr (finish_keeps Transaction.policy (fun _ => rfl) ..)
    (finish_keeps Transaction.bodyMutated (fun _ => rfl) ..)

theorem Lenient.inspection {a t : Exec} {d : Decision} (ha : Lenient a) (h : Inspection a d t) :
    d.isBlock = false ∧ Lenient t := by
  have hmutated : t.tx.bodyMutated = a.tx.bodyMutated := by
    refine h.mutated ?_
    rw [← Bool.not_eq_true, Option.any_eq_true]
    rintro ⟨p, hp, hblock⟩
    exact ha.policy ⟨p, hp, .inl hblock⟩
  have ht := ha.congr h.policy hmutated
  refine ⟨?_, ht⟩
  rw [← Bool.not_eq_true]
  exact fun hd => ht.policy (h.strict hd)

section
variable [Library] {pr : Processor} {w : World} {st : Exec}

theorem inspectBufferedBody_lenient (pr : Processor) (w : World) (h : Lenient st) :
    (∀ d, (pr.inspectBufferedBody w st).1 = some d → d.isBlock = false) ∧
      Lenient (pr.inspectBufferedBody w st).2 := by
  obtain ⟨-, heq⟩ | ⟨p, d, t, -, hrun, heq⟩ := inspectBufferedBody_cases pr w st
  · rw [heq]
    exact ⟨by simp, h⟩
  · have hlatched : Lenient (latched st) := h.congr rfl rfl
    obtain ⟨hd, ht⟩ := hlatched.inspection hrun.inspection
    rw [heq]
    exact ⟨by simpa using hd, ht.finish ..⟩

theorem inspectHeaders_lenient {dir : Direction} {reply : Bool → ProcessingResponse}
    (hreply : ∀ b, (reply b).touches = false) (endOfStream : Bool) (p : CompiledPolicy)
    (h : Lenient st) :
    (pr.inspectHeaders w dir reply endOfStream p st).1.touches = false ∧
      Lenient (pr.inspectHeaders w dir reply endOfStream p st).2 := by
  obtain ⟨d, t, hrun, ⟨c, hc, -, -, heq⟩ | ⟨-, -, -, u, rfl, heq⟩⟩ :=
    inspectHeaders_cases pr w dir reply endOfStream p st
  all_goals
    obtain ⟨hd, ht⟩ := h.inspection hrun.inspection
    rw [heq]
  · refine ⟨?_, ht.finish ..⟩
    rw [replyTo_touches (by simpa using hd)]
    rcases hc with rfl | rfl
    · cases dir <;> rfl
    · exact hreply false
  · have hnoted := headerFindings_noted pr w (Audit.headersPhase dir) d t
    have hu := ht.congr (congrArg Transaction.policy hnoted.tx)
      (congrArg Transaction.bodyMutated hnoted.tx)
    split
    · obtain ⟨hbd, hv⟩ := inspectBufferedBody_lenient pr w hu
      exact ⟨by rw [replyTo_touches hbd]; exact hreply false, hv⟩
    · exact ⟨hreply true, hu⟩

/-! ## Handlers -/

theorem onRequestHeaders_lenient {h : HttpHeaders} (hm : st.tx.bodyMutated = false)
    (hp : ¬ Strict (pr.onRequestHeaders w h st).2.tx.policy) :
    (pr.onRequestHeaders w h st).1.touches = false ∧ Lenient (pr.onRequestHeaders w h st).2 := by
  cases hset : st.tx.requestSettled with
  | true =>
    have heq : pr.onRequestHeaders w h st = (headersContinue .request none, st) := by
      simp [Processor.onRequestHeaders, hset]
    rw [heq] at hp ⊢
    exact ⟨rfl, hp, hm⟩
  | false =>
    have hprelude := requestPrelude_spec pr.deps w w.ctx (Processor.loadRequest w h st)
    obtain ⟨d, t, hrun, hcases⟩ := onRequestHeaders_cases pr w h hset
    rw [← preludeOf, hrun] at hprelude
    have hmutated : t.tx.bodyMutated = false := by
      obtain ⟨requestID, hload⟩ := loadRequest_spec w h st
      rw [hprelude.rel.bodyMutated]
      show (Processor.loadRequest w h st).tx.bodyMutated = false
      rw [hload]
      exact hm
    obtain ⟨-, heq⟩ | ⟨p, -, -, -, heq⟩ := hcases
    · rw [heq, finish_keeps Transaction.policy (fun _ => rfl)] at hp
      have hblock : d.isBlock = false := by
        rw [← Bool.not_eq_true]
        exact fun hd => hp (hprelude.strict hd)
      rw [heq]
      refine ⟨?_, Lenient.finish ⟨hp, hmutated⟩ ..⟩
      rw [replyTo_touches (by simpa using hblock)]
      rfl
    · rw [heq, inspectHeaders_policy] at hp
      rw [heq]
      exact inspectHeaders_lenient (fun _ => rfl) _ _ ⟨hp, hmutated⟩

theorem onResponseHeaders_lenient {h : HttpHeaders} (hl : Lenient st) :
    (pr.onResponseHeaders w h st).1.touches = false ∧ Lenient (pr.onResponseHeaders w h st).2 := by
  obtain ⟨reserved, log, hbegin, -⟩ := beginResponse_spec st
  have hrel := (responsePrelude_spec pr.deps w w.ctx (loadResponse h st)).rel
  have hpolicy := responsePrelude_policy pr.deps w w.ctx (loadResponse h st)
  obtain ⟨d, t, hrun, hcases⟩ := onResponseHeaders_cases pr w h st
  rw [hrun] at hrel hpolicy
  have ht : Lenient t := by
    refine ⟨?_, hrel.bodyMutated.trans (loadResponse_opened h st).mutated⟩
    rw [hpolicy, loadResponse, hbegin]
    exact hl.policy
  obtain ⟨-, heq⟩ | ⟨p, -, -, heq⟩ := hcases <;> rw [heq]
  · exact ⟨rfl, ht.finish ..⟩
  · exact inspectHeaders_lenient (fun _ => rfl) _ _ ht

theorem onBody_lenient {dir : Direction} {b : HttpBody} (h : Lenient st) :
    (pr.onBody w dir b st).1.touches = false ∧ Lenient (pr.onBody w dir b st).2 := by
  obtain ⟨-, heq⟩ | ⟨p, u, -, rfl, hrest⟩ := onBody_cases pr w dir b st
  · rw [heq]
    exact ⟨rfl, h⟩
  · have hu : Lenient (buffered pr w dir b.body st) := by
      obtain ⟨_, _, _, _, _, heq, -⟩ := buffered_spec pr w dir b.body st
      rw [heq]
      exact h.congr rfl rfl
    obtain ⟨-, heq⟩ | ⟨-, bd, v, hrun, heq⟩ := hrest
    · rw [heq]
      exact ⟨rfl, hu⟩
    · obtain ⟨hbd, hv⟩ := inspectBufferedBody_lenient pr w hu
      rw [hrun] at hbd hv
      rw [heq]
      refine ⟨?_, hv⟩
      rw [replyTo_touches hbd, hv.mutated]
      rfl

theorem onTrailers_lenient (dir : Direction) (h : Lenient st) :
    (pr.onTrailers w dir st).1.touches = false ∧ Lenient (pr.onTrailers w dir st).2 := by
  obtain ⟨hbd, hv⟩ := inspectBufferedBody_lenient pr w h
  exact ⟨(replyTo_touches hbd).trans rfl, hv⟩

/-- One message: where its handler ends in a policy that neither blocks nor fails closed. -/
theorem handle_lenient (pr : Processor) (w : World) (m : Message) (h : Lenient st)
    (hp : ¬ Strict (pr.handle w st m).2.tx.policy) :
    (∀ r, (pr.handle w st m).1 = some r → r.touches = false) ∧ Lenient (pr.handle w st m).2 := by
  have hsome : ∀ x : ProcessingResponse × Exec, x.1.touches = false ∧ Lenient x.2 →
      (∀ r, (x.map some id).1 = some r → r.touches = false) ∧ Lenient (x.map some id).2 := by
    intro x hx
    exact ⟨by simpa using hx.1, hx.2⟩
  cases m with
  | requestHeaders attributes hh =>
    exact hsome _ (onRequestHeaders_lenient h.mutated hp)
  | requestBody b => exact hsome _ (onBody_lenient h)
  | requestTrailers => exact hsome _ (onTrailers_lenient .request h)
  | responseHeaders hh => exact hsome _ (onResponseHeaders_lenient h)
  | responseBody b => exact hsome _ (onBody_lenient h)
  | responseTrailers => exact hsome _ (onTrailers_lenient .response h)
  | other => exact ⟨by simp [Processor.handle], h⟩

/-! ## Streams -/

/-- The events of a stream that no policy but `p` governs. -/
def GovernedBy (p : CompiledPolicy) (events : List (Event Exec Message (Option ProcessingResponse))) :
    Prop :=
  ∀ e ∈ events, e.after.tx.policy = none ∨ e.after.tx.policy = some p

omit [Library] in
theorem not_strict_of_failOpen {p : CompiledPolicy} (hmode : p.mode = .detect ∨ p.mode = .shadow)
    (hopen : p.failOpen = true) {policy : Option CompiledPolicy}
    (hp : policy = none ∨ policy = some p) : ¬ Strict policy := by
  rintro ⟨q, rfl, hq⟩
  obtain hp | hp := hp
  · cases hp
  · obtain rfl := Option.some.inj hp
    rcases hq with hq | hq
    · rcases hmode with hmode | hmode <;> simp [CompiledPolicy.blocking, hmode] at hq
    · rw [hopen] at hq
      cases hq

/-- The stream's context is done from a tick on. -/
def doneFrom (n : Nat) : World where
  ctx t := decide (n ≤ t)
  expired := World.quiet.expired
  grant := World.quiet.grant
  requestID := World.quiet.requestID
  random := World.quiet.random
  ctx_mono s t hst hs := by
    have hns : n ≤ s := of_decide_eq_true hs
    exact decide_eq_true (hns.trans hst)
  grant_le := World.quiet.grant_le

/-- The context is done before the early decision: a policy that fails closed blocks. -/
theorem late_request_blocks {p : CompiledPolicy} (hclosed : p.failOpen = false) (pr : Processor)
    (h : HttpHeaders) : ∃ w,
      (pr.onRequestHeaders w h (pr.newStream (catchAllSnapshot p))).1.isImmediate = true ∧
      (pr.onRequestHeaders w h (pr.newStream (catchAllSnapshot p))).2.tx.policy = some p := by
  have hfresh := newStream_fresh pr (catchAllSnapshot p)
  obtain ⟨st, hst⟩ : ∃ st, pr.newStream (catchAllSnapshot p) = st := ⟨_, rfl⟩
  rw [hst] at hfresh ⊢
  obtain ⟨n, hn⟩ : ∃ n, (Processor.loadRequest World.quiet h st).tick = n := ⟨_, rfl⟩
  -- the context plays no part in how many ticks the load takes
  have hload : (Processor.loadRequest (doneFrom (n + 2)) h st).tick = n := hn
  have hresolved : requestPolicy pr.deps (catchAllSnapshot p) h st.tx = some p :=
    catchAllSnapshot_resolves p _
  obtain ⟨hblock, hpolicy, -⟩ := hfresh.prelude_late pr (w := doneFrom (n + 2))
    (by rw [hload]; simp [doneFrom]) (by rw [hload]; simp [doneFrom])
  obtain ⟨d, t, hrun, hcases⟩ := onRequestHeaders_cases pr (doneFrom (n + 2)) h hfresh.settled
  rw [hrun, hresolved] at hblock hpolicy
  have hd : d.isBlock = true := by simpa [hclosed] using hblock
  refine ⟨doneFrom (n + 2), ?_⟩
  obtain ⟨-, heq⟩ | ⟨q, hpass, -⟩ := hcases
  · rw [heq, finish_keeps Transaction.policy (fun _ => rfl)]
    refine ⟨?_, hpolicy⟩
    simp [Processor.replyTo, hd, immediateResponse, ProcessingResponse.isImmediate]
  · cases hd.symm.trans hpass

/-- **When an observing policy leaves the traffic alone.** -/
theorem observing_untouched_iff_failOpen {p : CompiledPolicy}
    (hmode : p.mode = .detect ∨ p.mode = .shadow) :
    (∀ (pr : Processor) (w : World) (snap : Snapshot) (msgs : List Message),
      GovernedBy p (trace (pr.handle w) (pr.newStream snap) msgs) →
      ∀ e ∈ trace (pr.handle w) (pr.newStream snap) msgs, ∀ r, e.output = some r →
        r.isImmediate = false ∧ r.mutatesBody = false) ↔
    p.failOpen = true := by
  constructor
  · intro hall
    by_contra hclosed
    rw [Bool.not_eq_true] at hclosed
    obtain ⟨w, hreply, hpolicy⟩ := late_request_blocks hclosed (plainProcessor true) {}
    have huntouched := hall (plainProcessor true) w (catchAllSnapshot p) [.requestHeaders [] {}]
      (fun e he => .inr (List.mem_singleton.mp he ▸ hpolicy)) _ List.mem_cons_self _ rfl
    exact Bool.noConfusion (hreply.symm.trans huntouched.1)
  · intro hopen pr w snap msgs hgov
    have hstart : Lenient (pr.newStream snap) :=
      ⟨not_strict_of_failOpen hmode hopen (.inl rfl), rfl⟩
    have hcalm : ∀ e ∈ trace (pr.handle w) (pr.newStream snap) msgs, ∀ r, e.output = some r →
        r.touches = false :=
      trace_invariant (I := Lenient) (fun st m hst hc => handle_lenient pr w m hst hc) hstart
        (fun e he => not_strict_of_failOpen hmode hopen (hgov e he))
    intro e he r hr
    exact Bool.or_eq_false_iff.mp (hcalm e he r hr)

end

/-- A detect policy without any checks. -/
def detectPolicy (failMode : Config.FailMode) : CompiledPolicy :=
  { plainPolicy with mode := .detect, failMode }

theorem failing_open_policy_touches_nothing :
    let _ := Library.nothing
    ∀ (pr : Processor) (w : World) (snap : Snapshot) (msgs : List Message),
      GovernedBy (detectPolicy .failOpen) (trace (pr.handle w) (pr.newStream snap) msgs) →
      ∀ e ∈ trace (pr.handle w) (pr.newStream snap) msgs, ∀ r, e.output = some r →
        r.isImmediate = false ∧ r.mutatesBody = false := by
  intro lib
  exact (observing_untouched_iff_failOpen (p := detectPolicy .failOpen) (.inl rfl)).mpr rfl

/-- The stream ends before the early decision, and the detect policy answers with a 403. -/
theorem failing_closed_policy_blocks :
    let _ := Library.nothing
    let pr := plainProcessor true
    let st := pr.newStream (catchAllSnapshot (detectPolicy .failClose))
    let r := pr.handle (doneFrom 3) st (.requestHeaders [] (getRequest []))
    r.2.tx.policy = some (detectPolicy .failClose) ∧
      r.1 = some (.immediate
        { status := 403
          body := ascii "blocked by elchi-shield\n"
          details := ascii "fail_close_timeout"
          headers := [(ascii "x-elchi-shield", ascii "blocked")] }) := by
  intro lib pr st r
  exact ⟨rfl, by decide +kernel⟩

end ElchiShield.Extproc
