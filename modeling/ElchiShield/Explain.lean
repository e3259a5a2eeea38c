import ElchiShield.Policy.Precedence
import ElchiShield.Runtime.Unchanged
import ElchiShield.Stages.Catalog

/-! # The policy explainer

The handler behind /policyz, in main.go: it says which policy a request would get. It asks the
resolver, as the stage that assigns the policy does; but that stage looks at the excluded paths
first. -/
namespace ElchiShield
open ElchiShield.Go ElchiShield.Config ElchiShield.Engine ElchiShield.Matcher ElchiShield.Policy
open ElchiShield.Runtime ElchiShield.Pipeline ElchiShield.Stages

structure PolicyQuery where
  host : Bytes := []
  path : Bytes := []
  method : Bytes := []
  contentType : Bytes := []
  listener : Bytes := []

structure PolicyExplanation where
  matched : Bool := false
  policyID : Bytes := []
  mode : Bytes := []
  failMode : Bytes := []
  timeoutMs : Int := 0
  inspectRequestBody : Bool := false
  inspectResponseBody : Bool := false
  engines : List Bytes := []
  requestHeaderStages : List Bytes := []
  requestBodyStages : List Bytes := []
  responseHeaderStages : List Bytes := []
  responseBodyStages : List Bytes := []
  note : Bytes := []

def Pipeline.stageNames (p : Pipeline) : List Bytes := p.stages.map Stage.name

section
variable [Library]

/-- No headers are known to the explainer. -/
def PolicyQuery.input (q : PolicyQuery) : Input where
  host := q.host
  path := normalizePath q.path
  method := q.method
  contentType := q.contentType
  headers := []

/-- What is said of a policy; its stages are left out where they do not build. -/
def explained (deps : Deps) (p : CompiledPolicy) : PolicyExplanation :=
  let exp : PolicyExplanation :=
    { matched := true
      policyID := p.id
      mode := modeName p.mode
      failMode := failModeName p.failMode
      timeoutMs := p.timeout.tdiv millisecond
      inspectRequestBody := p.inspectRequestBody
      inspectResponseBody := p.inspectResponseBody
      engines := p.engineSet.names
      note := ascii "header-predicate routes are not evaluated here (no request headers)" }
  match buildPolicyPipelines deps p with
  | .ok pp =>
    { exp with
      requestHeaderStages := pp.requestHeader.stageNames
      requestBodyStages := pp.requestBody.stageNames
      responseHeaderStages := pp.responseHeader.stageNames
      responseBodyStages := pp.responseBody.stageNames }
  | .error _ => exp

def explainPolicy (deps : Deps) (snap : Snapshot) (q : PolicyQuery) : PolicyExplanation :=
  match snap.resolver with
  | none => { note := ascii "no active config" }
  | some r => match r.resolve q.input with
    | none => { note := ascii "no policy matched; the default posture applies" }
    | some p => explained deps p

/-! ## What is reported, and what is assigned -/

/-- The policy an answer names, with its mode. -/
def PolicyExplanation.policy (x : PolicyExplanation) : Option (Bytes × Bytes) :=
  if x.matched then some (x.policyID, x.mode) else none

def described (p : CompiledPolicy) : Bytes × Bytes := (p.id, modeName p.mode)

/-- The attributes of a request as a query. -/
def queryOf (tx : Transaction) (listener : Bytes) : PolicyQuery where
  host := tx.host
  path := tx.path
  method := tx.method
  contentType := tx.contentType
  listener := listener

/-- No header that some route of the config asks for. -/
def Uninspected (cfg : MergedConfig) (headers : List Engine.Header) : Prop :=
  ∀ md ∈ cfg.domains, ∀ rt ∈ md.domain.routes, ∀ hm ∈ rt.match.headers,
    Engine.header headers hm.name = none

theorem explainPolicy_policy (deps : Deps) {snap : Snapshot} {r : Resolver}
    (h : snap.resolver = some r) (q : PolicyQuery) :
    (explainPolicy deps snap q).policy = (r.resolve q.input).map described := by
  unfold explainPolicy
  rw [h]
  dsimp only
  cases r.resolve q.input with
  | none => rfl
  | some p =>
    show (explained deps p).policy = some (described p)
    unfold explained
    cases buildPolicyPipelines deps p with
    | ok pp => rfl
    | error e => rfl

theorem policyResolve_policy {w : World} {ctx : Ctx} {st : Exec} {snap : Snapshot}
    (h : st.tx.snapshot = some snap) :
    (policyResolve.process w ctx st).2.tx.policy = resolvedPolicy snap.resolver st.tx := by
  unfold policyResolve
  dsimp only
  rw [h]
  rfl

section
variable [Heap] [Constructors] {fs : FileSystem} {cfg : MergedConfig} {r : Resolver}

omit [Heap] [Constructors] in
/-- A route accepts a request with headers it does not ask for as it does without any. -/
theorem accepts_uninspected {m : Config.Match} {inp : Input}
    (h : ∀ hm ∈ m.headers, Engine.header inp.headers hm.name = none) :
    accepts m inp = accepts m { inp with headers := [] } := by
  have hheaders : ∀ hm ∈ m.headers, acceptsHeader hm inp.headers = acceptsHeader hm [] := by
    intro hm hmem
    unfold acceptsHeader
    rw [h hm hmem]
    rfl
  unfold accepts
  congr 1
  rw [Bool.eq_iff_iff, List.all_eq_true, List.all_eq_true]
  exact forall₂_congr fun hm hmem => by rw [hheaders hm hmem]

omit [Heap] [Constructors] in
theorem specRoute_uninspected {d : Domain} {inp : Input}
    (h : ∀ rt ∈ d.routes, ∀ hm ∈ rt.match.headers, Engine.header inp.headers hm.name = none) :
    specRoute d inp = specRoute d { inp with headers := [] } := by
  unfold specRoute
  rw [List.filter_congr fun p hp => accepts_uninspected (h p.1 (List.fst_mem_of_mem_zipIdx hp))]

/-- The domain a resolver has chosen was compiled from one of the config. -/
theorem bestDomain_compiled (hc : compile fs cfg = .ok r) {host : Bytes} {cd : CompiledDomain}
    (h : r.bestDomain host = some cd) : ∃ md ∈ cfg.domains, domainAlone fs cfg md = .ok cd := by
  have hscan := Lib.foldl_scan (fun cd : CompiledDomain => cd.hostSpecificity host) (-1)
    (r.candidates host)
  obtain ⟨hmem, -⟩ := hscan.found cd h
  obtain ⟨md, hmd, hcd, -⟩ := (mem_candidates hc).mp hmem
  exact ⟨md, hmd, hcd⟩

theorem resolve_uninspected (hc : compile fs cfg = .ok r) {inp : Input}
    (h : Uninspected cfg inp.headers) : r.resolve inp = r.resolve { inp with headers := [] } := by
  unfold Resolver.resolve
  dsimp only
  cases hbest : r.bestDomain inp.host with
  | none => rfl
  | some cd =>
    obtain ⟨md, hmd, hcd⟩ := bestDomain_compiled hc hbest
    have hpolicy : Except.ok (cd.policyFor inp) =
        (Except.ok (cd.policyFor { inp with headers := [] }) : Except Err CompiledPolicy) := by
      rw [← policyFor_eq hcd, ← policyFor_eq hcd, specPolicy, specRoute_uninspected (h md hmd)]
      rfl
    rw [Option.map_some, Option.map_some, Except.ok.inj hpolicy]

/-! ## Names of policies -/

theorem policyAlone_id {id : Bytes} {resolved : ResolvedPolicy} {p : CompiledPolicy}
    (h : policyAlone fs id resolved = .ok p) : p.id = id := by
  unfold policyAlone at h
  split at h
  next => exact (Except.ok.inj h) ▸ rfl
  next => cases h

/-- The names of compiled policies have a bar in them; that of excluded paths has none. -/
theorem resolve_id (hc : compile fs cfg = .ok r) {inp : Input} {p : CompiledPolicy}
    (h : r.resolve inp = some p) : ch '|' ∈ p.id := by
  obtain ⟨cd, hbest, rfl⟩ := Option.map_eq_some_iff.mp h
  obtain ⟨md, -, hcd⟩ := bestDomain_compiled hc hbest
  have hpolicy := policyFor_eq hcd inp
  unfold specPolicy at hpolicy
  split at hpolicy
  next =>
    rw [policyAlone_id hpolicy]
    simp [routeID, entry, ascii, ch]
  next =>
    rw [policyAlone_id hpolicy]
    simp [domainID, ascii, ch]

/-! ## Excluded paths -/

omit [Heap] [Constructors] in
theorem excludes_addDomains (cds : List (MergedDomain × CompiledDomain)) (r : Resolver) :
    (r.addDomains cds).excludes = r.excludes := by
  induction cds generalizing r with
  | nil => rfl
  | cons p cds ih =>
    have hone : (r.addDomain p.1.domain p.2).excludes = r.excludes := by
      unfold Resolver.addDomain
      split <;> rfl
    exact (ih (r.addDomain p.1.domain p.2)).trans hone

theorem excluded_iff (hc : compile fs cfg = .ok r) (path : Bytes) :
    r.excluded path = true ↔ path ∈ cfg.excludes.map normalizePath := by
  obtain ⟨cds, -, rfl⟩ := compile_ok hc
  rw [Resolver.excluded, excludes_addDomains]
  exact List.contains_iff_mem

variable [Hasher]

/-- The explainer names the policy and the mode a request gets, or that there is none, exactly if
the path of the request is not excluded. -/
theorem explained_iff_not_excluded (fs : FileSystem) (cfg : MergedConfig) (snap : Snapshot)
    (hnew : newSnapshot fs cfg = .ok snap) (deps : Deps) (w : World) (ctx : Ctx) (st : Exec)
    (hsnap : st.tx.snapshot = some snap) (hheaders : Uninspected cfg st.tx.headers)
    (listener : Bytes) :
    (explainPolicy deps snap (queryOf st.tx listener)).policy =
        (policyResolve.process w ctx st).2.tx.policy.map described ↔
      normalizePath st.tx.path ∉ cfg.excludes.map normalizePath := by
  obtain ⟨-, -, r, hr, hc⟩ := newSnapshot_ok hnew
  have hsame : r.resolve (resolveInput st.tx) = r.resolve (queryOf st.tx listener).input :=
    resolve_uninspected hc hheaders
  rw [explainPolicy_policy deps hr, policyResolve_policy hsnap, hr, ← hsame, ← excluded_iff hc,
    resolvedPolicy]
  by_cases hex : r.excluded (normalizePath st.tx.path) = true
  · refine iff_of_false ?_ (not_not.mpr hex)
    rw [Option.getD_some, matchPath, if_pos hex]
    intro h
    obtain ⟨p, hp, hdescribed⟩ := Option.map_eq_some_iff.mp h
    have hbar := resolve_id hc hp
    rw [(Prod.mk.inj hdescribed).1] at hbar
    exact absurd hbar (by decide)
  · refine iff_of_true ?_ hex
    rw [Option.getD_some, matchPath, if_neg hex]

end

end

/-- Every host is blocked, apart from one path that is not inspected. -/
def probeFile : ParsedFile where
  name := ascii "probe.yaml"
  file :=
    { apiVersion := apiVersionV1
      kind := kindSecurityPolicy
      spec :=
        { domains := [{ hosts := [star], policy := { mode := some .block } }]
          exclude := [ascii "/healthz"] } }

def probe (snap : Snapshot) (path : Bytes) : Exec where
  tx :=
    { snapshot := some snap
      host := ascii "api.test"
      path := path
      method := ascii "GET" }

theorem login_is_explained :
    let _ := Library.nothing
    let _ := Heap.empty
    let _ := Constructors.nothing
    let _ := constantHasher
    ∃ snap, newSnapshot (fun _ => none) (merge [probeFile]) = .ok snap ∧
      (explainPolicy ⟨false, none, 0⟩ snap (queryOf (probe snap (ascii "/login")).tx [])).policy =
        (policyResolve.process World.quiet (fun _ => false)
          (probe snap (ascii "/login"))).2.tx.policy.map described := by
  intro lib heap constructors hasher
  obtain ⟨snap, hsnap⟩ : ∃ snap, newSnapshot (fun _ => none) (merge [probeFile]) = .ok snap :=
    ⟨_, rfl⟩
  have hheaders : Uninspected (merge [probeFile]) (probe snap (ascii "/login")).tx.headers := by
    intro md _ rt _ hm _
    rfl
  have hpath : normalizePath (ascii "/login") ∉ (merge [probeFile]).excludes.map normalizePath := by
    decide +kernel
  exact ⟨snap, hsnap, (explained_iff_not_excluded (fun _ => none) (merge [probeFile]) snap hsnap
    ⟨false, none, 0⟩ World.quiet (fun _ => false) (probe snap (ascii "/login")) rfl hheaders []).mpr
    hpath⟩

/-- For the excluded path the explainer reports a policy that blocks, while nothing is inspected. -/
theorem excluded_path_misreported :
    let _ := Library.nothing
    let _ := Heap.empty
    let _ := Constructors.nothing
    let _ := constantHasher
    Validated (merge [probeFile]) ∧
      ∃ snap, newSnapshot (fun _ => none) (merge [probeFile]) = .ok snap ∧
        (explainPolicy ⟨false, none, 0⟩ snap
          (queryOf (probe snap (ascii "/healthz")).tx [])).policy =
            some (ascii "*|*", ascii "block") ∧
        (policyResolve.process World.quiet (fun _ => false)
          (probe snap (ascii "/healthz"))).2.tx.policy.map described =
            some (ascii "exclude", ascii "off") := by
  intro lib heap constructors hasher
  refine ⟨⟨[probeFile], by decide +kernel, rfl, by decide +kernel⟩, ?_⟩
  obtain ⟨snap, hsnap⟩ : ∃ snap, newSnapshot (fun _ => none) (merge [probeFile]) = .ok snap :=
    ⟨_, rfl⟩
  refine ⟨snap, hsnap, ?_, ?_⟩
  · obtain rfl := Except.ok.inj hsnap
    decide +kernel
  · obtain rfl := Except.ok.inj hsnap
    decide +kernel

end ElchiShield
