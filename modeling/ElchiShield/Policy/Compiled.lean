import ElchiShield.Policy.Resolver

/-! # What a compiled config holds

The engine cache of `Compile` only saves work: the result is that of building the engines
of every policy anew. A compiled resolver holds, for each domain, what the domain compiles
to on its own. -/
namespace ElchiShield.Policy
open ElchiShield.Go ElchiShield.Config ElchiShield.Engine ElchiShield.Matcher

variable [Library] [Heap] [Constructors]

/-! ## Compilation without the cache -/

def enginesFor (fs : FileSystem) : Option EnginesPtr → Except Err (Option EngineSet)
  | none => .ok none
  | some ptr => buildEngines fs (Heap.engines ptr)

def policyAlone (fs : FileSystem) (id : Bytes) (resolved : ResolvedPolicy) :
    Except Err CompiledPolicy :=
  match enginesFor fs resolved.engines with
  | .ok engines => .ok { fromResolved id resolved with engines }
  | .error e => .error e

def routeAlone (fs : FileSystem) (cfg : MergedConfig) (d : Domain) (ri : Nat) (rt : Route) :
    Except Err CompiledRoute := do
  let path ← compilePath rt.match.pathExact rt.match.pathPrefix rt.match.pathRegex
  let headers ← compileHeaders rt.match.headers
  let policy ← policyAlone fs (routeID d ri) (routeResolved cfg d rt)
  return ⟨path, compileMethods rt.match.methods, compileContentTypes rt.match.contentType,
    headers, policy⟩

def routesAlone (fs : FileSystem) (cfg : MergedConfig) (md : MergedDomain) :
    Nat → List Route → Except CompileError (List CompiledRoute)
  | _, [] => .ok []
  | ri, rt :: rest =>
    match routeAlone fs cfg md.domain ri rt with
    | .error e => .error ⟨md.source, domainID md.domain, some ri, e⟩
    | .ok route => match routesAlone fs cfg md (ri + 1) rest with
      | .error e => .error e
      | .ok routes => .ok (route :: routes)

def domainAlone (fs : FileSystem) (cfg : MergedConfig) (md : MergedDomain) :
    Except CompileError CompiledDomain :=
  match compileHosts md.source md.domain.hosts with
  | .error e => .error e
  | .ok hosts =>
    match policyAlone fs (domainID md.domain) (domainResolved cfg md.domain) with
    | .error e => .error ⟨md.source, domainID md.domain, none, e⟩
    | .ok policy => match routesAlone fs cfg md 0 md.domain.routes with
      | .error e => .error e
      | .ok routes => .ok ⟨hosts, sortRoutes routes, policy⟩

/-! ## The cache is transparent -/

/-- Every cached set is the one its spec builds. -/
def EngineCache.Sound (fs : FileSystem) (ec : EngineCache) : Prop :=
  ∀ ptr set, ec.lookup ptr = some set → buildEngines fs (Heap.engines ptr) = .ok set

/-- A cached computation gives what the plain one gives, and leaves a sound cache. -/
def Agrees {ε α : Type} (fs : FileSystem) (cached : Except ε (α × EngineCache))
    (plain : Except ε α) : Prop :=
  match plain with
  | .error e => cached = .error e
  | .ok a => ∃ ec, cached = .ok (a, ec) ∧ EngineCache.Sound fs ec

/-- Inversion: both fail alike, or both succeed alike. -/
theorem Agrees.cases {ε α : Type} {fs : FileSystem} {cached : Except ε (α × EngineCache)}
    {plain : Except ε α} (h : Agrees fs cached plain) :
    (∃ e, plain = .error e ∧ cached = .error e) ∨
      ∃ a ec, plain = .ok a ∧ cached = .ok (a, ec) ∧ EngineCache.Sound fs ec := by
  cases plain with
  | error e => exact .inl ⟨e, rfl, h⟩
  | ok a =>
    obtain ⟨ec, hc, hs⟩ := h
    exact .inr ⟨a, ec, rfl, hc, hs⟩

theorem EngineCache.sound_nil (fs : FileSystem) : EngineCache.Sound fs [] := by
  intro ptr set h
  cases h

theorem EngineCache.Sound.cons {fs : FileSystem} {ec : EngineCache} (h : EngineCache.Sound fs ec)
    {ptr : EnginesPtr} {set : Option EngineSet}
    (hb : buildEngines fs (Heap.engines ptr) = .ok set) :
    EngineCache.Sound fs ((ptr, set) :: ec) := by
  intro ptr' set' hl
  rw [List.lookup_cons] at hl
  by_cases hp : ptr' = ptr
  · subst hp
    rw [beq_self_eq_true] at hl
    rw [← Option.some.inj hl]
    exact hb
  · rw [beq_false_of_ne hp] at hl
    exact h ptr' set' hl

theorem get_agrees {fs : FileSystem} {ec : EngineCache} (h : EngineCache.Sound fs ec)
    (spec : Option EnginesPtr) : Agrees fs (EngineCache.get fs ec spec) (enginesFor fs spec) := by
  cases spec with
  | none => exact ⟨ec, rfl, h⟩
  | some ptr =>
    simp only [EngineCache.get, enginesFor]
    cases hl : ec.lookup ptr with
    | some set =>
      rw [h ptr set hl]
      exact ⟨ec, rfl, h⟩
    | none =>
      cases hb : buildEngines fs (Heap.engines ptr) with
      | error e => rfl
      | ok set => exact ⟨_, rfl, h.cons hb⟩

theorem compilePolicy_agrees {fs : FileSystem} {ec : EngineCache} (h : EngineCache.Sound fs ec)
    (id : Bytes) (resolved : ResolvedPolicy) :
    Agrees fs (compilePolicy fs id resolved ec) (policyAlone fs id resolved) := by
  unfold compilePolicy policyAlone
  obtain ⟨e, ha, hc⟩ | ⟨set, ec', ha, hc, hs⟩ := (get_agrees h resolved.engines).cases
  · simp only [ha, hc]
    rfl
  · simp only [ha, hc]
    exact ⟨ec', rfl, hs⟩

theorem compileRoute_agrees {fs : FileSystem} {ec : EngineCache} (h : EngineCache.Sound fs ec)
    (cfg : MergedConfig) (d : Domain) (ri : Nat) (rt : Route) :
    Agrees fs (compileRoute fs cfg d ri rt ec) (routeAlone fs cfg d ri rt) := by
  unfold compileRoute routeAlone
  cases compilePath rt.match.pathExact rt.match.pathPrefix rt.match.pathRegex with
  | error e => rfl
  | ok path =>
    cases compileHeaders rt.match.headers with
    | error e => rfl
    | ok headers =>
      obtain ⟨e, ha, hc⟩ | ⟨policy, ec', ha, hc, hs⟩ :=
        (compilePolicy_agrees h (routeID d ri) (routeResolved cfg d rt)).cases
      · simp only [ha, hc]
        rfl
      · simp only [ha, hc]
        exact ⟨ec', rfl, hs⟩

theorem compileRoutes_agrees {fs : FileSystem} (cfg : MergedConfig) (md : MergedDomain)
    (routes : List Route) (ri : Nat) {ec : EngineCache} (h : EngineCache.Sound fs ec) :
    Agrees fs (compileRoutes fs cfg md ri routes ec) (routesAlone fs cfg md ri routes) := by
  induction routes generalizing ri ec with
  | nil => exact ⟨ec, rfl, h⟩
  | cons rt rest ih =>
    unfold compileRoutes routesAlone
    obtain ⟨e, ha, hc⟩ | ⟨route, ec', ha, hc, hs⟩ :=
      (compileRoute_agrees h cfg md.domain ri rt).cases
    · simp only [ha, hc]
      rfl
    · obtain ⟨e, hb, hd⟩ | ⟨routes, ec'', hb, hd, hs'⟩ := (ih (ri + 1) hs).cases
      · simp only [ha, hb, hc, hd]
        rfl
      · simp only [ha, hb, hc, hd]
        exact ⟨ec'', rfl, hs'⟩

theorem compileDomain_agrees {fs : FileSystem} {ec : EngineCache} (h : EngineCache.Sound fs ec)
    (cfg : MergedConfig) (md : MergedDomain) :
    Agrees fs (compileDomain fs cfg md ec) (domainAlone fs cfg md) := by
  unfold compileDomain domainAlone
  cases compileHosts md.source md.domain.hosts with
  | error e => rfl
  | ok hosts =>
    obtain ⟨e, ha, hc⟩ | ⟨policy, ec', ha, hc, hs⟩ :=
      (compilePolicy_agrees h (domainID md.domain) (domainResolved cfg md.domain)).cases
    · simp only [ha, hc]
      rfl
    · obtain ⟨e, hb, hd⟩ | ⟨routes, ec'', hb, hd, hs'⟩ :=
        (compileRoutes_agrees cfg md md.domain.routes 0 hs).cases
      · simp only [ha, hb, hc, hd]
        rfl
      · simp only [ha, hb, hc, hd]
        exact ⟨ec'', rfl, hs'⟩

/-! ## The index -/

/-- Domains with what they compile to, entered into a resolver one by one. -/
def Resolver.addDomains (r : Resolver) (cds : List (MergedDomain × CompiledDomain)) : Resolver :=
  cds.foldl (fun r p => r.addDomain p.1.domain p.2) r

/-- `cds` are the domains of `mds`, each with what it compiles to. -/
def CompiledAs (fs : FileSystem) (cfg : MergedConfig) (mds : List MergedDomain)
    (cds : List (MergedDomain × CompiledDomain)) : Prop :=
  cds.map Prod.fst = mds ∧ ∀ p ∈ cds, domainAlone fs cfg p.1 = .ok p.2

theorem compileDomains_ok {fs : FileSystem} {cfg : MergedConfig} (mds : List MergedDomain)
    {r r' : Resolver} {ec : EngineCache} (h : EngineCache.Sound fs ec)
    (hc : compileDomains fs cfg mds r ec = .ok r') :
    ∃ cds, CompiledAs fs cfg mds cds ∧ r' = r.addDomains cds := by
  induction mds generalizing r ec with
  | nil =>
    obtain rfl := Except.ok.inj hc
    exact ⟨[], ⟨rfl, by simp⟩, rfl⟩
  | cons md rest ih =>
    unfold compileDomains at hc
    obtain ⟨e, ha, hd⟩ | ⟨cd, ec', ha, hd, hs⟩ := (compileDomain_agrees h cfg md).cases
    · simp only [hd] at hc
      cases hc
    · simp only [hd] at hc
      obtain ⟨cds, ⟨hfst, hall⟩, hr⟩ := ih hs hc
      refine ⟨(md, cd) :: cds, ⟨by simp [hfst], ?_⟩, hr⟩
      intro p hp
      rcases List.mem_cons.mp hp with rfl | hp
      · exact ha
      · exact hall p hp

theorem compileDomains_of_all {fs : FileSystem} {cfg : MergedConfig} (mds : List MergedDomain)
    (r : Resolver) {ec : EngineCache} (h : EngineCache.Sound fs ec)
    (hall : ∀ md ∈ mds, ∃ cd, domainAlone fs cfg md = .ok cd) :
    ∃ r', compileDomains fs cfg mds r ec = .ok r' := by
  induction mds generalizing r ec with
  | nil => exact ⟨r, rfl⟩
  | cons md rest ih =>
    unfold compileDomains
    obtain ⟨cd, hcd⟩ := hall md List.mem_cons_self
    obtain ⟨e, ha, -⟩ | ⟨cd', ec', -, hd, hs⟩ := (compileDomain_agrees h cfg md).cases
    · rw [hcd] at ha
      cases ha
    · simp only [hd]
      exact ih _ hs fun md hmd => hall md (List.mem_cons_of_mem _ hmd)

/-- A successful `Compile` has compiled every domain, and holds no others. -/
theorem compile_ok {fs : FileSystem} {cfg : MergedConfig} {r : Resolver}
    (h : compile fs cfg = .ok r) :
    ∃ cds, CompiledAs fs cfg cfg.domains cds ∧
      r = Resolver.addDomains { excludes := cfg.excludes.map normalizePath } cds :=
  compileDomains_ok cfg.domains (EngineCache.sound_nil fs) h

theorem compile_domain {fs : FileSystem} {cfg : MergedConfig} {r : Resolver}
    (hc : compile fs cfg = .ok r) {md : MergedDomain} (hmd : md ∈ cfg.domains) : ∃ cd, domainAlone fs cfg md = .ok cd := by
  obtain ⟨cds, ⟨hfst, hall⟩, -⟩ := compile_ok hc
  rw [← hfst] at hmd
  obtain ⟨p, hp, rfl⟩ := List.mem_map.mp hmd
  exact ⟨p.2, hall p hp⟩

theorem CompiledAs.mem_iff {fs : FileSystem} {cfg : MergedConfig} {mds : List MergedDomain}
    {cds : List (MergedDomain × CompiledDomain)} (h : CompiledAs fs cfg mds cds)
    {md : MergedDomain} {cd : CompiledDomain} :
    (md, cd) ∈ cds ↔ md ∈ mds ∧ domainAlone fs cfg md = .ok cd := by
  constructor
  · intro hp
    exact ⟨h.1 ▸ List.mem_map_of_mem hp, h.2 _ hp⟩
  · rintro ⟨hmd, hcd⟩
    rw [← h.1] at hmd
    obtain ⟨⟨md', cd'⟩, hp, rfl⟩ := List.mem_map.mp hmd
    have hcd' : domainAlone fs cfg md' = .ok cd' := h.2 _ hp
    obtain rfl : cd' = cd := Except.ok.inj (hcd'.symm.trans hcd)
    exact hp

/-- Whether `Resolve` looks at a domain for a host: always when it is scanned, else when
one of its hosts has the key of the request. -/
def consulted (host : Bytes) (d : Domain) (cd : CompiledDomain) : Prop :=
  cd.hosts.all Host.isExact = true → ∃ h ∈ d.hosts, normalizeHost h = normalizeHost host

/-- The domains the scan of `Resolve` goes through. -/
def Resolver.candidates (r : Resolver) (host : Bytes) : List CompiledDomain :=
  r.exactDomains (normalizeHost host) ++ r.wildcard

omit [Heap] [Constructors] in
theorem mem_candidates_addDomain {r : Resolver} {host : Bytes} {d : Domain}
    {cd cd' : CompiledDomain} :
    cd' ∈ (r.addDomain d cd).candidates host ↔
      cd' ∈ r.candidates host ∨ (cd' = cd ∧ consulted host d cd) := by
  unfold Resolver.addDomain
  split
  next hex =>
    simp only [Resolver.candidates, Resolver.exactDomains, List.filterMap_append, List.mem_append,
      List.mem_filterMap, List.mem_map, consulted, hex, true_implies]
    constructor
    · rintro ((h | ⟨e, ⟨k, hk, rfl⟩, he⟩) | h)
      · exact .inl (.inl h)
      · split at he
        next hkey => exact .inr ⟨(Option.some.inj he).symm, k, hk, hkey⟩
        next => cases he
      · exact .inl (.inr h)
    · rintro ((h | h) | ⟨rfl, k, hk, hkey⟩)
      · exact .inl (.inl h)
      · exact .inr h
      · exact .inl (.inr ⟨_, ⟨k, hk, rfl⟩, by simp [hkey]⟩)
  next hex =>
    simp [Resolver.candidates, Resolver.exactDomains, consulted, hex, or_assoc]

omit [Heap] [Constructors] in
theorem mem_candidates_addDomains (cds : List (MergedDomain × CompiledDomain)) {r : Resolver}
    {host : Bytes} {cd : CompiledDomain} :
    cd ∈ (r.addDomains cds).candidates host ↔
      cd ∈ r.candidates host ∨ ∃ md, (md, cd) ∈ cds ∧ consulted host md.domain cd := by
  induction cds generalizing r with
  | nil => simp [Resolver.addDomains]
  | cons p cds ih =>
    obtain ⟨md, cd'⟩ := p
    have hstep : r.addDomains ((md, cd') :: cds) = (r.addDomain md.domain cd').addDomains cds := rfl
    rw [hstep, ih, mem_candidates_addDomain]
    constructor
    · rintro ((h | ⟨rfl, h⟩) | ⟨md', hm, h⟩)
      · exact .inl h
      · exact .inr ⟨md, List.mem_cons_self, h⟩
      · exact .inr ⟨md', List.mem_cons_of_mem _ hm, h⟩
    · rintro (h | ⟨md', hm, h⟩)
      · exact .inl (.inl h)
      · rcases List.mem_cons.mp hm with he | hm
        · obtain ⟨rfl, rfl⟩ := Prod.mk.inj he
          exact .inl (.inr ⟨rfl, h⟩)
        · exact .inr ⟨md', hm, h⟩

/-- The domains a compiled resolver considers for a host. -/
theorem mem_candidates {fs : FileSystem} {cfg : MergedConfig} {r : Resolver}
    (h : compile fs cfg = .ok r) {host : Bytes} {cd : CompiledDomain} :
    cd ∈ r.candidates host ↔
      ∃ md ∈ cfg.domains, domainAlone fs cfg md = .ok cd ∧ consulted host md.domain cd := by
  obtain ⟨cds, hcds, rfl⟩ := compile_ok h
  rw [mem_candidates_addDomains]
  constructor
  · rintro (hm | ⟨md, hp, hc⟩)
    · simp [Resolver.candidates, Resolver.exactDomains] at hm
    · obtain ⟨hmd, hcd⟩ := hcds.mem_iff.mp hp
      exact ⟨md, hmd, hcd, hc⟩
  · rintro ⟨md, hmd, hcd, hc⟩
    exact .inr ⟨md, hcds.mem_iff.mpr ⟨hmd, hcd⟩, hc⟩

end ElchiShield.Policy
