import ElchiShield.Policy.Compiled
import ElchiShield.Runtime.Snapshot

/-! # Compilation depends on content

What a config compiles to is determined by its content and by the contents of the files
its engines in effect refer to. The addresses of its specs do not matter. -/
namespace ElchiShield.Runtime
open ElchiShield.Go ElchiShield.Config ElchiShield.Policy ElchiShield.Engine

/-! ## Engines -/

section
variable {fs fs' : FileSystem}

/-- An optional block whose engine depends on the files of the block only. -/
theorem buildBlock_congr {α : Type} {block : Option α} (files : FileSystem → α → List Bytes)
    (build : FileSystem → α → Except Err SecurityEngine)
    (hbuild : ∀ a, (∀ f, f ∈ files fs a ∨ f ∈ files fs' a → fs f = fs' f) →
      build fs a = build fs' a)
    (h : ∀ f, f ∈ (block.map (files fs)).getD [] ∨ f ∈ (block.map (files fs')).getD [] →
      fs f = fs' f) :
    buildBlock block (build fs) = buildBlock block (build fs') := by
  cases block with
  | none => rfl
  | some a => simp only [buildBlock, hbuild a h]

/-- The case of a block that names its files. -/
theorem buildBlock_named_congr {α : Type} {block : Option α} {files : α → List Bytes}
    (build : FileSystem → α → Except Err SecurityEngine)
    (hbuild : ∀ a, (∀ f ∈ files a, fs f = fs' f) → build fs a = build fs' a)
    (h : ∀ f ∈ (block.map files).getD [], fs f = fs' f) :
    buildBlock block (build fs) = buildBlock block (build fs') :=
  buildBlock_congr (fun _ => files) build
    (fun a ha => hbuild a fun f hf => ha f (.inl hf)) fun f hf => h f (hf.elim id id)

variable [Constructors]

theorem buildJWT_congr {j : JWTSpec} (h : ∀ f ∈ filesOfJWT j, fs f = fs' f) :
    buildJWT fs j = buildJWT fs' j := by
  unfold buildJWT
  split
  next => rfl
  next hne => rw [h j.publicKeyFile (by simp [filesOfJWT, hne])]

theorem buildCoraza_congr {c : CorazaSpec}
    (h : ∀ f, f ∈ filesOfCoraza fs c ∨ f ∈ filesOfCoraza fs' c → fs f = fs' f) :
    buildCoraza fs c = buildCoraza fs' c := by
  have hd : corazaDirectives fs c = corazaDirectives fs' c := by
    unfold corazaDirectives
    split
    next => rfl
    next hne => rw [h c.directivesFile (.inl (by simp [filesOfCoraza, hne]))]
  rw [buildCoraza, hd, buildCoraza]
  cases hd' : corazaDirectives fs' c with
  | error err => rfl
  | ok directives =>
    have hreads : Constructors.coraza c directives fs = Constructors.coraza c directives fs' := by
      refine Constructors.coraza_reads c directives fs fs' fun f hf => h f ?_
      simp only [filesOfCoraza, hd, hd', List.mem_append]
      exact hf.imp .inr .inr
    exact congrArg (labelled "coraza engine: %w") hreads

/-- The engines of a block depend on the files they read only. -/
theorem buildEngines_congr [Unicode] {spec : EnginesSpec}
    (h : ∀ f, f ∈ enginesFiles fs spec ∨ f ∈ enginesFiles fs' spec → fs f = fs' f) :
    buildEngines fs spec = buildEngines fs' spec := by
  simp only [enginesFiles, List.mem_append, or_imp, forall_and] at h
  obtain ⟨⟨⟨⟨⟨⟨hjwt, hcoraza⟩, hip⟩, hbot⟩, hjwks⟩, hopen⟩, ⟨⟨⟨⟨-, hcoraza'⟩, -⟩, -⟩, -⟩, -⟩ := h
  have hjwt' := buildBlock_named_congr (fun fs j => labelled "jwt engine: %w" (buildJWT fs j))
    (fun j hj => by rw [buildJWT_congr hj]) hjwt
  have hcoraza' := buildBlock_congr filesOfCoraza buildCoraza (fun c hc => buildCoraza_congr hc)
    fun f hf => hf.elim (hcoraza f) (hcoraza' f)
  have hip' := buildBlock_named_congr
    (fun fs i => labelled "ip_reputation engine: %w" (buildIPReputation fs i))
    (fun i hi => by simp only [buildIPReputation, List.map_congr_left hi]) hip
  have hbot' := buildBlock_named_congr (fun fs b => labelled "bot engine: %w" (buildBot fs b))
    (fun b hb => by simp only [buildBot, List.map_congr_left hb]) hbot
  have hjwks' := buildBlock_named_congr (fun fs j => labelled "jwks engine: %w" (buildJWKS fs j))
    (fun j hj => by simp only [buildJWKS, List.map_congr_left hj]) hjwks
  have hopen' := buildBlock_named_congr
    (fun fs o => labelled "openapi engine: %w" (buildOpenAPI fs o))
    (fun o ho => by simp only [buildOpenAPI, List.map_congr_left ho]) hopen
  simp only [buildEngines, engineBuilders, hjwt', hcoraza', hip', hbot', hjwks', hopen']

end

/-! ## Policies -/

section
variable [Heap]

def resolvedContent (r : ResolvedPolicy) : ResolvedPolicy × Option EnginesSpec :=
  ({ r with engines := none }, r.engines.map Heap.engines)

/-- The content of a step of `Resolve`, from the contents of what it folds. -/
def applyContent (out : ResolvedPolicy × Option EnginesSpec) (s : PolicyContent) :
    ResolvedPolicy × Option EnginesSpec :=
  (applySpec out.1 s.spec, s.engines.or out.2)

theorem resolvedContent_applySpec (out : ResolvedPolicy) (s : PolicySpec) :
    resolvedContent (applySpec out s) = applyContent (resolvedContent out) (policyContent s) :=
  Prod.ext rfl Option.map_or

theorem resolvedContent_foldl (specs : List PolicySpec) (out : ResolvedPolicy) :
    resolvedContent (specs.foldl applySpec out) =
      (specs.map policyContent).foldl applyContent (resolvedContent out) := by
  induction specs generalizing out with
  | nil => rfl
  | cons s specs ih => rw [List.foldl_cons, ih, resolvedContent_applySpec]; rfl

theorem resolvedContent_inspectForDLP (out : ResolvedPolicy) :
    resolvedContent (inspectForDLP out) =
      (inspectForDLP (resolvedContent out).1, (resolvedContent out).2) := by
  unfold inspectForDLP resolvedContent
  dsimp only
  split
  next => rfl
  next =>
    split
    · rfl
    · split <;> rfl

theorem resolvedContent_inspectForChecks (out : ResolvedPolicy) :
    resolvedContent (inspectForChecks out) =
      (inspectForChecks (resolvedContent out).1, (resolvedContent out).2) := by
  unfold inspectForChecks resolvedContent
  dsimp only
  split
  next => rfl
  next => split <;> rfl

/-- The content of an effective policy is determined by the contents of its scopes. -/
theorem resolvedContent_resolve {base : ResolvedPolicy} {specs specs' : List PolicySpec}
    (h : specs.map policyContent = specs'.map policyContent) :
    resolvedContent (resolve base specs) = resolvedContent (resolve base specs') := by
  have hfold : ∀ specs, resolvedContent (resolve base specs) =
      (inspectForChecks (inspectForDLP
        ((specs.map policyContent).foldl applyContent (resolvedContent base)).1),
        ((specs.map policyContent).foldl applyContent (resolvedContent base)).2) := by
    intro specs
    rw [resolve, resolvedContent_inspectForChecks, resolvedContent_inspectForDLP,
      resolvedContent_foldl]
  rw [hfold, hfold, h]

/-- The files the engines of an effective policy refer to. -/
def resolvedFiles [Constructors] (fs : FileSystem) (r : ResolvedPolicy) : List Bytes :=
  ((resolvedContent r).2.map (enginesFiles fs)).getD []

end

/-! ## Configs -/

section
variable [Heap] [Constructors] (fs : FileSystem)

def domainFiles (cfg : MergedConfig) (d : Domain) : List Bytes :=
  resolvedFiles fs (domainResolved cfg d) ++
    d.routes.flatMap fun rt => resolvedFiles fs (routeResolved cfg d rt)

/-- The files `Compile` reads for a config. -/
def configFiles (cfg : MergedConfig) : List Bytes :=
  cfg.domains.flatMap fun md => domainFiles fs cfg md.domain

end

variable [Library] [Heap] [Constructors] {fs fs' : FileSystem} {cfg cfg' : MergedConfig}

theorem policyAlone_congr {id : Bytes} {r r' : ResolvedPolicy}
    (hc : resolvedContent r = resolvedContent r') 
    (hf : ∀ f, f ∈ resolvedFiles fs r ∨ f ∈ resolvedFiles fs' r → fs f = fs' f) :
    policyAlone fs id r = policyAlone fs' id r' := by
  obtain ⟨hspec, hengines⟩ := Prod.mk.inj hc
  have hfrom : fromResolved id r = fromResolved id r' := by
    show fromResolved id { r with engines := none } = fromResolved id { r' with engines := none }
    rw [hspec]
  have hbuild : enginesFor fs r.engines = enginesFor fs' r'.engines := by
    cases he : r.engines with
    | none =>
      rw [he] at hengines
      rw [Option.map_eq_none_iff.mp hengines.symm]
      rfl
    | some ptr =>
      rw [he] at hengines
      obtain ⟨ptr', he', hptr⟩ := Option.map_eq_some_iff.mp hengines.symm
      rw [he', enginesFor, enginesFor, hptr]
      exact buildEngines_congr fun f hfile => hf f (by simpa [resolvedFiles, resolvedContent, he])
  rw [policyAlone, hfrom, hbuild, policyAlone]

theorem routeAlone_congr {d d' : Domain} {rt rt' : Route} {ri : Nat} (hhosts : d.hosts = d'.hosts)
    (hmatch : rt.match = rt'.match)
    (hc : resolvedContent (routeResolved cfg d rt) = resolvedContent (routeResolved cfg' d' rt'))
    (hf : ∀ f, f ∈ resolvedFiles fs (routeResolved cfg d rt) ∨
      f ∈ resolvedFiles fs' (routeResolved cfg d rt) → fs f = fs' f) :
    routeAlone fs cfg d ri rt = routeAlone fs' cfg' d' ri rt' := by
  have hid : routeID d ri = routeID d' ri := by rw [routeID, domainScope, hhosts]; rfl
  rw [routeAlone, hmatch, hid, policyAlone_congr hc hf, routeAlone]

/-- The scopes above a route, up to content. -/
def sameScopes (cfg cfg' : MergedConfig) (d d' : Domain) : Prop :=
  policyContent cfg.fileDefaults = policyContent cfg'.fileDefaults ∧
    policyContent d.policy = policyContent d'.policy

theorem routesAlone_congr {md md' : MergedDomain} (hsource : md.source = md'.source)
    (hhosts : md.domain.hosts = md'.domain.hosts)
    (hs : sameScopes cfg cfg' md.domain md'.domain) (routes routes' : List Route) (ri : Nat)
    (hc : routes.map routeContent = routes'.map routeContent)
    (hf : ∀ rt ∈ routes, ∀ f, f ∈ resolvedFiles fs (routeResolved cfg md.domain rt) ∨
      f ∈ resolvedFiles fs' (routeResolved cfg md.domain rt) → fs f = fs' f) :
    routesAlone fs cfg md ri routes = routesAlone fs' cfg' md' ri routes' := by
  induction routes generalizing routes' ri with
  | nil =>
    obtain rfl := List.map_eq_nil_iff.mp hc.symm
    rfl
  | cons rt rest ih =>
    cases routes' with
    | nil => cases hc
    | cons rt' rest' =>
      obtain ⟨hhead, htail⟩ := List.cons.inj hc
      obtain ⟨hmatch, hpolicy⟩ := RouteContent.mk.inj hhead
      have hresolved : resolvedContent (routeResolved cfg md.domain rt) =
          resolvedContent (routeResolved cfg' md'.domain rt') :=
        resolvedContent_resolve (by simp [hs.1, hs.2, hpolicy])
      have hid : domainID md.domain = domainID md'.domain := by
        rw [domainID, domainScope, hhosts]
        rfl
      rw [routesAlone, routesAlone,
        routeAlone_congr hhosts hmatch hresolved (hf rt List.mem_cons_self),
        ih rest' (ri + 1) htail fun rt hrt => hf rt (List.mem_cons_of_mem _ hrt), hsource, hid]

theorem domainAlone_congr {md md' : MergedDomain}
    (hdefaults : policyContent cfg.fileDefaults = policyContent cfg'.fileDefaults)
    (hc : domainContent md = domainContent md')
    (hf : ∀ f, f ∈ domainFiles fs cfg md.domain ∨ f ∈ domainFiles fs' cfg md.domain →
      fs f = fs' f) :
    domainAlone fs cfg md = domainAlone fs' cfg' md' := by
  obtain ⟨hhosts, hpolicy, hroutes, hsource⟩ := DomainContent.mk.inj hc
  have hid : domainID md.domain = domainID md'.domain := by
    rw [domainID, domainScope, hhosts]
    rfl
  have hresolved : resolvedContent (domainResolved cfg md.domain) =
      resolvedContent (domainResolved cfg' md'.domain) :=
    resolvedContent_resolve (by simp [hdefaults, hpolicy])
  have hpol : policyAlone fs (domainID md'.domain) (domainResolved cfg md.domain) =
      policyAlone fs' (domainID md'.domain) (domainResolved cfg' md'.domain) :=
    policyAlone_congr hresolved fun f hfile =>
      hf f (hfile.imp (List.mem_append_left _) (List.mem_append_left _))
  have hrts := routesAlone_congr hsource hhosts ⟨hdefaults, hpolicy⟩ _ _ 0 hroutes
    fun rt hrt f hfile => hf f (hfile.imp
      (fun h => List.mem_append_right _ (List.mem_flatMap.mpr ⟨rt, hrt, h⟩))
      fun h => List.mem_append_right _ (List.mem_flatMap.mpr ⟨rt, hrt, h⟩))
  simp only [domainAlone, hpol, hrts, hsource, hhosts, hid]

omit [Constructors] in
/-- Domains of the same content that compile to the same give the same index. -/
theorem addDomains_congr (cds cds' : List (MergedDomain × CompiledDomain)) (r : Resolver)
    (hc : cds.map (fun p => domainContent p.1) = cds'.map fun p => domainContent p.1)
    (hcd : ∀ p ∈ cds, ∀ p' ∈ cds', domainContent p.1 = domainContent p'.1 → p.2 = p'.2) :
    r.addDomains cds = r.addDomains cds' := by
  induction cds generalizing cds' r with
  | nil =>
    obtain rfl := List.map_eq_nil_iff.mp hc.symm
    rfl
  | cons p cds ih =>
    cases cds' with
    | nil => cases hc
    | cons p' cds' =>
      obtain ⟨hhead, htail⟩ := List.cons.inj hc
      have hp : p.2 = p'.2 := hcd p List.mem_cons_self p' List.mem_cons_self hhead
      have hhosts : p.1.domain.hosts = p'.1.domain.hosts := congrArg DomainContent.hosts hhead
      have hadd : r.addDomain p.1.domain p.2 = r.addDomain p'.1.domain p'.2 := by
        rw [Resolver.addDomain, hp, hhosts, Resolver.addDomain]
      show (r.addDomain p.1.domain p.2).addDomains cds = (r.addDomain p'.1.domain p'.2).addDomains cds'
      rw [hadd]
      exact ih cds' _ htail fun q hq q' hq' =>
        hcd q (List.mem_cons_of_mem _ hq) q' (List.mem_cons_of_mem _ hq')

/-- Configs of the same content compile to the same resolver, as long as the files their
engines refer to are the same. -/
theorem compile_congr {r : Resolver} (hc : configContent cfg = configContent cfg')
    (hf : ∀ f ∈ configFiles fs cfg ++ configFiles fs' cfg, fs f = fs' f) (h : compile fs cfg = .ok r) :
    compile fs' cfg' = .ok r := by
  obtain ⟨hdefaults, hdomains, -, hexcludes⟩ := ConfigContent.mk.inj hc
  have halone : ∀ md ∈ cfg.domains, ∀ md', domainContent md = domainContent md' →
      domainAlone fs cfg md = domainAlone fs' cfg' md' := fun md hmd md' heq =>
    domainAlone_congr hdefaults heq fun f hfile => hf f (List.mem_append.mpr (hfile.imp
      (fun h => List.mem_flatMap.mpr ⟨md, hmd, h⟩) fun h => List.mem_flatMap.mpr ⟨md, hmd, h⟩))
  have hall : ∀ md' ∈ cfg'.domains, ∃ cd, domainAlone fs' cfg' md' = .ok cd := by
    intro md' hmd'
    have hmem : domainContent md' ∈ cfg.domains.map domainContent :=
      hdomains ▸ List.mem_map_of_mem hmd'
    obtain ⟨md, hmd, heq⟩ := List.mem_map.mp hmem
    rw [← halone md hmd md' heq]
    exact compile_domain h hmd
  obtain ⟨r', hr'⟩ := compileDomains_of_all cfg'.domains
    { excludes := cfg'.excludes.map Matcher.normalizePath } (EngineCache.sound_nil fs') hall
  obtain ⟨cds, hcds, rfl⟩ := compile_ok h
  obtain ⟨cds', hcds', heq⟩ := compile_ok hr'
  rw [compile, hr', heq, hexcludes]
  refine congrArg Except.ok (addDomains_congr cds cds' _ ?_ ?_).symm
  · have hmap : ∀ cds : List (MergedDomain × CompiledDomain),
        cds.map (fun p => domainContent p.1) = (cds.map Prod.fst).map domainContent := by
      simp [Function.comp_def]
    rw [hmap, hmap, hcds.1, hcds'.1]
    exact hdomains
  · intro p hp p' hp' hcontent
    have hmd : p.1 ∈ cfg.domains := hcds.1 ▸ List.mem_map_of_mem hp
    exact Except.ok.inj
      ((hcds.2 p hp).symm.trans ((halone p.1 hmd p'.1 hcontent).trans (hcds'.2 p' hp')))

end ElchiShield.Runtime
