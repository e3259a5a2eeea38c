import ElchiShield.Policy.Construction

/-! # Where the engine sets of a compilation are

`Compile` with the pointers that `Resolver.Close` compares: a policy points to its engine set, a
set to its engines. An engine is the number of those constructed before it, a set the number of
those allocated before it. -/
namespace ElchiShield.Policy
open ElchiShield.Go ElchiShield.Lib ElchiShield.Config ElchiShield.Engine ElchiShield.Matcher

/-- A pointer to an engine set, and what it points to. -/
structure SetRef where
  addr : Nat
  engines : List (SecurityEngine × Nat)

def SetRef.set (p : SetRef) : EngineSet := ⟨p.engines.map Prod.fst⟩

/-- The engine cache, and what was constructed and allocated so far. -/
structure Alloc where
  byPtr : List (EnginesPtr × Option SetRef) := []
  constructed : List SecurityEngine := []
  sets : List SetRef := []

abbrev Allocating (ε α : Type) := Attempt Alloc ε α

/-- A compiled policy, and its field `Engines` as a pointer. -/
structure PolicyRef where
  policy : CompiledPolicy
  engines : Option SetRef

structure RouteRef where
  route : CompiledRoute
  engines : Option SetRef

structure DomainRef where
  hosts : List Host
  routes : List RouteRef
  defaultPolicy : PolicyRef

structure ResolverRef where
  exact : List (Bytes × DomainRef) := []
  wildcard : List DomainRef := []
  excludes : List Bytes := []

def DomainRef.domain (cd : DomainRef) : CompiledDomain :=
  ⟨cd.hosts, cd.routes.map RouteRef.route, cd.defaultPolicy.policy⟩

def ResolverRef.resolver (r : ResolverRef) : Resolver :=
  ⟨r.exact.map fun e => (e.1, e.2.domain), r.wildcard.map DomainRef.domain, r.excludes⟩

def sortRouteRefs (routes : List RouteRef) : List RouteRef :=
  routes.insertionSort fun a b => routeBefore a.route b.route

namespace Allocating

def construct : Except Err (List SecurityEngine) →
    Allocating Err (List (SecurityEngine × Nat))
  | .ok engines => fun a =>
    (.ok (engines.zipIdx a.constructed.length), { a with constructed := a.constructed ++ engines })
  | .error e => Attempt.lift (.error e)

def newSet (engines : List (SecurityEngine × Nat)) : Allocating Err SetRef := fun a =>
  (.ok ⟨a.sets.length, engines⟩, { a with sets := a.sets ++ [⟨a.sets.length, engines⟩] })

section
variable [Unicode] [Constructors]

def buildEngines (fs : FileSystem) (spec : EnginesSpec) : Allocating Err (Option SetRef) := do
  let engines ← Attempt.each construct (engineBuilders fs spec)
  if engines.flatten.isEmpty then return none
  else
    let p ← newSet engines.flatten
    return some p

end

variable [Library] [Heap] [Constructors]

/-- `engineCache.get`. -/
def get (fs : FileSystem) (spec : Option EnginesPtr) : Allocating Err (Option SetRef) :=
  match spec with
  | none => pure none
  | some ptr => fun a => match a.byPtr.lookup ptr with
    | some p => (.ok p, a)
    | none => (do
        let p ← buildEngines fs (Heap.engines ptr)
        Attempt.update fun a => { a with byPtr := (ptr, p) :: a.byPtr }
        return p : Allocating Err (Option SetRef)) a

def compilePolicy (fs : FileSystem) (id : Bytes) (resolved : ResolvedPolicy) :
    Allocating Err PolicyRef := do
  let engines ← get fs resolved.engines
  return ⟨{ fromResolved id resolved with engines := engines.map SetRef.set }, engines⟩

def compileRoute (fs : FileSystem) (cfg : MergedConfig) (d : Domain) (ri : Nat) (rt : Route) :
    Allocating Err RouteRef := do
  let path ← Attempt.lift (compilePath rt.match.pathExact rt.match.pathPrefix rt.match.pathRegex)
  let headers ← Attempt.lift (compileHeaders rt.match.headers)
  let policy ← compilePolicy fs (routeID d ri) (routeResolved cfg d rt)
  return ⟨⟨path, compileMethods rt.match.methods, compileContentTypes rt.match.contentType,
    headers, policy.policy⟩, policy.engines⟩

def compileRoutes (fs : FileSystem) (cfg : MergedConfig) (md : MergedDomain) :
    Nat → List Route → Allocating CompileError (List RouteRef)
  | _, [] => pure []
  | ri, rt :: rest => do
    let route ← (compileRoute fs cfg md.domain ri rt).mapError fun e =>
      ⟨md.source, domainID md.domain, some ri, e⟩
    let routes ← compileRoutes fs cfg md (ri + 1) rest
    return route :: routes

def compileDomain (fs : FileSystem) (cfg : MergedConfig) (md : MergedDomain) :
    Allocating CompileError DomainRef := do
  let hosts ← Attempt.lift (compileHosts md.source md.domain.hosts)
  let policy ← (compilePolicy fs (domainID md.domain) (domainResolved cfg md.domain)).mapError
    fun e => ⟨md.source, domainID md.domain, none, e⟩
  let routes ← compileRoutes fs cfg md 0 md.domain.routes
  return ⟨hosts, sortRouteRefs routes, policy⟩

end Allocating

section
variable [Library]

def ResolverRef.addDomain (r : ResolverRef) (d : Domain) (cd : DomainRef) : ResolverRef :=
  if cd.hosts.all Host.isExact then
    { r with exact := r.exact ++ d.hosts.map fun h => (normalizeHost h, cd) }
  else { r with wildcard := r.wildcard ++ [cd] }

end

namespace Allocating
variable [Library] [Heap] [Constructors]

def compileDomains (fs : FileSystem) (cfg : MergedConfig) :
    List MergedDomain → ResolverRef → Allocating CompileError ResolverRef
  | [], r => pure r
  | md :: rest, r => do
    let cd ← compileDomain fs cfg md
    compileDomains fs cfg rest (r.addDomain md.domain cd)

def compile (fs : FileSystem) (cfg : MergedConfig) : Allocating CompileError ResolverRef :=
  compileDomains fs cfg cfg.domains { excludes := cfg.excludes.map normalizePath }

end Allocating

/-! ## The pointers aside, it is `Compile` -/

/-- The same engines are constructed and cached. -/
structure SameBuild (a : Alloc) (b : Build) : Prop where
  byPtr : b.byPtr = a.byPtr.map fun e => (e.1, e.2.map SetRef.set)
  constructed : b.constructed = a.constructed

theorem lookup_map_value {κ α β : Type} [BEq κ] (f : α → β) (l : List (κ × α)) (k : κ) :
    (l.map fun e => (e.1, f e.2)).lookup k = (l.lookup k).map f := by
  induction l with
  | nil => rfl
  | cons e l ih =>
    obtain ⟨k', x⟩ := e
    rw [List.map_cons, List.lookup_cons, List.lookup_cons, ih]
    cases k == k' <;> rfl

theorem map_sortRouteRefs (routes : List RouteRef) :
    (sortRouteRefs routes).map RouteRef.route = sortRoutes (routes.map RouteRef.route) :=
  List.map_insertionSort _ _ _ _ fun _ _ _ _ => Iff.rfl

section
variable {ε α : Type}

theorem construct_follows (r : Except Err (List SecurityEngine)) :
    Attempt.Follows SameBuild (List.map Prod.fst) (Allocating.construct r)
      (Building.construct r) := by
  intro a b h
  cases r with
  | error e => exact ⟨rfl, h⟩
  | ok engines =>
    refine ⟨?_, h.byPtr, ?_⟩
    · show Except.ok ((engines.zipIdx a.constructed.length).map Prod.fst) = _
      rw [List.zipIdx_map_fst]
      rfl
    · show b.constructed ++ engines = a.constructed ++ engines
      rw [h.constructed]

variable [Library] [Heap] [Constructors] (fs : FileSystem)

omit [Heap] in
theorem buildEngines_follows (spec : EnginesSpec) :
    Attempt.Follows SameBuild (Option.map SetRef.set) (Allocating.buildEngines fs spec)
      (Building.buildEngines fs spec) := by
  refine (Attempt.Follows.each construct_follows (engineBuilders fs spec)).bind fun engines => ?_
  have hflatten : (engines.map (List.map Prod.fst)).flatten = engines.flatten.map Prod.fst :=
    List.map_flatten.symm
  rw [hflatten, List.isEmpty_map]
  split
  next => exact .pure rfl
  next => exact fun a b h => ⟨rfl, h.byPtr, h.constructed⟩

theorem get_follows (spec : Option EnginesPtr) :
    Attempt.Follows SameBuild (Option.map SetRef.set) (Allocating.get fs spec)
      (Building.get fs spec) := by
  cases spec with
  | none => exact .pure rfl
  | some ptr =>
    intro a b h
    unfold Allocating.get Building.get
    dsimp only
    rw [h.byPtr, lookup_map_value]
    cases a.byPtr.lookup ptr with
    | some p => exact ⟨rfl, h⟩
    | none =>
      refine (buildEngines_follows fs (Heap.engines ptr)).bind (fun p => ?_) a b h
      intro a b h
      refine ⟨rfl, ?_, h.constructed⟩
      show (ptr, p.map SetRef.set) :: b.byPtr = _
      rw [h.byPtr]
      rfl

theorem compilePolicy_follows (id : Bytes) (resolved : ResolvedPolicy) :
    Attempt.Follows SameBuild PolicyRef.policy (Allocating.compilePolicy fs id resolved)
      (Building.compilePolicy fs id resolved) :=
  (get_follows fs resolved.engines).bind fun _ => .pure rfl

variable (cfg : MergedConfig)

theorem compileRoute_follows (d : Domain) (ri : Nat) (rt : Route) :
    Attempt.Follows SameBuild RouteRef.route (Allocating.compileRoute fs cfg d ri rt)
      (Building.compileRoute fs cfg d ri rt) :=
  (Attempt.Follows.lift _).bind fun _ => (Attempt.Follows.lift _).bind fun _ =>
    (compilePolicy_follows fs _ _).bind fun _ => .pure rfl

theorem compileRoutes_follows (md : MergedDomain) (routes : List Route) (ri : Nat) :
    Attempt.Follows SameBuild (List.map RouteRef.route)
      (Allocating.compileRoutes fs cfg md ri routes)
      (Building.compileRoutes fs cfg md ri routes) := by
  induction routes generalizing ri with
  | nil => exact .pure rfl
  | cons rt rest ih =>
    refine ((compileRoute_follows fs cfg md.domain ri rt).mapError _).bind fun route => ?_
    exact (ih (ri + 1)).bind fun routes => .pure rfl

theorem compileDomain_follows (md : MergedDomain) :
    Attempt.Follows SameBuild DomainRef.domain (Allocating.compileDomain fs cfg md)
      (Building.compileDomain fs cfg md) := by
  refine (Attempt.Follows.lift _).bind fun hosts => ?_
  refine ((compilePolicy_follows fs _ _).mapError _).bind fun policy => ?_
  refine (compileRoutes_follows fs cfg md md.domain.routes 0).bind fun routes => .pure ?_
  rw [DomainRef.domain, map_sortRouteRefs]
  rfl

omit [Heap] [Constructors] in
theorem addDomain_resolver (r : ResolverRef) (d : Domain) (cd : DomainRef) :
    (r.addDomain d cd).resolver = r.resolver.addDomain d cd.domain := by
  unfold ResolverRef.addDomain Resolver.addDomain
  show _ = if cd.hosts.all Host.isExact then _ else _
  split
  next => simp [ResolverRef.resolver, Function.comp_def]
  next => simp [ResolverRef.resolver]

theorem compileDomains_follows (mds : List MergedDomain) (r : ResolverRef) :
    Attempt.Follows SameBuild ResolverRef.resolver (Allocating.compileDomains fs cfg mds r)
      (Building.compileDomains fs cfg mds r.resolver) := by
  induction mds generalizing r with
  | nil => exact .pure rfl
  | cons md rest ih =>
    refine (compileDomain_follows fs cfg md).bind fun cd => ?_
    rw [← addDomain_resolver]
    exact ih (r.addDomain md.domain cd)

theorem compile_follows :
    Attempt.Follows SameBuild ResolverRef.resolver (Allocating.compile fs cfg)
      (Building.compile fs cfg) :=
  compileDomains_follows fs cfg cfg.domains _

end

/-! ## What is allocated is held

Every set that a step allocates is in what the step returns, and nothing else is. -/

def DomainRef.refs (cd : DomainRef) : List SetRef :=
  cd.defaultPolicy.engines.toList ++ cd.routes.flatMap fun rt => rt.engines.toList

def ResolverRef.domains (r : ResolverRef) : List DomainRef := r.exact.map Prod.snd ++ r.wildcard

def ResolverRef.refs (r : ResolverRef) : List SetRef := r.domains.flatMap DomainRef.refs

/-- The sets are at their addresses and share out the engines constructed; `held` has every
one of them. -/
structure Holds (held : List SetRef) (a : Alloc) : Prop where
  addrs : a.sets.map SetRef.addr = List.range a.sets.length
  engines : a.sets.flatMap SetRef.engines = a.constructed.zipIdx
  cached : ∀ ptr p, a.byPtr.lookup ptr = some (some p) → p ∈ a.sets
  held : ∀ p, p ∈ held ↔ p ∈ a.sets

theorem Holds.congr {held held' : List SetRef} {a : Alloc} (h : Holds held a)
    (hsame : ∀ p, p ∈ held' ↔ p ∈ held) : Holds held' a :=
  ⟨h.addrs, h.engines, h.cached, fun p => (hsame p).trans (h.held p)⟩

/-- A set that is there already is returned once more. -/
theorem Holds.again {held more : List SetRef} {a : Alloc} (h : Holds held a)
    (hmore : ∀ p ∈ more, p ∈ a.sets) : Holds (held ++ more) a := by
  refine h.congr fun p => ?_
  rw [List.mem_append, h.held]
  exact ⟨fun hp => hp.elim id (hmore p), .inl⟩

/-- A set with the engines constructed since the last one. -/
theorem Holds.newSet {held : List SetRef} {a : Alloc} (h : Holds held a)
    (engines : List SecurityEngine) (p : SetRef)
    (hp : p = ⟨a.sets.length, engines.zipIdx a.constructed.length⟩) :
    Holds (held ++ [p])
      { a with constructed := a.constructed ++ engines, sets := a.sets ++ [p] } := by
  subst hp
  refine ⟨?_, ?_, ?_, ?_⟩
  · simp [h.addrs, List.range_succ]
  · simp [h.engines, List.zipIdx_append]
  · intro ptr p hp
    exact List.mem_append_left _ (h.cached ptr p hp)
  · intro p
    simp [h.held]

/-- Whatever was held before, what the attempt returns is held in addition. -/
def Hands {ε α : Type} (refs : α → List SetRef) (m : Allocating ε α) : Prop :=
  ∀ held a, Holds held a → Attempt.Ends (fun x => Holds (held ++ refs x)) (fun _ _ => True) (m a)

section
variable {ε ε' α β : Type} {refs : α → List SetRef} {refs' : β → List SetRef}
  {m : Allocating ε α}

theorem Hands.pure {a : α} (h : refs a = []) : Hands refs (Pure.pure a : Allocating ε α) := by
  intro held s hs
  show Holds (held ++ refs a) s
  rw [h, List.append_nil]
  exact hs

theorem Hands.lift_bind {r : Except ε α} {k : α → Allocating ε β} (hk : ∀ a, Hands refs' (k a)) :
    Hands refs' (Attempt.lift r >>= k) := by
  intro held s hs
  cases r with
  | error e => exact trivial
  | ok a => exact hk a held s hs

theorem Hands.bind {k : α → Allocating ε β} (hm : Hands refs m)
    (hk : ∀ a held s, Holds (held ++ refs a) s →
      Attempt.Ends (fun b => Holds (held ++ refs' b)) (fun _ _ => True) (k a s)) :
    Hands refs' (m >>= k) :=
  fun held s hs => Attempt.Ends.bind (hm held s hs) fun a => hk a held

/-- The result is put into another one, with what it holds. -/
theorem Hands.into {g : α → β} (hm : Hands refs m) (hg : ∀ a p, p ∈ refs' (g a) ↔ p ∈ refs a) :
    Hands refs' (m >>= fun a => Pure.pure (g a)) := by
  refine hm.bind fun a held s hs => hs.congr fun p => ?_
  rw [List.mem_append, List.mem_append, hg]

/-- The results of two attempts are put together. -/
theorem Hands.both {γ : Type} {refs'' : γ → List SetRef} {n : Allocating ε β} {g : α → β → γ}
    (hm : Hands refs m) (hn : Hands refs' n)
    (hg : ∀ a b p, p ∈ refs'' (g a b) ↔ p ∈ refs a ∨ p ∈ refs' b) :
    Hands refs'' (m >>= fun a => n >>= fun b => Pure.pure (g a b)) := by
  refine hm.bind fun a held s hs => ?_
  refine Attempt.Ends.bind (hn _ s hs) fun b t ht => ht.congr fun p => ?_
  rw [List.mem_append, List.mem_append, List.mem_append, hg, or_assoc]

theorem Hands.mapError (hm : Hands refs m) (g : ε → ε') : Hands refs (m.mapError g) :=
  fun held s hs => (hm held s hs).mapError fun _ _ => id

end

/-- The engines constructed one after the other, numbered from the first. -/
theorem each_construct_ends (rs : List (Except Err (List SecurityEngine))) (a : Alloc) :
    Attempt.Ends (fun es t => ∃ engines, es.flatten = engines.zipIdx a.constructed.length ∧
        t = { a with constructed := a.constructed ++ engines })
      (fun _ _ => True) (Attempt.each Allocating.construct rs a) := by
  induction rs generalizing a with
  | nil => exact ⟨[], rfl, by rw [List.append_nil]⟩
  | cons r rs ih =>
    cases r with
    | error e => exact trivial
    | ok engines =>
      have hrest := ih { a with constructed := a.constructed ++ engines }
      refine Attempt.Ends.bind (Q := fun es t => es = engines.zipIdx a.constructed.length ∧
        t = { a with constructed := a.constructed ++ engines }) ⟨rfl, rfl⟩ ?_
      rintro es t ⟨rfl, rfl⟩
      refine Attempt.Ends.bind hrest ?_
      rintro es t ⟨more, hes, rfl⟩
      refine ⟨engines ++ more, ?_, ?_⟩
      · show engines.zipIdx a.constructed.length ++ es.flatten = _
        rw [hes, List.zipIdx_append, List.length_append]
      · simp

section
variable [Library] [Heap] [Constructors] (fs : FileSystem)

omit [Heap] in
theorem buildEngines_hands (spec : EnginesSpec) :
    Hands Option.toList (Allocating.buildEngines fs spec) := by
  intro held a h
  refine Attempt.Ends.bind (each_construct_ends (engineBuilders fs spec) a) ?_
  rintro es t ⟨engines, hes, rfl⟩
  rw [hes]
  split
  next hempty =>
    have hnil : engines = [] := by simpa using hempty
    subst hnil
    show Holds (held ++ []) { a with constructed := a.constructed ++ [] }
    rw [List.append_nil, List.append_nil]
    exact h
  next => exact h.newSet engines _ rfl

theorem get_hands (spec : Option EnginesPtr) : Hands Option.toList (Allocating.get fs spec) := by
  cases spec with
  | none => exact .pure rfl
  | some ptr =>
    intro held a h
    unfold Allocating.get
    dsimp only
    cases hl : a.byPtr.lookup ptr with
    | some p =>
      refine h.again fun q hq => h.cached ptr q ?_
      rw [hl, Option.mem_toList.mp hq]
    | none =>
      refine (buildEngines_hands fs (Heap.engines ptr)).bind (fun p held t ht => ?_) held a h
      -- the set that is cached is the one just returned
      refine ⟨ht.addrs, ht.engines, fun ptr' q hq => ?_, ht.held⟩
      rw [List.lookup_cons] at hq
      split at hq
      next =>
        obtain rfl := Option.some.inj hq
        exact (ht.held q).mp (List.mem_append_right _ (List.mem_singleton.mpr rfl))
      next => exact ht.cached ptr' q hq

theorem compilePolicy_hands (id : Bytes) (resolved : ResolvedPolicy) :
    Hands (fun p : PolicyRef => p.engines.toList) (Allocating.compilePolicy fs id resolved) :=
  (get_hands fs resolved.engines).into fun _ _ => Iff.rfl

variable (cfg : MergedConfig)

theorem compileRoute_hands (d : Domain) (ri : Nat) (rt : Route) :
    Hands (fun rt : RouteRef => rt.engines.toList) (Allocating.compileRoute fs cfg d ri rt) :=
  .lift_bind fun _ => .lift_bind fun _ => (compilePolicy_hands fs _ _).into fun _ _ => Iff.rfl

theorem compileRoutes_hands (md : MergedDomain) (routes : List Route) (ri : Nat) :
    Hands (fun rts : List RouteRef => rts.flatMap fun rt => rt.engines.toList)
      (Allocating.compileRoutes fs cfg md ri routes) := by
  induction routes generalizing ri with
  | nil => exact .pure rfl
  | cons rt rest ih =>
    refine ((compileRoute_hands fs cfg md.domain ri rt).mapError _).both (ih (ri + 1)) ?_
    intro route routes p
    rw [List.flatMap_cons, List.mem_append]

theorem compileDomain_hands (md : MergedDomain) :
    Hands DomainRef.refs (Allocating.compileDomain fs cfg md) := by
  refine .lift_bind fun hosts => ?_
  refine ((compilePolicy_hands fs _ _).mapError _).both
    (compileRoutes_hands fs cfg md md.domain.routes 0) fun policy routes p => ?_
  rw [DomainRef.refs, List.mem_append]
  refine or_congr Iff.rfl ?_
  exact ((List.perm_insertionSort _ routes).flatMap_right _).mem_iff

omit [Heap] [Constructors] in
/-- A domain with a host gets into the index. -/
theorem mem_addDomain_domains (r : ResolverRef) {d : Domain} (cd : DomainRef)
    (hhosts : d.hosts ≠ []) (cd' : DomainRef) :
    cd' ∈ (r.addDomain d cd).domains ↔ cd' ∈ r.domains ∨ cd' = cd := by
  obtain ⟨host, hhost⟩ := List.exists_mem_of_ne_nil _ hhosts
  have hkeyed : cd' ∈ (d.hosts.map fun h => (normalizeHost h, cd)).map Prod.snd ↔ cd' = cd := by
    simp only [List.map_map, List.mem_map, Function.comp_apply]
    constructor
    · rintro ⟨_, _, rfl⟩
      rfl
    · rintro rfl
      exact ⟨host, hhost, rfl⟩
  unfold ResolverRef.addDomain
  split
  next =>
    simp only [ResolverRef.domains, List.map_append, List.mem_append, hkeyed]
    exact or_right_comm
  next => simp only [ResolverRef.domains, List.mem_append, List.mem_singleton, or_assoc]

theorem compileDomains_holds (mds : List MergedDomain) (hhosts : ∀ md ∈ mds, md.domain.hosts ≠ [])
    (r : ResolverRef) (a : Alloc) (h : Holds r.refs a) :
    Attempt.Ends (fun r => Holds r.refs) (fun _ _ => True)
      (Allocating.compileDomains fs cfg mds r a) := by
  induction mds generalizing r a with
  | nil => exact h
  | cons md rest ih =>
    refine Attempt.Ends.bind (compileDomain_hands fs cfg md _ a h) fun cd t ht => ?_
    refine ih (fun md hmd => hhosts md (List.mem_cons_of_mem _ hmd)) _ t (ht.congr fun p => ?_)
    have hadded := mem_addDomain_domains r cd (hhosts md List.mem_cons_self)
    simp only [ResolverRef.refs, List.mem_append, List.mem_flatMap, hadded, or_and_right,
      exists_or, exists_eq_left]

theorem compile_holds (hhosts : ∀ md ∈ cfg.domains, md.domain.hosts ≠ []) :
    Attempt.Ends (fun r => Holds r.refs) (fun _ _ => True) (Allocating.compile fs cfg {}) := by
  refine compileDomains_holds fs cfg cfg.domains hhosts _ {} ⟨rfl, rfl, ?_, fun p => Iff.rfl⟩
  intro ptr p hp
  cases hp

end

end ElchiShield.Policy
