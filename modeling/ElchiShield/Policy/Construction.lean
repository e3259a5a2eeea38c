import ElchiShield.Lib.Attempt
import ElchiShield.Policy.Resolver

/-! # The engines a compilation constructs

`Compile` once more, with what it leaves behind: the engines whose constructors have returned
stay open until someone closes them, also when a later step fails. -/
namespace ElchiShield.Policy
open ElchiShield.Go ElchiShield.Lib ElchiShield.Config ElchiShield.Engine ElchiShield.Matcher

/-- The engine cache, the engines constructed so far, and which of them were closed, by their
position. -/
structure Build where
  byPtr : EngineCache := []
  constructed : List SecurityEngine := []
  closed : List Nat := []

abbrev Building (ε α : Type) := Attempt Build ε α

namespace Building

/-- A block of `buildEngines`, whose constructor has this outcome. -/
def construct : Except Err (List SecurityEngine) → Building Err (List SecurityEngine)
  | .ok engines => fun b => (.ok engines, { b with constructed := b.constructed ++ engines })
  | .error e => Attempt.lift (.error e)

section
variable [Unicode] [Constructors]

def buildEngines (fs : FileSystem) (spec : EnginesSpec) : Building Err (Option EngineSet) := do
  let engines ← Attempt.each construct (engineBuilders fs spec)
  return if engines.flatten.isEmpty then none else some ⟨engines.flatten⟩

end

variable [Library] [Heap] [Constructors]

/-- `engineCache.get`. -/
def get (fs : FileSystem) (spec : Option EnginesPtr) : Building Err (Option EngineSet) :=
  match spec with
  | none => pure none
  | some ptr => fun b => match b.byPtr.lookup ptr with
    | some set => (.ok set, b)
    | none => (do
        let set ← buildEngines fs (Heap.engines ptr)
        Attempt.update fun b => { b with byPtr := (ptr, set) :: b.byPtr }
        return set : Building Err (Option EngineSet)) b

def compilePolicy (fs : FileSystem) (id : Bytes) (resolved : ResolvedPolicy) :
    Building Err CompiledPolicy := do
  let engines ← get fs resolved.engines
  return { fromResolved id resolved with engines }

def compileRoute (fs : FileSystem) (cfg : MergedConfig) (d : Domain) (ri : Nat) (rt : Route) :
    Building Err CompiledRoute := do
  let path ← Attempt.lift (compilePath rt.match.pathExact rt.match.pathPrefix rt.match.pathRegex)
  let headers ← Attempt.lift (compileHeaders rt.match.headers)
  let policy ← compilePolicy fs (routeID d ri) (routeResolved cfg d rt)
  return ⟨path, compileMethods rt.match.methods, compileContentTypes rt.match.contentType,
    headers, policy⟩

def compileRoutes (fs : FileSystem) (cfg : MergedConfig) (md : MergedDomain) :
    Nat → List Route → Building CompileError (List CompiledRoute)
  | _, [] => pure []
  | ri, rt :: rest => do
    let route ← (compileRoute fs cfg md.domain ri rt).mapError fun e =>
      ⟨md.source, domainID md.domain, some ri, e⟩
    let routes ← compileRoutes fs cfg md (ri + 1) rest
    return route :: routes

def compileDomain (fs : FileSystem) (cfg : MergedConfig) (md : MergedDomain) :
    Building CompileError CompiledDomain := do
  let hosts ← Attempt.lift (compileHosts md.source md.domain.hosts)
  let policy ← (compilePolicy fs (domainID md.domain) (domainResolved cfg md.domain)).mapError
    fun e => ⟨md.source, domainID md.domain, none, e⟩
  let routes ← compileRoutes fs cfg md 0 md.domain.routes
  return ⟨hosts, sortRoutes routes, policy⟩

def compileDomains (fs : FileSystem) (cfg : MergedConfig) :
    List MergedDomain → Resolver → Building CompileError Resolver
  | [], r => pure r
  | md :: rest, r => do
    let cd ← compileDomain fs cfg md
    compileDomains fs cfg rest (r.addDomain md.domain cd)

def compile (fs : FileSystem) (cfg : MergedConfig) : Building CompileError Resolver :=
  compileDomains fs cfg cfg.domains { excludes := cfg.excludes.map normalizePath }

end Building

/-! ## The result is that of `Compile` -/

/-- The attempt returns what the plain function returns, and keeps its cache. -/
def Erases {ε α : Type} (m : Building ε α) (plain : EngineCache → Except ε (α × EngineCache)) :
    Prop :=
  ∀ b, Attempt.Ends (fun a b' => plain b.byPtr = .ok (a, b'.byPtr))
    (fun e _ => plain b.byPtr = .error e) (m b)

/-- A result that comes with the cache it was given. -/
def keeping {ε α : Type} (r : Except ε α) (ec : EngineCache) : Except ε (α × EngineCache) :=
  r.map (·, ec)

theorem keeping_eq_ok {ε α : Type} {r : Except ε α} {ec ec' : EngineCache} {a : α} :
    keeping r ec = .ok (a, ec') ↔ r = .ok a ∧ ec = ec' := by
  cases r with
  | error e => simp [keeping, Except.map]
  | ok a' => simp [keeping, Except.map]

theorem keeping_eq_error {ε α : Type} {r : Except ε α} {ec : EngineCache} {e : ε} :
    keeping r ec = .error e ↔ r = .error e := by
  cases r with
  | error e' => simp [keeping, Except.map]
  | ok a => simp [keeping, Except.map]

section
variable {ε ε' α β : Type} {m : Building ε α} {f : α → Building ε β}

/-- Attempts in sequence, as the plain functions do it with a match. -/
theorem Erases.bind {P : EngineCache → Except ε (α × EngineCache)}
    {Q : α → EngineCache → Except ε (β × EngineCache)}
    {R : EngineCache → Except ε (β × EngineCache)} (hm : Erases m P) (hf : ∀ a, Erases (f a) (Q a))
    (hok : ∀ ec a ec', P ec = .ok (a, ec') → R ec = Q a ec')
    (herror : ∀ ec e, P ec = .error e → R ec = .error e) : Erases (m >>= f) R := by
  intro b
  refine Attempt.Ends.bind ((hm b).imp (fun _ _ => id) fun e _ h => herror _ e h) ?_
  intro a t ht
  refine (hf a t).imp (fun c u hc => ?_) fun e u he => ?_
  · rw [hok _ _ _ ht, hc]
  · rw [hok _ _ _ ht, he]

theorem Erases.map {P : EngineCache → Except ε (α × EngineCache)} {g : α → β}
    {R : EngineCache → Except ε (β × EngineCache)} (hm : Erases m P)
    (hok : ∀ ec a ec', P ec = .ok (a, ec') → R ec = .ok (g a, ec'))
    (herror : ∀ ec e, P ec = .error e → R ec = .error e) :
    Erases (m >>= fun a => pure (g a)) R :=
  hm.bind (Q := fun a ec => .ok (g a, ec)) (fun _ _ => rfl) hok herror

end

section
variable [Library] [Heap] [Constructors] (fs : FileSystem) (cfg : MergedConfig)

omit [Library] [Heap] [Constructors] in
theorem each_construct_erases (rs : List (Except Err (List SecurityEngine))) :
    Erases (Attempt.each Building.construct rs) (keeping (rs.mapM id)) := by
  induction rs with
  | nil => exact fun b => rfl
  | cons r rs ih =>
    have hr : Erases (Building.construct r) (keeping r) := by
      cases r with
      | error e => exact fun b => rfl
      | ok es => exact fun b => rfl
    refine hr.bind (Q := fun a => keeping ((rs.mapM id).map (a :: ·))) (fun a => ih.map ?_ ?_) ?_ ?_
    · intro ec as ec' h
      obtain ⟨has, rfl⟩ := keeping_eq_ok.mp h
      exact keeping_eq_ok.mpr ⟨by rw [has]; rfl, rfl⟩
    · intro ec e h
      exact keeping_eq_error.mpr (by rw [keeping_eq_error.mp h]; rfl)
    · intro ec es ec' h
      obtain ⟨rfl, rfl⟩ := keeping_eq_ok.mp h
      rw [List.mapM_cons]
      rfl
    · intro ec e h
      rw [List.mapM_cons, keeping_eq_error.mp h]
      rfl

omit [Heap] in
theorem buildEngines_erases (spec : EnginesSpec) :
    Erases (Building.buildEngines fs spec) (keeping (buildEngines fs spec)) := by
  refine (each_construct_erases (engineBuilders fs spec)).map ?_ ?_
  · intro ec engines ec' h
    obtain ⟨hbuilt, rfl⟩ := keeping_eq_ok.mp h
    exact keeping_eq_ok.mpr ⟨by rw [buildEngines, hbuilt]; rfl, rfl⟩
  · intro ec e h
    exact keeping_eq_error.mpr (by rw [buildEngines, keeping_eq_error.mp h]; rfl)

theorem get_erases (spec : Option EnginesPtr) :
    Erases (Building.get fs spec) fun ec => EngineCache.get fs ec spec := by
  cases spec with
  | none => exact fun b => rfl
  | some ptr =>
    intro b
    unfold Building.get EngineCache.get
    dsimp only
    cases hl : b.byPtr.lookup ptr with
    | some set => exact rfl
    | none =>
      refine Attempt.Ends.bind ((buildEngines_erases fs (Heap.engines ptr) b).imp (fun _ _ => id) ?_) ?_
      · intro e _ he
        dsimp only
        rw [keeping_eq_error.mp he]
      · intro set t ht
        obtain ⟨hset, hptr⟩ := keeping_eq_ok.mp ht
        rw [hset, hptr]
        rfl

theorem compilePolicy_erases (id : Bytes) (resolved : ResolvedPolicy) :
    Erases (Building.compilePolicy fs id resolved) (compilePolicy fs id resolved) := by
  refine (get_erases fs resolved.engines).map ?_ ?_
  · intro ec set ec' h
    simp only [compilePolicy, h]
  · intro ec e h
    simp only [compilePolicy, h]

theorem compileRoute_erases (d : Domain) (ri : Nat) (rt : Route) :
    Erases (Building.compileRoute fs cfg d ri rt) (compileRoute fs cfg d ri rt) := by
  unfold Building.compileRoute
  have hrest : ∀ path headers, Erases (do
      let policy ← Building.compilePolicy fs (routeID d ri) (routeResolved cfg d rt)
      return (⟨path, compileMethods rt.match.methods, compileContentTypes rt.match.contentType,
        headers, policy⟩ : CompiledRoute)) fun ec => do
      let r ← compilePolicy fs (routeID d ri) (routeResolved cfg d rt) ec
      return (⟨path, compileMethods rt.match.methods, compileContentTypes rt.match.contentType,
        headers, r.1⟩, r.2) := by
    intro path headers
    refine (compilePolicy_erases fs _ _).map ?_ ?_
    · intro ec policy ec' h
      rw [h]
      rfl
    · intro ec e h
      rw [h]
      rfl
  intro b
  unfold compileRoute
  cases compilePath rt.match.pathExact rt.match.pathPrefix rt.match.pathRegex with
  | error e => exact rfl
  | ok path =>
    cases compileHeaders rt.match.headers with
    | error e => exact rfl
    | ok headers => exact hrest path headers b

theorem compileRoutes_erases (md : MergedDomain) (routes : List Route) (ri : Nat) :
    Erases (Building.compileRoutes fs cfg md ri routes) (compileRoutes fs cfg md ri routes) := by
  induction routes generalizing ri with
  | nil => exact fun b => rfl
  | cons rt rest ih =>
    intro b
    unfold Building.compileRoutes
    have hroute := compileRoute_erases fs cfg md.domain ri rt b
    refine Attempt.Ends.bind (hroute.mapError ?_) ?_
    · intro e _ he
      simp only [compileRoutes, he]
    · intro route t ht
      refine Attempt.Ends.bind ((ih (ri + 1) t).imp (fun _ _ => id) ?_) ?_
      · intro e _ he
        simp only [compileRoutes, ht, he]
      · intro routes u hu
        show compileRoutes fs cfg md ri (rt :: rest) b.byPtr = .ok (route :: routes, u.byPtr)
        simp only [compileRoutes, ht, hu]

theorem compileDomain_erases (md : MergedDomain) :
    Erases (Building.compileDomain fs cfg md) (compileDomain fs cfg md) := by
  intro b
  unfold Building.compileDomain
  cases hhosts : compileHosts md.source md.domain.hosts with
  | error e =>
    rw [Attempt.lift_error_bind]
    show compileDomain fs cfg md b.byPtr = .error e
    simp only [compileDomain, hhosts]
  | ok hosts =>
    rw [Attempt.lift_ok_bind]
    have hpolicy := compilePolicy_erases fs (domainID md.domain) (domainResolved cfg md.domain) b
    refine Attempt.Ends.bind (hpolicy.mapError ?_) ?_
    · intro e _ he
      simp only [compileDomain, hhosts, he]
    · intro policy t ht
      refine Attempt.Ends.bind ((compileRoutes_erases fs cfg md md.domain.routes 0 t).imp
        (fun _ _ => id) ?_) ?_
      · intro e _ he
        simp only [compileDomain, hhosts, ht, he]
      · intro routes u hu
        show compileDomain fs cfg md b.byPtr = .ok (⟨hosts, sortRoutes routes, policy⟩, u.byPtr)
        simp only [compileDomain, hhosts, ht, hu]

theorem compileDomains_erases (mds : List MergedDomain) (r : Resolver) (b : Build) :
    Attempt.Ends (fun r' _ => compileDomains fs cfg mds r b.byPtr = .ok r')
      (fun e _ => compileDomains fs cfg mds r b.byPtr = .error e)
      (Building.compileDomains fs cfg mds r b) := by
  induction mds generalizing r b with
  | nil => exact rfl
  | cons md rest ih =>
    unfold Building.compileDomains
    refine Attempt.Ends.bind ((compileDomain_erases fs cfg md b).imp (fun _ _ => id) ?_) ?_
    · intro e _ he
      simp only [compileDomains, he]
    · intro cd t ht
      simp only [compileDomains, ht]
      exact ih (r.addDomain md.domain cd) t

end

/-! ## The steps of a compilation -/

/-- A step that passes with the engines it constructs, or one that fails. -/
abbrev Step := Option (List SecurityEngine)

/-- The engines of the steps before the first that fails. -/
def built : List Step → List SecurityEngine
  | [] => []
  | none :: _ => []
  | some engines :: rest => engines ++ built rest

/-- No step constructs an engine before one fails. -/
def FailsFirst (steps : List Step) : Prop :=
  ∀ before engines after, steps = before ++ some engines :: after → engines ≠ [] → none ∈ before

theorem built_append_of_passing {xs : List Step} (h : none ∉ xs) (ys : List Step) :
    built (xs ++ ys) = built xs ++ built ys := by
  induction xs with
  | nil => rfl
  | cons x xs ih =>
    rw [List.mem_cons, not_or] at h
    cases x with
    | none => exact absurd rfl h.1
    | some engines => simp [built, ih h.2]

theorem built_append_of_failing {xs : List Step} (h : none ∈ xs) (ys : List Step) :
    built (xs ++ ys) = built xs := by
  induction xs with
  | nil => cases h
  | cons x xs ih =>
    cases x with
    | none => rfl
    | some engines =>
      have hxs : none ∈ xs := by simpa using h
      simp [built, ih hxs]

theorem built_eq_nil_iff (steps : List Step) : built steps = [] ↔ FailsFirst steps := by
  constructor
  · intro h before engines after hsteps hne
    by_contra hpass
    rw [hsteps, built_append_of_passing hpass, List.append_eq_nil_iff] at h
    exact hne (List.append_eq_nil_iff.mp h.2).1
  · intro h
    induction steps with
    | nil => rfl
    | cons s steps ih =>
      cases s with
      | none => rfl
      | some engines =>
        have hnil : engines = [] := by
          by_contra hne
          exact absurd (h [] engines steps rfl hne) List.not_mem_nil
        subst hnil
        refine ih fun before engines after hsteps hne => ?_
        have hmem := h (some [] :: before) engines after (by rw [hsteps]; rfl) hne
        simpa using hmem

/-- The step of a matcher that compiles or does not. -/
def matcherStep {ε α : Type} (r : Except ε α) : Step := r.toOption.map fun _ => []

theorem matcherStep_cases {ε α : Type} (r : Except ε α) :
    matcherStep r = none ∨ matcherStep r = some [] := by
  cases r with
  | error e => exact .inl rfl
  | ok a => exact .inr rfl

section
variable [Library] [Heap] [Constructors]

/-- The steps in the order `Compile` goes through them. -/
def enginesPlan (fs : FileSystem) : Option EnginesPtr → List Step
  | none => []
  | some ptr => (engineBuilders fs (Heap.engines ptr)).map Except.toOption

def routePlan (fs : FileSystem) (cfg : MergedConfig) (d : Domain) (rt : Route) : List Step :=
  [matcherStep (compilePath rt.match.pathExact rt.match.pathPrefix rt.match.pathRegex),
    matcherStep (compileHeaders rt.match.headers)] ++
    enginesPlan fs (routeResolved cfg d rt).engines

def domainPlan (fs : FileSystem) (cfg : MergedConfig) (d : Domain) : List Step :=
  d.hosts.map (fun h => matcherStep (compileHost h)) ++
    enginesPlan fs (domainResolved cfg d).engines ++ d.routes.flatMap (routePlan fs cfg d)

def plan (fs : FileSystem) (cfg : MergedConfig) : List Step :=
  cfg.domains.flatMap fun md => domainPlan fs cfg md.domain

/-- Every step so far has passed. The cached engines are among those of the steps. -/
structure Passed (fs : FileSystem) (done : List Step) (b : Build) : Prop where
  passing : none ∉ done
  closed : b.closed = []
  constructed : b.constructed = [] ↔ built done = []
  cached : ∀ ptr set, b.byPtr.lookup ptr = some set →
    none ∉ enginesPlan fs (some ptr) ∧ (built done = [] → built (enginesPlan fs (some ptr)) = [])

/-- A step has failed. -/
structure Failed (steps : List Step) (b : Build) : Prop where
  failing : none ∈ steps
  closed : b.closed = []
  constructed : b.constructed = [] ↔ built steps = []

/-- The attempt goes through the steps, up to the first that fails. -/
def Performs (fs : FileSystem) {ε α : Type} (m : Building ε α) (steps : List Step) : Prop :=
  ∀ done b, Passed fs done b →
    Attempt.Ends (fun _ => Passed fs (done ++ steps)) (fun _ => Failed (done ++ steps)) (m b)

section
variable {fs : FileSystem} {ε ε' α β : Type} {m : Building ε α} {steps : List Step}

omit [Library] [Heap] [Constructors] in
theorem Failed.append {b : Build} (h : Failed steps b) (rest : List Step) :
    Failed (steps ++ rest) b :=
  ⟨List.mem_append_left _ h.failing, h.closed,
    by rw [built_append_of_failing h.failing]; exact h.constructed⟩

theorem Performs.pure (a : α) : Performs fs (Pure.pure a : Building ε α) [] := by
  intro done b hb
  rw [List.append_nil]
  exact hb

theorem Performs.bind {f : α → Building ε β} {rest : List Step} (hm : Performs fs m steps)
    (hf : ∀ a, Performs fs (f a) rest) : Performs fs (m >>= f) (steps ++ rest) := by
  intro done b hb
  rw [← List.append_assoc]
  refine Attempt.Ends.bind ((hm done b hb).imp (fun _ _ => id) fun _ _ h => h.append rest) ?_
  intro a t ht
  exact hf a _ t ht

theorem Performs.return (hm : Performs fs m steps) (g : α → β) :
    Performs fs (m >>= fun a => Pure.pure (g a)) steps := by
  have h : Performs fs (m >>= fun a => Pure.pure (g a)) (steps ++ []) :=
    hm.bind fun a => .pure (g a)
  rwa [List.append_nil] at h

theorem Performs.mapError (hm : Performs fs m steps) (g : ε → ε') :
    Performs fs (m.mapError g) steps := by
  intro done b hb
  exact (hm done b hb).mapError fun _ _ h => h

/-- A result that constructs nothing, from steps that fail if it does. -/
theorem Performs.lift {r : Except ε α} (hsome : ∀ s ∈ steps, s = none ∨ s = some [])
    (hr : none ∈ steps ↔ ∃ e, r = .error e) : Performs fs (Attempt.lift r) steps := by
  intro done b hb
  have hnone : built steps = [] := by
    clear hr hb
    induction steps with
    | nil => rfl
    | cons s steps ih =>
      obtain ⟨hs, hrest⟩ := List.forall_mem_cons.mp hsome
      rcases hs with rfl | rfl
      · rfl
      · exact ih hrest
  have hbuilt : built (done ++ steps) = built done := by
    rw [built_append_of_passing hb.passing, hnone, List.append_nil]
  cases r with
  | error e =>
    refine ⟨List.mem_append_right _ (hr.mpr ⟨e, rfl⟩), hb.closed, ?_⟩
    rw [hbuilt]
    exact hb.constructed
  | ok a =>
    have hpass : none ∉ steps := fun h => by
      obtain ⟨e, he⟩ := hr.mp h
      cases he
    refine ⟨?_, hb.closed, ?_, ?_⟩
    · rw [List.mem_append, not_or]
      exact ⟨hb.passing, hpass⟩
    · rw [hbuilt]
      exact hb.constructed
    · rw [hbuilt]
      exact hb.cached

theorem Performs.matcher (r : Except ε α) : Performs fs (Attempt.lift r) [matcherStep r] := by
  refine .lift ?_ ?_
  · intro s hs
    rw [List.mem_singleton.mp hs]
    exact matcherStep_cases r
  · cases r <;> simp [matcherStep, Except.toOption]

end

section
variable {fs : FileSystem}

theorem construct_performs (r : Except Err (List SecurityEngine)) :
    Performs fs (Building.construct r) [r.toOption] := by
  intro done b hb
  cases r with
  | error e =>
    refine ⟨List.mem_append_right _ List.mem_cons_self, hb.closed, ?_⟩
    rw [built_append_of_passing hb.passing]
    show _ ↔ built done ++ [] = []
    rw [List.append_nil]
    exact hb.constructed
  | ok engines =>
    have hbuilt : built (done ++ [some engines]) = built done ++ engines := by
      rw [built_append_of_passing hb.passing]
      simp [built]
    refine ⟨?_, hb.closed, ?_, ?_⟩
    · rw [List.mem_append, not_or]
      exact ⟨hb.passing, by simp [Except.toOption]⟩
    · show b.constructed ++ engines = [] ↔ built (done ++ [some engines]) = []
      rw [hbuilt, List.append_eq_nil_iff, List.append_eq_nil_iff, hb.constructed]
    · intro ptr set hset
      obtain ⟨hpass, hnone⟩ := hb.cached ptr set hset
      refine ⟨hpass, fun h => hnone ?_⟩
      have h' : built (done ++ [some engines]) = [] := h
      rw [hbuilt, List.append_eq_nil_iff] at h'
      exact h'.1

theorem each_construct_performs (rs : List (Except Err (List SecurityEngine))) :
    Performs fs (Attempt.each Building.construct rs) (rs.map Except.toOption) := by
  induction rs with
  | nil => exact .pure []
  | cons r rs ih =>
    refine (construct_performs r).bind fun a => ?_
    exact ih.return fun as => a :: as

/-- What is cached adds no step that fails, and no engines unless there are some already. -/
theorem Passed.cached_again {done : List Step} {b : Build} {ptr : EnginesPtr}
    {set : Option EngineSet} (hb : Passed fs done b) (hset : b.byPtr.lookup ptr = some set) :
    Passed fs (done ++ enginesPlan fs (some ptr)) b := by
  obtain ⟨hpass, hnone⟩ := hb.cached ptr set hset
  have hbuilt : built (done ++ enginesPlan fs (some ptr)) = [] ↔ built done = [] := by
    rw [built_append_of_passing hb.passing, List.append_eq_nil_iff]
    exact ⟨And.left, fun h => ⟨h, hnone h⟩⟩
  refine ⟨?_, hb.closed, hb.constructed.trans hbuilt.symm, ?_⟩
  · rw [List.mem_append, not_or]
    exact ⟨hb.passing, hpass⟩
  · rw [hbuilt]
    exact hb.cached

theorem Passed.remember {done : List Step} {b : Build} {ptr : EnginesPtr}
    (hb : Passed fs (done ++ enginesPlan fs (some ptr)) b) (set : Option EngineSet) :
    Passed fs (done ++ enginesPlan fs (some ptr))
      { b with byPtr := (ptr, set) :: b.byPtr } := by
  refine ⟨hb.passing, hb.closed, hb.constructed, ?_⟩
  intro ptr' set' hset
  by_cases hptr : ptr' = ptr
  · subst hptr
    have hpass := hb.passing
    rw [List.mem_append, not_or] at hpass
    refine ⟨hpass.2, fun h => ?_⟩
    rw [built_append_of_passing hpass.1, List.append_eq_nil_iff] at h
    exact h.2
  · refine hb.cached ptr' set' ?_
    have hne : (ptr' == ptr) = false := by simpa using hptr
    simpa [List.lookup_cons, hne] using hset

theorem get_performs (spec : Option EnginesPtr) :
    Performs fs (Building.get fs spec) (enginesPlan fs spec) := by
  cases spec with
  | none => exact .pure none
  | some ptr =>
    intro done b hb
    unfold Building.get
    dsimp only
    cases hl : b.byPtr.lookup ptr with
    | some set => exact hb.cached_again hl
    | none =>
      have hbuild : Performs fs (Building.buildEngines fs (Heap.engines ptr))
          (enginesPlan fs (some ptr)) :=
        (each_construct_performs (engineBuilders fs (Heap.engines ptr))).return _
      refine Attempt.Ends.bind (hbuild done b hb) ?_
      intro set t ht
      exact ht.remember set

theorem compilePolicy_performs (id : Bytes) (resolved : ResolvedPolicy) :
    Performs fs (Building.compilePolicy fs id resolved) (enginesPlan fs resolved.engines) :=
  (get_performs resolved.engines).return _

theorem compileRoute_performs (cfg : MergedConfig) (d : Domain) (ri : Nat) (rt : Route) :
    Performs fs (Building.compileRoute fs cfg d ri rt) (routePlan fs cfg d rt) := by
  unfold routePlan
  rw [List.cons_append, List.singleton_append, ← List.singleton_append]
  refine (Performs.matcher _).bind fun path => ?_
  rw [← List.singleton_append]
  refine (Performs.matcher _).bind fun headers => ?_
  exact (compilePolicy_performs (routeID d ri) (routeResolved cfg d rt)).return _

theorem compileRoutes_performs (cfg : MergedConfig) (md : MergedDomain) (routes : List Route)
    (ri : Nat) : Performs fs (Building.compileRoutes fs cfg md ri routes)
      (routes.flatMap (routePlan fs cfg md.domain)) := by
  induction routes generalizing ri with
  | nil => exact .pure []
  | cons rt rest ih =>
    rw [List.flatMap_cons]
    refine ((compileRoute_performs cfg md.domain ri rt).mapError _).bind fun route => ?_
    exact (ih (ri + 1)).return (route :: ·)

omit [Heap] [Constructors] in
theorem compileHosts_fails_iff (source : Bytes) (hosts : List Bytes) :
    none ∈ hosts.map (fun h => matcherStep (compileHost h)) ↔
      ∃ e, compileHosts source hosts = .error e := by
  induction hosts with
  | nil => simp [compileHosts]
  | cons h rest ih =>
    rw [List.map_cons, List.mem_cons, ih]
    cases hh : compileHost h with
    | error e => simp [compileHosts, hh, matcherStep, Except.toOption]
    | ok host =>
      cases hrest : compileHosts source rest with
      | error e => simp [compileHosts, hh, hrest, matcherStep, Except.toOption]
      | ok hosts => simp [compileHosts, hh, hrest, matcherStep, Except.toOption]

theorem compileHosts_performs (source : Bytes) (hosts : List Bytes) :
    Performs fs (Attempt.lift (compileHosts source hosts))
      (hosts.map fun h => matcherStep (compileHost h)) := by
  refine .lift ?_ (compileHosts_fails_iff source hosts)
  intro s hs
  obtain ⟨h, -, rfl⟩ := List.mem_map.mp hs
  exact matcherStep_cases (compileHost h)

theorem compileDomain_performs (cfg : MergedConfig) (md : MergedDomain) :
    Performs fs (Building.compileDomain fs cfg md) (domainPlan fs cfg md.domain) := by
  unfold domainPlan
  rw [List.append_assoc]
  refine (compileHosts_performs md.source md.domain.hosts).bind fun hosts => ?_
  refine ((compilePolicy_performs _ _).mapError _).bind fun policy => ?_
  exact (compileRoutes_performs cfg md md.domain.routes 0).return _

theorem compileDomains_performs (cfg : MergedConfig) (mds : List MergedDomain) (r : Resolver) :
    Performs fs (Building.compileDomains fs cfg mds r)
      (mds.flatMap fun md => domainPlan fs cfg md.domain) := by
  induction mds generalizing r with
  | nil => exact .pure r
  | cons md rest ih =>
    rw [List.flatMap_cons]
    exact (compileDomain_performs cfg md).bind fun cd => ih (r.addDomain md.domain cd)

/-- A compilation returns what `Compile` returns, and goes through its plan. -/
theorem compile_ends (fs : FileSystem) (cfg : MergedConfig) :
    Attempt.Ends (fun r _ => compile fs cfg = .ok r)
      (fun e b => compile fs cfg = .error e ∧ Failed (plan fs cfg) b)
      (Building.compile fs cfg {}) := by
  have hstart : Passed fs [] {} := by
    refine ⟨List.not_mem_nil, rfl, Iff.rfl, ?_⟩
    intro ptr set hset
    cases hset
  have hresult := compileDomains_erases fs cfg cfg.domains
    { excludes := cfg.excludes.map normalizePath } {}
  have hperforms := compileDomains_performs cfg cfg.domains
    { excludes := cfg.excludes.map normalizePath } [] {} hstart
  exact (hresult.and hperforms).imp (fun _ _ h => h.1) fun _ _ h => h

end

end

end ElchiShield.Policy
