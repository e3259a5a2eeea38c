import ElchiShield.Config.Signatures
import ElchiShield.Policy.Precedence

/-! # Duplicate routes

Routes of a domain with equal signatures are reported as duplicates. What the matchers compiled
from two such routes accept is compared here. -/
namespace ElchiShield.Policy
open ElchiShield.Go ElchiShield.Config ElchiShield.Lib ElchiShield.Matcher

section
variable [Library]

/-- The matchers of a route, as `compileRoute` builds them and `matches` asks them. -/
def compileMatch (m : Config.Match) : Except Err (Input → Bool) := do
  let path ← compilePath m.pathExact m.pathPrefix m.pathRegex
  let headers ← compileHeaders m.headers
  return fun inp => path.match inp.path && (compileMethods m.methods).match inp.method &&
    (compileContentTypes m.contentType).match inp.contentType && matchAll headers inp.headers

theorem compileMatch_of_routeAlone [Heap] [Constructors] {fs : FileSystem} {cfg : MergedConfig}
    {d : Domain} {ri : Nat} {rt : Route} {cr : CompiledRoute}
    (h : routeAlone fs cfg d ri rt = .ok cr) : compileMatch rt.match = .ok cr.matches := by
  unfold routeAlone at h
  obtain ⟨path, hpath, h⟩ := bind_eq_ok h
  obtain ⟨headers, hheaders, h⟩ := bind_eq_ok h
  obtain ⟨policy, -, h⟩ := bind_eq_ok h
  obtain rfl := Except.ok.inj h
  rw [compileMatch, hpath, hheaders]
  rfl

/-! ## Matches that pass validation compile -/

theorem compilePath_valid {m : Config.Match} (v : ValidMatch m) :
    ∃ path, compilePath m.pathExact m.pathPrefix m.pathRegex = .ok path := by
  unfold compilePath
  split
  next => exact ⟨_, rfl⟩
  next =>
    split
    next hregex =>
      obtain ⟨re, hre⟩ := v.pathRegex hregex
      exact ⟨.regex re, by rw [hre]⟩
    next => split <;> exact ⟨_, rfl⟩

theorem compileHeader_valid {hm : HeaderMatch}
    (h : hm.regex ≠ [] → ∃ re, Library.regexp hm.regex = .ok re) :
    ∃ c, compileHeader hm = .ok c := by
  unfold compileHeader
  split
  next => exact ⟨_, rfl⟩
  next =>
    split
    next => exact ⟨_, rfl⟩
    next =>
      split
      next hregex =>
        obtain ⟨re, hre⟩ := h hregex
        exact ⟨⟨hm.name, .regex re⟩, by rw [hre]⟩
      next => exact ⟨_, rfl⟩

theorem compileHeaders_valid {hms : List HeaderMatch}
    (h : ∀ hm ∈ hms, hm.regex ≠ [] → ∃ re, Library.regexp hm.regex = .ok re) :
    ∃ cs, compileHeaders hms = .ok cs := by
  induction hms with
  | nil => exact ⟨[], rfl⟩
  | cons hm hms ih =>
    obtain ⟨hfirst, hrest⟩ := List.forall_mem_cons.mp h
    obtain ⟨c, hc⟩ := compileHeader_valid hfirst
    obtain ⟨cs, hcs⟩ := ih hrest
    refine ⟨c :: cs, ?_⟩
    rw [compileHeaders, List.mapM_cons, hc, show hms.mapM compileHeader = _ from hcs]
    rfl

theorem compileMatch_valid {m : Config.Match} (v : ValidMatch m) :
    ∃ f, compileMatch m = .ok f ∧ ∀ inp, f inp = accepts m inp := by
  obtain ⟨path, hpath⟩ := compilePath_valid v
  obtain ⟨headers, hheaders⟩ := compileHeaders_valid v.headerRegex
  refine ⟨_, by rw [compileMatch, hpath, hheaders]; rfl, fun inp => ?_⟩
  simp only [accepts, (compilePath_ok hpath).2, compileHeaders_ok _ hheaders]

/-! ## The same match accepts the same requests -/

theorem header_eq_of_fold {n₁ n₂ : Bytes} (h : equalFold n₁ n₂ = true) (src : List Engine.Header) :
    Engine.header src n₁ = Engine.header src n₂ := by
  have hfold : (runes n₁).map Unicode.fold = (runes n₂).map Unicode.fold := by
    simpa [equalFold] using h
  simp only [Engine.header, equalFold, hfold]

/-- What a form asks of the value of its header. -/
def formAccepts (f : HeaderForm) (v : Option Bytes) : Bool :=
  match f with
  | .exact value => v == some value
  | .contains value => v.any fun v => containsSub v value
  | .regex value => match Library.regexp value with
    | .ok re => v.any re
    | .error _ => false
  | .presence wanted => v.isSome == wanted.getD true

theorem acceptsHeader_eq (hm : HeaderMatch) (src : List Engine.Header) :
    acceptsHeader hm src = formAccepts hm.form (Engine.header src hm.name) := by
  unfold acceptsHeader HeaderMatch.form
  split
  next => rfl
  next =>
    split
    next => rfl
    next => split <;> rfl

theorem acceptsHeader_same {h₁ h₂ : HeaderMatch} (h : SameHeader h₁ h₂)
    (src : List Engine.Header) : acceptsHeader h₁ src = acceptsHeader h₂ src := by
  rw [acceptsHeader_eq, acceptsHeader_eq, header_eq_of_fold h.1, h.2]

omit [Library] in
theorem eq_nil_iff_of_mem {xs ys : List Bytes} (h : ∀ x, x ∈ xs ↔ x ∈ ys) : xs = [] ↔ ys = [] := by
  simp only [List.eq_nil_iff_forall_not_mem, h]

theorem methods_match_iff (m : Methods) (method : Bytes) : m.match method = true ↔
    (m.set = [] ∨ method ∈ m.set) ∨ toUpper method ∈ m.set := by
  simp [Methods.match]

theorem accepts_same {m₁ m₂ : Config.Match} (h : Same m₁ m₂) (inp : Input) :
    accepts m₁ inp = accepts m₂ inp := by
  have hpath : acceptsPath m₁ inp.path = acceptsPath m₂ inp.path := by
    simp only [acceptsPath, h.pathExact, h.pathPrefix, h.pathRegex]
  have hmethods : (compileMethods m₁.methods).match inp.method =
      (compileMethods m₂.methods).match inp.method := by
    have hset : ∀ u, u ∈ (compileMethods m₁.methods).set ↔ u ∈ (compileMethods m₂.methods).set :=
      h.methods
    rw [Bool.eq_iff_iff, methods_match_iff, methods_match_iff, hset, hset, eq_nil_iff_of_mem hset]
  have htypes : (compileContentTypes m₁.contentType).match inp.contentType =
      (compileContentTypes m₂.contentType).match inp.contentType := by
    rw [Bool.eq_iff_iff]
    simp only [ContentType.match, compileContentTypes, Bool.or_eq_true, decide_eq_true_eq,
      List.map_eq_nil_iff, List.any_map, List.any_eq_true, h.types, eq_nil_iff_of_mem h.types]
  have hheaders : m₁.headers.all (fun hm => acceptsHeader hm inp.headers) =
      m₂.headers.all fun hm => acceptsHeader hm inp.headers := by
    rw [Bool.eq_iff_iff, List.all_eq_true, List.all_eq_true]
    constructor
    · intro hall h₂ hm₂
      obtain ⟨h₁, hm₁, hsame⟩ := h.headers.2 h₂ hm₂
      rw [← acceptsHeader_same hsame]
      exact hall h₁ hm₁
    · intro hall h₁ hm₁
      obtain ⟨h₂, hm₂, hsame⟩ := h.headers.1 h₁ hm₁
      rw [acceptsHeader_same hsame]
      exact hall h₂ hm₂
  rw [accepts, accepts, hpath, hmethods, htypes, hheaders]

/-- Duplicates of plain matches accept the same requests, and so do the routes compiled from
them. -/
theorem duplicates_accept_alike {file₁ pre₁ file₂ pre₂ : Bytes} {m₁ m₂ : Config.Match}
    (h₁ : validateMatch file₁ pre₁ m₁ = []) (h₂ : validateMatch file₂ pre₂ m₂ = [])
    (hclear : Same m₁ m₂ ∨ Plain m₁ ∧ Plain m₂ ∧ FoldAlike m₁ m₂)
    (hsig : routeSignature m₁ = routeSignature m₂) :
    (∃ f₁ f₂, compileMatch m₁ = .ok f₁ ∧ compileMatch m₂ = .ok f₂ ∧ ∀ inp, f₁ inp = f₂ inp) ∧
    ∀ [Heap] [Constructors] (fs : FileSystem) (cfg : MergedConfig) (d : Domain) (i j : Nat)
      (rt₁ rt₂ : Route) (cr₁ cr₂ : CompiledRoute), rt₁.match = m₁ → rt₂.match = m₂ →
      routeAlone fs cfg d i rt₁ = .ok cr₁ → routeAlone fs cfg d j rt₂ = .ok cr₂ →
      ∀ inp, cr₁.matches inp = cr₂.matches inp := by
  have v₁ := validMatch_of_nil h₁
  have v₂ := validMatch_of_nil h₂
  obtain ⟨f₁, hf₁, haccepts₁⟩ := compileMatch_valid v₁
  obtain ⟨f₂, hf₂, haccepts₂⟩ := compileMatch_valid v₂
  have hsame : Same m₁ m₂ := by
    rcases hclear with hsame | ⟨p₁, p₂, hfold⟩
    · exact hsame
    · exact same_of_signature v₁ v₂ p₁ p₂ hfold hsig
  have halike : ∀ inp, f₁ inp = f₂ inp := by
    intro inp
    rw [haccepts₁, haccepts₂, accepts_same hsame]
  refine ⟨⟨f₁, f₂, hf₁, hf₂, halike⟩, ?_⟩
  rintro _ _ fs cfg d i j rt₁ rt₂ cr₁ cr₂ rfl rfl hr₁ hr₂ inp
  rw [Except.ok.inj ((compileMatch_of_routeAlone hr₁).symm.trans hf₁),
    Except.ok.inj ((compileMatch_of_routeAlone hr₂).symm.trans hf₂), halike]

end

/-- A match and the same one with its entries in another order and another case. -/
def ordered : Config.Match where
  pathPrefix := ascii "/v1/"
  methods := [ascii "GET", ascii "POST"]
  contentType := [ascii "text/html", ascii "text/plain"]
  headers := [{ name := ascii "X-Tenant", exact := ascii "a;b" },
    { name := ascii "Accept", contains := ascii "json" }]

def reordered : Config.Match where
  pathPrefix := ascii "/v1/"
  methods := [ascii "post", ascii "get"]
  contentType := [ascii "text/plain", ascii "text/html"]
  headers := [{ name := ascii "accept", contains := ascii "json" },
    { name := ascii "x-tenant", exact := ascii "a;b" }]

theorem reordered_accepts_alike :
    let _ := Library.nothing
    let _ := Heap.empty
    let _ := Constructors.nothing
    (∃ f₁ f₂, compileMatch ordered = .ok f₁ ∧ compileMatch reordered = .ok f₂ ∧
      ∀ inp, f₁ inp = f₂ inp) ∧
    ∃ cr₁ cr₂, routeAlone (fun _ => none) (merge []) {} 0 { «match» := ordered } = .ok cr₁ ∧
      routeAlone (fun _ => none) (merge []) {} 1 { «match» := reordered } = .ok cr₂ ∧
      ∀ inp, cr₁.matches inp = cr₂.matches inp := by
  intro lib heap constructors
  have hordered : Plain ordered :=
    .mk (by decide) (by decide +kernel) (by decide) (by decide) (by decide +kernel) (by decide)
      (by decide) (by decide)
  have hreordered : Plain reordered :=
    .mk (by decide) (by decide +kernel) (by decide) (by decide) (by decide +kernel) (by decide)
      (by decide) (by decide)
  have hfold : FoldAlike ordered reordered := by
    unfold FoldAlike
    decide +kernel
  have hvalid : validateMatch [] [] ordered = [] ∧ validateMatch [] [] reordered = [] := by
    decide +kernel
  obtain ⟨hmatches, hroutes⟩ := duplicates_accept_alike hvalid.1 hvalid.2
    (.inr ⟨hordered, hreordered, hfold⟩) (by decide +kernel)
  obtain ⟨cr₁, hcr₁⟩ : ∃ cr, routeAlone (fun _ => none) (merge []) {} 0 { «match» := ordered } =
      .ok cr := ⟨_, rfl⟩
  obtain ⟨cr₂, hcr₂⟩ : ∃ cr, routeAlone (fun _ => none) (merge []) {} 1 { «match» := reordered } =
      .ok cr := ⟨_, rfl⟩
  exact ⟨hmatches, cr₁, cr₂, hcr₁, hcr₂, hroutes _ _ _ 0 1 _ _ cr₁ cr₂ rfl rfl hcr₁ hcr₂⟩

/-- Two matches with a request that only the second of them accepts. -/
structure Collision where
  first : Config.Match
  second : Config.Match
  request : Input

/-- Both matches are valid and have one signature, and the request tells them apart. -/
def Collision.misreported [Library] (c : Collision) : Bool :=
  (validateMatch [] [] c.first).isEmpty && (validateMatch [] [] c.second).isEmpty &&
    routeSignature c.first == routeSignature c.second &&
    ((compileMatch c.first).toOption.map (· c.request) == some false) &&
    ((compileMatch c.second).toOption.map (· c.request) == some true)

/-- Every expression matches every text, as those with an empty alternative do; the lower case of
U+0130 is the letter i, which it does not fold to. -/
@[reducible] def emptyAlternatives : Library :=
  { Library.nothing with
    toUnicode :=
      { Unicode.asciiOnly with
        toLower := fun r => if r = 0x130 then 0x69 else lowerRune r
        toLower_ascii := fun r hr => if_neg (by omega) }
    regexp := fun _ => .ok fun _ => true }

def requestOf (path contentType : Bytes) (headers : List (Bytes × Bytes)) : Input where
  host := ascii "api.test"
  path := path
  method := ascii "GET"
  contentType := contentType
  headers := headers.map fun h => ⟨h.1, h.2⟩

/-- A header of the given name and exact value. -/
def exactly (name value : Bytes) : HeaderMatch := { name, exact := value }

def collisions : List Collision :=
  [ -- a comma in a content type
    ⟨{ contentType := [ascii "text/html,text/plain"] },
      { contentType := [ascii "text/html", ascii "text/plain"] },
      requestOf (ascii "/") (ascii "text/html") []⟩,
    -- one empty content type, or none
    ⟨{ contentType := [[]] }, {}, requestOf (ascii "/") (ascii "text/html") []⟩,
    -- a unit separator in a path
    ⟨{ pathExact := ascii "\x1fp:/a" }, { pathPrefix := ascii "/a\x1fp:" },
      requestOf (ascii "/a\x1fp:") [] []⟩,
    -- a unit separator in a content type
    ⟨{ contentType := [ascii "x\x1fh:n"], headers := [exactly (ascii "a") (ascii "b")] },
      { contentType := [ascii "x"], headers := [exactly (ascii "n\x1fh:a") (ascii "b")] },
      requestOf (ascii "/") (ascii "x") [(ascii "n\x1fh:a", ascii "b")]⟩,
    -- a bar in a header name
    ⟨{ headers := [exactly (ascii "x|a") (ascii "b")] },
      { headers := [exactly (ascii "x") (ascii "a|b")] },
      requestOf (ascii "/") [] [(ascii "x", ascii "a|b")]⟩,
    -- a bar at the start of an exact value
    ⟨{ headers := [exactly (ascii "x") (ascii "|w")] },
      { headers := [{ name := ascii "x", regex := ascii "w|" }] },
      requestOf (ascii "/") [] [(ascii "x", ascii "z")]⟩,
    -- a bar at the end of a value to contain
    ⟨{ headers := [{ name := ascii "x", contains := ascii "w|" }] },
      { headers := [{ name := ascii "x", regex := ascii "|w" }] },
      requestOf (ascii "/") [] [(ascii "x", ascii "z")]⟩,
    -- bars and a semicolon in one value
    ⟨{ headers := [exactly (ascii "x") (ascii "a"), exactly (ascii "x") (ascii "b")] },
      { headers := [exactly (ascii "x") (ascii "a|||;x|b")] },
      requestOf (ascii "/") [] [(ascii "x", ascii "a|||;x|b")]⟩,
    -- names that are lower-cased alike and looked up apart
    ⟨{ headers := [exactly [ch 'x', 0xC4, 0xB0] (ascii "1")] },
      { headers := [exactly (ascii "xi") (ascii "1")] },
      requestOf (ascii "/") [] [(ascii "xi", ascii "1")]⟩]

theorem collisions_misreported :
    (collisions.all fun c => @Collision.misreported emptyAlternatives c) = true := by
  decide +kernel

end ElchiShield.Policy
