import ElchiShield.Engine.ApiKey
import ElchiShield.Engine.GraphQL
import ElchiShield.Matcher.Paths

/-! # Engines that look at the path

The API-key engine binds scopes to prefixes of the path, the GraphQL guard has a list of
prefixes. The first matches the path the router matches; the second the path as it was sent. -/
namespace ElchiShield.Engine
open ElchiShield.Go ElchiShield.Matcher

/-! ## The canonical form -/

theorem takeWhile_marks (raw : Bytes) :
    (raw.takeWhile fun b => !(ascii "?#").contains b) = pathPart raw := by
  unfold pathPart
  congr 1
  funext b
  rw [Bool.eq_iff_iff]
  simp [ascii]

theorem apiKey_normalizePath_eq (raw : Bytes) : ApiKey.normalizePath raw = normalizePath raw := by
  unfold ApiKey.normalizePath normalizePath
  rw [takeWhile_marks, before_before]

/-- The path that is matched is canonical, is decided by what stands before the query and the
fragment, and is matched as itself; and there is one such form for the router and the API-key
engine. -/
theorem normalizePath_form :
    (∀ raw : Bytes, raw.head? = some slash →
      Canonical (normalizePath raw) ∧
      (∀ raw', pathPart raw' = pathPart raw → normalizePath raw' = normalizePath raw) ∧
      ((∀ b ∈ normalizePath raw, b ≠ ch '%' ∧ b ≠ ch '?' ∧ b ≠ ch '#') →
        normalizePath (normalizePath raw) = normalizePath raw)) ∧
    ∀ s : Bytes, ApiKey.normalizePath s = normalizePath s := by
  refine ⟨?_, apiKey_normalizePath_eq⟩
  intro raw hraw
  have hcanonical := normalizePath_canonical hraw
  refine ⟨hcanonical, ?_, hcanonical.normalizePath_eq_self⟩
  intro raw' hpart
  exact normalizePath_congr hraw hpart

theorem admin_path_form :
    let raw := ascii "/x/..//%61dmin/./?next=/"
    normalizePath raw = ascii "/admin/" ∧
      normalizePath (ascii "/admin/") = ascii "/admin/" ∧
        normalizePath (ascii "/x/..//%61dmin/./#top") = ascii "/admin/" := by
  intro raw
  have hraw : raw.head? = some slash := by decide +kernel
  have hpath : normalizePath raw = ascii "/admin/" := by decide +kernel
  obtain ⟨-, hpart, hfix⟩ := normalizePath_form.1 raw hraw
  have hplain : ∀ b ∈ normalizePath raw, b ≠ ch '%' ∧ b ≠ ch '?' ∧ b ≠ ch '#' := by
    rw [hpath]
    decide +kernel
  refine ⟨hpath, ?_, ?_⟩
  · have hself := hfix hplain
    rw [hpath] at hself
    exact hself
  · rw [hpart _ (by decide +kernel), hpath]

/-! ## Respelled requests -/

/-- What stands behind the first question mark. -/
def queryPart (raw : Bytes) : Option Bytes := (cut (ch '?') raw).map Prod.snd

/-- Two requests that differ in the raw path only, with one query and one path to match. -/
structure Respelled (r r' : Request) : Prop where
  other : r' = { r with path := r'.path }
  query : queryPart r'.path = queryPart r.path
  path : normalizePath r'.path = normalizePath r.path

section
variable {r r' : Request}

/-- What is read from the query is the same. -/
theorem Respelled.cut_cases (h : Respelled r r') :
    cut (ch '?') r'.path = none ∧ cut (ch '?') r.path = none ∨
      ∃ p p' query, cut (ch '?') r'.path = some (p', query) ∧
        cut (ch '?') r.path = some (p, query) := by
  have hquery := h.query
  unfold queryPart at hquery
  cases hr' : cut (ch '?') r'.path with
  | none =>
    rw [hr'] at hquery
    exact .inl ⟨rfl, Option.map_eq_none_iff.mp hquery.symm⟩
  | some c' =>
    rw [hr'] at hquery
    obtain ⟨c, hc, hsame⟩ := Option.map_eq_some_iff.mp hquery.symm
    exact .inr ⟨c.1, c'.1, c'.2, rfl, by rw [hc, ← hsame]⟩

theorem Respelled.apiKey_extract [Unicode] (h : Respelled r r') (e : ApiKey.Engine) :
    ApiKey.extract e r' = ApiKey.extract e r := by
  have hheaders : r'.headers = r.headers := by rw [h.other]
  unfold ApiKey.extract
  rw [hheaders]
  rcases h.cut_cases with ⟨hr', hr⟩ | ⟨p, p', query, hr', hr⟩
  · rw [hr', hr]
  · rw [hr', hr]

theorem Respelled.apiKey_inspect [Unicode] (h : Respelled r r') (sha256 : Bytes → Bytes)
    (e : ApiKey.Engine) : ApiKey.inspect sha256 e r' = ApiKey.inspect sha256 e r := by
  have hdirection : r'.direction = r.direction := by rw [h.other]
  unfold ApiKey.inspect
  rw [hdirection, h.apiKey_extract, apiKey_normalizePath_eq, apiKey_normalizePath_eq, h.path]

end

/-! ## The GraphQL guard with and without its list of paths -/

section
variable (e : GraphQL.Engine)

/-- The guard without a list of paths. -/
def everywhere : GraphQL.Engine := { e with paths := [] }

theorem walk_everywhere (frags : List (Bytes × List GraphQL.Selection)) (n : Nat) :
    GraphQL.walk (everywhere e) frags n = GraphQL.walk e frags n := by
  induction n with
  | zero => rfl
  | succ n ih =>
    funext sel depth visited st
    rw [GraphQL.walk, GraphQL.walk, ih]
    rfl

variable [GraphQL.Parser]

theorem checkQuery_everywhere : GraphQL.checkQuery (everywhere e) = GraphQL.checkQuery e := by
  have hoperation : ∀ doc, GraphQL.checkOperation (everywhere e) doc =
      GraphQL.checkOperation e doc := by
    intro doc
    funext sel
    unfold GraphQL.checkOperation
    rw [walk_everywhere]
    rfl
  funext q
  unfold GraphQL.checkQuery
  simp only [hoperation]
  rfl

variable [Unicode] {e} {r r' : Request}

theorem inspect_outside (h : GraphQL.pathAllowed e r = false) : GraphQL.inspect e r = {} := by
  have hnone : GraphQL.extract e r = none := by
    simp [GraphQL.extract, h]
  unfold GraphQL.inspect
  rw [hnone]
  split <;> rfl

theorem inspect_inside (h : GraphQL.pathAllowed e r = true) :
    GraphQL.inspect e r = GraphQL.inspect (everywhere e) r := by
  have hextract : GraphQL.extract (everywhere e) r = GraphQL.extract e r := by
    have hall : GraphQL.pathAllowed (everywhere e) r = true := rfl
    unfold GraphQL.extract
    rw [h, hall]
    rfl
  unfold GraphQL.inspect
  rw [hextract, checkQuery_everywhere]
  rfl

theorem Respelled.graphQL_everywhere (h : Respelled r r') :
    GraphQL.inspect (everywhere e) r' = GraphQL.inspect (everywhere e) r := by
  have hparam : ∀ name, GraphQL.queryParam r'.path name = GraphQL.queryParam r.path name := by
    intro name
    unfold GraphQL.queryParam
    rcases h.cut_cases with ⟨hr', hr⟩ | ⟨p, p', query, hr', hr⟩
    · rw [hr', hr]
    · rw [hr', hr]
  have hextract : GraphQL.extract (everywhere e) r' = GraphQL.extract (everywhere e) r := by
    have hall : ∀ r, GraphQL.pathAllowed (everywhere e) r = true := fun _ => rfl
    unfold GraphQL.extract
    rw [hall, hall, hparam, h.other]
    rfl
  have hdirection : r'.direction = r.direction := by rw [h.other]
  unfold GraphQL.inspect
  rw [hextract, hdirection]

end

/-! ### Requests the guard has nothing to say about -/

section
variable (e : GraphQL.Engine)

/-- The measures are within the limits. -/
structure WithinLimits (st : GraphQL.Stats) : Prop where
  analyzed : st.aborted = false
  rootFields : GraphQL.exceeds st.rootFields e.cfg.maxRootFields = false
  depth : GraphQL.exceeds st.depth e.cfg.maxDepth = false
  aliases : GraphQL.exceeds st.aliases e.cfg.maxAliases = false
  fields : GraphQL.exceeds st.fields e.cfg.maxTotalFields = false
  introspection : (e.cfg.blockIntrospection && st.introspection) = false

/-- What is measured of an operation. -/
def measured (doc : GraphQL.Document) (op : List GraphQL.Selection) : GraphQL.Stats :=
  GraphQL.walk e doc.fragments (e.maxNodes + 1) op 1 (fun _ => 0) {}

variable [GraphQL.Parser]

/-- The query is blank, or a document whose operations are few enough and within the limits. -/
def Acceptable (q : Bytes) : Prop :=
  trimSpace q ≠ [] → ∃ doc, GraphQL.Parser.parseQuery q = some doc ∧
    GraphQL.exceeds doc.operations.length e.cfg.maxOperations = false ∧
    ∀ op ∈ doc.operations, WithinLimits e (measured e doc op)

/-- The request carries no queries, or few enough that are acceptable. -/
def Harmless [Unicode] (r : Request) : Prop :=
  r.direction = .request → ∀ queries, GraphQL.extract { e with paths := [] } r = some queries →
    GraphQL.exceeds queries.length e.cfg.maxOperations = false ∧ ∀ q ∈ queries, Acceptable e q

variable {e}

omit [GraphQL.Parser] in
theorem checkOperation_eq_none {doc : GraphQL.Document} {op : List GraphQL.Selection} :
    GraphQL.checkOperation e doc op = none ↔ WithinLimits e (measured e doc op) := by
  unfold GraphQL.checkOperation
  dsimp only
  rw [← measured]
  constructor
  · intro h
    simp only [ite_eq_right_iff, reduceCtorEq, imp_false, ite_eq_iff, and_false, false_or] at h
    obtain ⟨h1, h2, h3, h4, h5, h6⟩ := h
    exact ⟨Bool.not_eq_true _ ▸ h1, Bool.not_eq_true _ ▸ h2, Bool.not_eq_true _ ▸ h3,
      Bool.not_eq_true _ ▸ h4, Bool.not_eq_true _ ▸ h5, Bool.not_eq_true _ ▸ h6⟩
  · rintro ⟨h1, h2, h3, h4, h5, h6⟩
    simp [h1, h2, h3, h4, h5, h6]

theorem checkQuery_eq_none {q : Bytes} : GraphQL.checkQuery e q = none ↔ Acceptable e q := by
  unfold GraphQL.checkQuery Acceptable
  split
  next hblank => simp [hblank]
  next hq =>
    cases hdoc : GraphQL.Parser.parseQuery q with
    | none => simp [hq]
    | some doc =>
      cases hmany : GraphQL.exceeds doc.operations.length e.cfg.maxOperations with
      | true => simp [hq, hmany]
      | false => simp [hq, hmany, checkOperation_eq_none]

omit [GraphQL.Parser] in
/-- One of the checks in a chain of them. -/
theorem blocks_ite {c : Prop} [Decidable c] {a v : Verdict} {rest : Option Verdict}
    (ha : a.action = .block) (hrest : rest = some v → v.action = .block)
    (h : (if c then some a else rest) = some v) : v.action = .block := by
  split at h
  · rw [← Option.some.inj h]
    exact ha
  · exact hrest h

omit [GraphQL.Parser] in
theorem checkOperation_blocks {doc : GraphQL.Document} {op : List GraphQL.Selection} {v : Verdict}
    (h : GraphQL.checkOperation e doc op = some v) : v.action = .block := by
  unfold GraphQL.checkOperation at h
  exact blocks_ite rfl (blocks_ite rfl (blocks_ite rfl (blocks_ite rfl (blocks_ite rfl
    (blocks_ite rfl (fun h => by cases h)))))) h

/-- A verdict on a query blocks. -/
theorem checkQuery_blocks {q : Bytes} {v : Verdict} (h : GraphQL.checkQuery e q = some v) :
    v.action = .block := by
  unfold GraphQL.checkQuery at h
  split at h
  · cases h
  split at h
  · rw [← Option.some.inj h]
    rfl
  refine blocks_ite rfl (fun h => ?_) h
  obtain ⟨op, -, hop⟩ := List.exists_of_findSome?_eq_some h
  exact checkOperation_blocks hop

theorem inspect_everywhere_eq_empty [Unicode] {r : Request} :
    GraphQL.inspect (everywhere e) r = {} ↔ Harmless e r := by
  unfold GraphQL.inspect Harmless
  rw [checkQuery_everywhere, ← everywhere]
  split
  next hresponse => simp [hresponse]
  next hrequest =>
    rw [not_not] at hrequest
    cases hqueries : GraphQL.extract (everywhere e) r with
    | none => simp [hrequest]
    | some queries =>
      have hcfg : (everywhere e).cfg = e.cfg := rfl
      simp only [hrequest, hcfg, Option.some.injEq, forall_eq', forall_const]
      cases hmany : GraphQL.exceeds queries.length e.cfg.maxOperations with
      | true => simp [GraphQL.block]
      | false =>
        cases hfound : queries.findSome? (GraphQL.checkQuery e) with
        | none =>
          have hall := List.findSome?_eq_none_iff.mp hfound
          simpa using fun q hq => checkQuery_eq_none.mp (hall q hq)
        | some v =>
          obtain ⟨q, hq, hv⟩ := List.exists_of_findSome?_eq_some hfound
          have hne : v ≠ {} := by
            rintro rfl
            cases checkQuery_blocks hv
          have hobjects : ¬ Acceptable e q := by
            rw [← checkQuery_eq_none, hv]
            exact Option.some_ne_none v
          simpa [hne] using ⟨q, hq, hobjects⟩

end

/-- The API-key engine gives two spellings of a path one verdict. The GraphQL guard does where
both spellings are in its list of paths or neither is, and where the request carries nothing it
would object to on any path. -/
theorem respelling_iff_same_scope [Unicode] [GraphQL.Parser] (r r' : Request)
    (h : Respelled r r') :
    (∀ (sha256 : Bytes → Bytes) (e : ApiKey.Engine),
      ApiKey.inspect sha256 e r' = ApiKey.inspect sha256 e r) ∧
    ∀ e : GraphQL.Engine, GraphQL.inspect e r' = GraphQL.inspect e r ↔
      GraphQL.pathAllowed e r' = GraphQL.pathAllowed e r ∨ Harmless e r := by
  refine ⟨fun sha256 e => h.apiKey_inspect sha256 e, ?_⟩
  intro e
  have hsame : GraphQL.inspect (everywhere e) r' = GraphQL.inspect (everywhere e) r :=
    h.graphQL_everywhere
  rw [← inspect_everywhere_eq_empty]
  cases hr' : GraphQL.pathAllowed e r' with
  | false =>
    cases hr : GraphQL.pathAllowed e r with
    | false => simp [inspect_outside hr', inspect_outside hr]
    | true => simp [inspect_outside hr', inspect_inside hr, eq_comm]
  | true =>
    cases hr : GraphQL.pathAllowed e r with
    | false => simp [inspect_inside hr', inspect_outside hr, hsame]
    | true => simp [inspect_inside hr', inspect_inside hr, hsame]

/-- The document `{__schema{types{name}}}`; a field without an alias is its own alias. -/
def schemaDocument : GraphQL.Document where
  operations := [[.field (ascii "__schema") (ascii "__schema")
    [.field (ascii "types") (ascii "types") [.field (ascii "name") (ascii "name") []]]]]
  fragments := []

/-- A parser that knows one text. -/
@[reducible] def schemaParser : GraphQL.Parser where
  parseQuery q :=
    if q = ascii "\x7b__schema\x7btypes\x7bname\x7d\x7d\x7d" then some schemaDocument else none
  unmarshalObject _ := none
  unmarshalArray _ := none

def schemaQuery (path : String) : Request where
  direction := .request
  host := ascii "api.example.com"
  path := ascii path ++ ascii "?query=%7B__schema%7Btypes%7Bname%7D%7D%7D"
  method := ascii "GET"
  contentType := []
  sourceIP := []
  body := []
  headers := []

theorem schema_respelled : Respelled (schemaQuery "/graphql") (schemaQuery "//%67raphql") where
  other := rfl
  query := by decide +kernel
  path := by decide +kernel

theorem doubled_slash_in_scope_of_root :
    let _ := Unicode.asciiOnly
    let _ := schemaParser
    let e := GraphQL.new { paths := [ascii "/"], blockIntrospection := true }
    (GraphQL.inspect e (schemaQuery "/graphql")).action = .block ∧
      (GraphQL.inspect e (schemaQuery "//%67raphql")).action = .block := by
  intro _ _ e
  obtain ⟨-, hguard⟩ := respelling_iff_same_scope _ _ schema_respelled
  have hblock : (GraphQL.inspect e (schemaQuery "/graphql")).action = .block := by decide +kernel
  have hscope : GraphQL.pathAllowed e (schemaQuery "//%67raphql") =
      GraphQL.pathAllowed e (schemaQuery "/graphql") := by decide +kernel
  refine ⟨hblock, ?_⟩
  rw [(hguard e).mpr (.inl hscope)]
  exact hblock

theorem doubled_slash_dodges_guard :
    let _ := Unicode.asciiOnly
    let _ := schemaParser
    let e := GraphQL.new { paths := [ascii "/graphql"], blockIntrospection := true }
    Respelled (schemaQuery "/graphql") (schemaQuery "//%67raphql") ∧
      (GraphQL.inspect e (schemaQuery "/graphql")).action = .block ∧
      GraphQL.inspect e (schemaQuery "//%67raphql") = {} := by
  refine ⟨schema_respelled, ?_, ?_⟩
  · decide +kernel
  · decide +kernel

end ElchiShield.Engine
