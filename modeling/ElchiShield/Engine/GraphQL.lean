import ElchiShield.Config.Types
import ElchiShield.Engine
import ElchiShield.Go.Query

/-! # The GraphQL guard

Package `engine/graphql`: limits on the queries of a request, read from the body of a POST or
from the query parameter of a GET. The parser of GraphQL documents is third-party code, and
`encoding/json` is used for one field; both are parameters. -/
namespace ElchiShield.GraphQL
open ElchiShield.Go ElchiShield.Config ElchiShield.Engine

inductive Selection where
  | field (alias_ name : Bytes) (selectionSet : List Selection)
  | inlineFragment (selectionSet : List Selection)
  | fragmentSpread (name : Bytes)

/-- The selection sets of the operations, and those of the fragments by their names. -/
structure Document where
  operations : List (List Selection)
  fragments : List (Bytes × List Selection)

class Parser where
  /-- `parser.ParseQueryWithTokenLimit` with `maxParseTokens`. -/
  parseQuery : Bytes → Option Document
  /-- `json.Unmarshal` of an object, as its `query`; empty when there is none. -/
  unmarshalObject : Bytes → Option Bytes
  /-- `json.Unmarshal` of an array of such objects. -/
  unmarshalArray : Bytes → Option (List Bytes)

def defaultMaxComplexity : Nat := 100000

structure Engine where
  contentTypes : List Bytes
  paths : List Bytes
  cfg : GraphQLSpec
  maxFragDepth : Nat
  maxNodes : Nat

/-- `New`; its `Config` has the fields of the spec. -/
def new [Unicode] (cfg : GraphQLSpec) : Engine where
  contentTypes :=
    (if cfg.contentTypes = [] then [ascii "application/json", ascii "application/graphql"]
      else cfg.contentTypes).map toLower
  paths := cfg.paths
  cfg := cfg
  maxFragDepth := if cfg.maxFragmentDepth ≤ 0 then 32 else cfg.maxFragmentDepth.toNat
  maxNodes := if cfg.maxComplexity ≤ 0 then defaultMaxComplexity else cfg.maxComplexity.toNat

def block (ruleID : String) (reason : Bytes) : Verdict where
  action := .block
  reason := reason
  ruleID := ascii ruleID
  engine := ascii "graphql"
  severity := .medium
  statusCode := defaultBlockStatus

/-! ## The walk over a selection set -/

structure Stats where
  depth : Nat := 0
  fields : Nat := 0
  rootFields : Nat := 0
  aliases : Nat := 0
  introspection : Bool := false
  nodes : Nat := 0
  aborted : Bool := false

section
variable (e : Engine) (frags : List (Bytes × List Selection))

def countField (depth : Nat) (alias_ name : Bytes) (st : Stats) : Stats :=
  { st with
    fields := st.fields + 1
    rootFields := if depth = 1 then st.rootFields + 1 else st.rootFields
    aliases := if alias_ ≠ [] ∧ alias_ ≠ name then st.aliases + 1 else st.aliases
    introspection := st.introspection || name = ascii "__schema" || name = ascii "__type" }

/-- One round of the loop of `walk`, with its recursive calls. The counts of `visited` are
taken back after a call, so that only the call sees them raised. -/
def visit (walk : List Selection → Nat → (Bytes → Nat) → Stats → Stats) (depth : Nat)
    (visited : Bytes → Nat) (st : Stats) (s : Selection) : Stats :=
  if st.aborted then st
  else if e.maxNodes < st.nodes + 1 then { st with nodes := st.nodes + 1, aborted := true }
  else
    let st := { st with nodes := st.nodes + 1 }
    match s with
    | .field alias_ name sel =>
      let st := countField depth alias_ name st
      if sel.isEmpty then st else walk sel (depth + 1) visited st
    | .inlineFragment sel => walk sel depth visited st
    | .fragmentSpread name =>
      if e.maxFragDepth ≤ visited name then st
      else match frags.reverse.lookup name with
        | none => st
        | some sel => walk sel depth (Function.update visited name (visited name + 1)) st

/-- Every call has visited one more node than the call it is made from, so that as many calls
as there may be nodes are enough. -/
def walk : Nat → List Selection → Nat → (Bytes → Nat) → Stats → Stats
  | 0, _, _, _, st => st
  | n + 1, sel, depth, visited, st =>
    if st.aborted then st
    else sel.foldl (visit e frags (walk n) depth visited) { st with depth := max st.depth depth }

/-! ### The calls are enough -/

/-- Inversion of one round: it is aborted, aborts, or counts a node and may make a call. -/
theorem visit_cases (walk : List Selection → Nat → (Bytes → Nat) → Stats → Stats) (depth : Nat)
    (visited : Bytes → Nat) (st : Stats) (s : Selection) :
    (st.aborted = true ∧ visit e frags walk depth visited st s = st) ∨
    (st.aborted = false ∧ e.maxNodes < st.nodes + 1 ∧ visit e frags walk depth visited st s =
      { st with nodes := st.nodes + 1, aborted := true }) ∨
    (st.aborted = false ∧ st.nodes + 1 ≤ e.maxNodes ∧ ∃ st' : Stats, st'.nodes = st.nodes + 1 ∧
      st'.aborted = false ∧ (visit e frags walk depth visited st s = st' ∨
        ∃ sel depth' visited', visit e frags walk depth visited st s =
          walk sel depth' visited' st')) := by
  obtain ⟨r, hr⟩ : ∃ r, visit e frags walk depth visited st s = r := ⟨_, rfl⟩
  rw [hr]
  unfold visit at hr
  split at hr
  next haborted => exact .inl ⟨haborted, hr.symm⟩
  next hrun =>
    rw [Bool.not_eq_true] at hrun
    split at hr
    next hover => exact .inr (.inl ⟨hrun, hover, hr.symm⟩)
    next hroom =>
      refine .inr (.inr ⟨hrun, Nat.not_lt.mp hroom, ?_⟩)
      cases s with
      | field alias_ name sel =>
        refine ⟨countField depth alias_ name { st with nodes := st.nodes + 1 }, rfl, hrun, ?_⟩
        dsimp only at hr
        split at hr
        · exact .inl hr.symm
        · exact .inr ⟨_, _, _, hr.symm⟩
      | inlineFragment sel =>
        exact ⟨{ st with nodes := st.nodes + 1 }, rfl, hrun, .inr ⟨_, _, _, hr.symm⟩⟩
      | fragmentSpread name =>
        refine ⟨{ st with nodes := st.nodes + 1 }, rfl, hrun, ?_⟩
        dsimp only at hr
        split at hr
        · exact .inl hr.symm
        split at hr
        · exact .inl hr.symm
        · exact .inr ⟨_, _, _, hr.symm⟩

/-- A round only adds to the visited nodes. -/
theorem visit_nodes_le {walk : List Selection → Nat → (Bytes → Nat) → Stats → Stats}
    (h : ∀ sel depth visited st, st.nodes ≤ (walk sel depth visited st).nodes) (depth : Nat)
    (visited : Bytes → Nat) (st : Stats) (s : Selection) :
    st.nodes ≤ (visit e frags walk depth visited st s).nodes := by
  obtain ⟨-, heq⟩ | ⟨-, -, heq⟩ | ⟨-, -, st', hnodes, -, heq | ⟨sel, depth', visited', heq⟩⟩ :=
    visit_cases e frags walk depth visited st s <;> rw [heq]
  · exact Nat.le_succ _
  · omega
  · exact le_trans (by omega) (h sel depth' visited' st')

theorem foldl_nodes_le {f : Stats → Selection → Stats} (h : ∀ st s, st.nodes ≤ (f st s).nodes)
    (sel : List Selection) (st : Stats) : st.nodes ≤ (sel.foldl f st).nodes := by
  induction sel generalizing st with
  | nil => exact le_refl _
  | cons s sel ih => exact le_trans (h st s) (ih (f st s))

theorem walk_nodes_le (n : Nat) (sel : List Selection) (depth : Nat) (visited : Bytes → Nat)
    (st : Stats) : st.nodes ≤ (walk e frags n sel depth visited st).nodes := by
  induction n generalizing sel depth visited st with
  | zero => exact le_refl _
  | succ n ih =>
    unfold walk
    split
    · exact le_refl _
    · exact foldl_nodes_le (visit_nodes_le e frags ih depth visited) sel
        { st with depth := max st.depth depth }

/-- Two ways to make the calls that agree on all calls a round can make. -/
theorem visit_congr {walk walk' : List Selection → Nat → (Bytes → Nat) → Stats → Stats} {m : Nat}
    (h : ∀ sel depth visited st, m < st.nodes → st.nodes ≤ e.maxNodes →
      walk sel depth visited st = walk' sel depth visited st) (depth : Nat)
    (visited : Bytes → Nat) {st : Stats} (hst : m ≤ st.nodes) (s : Selection) :
    visit e frags walk depth visited st s = visit e frags walk' depth visited st s := by
  unfold visit
  split
  next => rfl
  next =>
    split
    next => rfl
    next hnodes =>
      have hcall : ∀ sel depth visited (st' : Stats), st'.nodes = st.nodes + 1 →
          walk sel depth visited st' = walk' sel depth visited st' := by
        intro sel depth visited st' hst'
        exact h sel depth visited st' (by omega) (by omega)
      cases s with
      | field alias_ name sel =>
        dsimp only
        rw [hcall sel (depth + 1) visited (countField depth alias_ name _) rfl]
      | inlineFragment sel => exact hcall _ _ _ _ rfl
      | fragmentSpread name =>
        dsimp only
        split
        · rfl
        · split
          · rfl
          · exact hcall _ _ _ _ rfl

theorem foldl_visit_congr {walk walk' : List Selection → Nat → (Bytes → Nat) → Stats → Stats}
    {m : Nat} (h : ∀ sel depth visited st, m < st.nodes → st.nodes ≤ e.maxNodes →
      walk sel depth visited st = walk' sel depth visited st)
    (hmono : ∀ sel depth visited st, st.nodes ≤ (walk sel depth visited st).nodes) (depth : Nat)
    (visited : Bytes → Nat) (sel : List Selection) {st : Stats} (hst : m ≤ st.nodes) :
    sel.foldl (visit e frags walk depth visited) st =
      sel.foldl (visit e frags walk' depth visited) st := by
  induction sel generalizing st with
  | nil => rfl
  | cons s sel ih =>
    have hnext := le_trans hst (visit_nodes_le e frags hmono depth visited st s)
    rw [List.foldl_cons, List.foldl_cons, ← visit_congr e frags h depth visited hst s]
    exact ih hnext

/-- One call more makes no difference. -/
theorem walk_succ (n : Nat) (sel : List Selection) (depth : Nat) (visited : Bytes → Nat)
    {st : Stats} (hn : e.maxNodes < n + st.nodes) (hst : st.nodes ≤ e.maxNodes) :
    walk e frags (n + 1) sel depth visited st = walk e frags n sel depth visited st := by
  induction n generalizing sel depth visited st with
  | zero => omega
  | succ n ih =>
    rw [walk, walk]
    split
    · rfl
    · refine foldl_visit_congr (m := st.nodes) e frags ?_ (walk_nodes_le e frags (n + 1)) depth
        visited sel (le_refl _)
      intro sel depth visited st' hlt hle
      exact ih sel depth visited (by omega) hle

theorem walk_enough (k : Nat) (sel : List Selection) (depth : Nat) (visited : Bytes → Nat) :
    walk e frags (e.maxNodes + 1 + k) sel depth visited {} =
      walk e frags (e.maxNodes + 1) sel depth visited {} := by
  induction k with
  | zero => rfl
  | succ k ih =>
    have hroom : e.maxNodes < e.maxNodes + 1 + k + ({} : Stats).nodes := by
      show e.maxNodes < e.maxNodes + 1 + k + 0
      omega
    rw [← ih]
    exact walk_succ e frags (e.maxNodes + 1 + k) sel depth visited hroom (Nat.zero_le _)

end

/-! ## The checks -/

section
variable [Parser] (e : Engine)

/-- The limit is set, and exceeded. -/
def exceeds (n : Nat) (max : Int) : Bool := 0 < max && max < n

def checkOperation (doc : Document) (sel : List Selection) : Option Verdict :=
  let st := walk e doc.fragments (e.maxNodes + 1) sel 1 (fun _ => 0) {}
  if st.aborted then
    some (block "graphql.complexity" (ascii "query is too complex to analyze safely"))
  else if exceeds st.rootFields e.cfg.maxRootFields then
    some (block "graphql.root_fields" (ascii "too many root fields"))
  else if exceeds st.depth e.cfg.maxDepth then
    some (block "graphql.depth"
      (ascii "query depth " ++ itoa st.depth ++ ascii " exceeds max " ++ itoa e.cfg.maxDepth.toNat))
  else if exceeds st.aliases e.cfg.maxAliases then
    some (block "graphql.aliases" (ascii "too many aliases"))
  else if exceeds st.fields e.cfg.maxTotalFields then
    some (block "graphql.total_fields" (ascii "too many fields"))
  else if e.cfg.blockIntrospection && st.introspection then
    some (block "graphql.introspection" (ascii "introspection is not allowed"))
  else none

/-- `checkQuery`: a verdict when the query is blocked. -/
def checkQuery (q : Bytes) : Option Verdict :=
  if trimSpace q = [] then none
  else match Parser.parseQuery q with
    | none => some (block "graphql.parse_error" (ascii "GraphQL query failed to parse"))
    | some doc =>
      if exceeds doc.operations.length e.cfg.maxOperations then
        some (block "graphql.operations"
          (ascii "operations " ++ itoa doc.operations.length ++ ascii " exceed max " ++
            itoa e.cfg.maxOperations.toNat))
      else doc.operations.findSome? (checkOperation e doc)

variable [Unicode]

def contentTypeMatch (req : Request) : Bool :=
  let ct := toLower req.contentType
  let ct := if ct.contains (ch ';') then trimSpace (before (ch ';') ct) else ct
  e.contentTypes.contains ct

def pathOnly (p : Bytes) : Bytes := before (ch '?') p

def pathAllowed (req : Request) : Bool :=
  e.paths = [] || e.paths.any fun p => p.isPrefixOf (pathOnly req.path)

/-- The named parameter of the query of a path; empty when there is none. -/
def queryParam (rawPath name : Bytes) : Bytes :=
  match cut (ch '?') rawPath with
  | none => []
  | some (_, q) => match parseQuery q with
    | none => []
    | some vals => queryGet vals name

/-- The queries of a body; `none` when it is no GraphQL payload. -/
def extractBodyQueries (req : Request) : Option (List Bytes) :=
  if (ascii "application/graphql").isPrefixOf (toLower req.contentType) then some [req.body]
  else match (trimSpace req.body).head? with
    | none => none
    | some c =>
      if c = ch '{' then
        match Parser.unmarshalObject req.body with
        | none => none
        | some q => if q = [] then none else some [q]
      else if c = ch '[' then
        match Parser.unmarshalArray req.body with
        | none => none
        | some qs =>
          let out := qs.filter (· ≠ [])
          if out = [] then none else some out
      else none

/-- The queries to inspect; `none` when the request is not one the engine guards. -/
def extract (req : Request) : Option (List Bytes) :=
  if req.method = ascii "POST" then
    if !contentTypeMatch e req || !pathAllowed e req then none else extractBodyQueries req
  else if req.method = ascii "GET" then
    if !pathAllowed e req then none
    else
      let q := queryParam req.path (ascii "query")
      if q ≠ [] then some [q] else none
  else none

def inspect (req : Request) : Verdict :=
  if req.direction ≠ .request then {}
  else match extract e req with
    | none => {}
    | some queries =>
      if exceeds queries.length e.cfg.maxOperations then
        block "graphql.batch"
          (ascii "batched operations " ++ itoa queries.length ++ ascii " exceed max " ++
            itoa e.cfg.maxOperations.toNat)
      else (queries.findSome? (checkQuery e)).getD {}

end

end ElchiShield.GraphQL
