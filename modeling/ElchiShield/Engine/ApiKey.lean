import ElchiShield.Config.Types
import ElchiShield.Engine
import ElchiShield.Go.Encoding
import ElchiShield.Go.Query

/-! # API keys

Package `engine/apikey`: keys are known by their hashes, and a key needs the scopes bound to
the prefixes of the path. -/
namespace ElchiShield.ApiKey
open ElchiShield.Go ElchiShield.Config ElchiShield.Engine

structure Engine where
  fromQuery : Bool
  name : Bytes
  keys : List (Bytes × List Bytes)
  bindings : List ScopeBindingSpec

def decodeHex32 (s : Bytes) : Except Err Bytes :=
  match hexDecode s with
  | none => .error ⟨"apikey: invalid sha256 hex %q: %w", [.str s]⟩
  | some b =>
    if b.length ≠ 32 then .error ⟨"apikey: sha256 must be 32 bytes, got %d", [.int b.length]⟩
    else .ok b

section
variable (sha256 : Bytes → Bytes)

def keySum (k : APIKeyEntrySpec) : Except Err Bytes :=
  if k.sha256 ≠ [] then decodeHex32 k.sha256 else .ok (sha256 k.key)

/-- The loop of `New`: a second entry for a key is an error. -/
def addKeys : List APIKeyEntrySpec → List (Bytes × List Bytes) →
    Except Err (List (Bytes × List Bytes))
  | [], keys => .ok keys
  | k :: rest, keys => do
    let sum ← keySum sha256 k
    if (keys.lookup sum).isSome then throw ⟨"apikey: duplicate key configured", []⟩
    addKeys rest (keys ++ [(sum, k.scopes)])

/-- `New`; its `Config` has the fields of the spec. -/
def new (cfg : APIKeySpec) : Except Err Engine := do
  let keys ← addKeys sha256 cfg.keys []
  return {
    fromQuery := cfg.source = ascii "query"
    name := if cfg.name = [] then ascii "X-Api-Key" else cfg.name
    keys
    bindings := cfg.bindings }

def block (ruleID : String) (reason : Bytes) : Verdict where
  action := .block
  reason := reason
  ruleID := ascii ruleID
  engine := ascii "apikey"
  severity := .high
  statusCode := defaultBlockStatus

/-- The engine's own copy of the route-matching form of a path. -/
def normalizePath (raw : Bytes) : Bytes :=
  let p := raw.takeWhile fun b => !(ascii "?#").contains b
  let p := (pathUnescape p).getD p
  if p = [] then raw
  else
    let cleaned := cleanPath p
    let cleaned := if cleaned = [dot] then [slash] else cleaned
    if p.getLast? = some slash ∧ cleaned.getLast? ≠ some slash then cleaned ++ [slash] else cleaned

variable [Unicode]

def extract (e : Engine) (req : Request) : Bytes :=
  if e.fromQuery then
    match cut (ch '?') req.path with
    | some (_, query) =>
      match parseQuery query with
      | some vals => trimSpace (queryGet vals e.name)
      | none => []
    | none => []
  else trimSpace ((header req.headers e.name).getD [])

/-- The first binding of the path whose scope the key lacks. -/
def missingScope (e : Engine) (scopes : List Bytes) (path : Bytes) : Option ScopeBindingSpec :=
  e.bindings.find? fun b => b.pathPrefix.isPrefixOf path && !scopes.contains b.scope

def inspect (e : Engine) (req : Request) : Verdict :=
  if req.direction ≠ .request then {}
  else if extract e req = [] then block "apikey.missing" (ascii "missing API key")
  else match e.keys.lookup (sha256 (extract e req)) with
    | none => block "apikey.unknown" (ascii "unknown API key")
    | some scopes =>
      match missingScope e scopes (normalizePath req.path) with
      | some b => block "apikey.scope" (ascii "API key lacks required scope: " ++ b.scope)
      | none => {}

end

end ElchiShield.ApiKey
