import ElchiShield.Engine
import ElchiShield.Lib.Splitter

/-! # Client certificates forwarded by Envoy

Package `engine/xfcc`: the parser of the x-forwarded-client-cert header and the engine
that matches the last element against an allow-list. -/
namespace ElchiShield.Xfcc
open ElchiShield.Go ElchiShield.Lib ElchiShield.Engine

def dquote : UInt8 := ch '"'
def backslash : UInt8 := ch '\\'
def comma : UInt8 := ch ','
def semicolon : UInt8 := ch ';'
def equals : UInt8 := ch '='

structure Element where
  hash : Bytes := []
  subject : Bytes := []
  uris : List Bytes := []
  dnss : List Bytes := []
  deriving DecidableEq, Repr

/-! ## The parser -/

/-- The loop of `splitTop`; `cur` is `s[start:i]`. -/
def splitTopLoop (sep : UInt8) : Bool → Bytes → Bytes → List Bytes
  | _, cur, [] => [cur]
  | inQuote, cur, [c] =>
    if c ≠ dquote ∧ c = sep ∧ !inQuote then [cur, []] else [cur ++ [c]]
  | inQuote, cur, c :: d :: rest =>
    -- an escaped byte neither closes the quote nor separates
    if inQuote ∧ c = backslash then splitTopLoop sep inQuote (cur ++ [c, d]) rest
    else if c = dquote then splitTopLoop sep (!inQuote) (cur ++ [c]) (d :: rest)
    else if c = sep ∧ !inQuote then cur :: splitTopLoop sep inQuote [] (d :: rest)
    else splitTopLoop sep inQuote (cur ++ [c]) (d :: rest)

def splitTop (s : Bytes) (sep : UInt8) : List Bytes := splitTopLoop sep false [] s

/-- The loop of `unquote`: a backslash gives way to the byte after it. -/
def unescapeLoop : Bytes → Bytes
  | [] => []
  | [c] => [c]
  | c :: d :: rest =>
    if c = backslash then d :: unescapeLoop rest else c :: unescapeLoop (d :: rest)

def unquote (s : Bytes) : Bytes :=
  if s.length < 2 ∨ s.head? ≠ some dquote ∨ s.getLast? ≠ some dquote then s
  else
    let inner := s.tail.dropLast
    if inner.contains backslash then unescapeLoop inner else inner

section
variable [Unicode]

def parsePair (cur : Element) (pair : Bytes) : Element :=
  match cut equals pair with
  | none => cur
  | some (key, val) =>
    let val := unquote (trimSpace val)
    let key := toLower (trimSpace key)
    if key = ascii "hash" then { cur with hash := val }
    else if key = ascii "subject" then { cur with subject := val }
    else if key = ascii "uri" then { cur with uris := cur.uris ++ [val] }
    else if key = ascii "dns" then { cur with dnss := cur.dnss ++ [val] }
    else cur

def parseElement (kv : Bytes) : Element := (splitTop kv semicolon).foldl parsePair {}

/-- `flush` runs before each piece and once at the end, so every piece gives one element. -/
def parse (header : Bytes) : List Element :=
  if trimSpace header = [] then [] else (splitTop header comma).map parseElement

/-! ## The engine -/

structure Config where
  headerName : Bytes := []
  requirePresent : Bool := false
  uris : List Bytes := []
  dnsNames : List Bytes := []
  subjects : List Bytes := []
  hashes : List Bytes := []
  deriving DecidableEq, Repr

def toSet (items : List Bytes) (lower : Bool) : List Bytes :=
  items.map fun s => if lower then toLower s else s

def Config.header (cfg : Config) : Bytes :=
  if cfg.headerName = [] then ascii "x-forwarded-client-cert" else cfg.headerName

def Config.hasAllow (cfg : Config) : Bool :=
  0 < cfg.uris.length + cfg.dnsNames.length + cfg.subjects.length + cfg.hashes.length

def Config.matches (cfg : Config) (el : Element) : Bool :=
  ((toSet cfg.subjects false).contains el.subject && el.subject != []) ||
  ((toSet cfg.hashes true).contains (toLower el.hash) && el.hash != []) ||
  el.uris.any (fun u => (toSet cfg.uris false).contains u) ||
  el.dnss.any (fun d => (toSet cfg.dnsNames true).contains (toLower d))

def block (ruleID reason : Bytes) : Verdict where
  action := .block
  reason := reason
  ruleID := ruleID
  engine := ascii "xfcc"
  severity := .high
  statusCode := defaultBlockStatus

def inspect (cfg : Config) (req : Request) : Verdict :=
  if req.direction ≠ .request then {}
  else
    -- an absent header and a blank one are treated alike
    let hdr := (header req.headers cfg.header).getD []
    if trimSpace hdr = [] then
      if cfg.requirePresent then
        block (ascii "xfcc.missing") (ascii "client certificate (XFCC) required but not present")
      else {}
    else if !cfg.hasAllow then {}
    else if (parse hdr).getLast?.any cfg.matches then {}
    else block (ascii "xfcc.no_match") (ascii "client certificate identity not in the allow-list")

/-- `New` with the methods of `Engine`. -/
def new (cfg : Config) : SecurityEngine where
  name := ascii "xfcc"
  requiresBody := false
  inspectsResponse := false
  inspect := fun _ req => .verdict (inspect cfg req)

end

end ElchiShield.Xfcc
