import ElchiShield.Config.Types
import ElchiShield.Engine
import ElchiShield.Go.Path

/-! # Request matchers

Package `matcher`: hosts, paths, methods, content types and headers of a route, compiled
from the config. -/
namespace ElchiShield.Matcher
open ElchiShield.Go ElchiShield.Config

/-! ## Hosts -/

/-- Strip a "user@" part, up to the last at sign. -/
def stripUserinfo (host : Bytes) : Bytes :=
  match cutLast (ch '@') host with
  | some (_, rest) => rest
  | none => host

/-- Strip one trailing dot; the bare root is left as it is. -/
def stripTrailingDot (host : Bytes) : Bytes :=
  if host.length > 1 ∧ host.getLast? = some dot then host.dropLast else host

/-- Strip a trailing ":port", unless the last colon stands inside an IPv6 literal. -/
def trimPort (host : Bytes) : Bytes :=
  match cutLast (ch ':') host with
  | some (before, after) => if after.contains (ch ']') then host else before
  | none => host

/-- The authority without userinfo, port and trailing dot. -/
def bareHost (host : Bytes) : Bytes := stripTrailingDot (trimPort (stripUserinfo host))

inductive Host where
  | exact (host : Bytes)
  | wildcard (suffix : Bytes)
  | catchAll
  deriving DecidableEq

def hostExactScore : Int := 1048576

def Host.isExact : Host → Bool
  | .exact _ => true
  | _ => false

def Host.specificity : Host → Int
  | .exact _ => hostExactScore
  | .wildcard suffix => suffix.length
  | .catchAll => 0

section
variable [Unicode]

def normalizeHost (host : Bytes) : Bytes := toLower (bareHost host)

def compileHost (pattern : Bytes) : Except Err Host :=
  let p := toLower (trimSpace pattern)
  if p = [] then .error ⟨"empty host pattern", []⟩
  else if p = ascii "*" then .ok .catchAll
  else match cutPrefix (ascii "*.") p with
    | some rest =>
      if stripTrailingDot rest = [] then .error ⟨"invalid wildcard host %q", [.str pattern]⟩
      else .ok (.wildcard (dot :: stripTrailingDot rest))
    | none => .ok (.exact (stripTrailingDot p))

def hasSuffixFold (s suffix : Bytes) : Bool :=
  suffix.length ≤ s.length && equalFold (s.drop (s.length - suffix.length)) suffix

def Host.match (h : Host) (host : Bytes) : Bool :=
  match h with
  | .catchAll => true
  | .exact e => equalFold (bareHost host) e
  | .wildcard suffix =>
    suffix.length < (bareHost host).length && hasSuffixFold (bareHost host) suffix

end

/-! ## Paths -/

inductive Path where
  | any
  | pre (value : Bytes)
  | regex (re : Bytes → Bool)
  | exact (value : Bytes)

def compilePath [Library] (exact pre regex : Bytes) : Except Err Path :=
  if exact ≠ [] then .ok (.exact exact)
  else if regex ≠ [] then
    match Library.regexp regex with
    | .ok re => .ok (.regex re)
    | .error e => .error ⟨"compile path regex %q: %w", [.str regex, .str e]⟩
  else if pre ≠ [] then .ok (.pre pre)
  else .ok .any

def Path.match (p : Path) (path : Bytes) : Bool :=
  match p with
  | .exact value => path == value
  | .pre value => value.isPrefixOf path
  | .regex re => re path
  | .any => true

/-- The order of the path kinds, increasing in specificity. -/
def Path.specificity : Path → Nat
  | .any => 0
  | .pre _ => 1
  | .regex _ => 2
  | .exact _ => 3

def Path.prefixLen : Path → Nat
  | .pre value => value.length
  | _ => 0

/-- `NormalizePath`: without query and fragment, percent-decoded once, dot segments and
repeated slashes collapsed, a trailing slash kept. -/
def normalizePath (raw : Bytes) : Bytes :=
  let p := before (ch '#') (before (ch '?') raw)
  let p := (pathUnescape p).getD p
  if p = [] then raw
  else
    let cleaned := cleanPath p
    let cleaned := if cleaned = [dot] then [slash] else cleaned
    if p.getLast? = some slash ∧ cleaned.getLast? ≠ some slash then cleaned ++ [slash] else cleaned

/-! ## Methods, content types and headers -/

section
variable [Library]

/-- An empty list matches any method. -/
structure Methods where
  set : List Bytes

def compileMethods (methods : List Bytes) : Methods := ⟨methods.map fun m => toUpper (trimSpace m)⟩

def Methods.match (m : Methods) (method : Bytes) : Bool :=
  m.set = [] || m.set.contains method || m.set.contains (toUpper method)

/-- Lowercased type and subtype, without parameters. -/
def splitMedia (v : Bytes) : Bytes × Bytes :=
  let v := toLower (trimSpace (before (ch ';') v))
  (cut (ch '/') v).getD (v, [])

/-- Type and subtype patterns, "*" for any; an empty list matches any content type. -/
structure ContentType where
  patterns : List (Bytes × Bytes)

def compileContentTypes (values : List Bytes) : ContentType := ⟨values.map splitMedia⟩

def ContentType.match (c : ContentType) (ct : Bytes) : Bool :=
  c.patterns = [] || c.patterns.any fun p =>
    (p.1 = ascii "*" || p.1 = (splitMedia ct).1) && (p.2 = ascii "*" || p.2 = (splitMedia ct).2)

inductive HeaderKind where
  | present (wanted : Bool)
  | exact (value : Bytes)
  | contains (value : Bytes)
  | regex (re : Bytes → Bool)

structure Header where
  name : Bytes
  kind : HeaderKind

def compileHeader (hm : HeaderMatch) : Except Err Header :=
  if hm.exact ≠ [] then .ok ⟨hm.name, .exact hm.exact⟩
  else if hm.contains ≠ [] then .ok ⟨hm.name, .contains hm.contains⟩
  else if hm.regex ≠ [] then
    match Library.regexp hm.regex with
    | .ok re => .ok ⟨hm.name, .regex re⟩
    | .error e => .error ⟨"compile header regex %q: %w", [.str hm.regex, .str e]⟩
  else .ok ⟨hm.name, .present (hm.present.getD true)⟩

def compileHeaders (hms : List HeaderMatch) : Except Err (List Header) := hms.mapM compileHeader

def Header.match (h : Header) (src : List Engine.Header) : Bool :=
  match h.kind, Engine.header src h.name with
  | .present wanted, v => v.isSome == wanted
  | .exact value, some v => v == value
  | .contains value, some v => containsSub v value
  | .regex re, some v => re v
  | _, none => false

def matchAll (hs : List Header) (src : List Engine.Header) : Bool := hs.all fun h => h.match src

end

end ElchiShield.Matcher
