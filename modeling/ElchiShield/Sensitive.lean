import ElchiShield.Lib.Regex
import ElchiShield.Stages.Body
import Mathlib.Data.List.Sort

/-! # The built-in detector of sensitive data

Package `sensitive`: its patterns, where they match, and the checksum of card numbers. The
expressions are matched byte by byte, which is what RE2 does with classes of ASCII bytes. -/
namespace ElchiShield.Sensitive
open ElchiShield.Go ElchiShield.Lib ElchiShield.Stages

/-! ## The expressions -/

/-- The bytes of a text. -/
def oneOf (s : String) (b : UInt8) : Bool := (ascii s).contains b

def isUpper (b : UInt8) : Bool := ch 'A' ≤ b && b ≤ ch 'Z'

def isLower (b : UInt8) : Bool := ch 'a' ≤ b && b ≤ ch 'z'

def isAlpha (b : UInt8) : Bool := isUpper b || isLower b

def isAlnum (b : UInt8) : Bool := isDigit b || isAlpha b

/-- A byte of `\w`, the class that `\b` looks at. -/
def isWord (b : UInt8) : Bool := isAlnum b || b = ch '_'

def isSeparator (b : UInt8) : Bool := b = ch ' ' || b = ch '-'

/-- `\b` -/
def border : Regex UInt8 := .boundary isWord

/-- The parts one after the other. -/
def parts : List (Regex UInt8) → Regex UInt8
  | [] => .upTo 0 border
  | [r] => r
  | r :: rs => .seq r (parts rs)

def lit (s : String) : Regex UInt8 := parts ((ascii s).map fun b => .one (· = b))

def optional (r : Regex UInt8) : Regex UInt8 := .upTo 1 r

/-- `r{n}` -/
def times (n : Nat) (r : Regex UInt8) : Regex UInt8 := parts (List.replicate n r)

/-- `[p]{n,}` -/
def atLeast (n : Nat) (p : UInt8 → Bool) : Regex UInt8 := .seq (times n (.one p)) (.many p)

structure Pattern where
  kind : Bytes
  re : Regex UInt8

def awsAccessKey : Pattern where
  kind := ascii "aws_access_key"
  re := parts [border, .alt (lit "AKIA") (lit "ASIA"),
    times 16 (.one fun b => isDigit b || isUpper b), border]

def privateKey : Pattern where
  kind := ascii "private_key"
  re := parts [lit "-----BEGIN ", .many fun b => isUpper b || isDigit b || b = ch ' ',
    lit "PRIVATE KEY", optional (lit " BLOCK"), lit "-----"]

def googleAPIKey : Pattern where
  kind := ascii "google_api_key"
  re := parts [border, lit "AIza", times 35 (.one fun b => isAlnum b || oneOf "-_" b), border]

def slackToken : Pattern where
  kind := ascii "slack_token"
  re := parts [border, lit "xox", .one (oneOf "baprs"), lit "-",
    atLeast 10 fun b => isAlnum b || b = ch '-', border]

def githubToken : Pattern where
  kind := ascii "github_token"
  re := parts [border,
    .alt (parts [lit "gh", .one (oneOf "pousr"), lit "_", atLeast 36 isAlnum])
      (parts [lit "github_pat_", atLeast 22 isWord]), border]

def stripeKey : Pattern where
  kind := ascii "stripe_key"
  re := parts [border, .one (oneOf "sr"), lit "k_", .alt (lit "live") (lit "test"), lit "_",
    atLeast 16 isAlnum, border]

def jwt : Pattern where
  kind := ascii "jwt"
  re :=
    let part := atLeast 8 fun b => isAlnum b || oneOf "_-" b
    parts [border, lit "eyJ", part, lit ".", part, lit ".", part, border]

def ssn : Pattern where
  kind := ascii "ssn"
  re := parts [border, times 3 (.one isDigit), .one isSeparator, times 2 (.one isDigit),
    .one isSeparator, times 4 (.one isDigit), border]

def email : Pattern where
  kind := ascii "email"
  re := parts [border, atLeast 1 fun b => isAlnum b || oneOf "._%+-" b, lit "@",
    atLeast 1 fun b => isAlnum b || oneOf ".-" b, lit ".", atLeast 2 isAlpha, border]

/-- `Detector.patterns`, as `New` fills them. -/
def patterns : List Pattern :=
  [awsAccessKey, privateKey, googleAPIKey, slackToken, githubToken, stripeKey, jwt, ssn, email]

/-- A digit of a card number and the separator that may follow it. -/
def group : Regex UInt8 := .seq (.one isDigit) (optional (.one isSeparator))

/-- `Detector.luhn`: 13 to 19 digits, optionally grouped by spaces and dashes. -/
def luhn : Regex UInt8 :=
  parts [border, times 12 group, .upTo 6 group, .one isDigit, border]

/-! ## The checksum -/

/-- The loop variables of `luhnValid`. -/
structure Luhn where
  sum : Nat
  alt : Bool
  count : Nat
  first : UInt8

def luhnStep (l : Luhn) (c : UInt8) : Option Luhn :=
  if c = ch ' ' ∨ c = ch '-' then some l
  else if !isDigit c then none
  else
    let n := c.toNat - (ch '0').toNat
    let n := if l.alt then (if n * 2 > 9 then n * 2 - 9 else n * 2) else n
    some ⟨l.sum + n, !l.alt, l.count + 1, c⟩

/-- The digits of a text pass the checksum; separators are skipped, other bytes do not pass. -/
def luhnValid (b : Bytes) : Bool :=
  match b.reverse.foldlM luhnStep ⟨0, false, 0, 0⟩ with
  | none => false
  | some l =>
    -- every card network starts its numbers with one of 2 to 6
    13 ≤ l.count && l.count ≤ 19 && l.sum % 10 = 0 && ch '2' ≤ l.first && l.first ≤ ch '6'

/-! ## Matches -/

def creditCard : Bytes := ascii "credit_card"

/-- The order of `Matches`: by start, and at one start the longer match first. -/
def less (a b : Match) : Bool :=
  if a.start ≠ b.start then a.start < b.start else a.stop > b.stop

/-- `sort.Slice` with `less`; which of two matches of one span comes first is left open. -/
structure SortSlice where
  sort : List Match → List Match
  perm : ∀ ms, (sort ms).Perm ms
  sorted : ∀ ms, (sort ms).Pairwise fun a b => less b a = false

/-- A sort by insertion is one. -/
def insertionSort : SortSlice where
  sort := List.insertionSort fun a b => less b a = false
  perm := List.perm_insertionSort _
  sorted := by
    have : Std.Total fun a b : Match => less b a = false := ⟨fun a b => by
      unfold less
      grind⟩
    have : IsTrans Match fun a b => less b a = false := ⟨fun a b c => by
      unfold less
      grind⟩
    exact List.pairwise_insertionSort _

def Pattern.matches (p : Pattern) (body : Bytes) : List Match :=
  (p.re.findAll body).map fun loc => ⟨loc.1, loc.2, p.kind⟩

/-- `body[a:b]` for a location in the body. -/
def within (body : Bytes) (loc : Nat × Nat) : Bytes := (body.take loc.2).drop loc.1

def cards (body : Bytes) : List Match :=
  ((luhn.findAll body).filter fun loc => luhnValid (within body loc)).map
    fun loc => ⟨loc.1, loc.2, creditCard⟩

def «matches» (sorter : SortSlice) (body : Bytes) : List Match :=
  if body = [] then []
  else
    let ms := patterns.flatMap (·.matches body) ++ cards body
    if ms.length < 2 then ms else sorter.sort ms

/-- `Scan`: the kind of the first pattern that matches. -/
def scan (body : Bytes) : Option Bytes :=
  if body = [] then none
  else match patterns.find? fun p => (p.re.find body 0).isSome with
    | some p => some p.kind
    | none =>
      if (luhn.findAll body).any fun loc => luhnValid (within body loc) then some creditCard
      else none

/-- `New`. -/
def new (sorter : SortSlice) : Detector where
  scan _ body := scan body
  «matches» := «matches» sorter

end ElchiShield.Sensitive
