import ElchiShield.Config.Types
import ElchiShield.Go.Elliptic

/-! # JSON Web Tokens

What the engines `jwt` and `jwks` rely on of the library that parses and verifies tokens, and what
both of them do with a header. The method that verifies a token is named by the token itself, so
the choice of the key is left to a function of the engine. -/
namespace ElchiShield.Tokens
open ElchiShield.Go ElchiShield.Config

/-! ## Keys and methods -/

/-- `other` is a key of a type no method verifies with. -/
inductive PublicKey where
  | rsa (n : Nat) (e : Int)
  | ecdsa (curve : Curve) (x y : Nat)
  | ed25519 (key : Bytes)
  | other
  deriving DecidableEq

/-- What a key function returns. -/
inductive Key where
  | secret (s : Bytes)
  | «public» (k : PublicKey)
  deriving DecidableEq

/-- The type of a signing method, as far as the key functions tell them apart. -/
inductive Method where
  | none
  | hmac
  | other
  deriving DecidableEq, Repr

/-! ## Tokens -/

inductive Json where
  | null
  | bool (b : Bool)
  | number (x : Float64)
  | string (s : Bytes)
  | array (items : List Json)
  | object (fields : List (Bytes × Json))

abbrev Claims := List (Bytes × Json)

/-- A token as a key function is given it: its method under the name `alg`. The `kid` is empty where
the header has no such string. -/
structure Token where
  method : Method
  alg : Bytes
  kid : Bytes
  claims : Claims

structure ParserOptions where
  validMethods : List Bytes
  issuer : Bytes
  audience : Bytes
  leeway : Duration
  expirationRequired : Bool

/-- The options both engines pass: an expiry is required, and a leeway that is not positive is
not passed on. -/
def parserOpts (algorithms : List Bytes) (issuer audience : Bytes) (leeway : Duration) :
    ParserOptions where
  validMethods := algorithms
  issuer := issuer
  audience := audience
  leeway := if leeway > 0 then leeway else 0
  expirationRequired := true

/-- The library, with what the engines rely on. -/
class Gojwt where
  /-- `ParseWithClaims` at a time, in nanoseconds; `none` on an error. -/
  parseWithClaims : ParserOptions → (Token → Except Err Key) → Nat → Bytes → Option Claims
  /-- A text reads as a token. -/
  reads : Bytes → Token → Prop
  /-- A text carries a signature by the method of a token under a key. -/
  signed : Token → Key → Bytes → Prop
  /-- Claims meet the options at a time. -/
  valid : ParserOptions → Nat → Claims → Prop
  /-- What is parsed was read, names a method that is allowed, is signed under the key the key
  function has for it, and is valid. -/
  parseWithClaims_iff : ∀ opts keyFunc now text claims,
    parseWithClaims opts keyFunc now text = some claims ↔
      ∃ t key, (reads text t ∧ t.alg ∈ opts.validMethods ∧ keyFunc t = .ok key ∧
        signed t key text ∧ valid opts now t.claims) ∧ t.claims = claims
  /-- An HMAC method has a name of this form. -/
  hmac_alg : ∀ text t, reads text t → t.method = .hmac → (ascii "HS").isPrefixOf t.alg = true
  /-- An HMAC method verifies with a secret, and a method that is neither one nor "none" with a
  public key. -/
  signed_key : ∀ text t key, signed t key text →
    (t.method = .hmac ∧ ∃ s, key = .secret s) ∨ (t.method = .other ∧ ∃ k, key = .public k)

/-- What a text went through that was parsed. -/
structure Verified [Gojwt] (opts : ParserOptions) (keyFunc : Token → Except Err Key) (now : Nat)
    (text : Bytes) (t : Token) (key : Key) : Prop where
  reads : Gojwt.reads text t
  allowed : t.alg ∈ opts.validMethods
  found : keyFunc t = .ok key
  signed : Gojwt.signed t key text
  valid : Gojwt.valid opts now t.claims

theorem parseWithClaims_eq_some [Gojwt] {opts : ParserOptions} {keyFunc : Token → Except Err Key}
    {now : Nat} {text : Bytes} {claims : Claims} :
    Gojwt.parseWithClaims opts keyFunc now text = some claims ↔
      ∃ t key, Verified opts keyFunc now text t key ∧ t.claims = claims := by
  rw [Gojwt.parseWithClaims_iff]
  constructor
  · rintro ⟨t, key, ⟨hreads, hallowed, hfound, hsigned, hvalid⟩, hclaims⟩
    exact ⟨t, key, ⟨hreads, hallowed, hfound, hsigned, hvalid⟩, hclaims⟩
  · rintro ⟨t, key, hv, hclaims⟩
    exact ⟨t, key, ⟨hv.reads, hv.allowed, hv.found, hv.signed, hv.valid⟩, hclaims⟩

/-! ## What both engines do with a header -/

/-- A prefix "Bearer " in any case is taken off. -/
def stripBearer [Unicode] (raw : Bytes) : Bytes :=
  if raw.length ≥ 7 ∧ equalFold (raw.take 7) (ascii "Bearer ") then trimSpace (raw.drop 7) else raw

def isEmptyClaim : Json → Bool
  | .null => true
  | .string s => s = []
  | .array items => items.length = 0
  | .object fields => fields.length = 0
  | _ => false

/-- The first required claim that is missing or empty. -/
def missingClaim (required : List Bytes) (claims : Claims) : Option Bytes :=
  required.find? fun name => (claims.lookup name).all isEmptyClaim

/-- A claim is there and not empty. -/
def Filled (claims : Claims) (name : Bytes) : Prop :=
  ∃ v, claims.lookup name = some v ∧ isEmptyClaim v = false

theorem missingClaim_eq_none {required : List Bytes} {claims : Claims} :
    missingClaim required claims = none ↔ ∀ name ∈ required, Filled claims name := by
  rw [missingClaim, List.find?_eq_none]
  refine forall₂_congr fun name _ => ?_
  cases hv : claims.lookup name with
  | none => simp [Filled, hv]
  | some v => simp [Filled, hv]

/-- How the check of a token ends. -/
inductive Checked where
  | invalid
  | missing (name : Bytes)
  | ok

section
variable [Gojwt] {opts : ParserOptions} {keyFunc : Token → Except Err Key} {required : List Bytes}
  {now : Nat} {text : Bytes}

/-- What `Inspect` does with the text of a token. -/
def checkToken (opts : ParserOptions) (keyFunc : Token → Except Err Key) (required : List Bytes)
    (now : Nat) (text : Bytes) : Checked :=
  match Gojwt.parseWithClaims opts keyFunc now text with
  | none => .invalid
  | some claims => match missingClaim required claims with
    | some name => .missing name
    | none => .ok

theorem checkToken_eq_ok :
    checkToken opts keyFunc required now text = .ok ↔
      ∃ t key, Verified opts keyFunc now text t key ∧ ∀ name ∈ required, Filled t.claims name := by
  constructor
  · intro h
    unfold checkToken at h
    split at h
    next => cases h
    next claims hparse =>
      obtain ⟨t, key, hv, rfl⟩ := parseWithClaims_eq_some.mp hparse
      split at h
      next => cases h
      next hmissing => exact ⟨t, key, hv, missingClaim_eq_none.mp hmissing⟩
  · rintro ⟨t, key, hv, hfilled⟩
    rw [checkToken, parseWithClaims_eq_some.mpr ⟨t, key, hv, rfl⟩]
    simp only [missingClaim_eq_none.mpr hfilled]

end

/-! ## One token -/

/-- A token with its text, the key it is signed under and the second it expires in. -/
structure Sample where
  text : Bytes
  token : Token
  key : Key
  exp : Nat
  named : token.method = .hmac → (ascii "HS").isPrefixOf token.alg = true
  keyed : (token.method = .hmac ∧ ∃ s, key = .secret s) ∨
    (token.method = .other ∧ ∃ k, key = .public k)

namespace Sample

/-- The claims of a sample say nothing of an issuer or an audience. -/
def Valid (s : Sample) (opts : ParserOptions) (now : Nat) : Prop :=
  opts.issuer = [] ∧ opts.audience = [] ∧ (now : Int) < s.exp * second + opts.leeway

instance (s : Sample) (opts : ParserOptions) (now : Nat) : Decidable (s.Valid opts now) :=
  inferInstanceAs (Decidable (_ ∧ _ ∧ _))

/-- What the library makes of the text of a sample. -/
@[reducible] def gojwt (s : Sample) : Gojwt where
  parseWithClaims opts keyFunc now text :=
    if text = s.text ∧ s.token.alg ∈ opts.validMethods ∧ s.Valid opts now then
      match keyFunc s.token with
      | .ok key => if key = s.key then some s.token.claims else none
      | .error _ => none
    else none
  reads text t := text = s.text ∧ t = s.token
  signed t key text := text = s.text ∧ t = s.token ∧ key = s.key
  valid opts now _ := s.Valid opts now
  parseWithClaims_iff := by
    intro opts keyFunc now text claims
    constructor
    · intro h
      split at h
      next hall =>
        split at h
        next key hkey =>
          split at h
          next heq => exact ⟨s.token, key, ⟨⟨hall.1, rfl⟩, hall.2.1, hkey, ⟨hall.1, rfl, heq⟩, hall.2.2⟩,
            Option.some.inj h⟩
          next => cases h
        next => cases h
      next => cases h
    · rintro ⟨t, key, ⟨⟨rfl, rfl⟩, hallowed, hfound, ⟨-, -, rfl⟩, hvalid⟩, rfl⟩
      simp [hallowed, hvalid, hfound]
  hmac_alg := by
    rintro text t ⟨-, rfl⟩
    exact s.named
  signed_key := by
    rintro text t key ⟨-, rfl, rfl⟩
    exact s.keyed

end Sample

end ElchiShield.Tokens
