import ElchiShield.Engine
import ElchiShield.Engine.Tokens

/-! # Tokens under a configured key

Package `engine/jwt`: a secret or a public key, and the algorithms it may be used with. The text
of a public key is no secret, so a token that names an HMAC method must never be verified with
it. -/
namespace ElchiShield.Jwt
open ElchiShield.Go ElchiShield.Config ElchiShield.Engine ElchiShield.Tokens

structure Config where
  issuer : Bytes := []
  audience : Bytes := []
  algorithms : List Bytes
  hmacSecret : Bytes := []
  publicKeyPEM : Bytes := []
  requiredClaims : List Bytes := []
  headerName : Bytes := []
  leeway : Duration := 0

/-- `pem.Decode` and the two parsers of package `x509`. -/
class X509 where
  decodePEM : Bytes → Option Bytes
  parsePKIXPublicKey : Bytes → Option PublicKey
  parseCertificate : Bytes → Option PublicKey

def parsePublicKey [X509] (pem : Bytes) : Except Err PublicKey :=
  match X509.decodePEM pem with
  | none => .error ⟨"jwt: invalid PEM public key", []⟩
  | some block => match X509.parsePKIXPublicKey block with
    | some key => .ok key
    | none => match X509.parseCertificate block with
      | some key => .ok key
      | none => .error ⟨"jwt: unsupported public key format", []⟩

/-- An algorithm that a key can verify. -/
def algMatches : PublicKey → Bytes → Bool
  | .rsa _ _, alg => (ascii "RS").isPrefixOf alg || (ascii "PS").isPrefixOf alg
  | .ecdsa _ _ _, alg => (ascii "ES").isPrefixOf alg
  | .ed25519 _, alg => alg = ascii "EdDSA"
  | .other, _ => false

def checkKeyAlgMatch (key : PublicKey) (algs : List Bytes) : Except Err Unit :=
  match algs.find? fun alg => !algMatches key alg with
  | some alg =>
    .error ⟨"jwt: algorithm %q does not match the configured public key type %T", [.str alg]⟩
  | none => .ok ()

theorem checkKeyAlgMatch_ok {key : PublicKey} {algs : List Bytes}
    (h : checkKeyAlgMatch key algs = .ok ()) : ∀ alg ∈ algs, algMatches key alg = true := by
  unfold checkKeyAlgMatch at h
  split at h
  next => cases h
  next hnone => simpa using List.find?_eq_none.mp hnone

/-- A public key fits every algorithm, and there is one wherever a text is given for it. -/
structure Engine where
  cfg : Config
  headerName : Bytes
  pubKey : Option PublicKey
  keyed : cfg.publicKeyPEM ≠ [] → pubKey.isSome
  matched : ∀ key ∈ pubKey, ∀ alg ∈ cfg.algorithms, algMatches key alg = true

/-- The header a configuration names. -/
def Config.header (cfg : Config) : Bytes :=
  if cfg.headerName = [] then ascii "Authorization" else cfg.headerName

/-- The part of `New` that loads the public key. -/
def loadKey [X509] (cfg : Config) : Except Err Engine :=
  if hpem : cfg.publicKeyPEM = [] then .ok ⟨cfg, cfg.header, none, fun h => absurd hpem h, by simp⟩
  else match parsePublicKey cfg.publicKeyPEM with
    | .error e => .error e
    | .ok key => match hmatch : checkKeyAlgMatch key cfg.algorithms with
      | .error e => .error e
      | .ok () =>
        .ok ⟨cfg, cfg.header, some key, fun _ => rfl, by simpa using checkKeyAlgMatch_ok hmatch⟩

def new [X509] (cfg : Config) : Except Err Engine :=
  if cfg.hmacSecret = [] ∧ cfg.publicKeyPEM = [] then
    .error ⟨"jwt: a hmac_secret or public_key is required", []⟩
  else if cfg.algorithms = [] then
    .error ⟨"jwt: at least one algorithm must be configured", []⟩
  else loadKey cfg

namespace Engine

def parserOpts (e : Engine) : ParserOptions :=
  Tokens.parserOpts e.cfg.algorithms e.cfg.issuer e.cfg.audience e.cfg.leeway

def keyFunc (e : Engine) (t : Token) : Except Err Key :=
  match t.method with
  | .none => .error ⟨"alg:none is not allowed", []⟩
  | .hmac =>
    if e.cfg.hmacSecret = [] then .error ⟨"HMAC token but no hmac_secret configured", []⟩
    else .ok (.secret e.cfg.hmacSecret)
  | .other => match e.pubKey with
    | none => .error ⟨"asymmetric token but no public key configured", []⟩
    | some key => .ok (.public key)

def block (ruleID : String) (reason : Bytes) : Verdict where
  action := .block
  reason := reason
  ruleID := ascii ruleID
  engine := ascii "jwt"
  severity := .high

/-- `Inspect` at a time. -/
def inspect [Unicode] [Gojwt] (e : Engine) (now : Nat) (req : Request) : Verdict :=
  if req.direction ≠ .request then {}
  else match header req.headers e.headerName with
    | none => block "jwt.missing" (ascii "missing JWT in " ++ e.headerName)
    | some raw =>
      if trimSpace raw = [] then block "jwt.missing" (ascii "missing JWT in " ++ e.headerName)
      else match checkToken e.parserOpts e.keyFunc e.cfg.requiredClaims now (stripBearer raw) with
        | .invalid => block "jwt.invalid" (ascii "JWT validation failed")
        | .missing name =>
          block "jwt.missing_claim" (ascii "required claim missing or empty: " ++ name)
        | .ok => {}

/-- The engine as the engine set of a policy calls it, with the clock by tick. -/
def securityEngine [Unicode] [Gojwt] (e : Engine) (clock : Nat → Nat) : SecurityEngine where
  name := ascii "jwt"
  requiresBody := false
  inspectsResponse := false
  inspect tick req := .verdict (e.inspect (clock tick) req)

theorem inspect_cases [Unicode] [Gojwt] (e : Engine) (now : Nat) (req : Request) :
    (e.inspect now req).action = .block ∨ e.inspect now req = {} := by
  unfold inspect
  repeat' split
  all_goals simp [block]

end Engine

/-! ## Which key verifies what -/

/-- No public key fits an HMAC method. -/
theorem algMatches_hmac {alg : Bytes} (h : (ascii "HS").isPrefixOf alg = true) (key : PublicKey) :
    algMatches key alg = false := by
  obtain ⟨rest, rfl⟩ := List.isPrefixOf_iff_prefix.mp h
  cases key with
  | rsa n e => rfl
  | ecdsa curve x y => rfl
  | ed25519 k => rfl
  | other => rfl

/-- What `New` makes of a configuration it accepts. -/
theorem new_ok [X509] {cfg : Config} {e : Engine} (h : new cfg = .ok e) :
    e.cfg = cfg ∧ e.headerName = cfg.header ∧ (cfg.publicKeyPEM = [] → cfg.hmacSecret ≠ []) ∧
      (e.pubKey = none ∧ cfg.publicKeyPEM = [] ∨
        ∃ key, e.pubKey = some key ∧ cfg.publicKeyPEM ≠ [] ∧
          parsePublicKey cfg.publicKeyPEM = .ok key) := by
  unfold new at h
  split at h
  next => cases h
  next hkeys =>
    have hsecret : cfg.publicKeyPEM = [] → cfg.hmacSecret ≠ [] := fun hpem hnone =>
      hkeys ⟨hnone, hpem⟩
    split at h
    next => cases h
    next =>
      unfold loadKey at h
      split at h
      next hpem =>
        cases h
        exact ⟨rfl, rfl, hsecret, .inl ⟨rfl, hpem⟩⟩
      next hpem =>
        split at h
        next => cases h
        next key hparse =>
          split at h
          next => cases h
          next =>
            cases h
            exact ⟨rfl, rfl, hsecret, .inr ⟨key, rfl, hpem, hparse⟩⟩

/-- The keys a configuration trusts: the secret only where no public key is given. -/
inductive Trusted [X509] (cfg : Config) : Key → Prop where
  | secret (hpem : cfg.publicKeyPEM = []) : Trusted cfg (.secret cfg.hmacSecret)
  | publicKey {key : PublicKey} (hpem : cfg.publicKeyPEM ≠ [])
      (hkey : parsePublicKey cfg.publicKeyPEM = .ok key) : Trusted cfg (.public key)

/-- A text holds a token that a configuration accepts at a time, signed under a key it trusts. -/
structure Accepts [X509] [Gojwt] (cfg : Config) (now : Nat) (text : Bytes) (t : Token) (key : Key) :
    Prop where
  reads : Gojwt.reads text t
  allowed : t.alg ∈ cfg.algorithms
  trusted : Trusted cfg key
  signed : Gojwt.signed t key text
  valid : Gojwt.valid (Tokens.parserOpts cfg.algorithms cfg.issuer cfg.audience cfg.leeway) now
    t.claims
  filled : ∀ name ∈ cfg.requiredClaims, Filled t.claims name

section
variable [X509] [Gojwt] {cfg : Config} {e : Engine} {text : Bytes} {t : Token} {key : Key}

/-- For a token that is signed under a key, with a method the configuration allows, the key function
gives that key exactly where the configuration trusts it. -/
theorem keyFunc_ok_iff (h : new cfg = .ok e) (hreads : Gojwt.reads text t)
    (hallowed : t.alg ∈ cfg.algorithms) (hsigned : Gojwt.signed t key text) :
    e.keyFunc t = .ok key ↔ Trusted cfg key := by
  obtain ⟨rfl, -, hsecret, hpub⟩ := new_ok h
  obtain ⟨hmethod, s, rfl⟩ | ⟨hmethod, k, rfl⟩ := Gojwt.signed_key text t key hsigned
  · constructor
    · intro hfound
      obtain ⟨-, hpem⟩ | ⟨k, hk, -, -⟩ := hpub
      · simp only [Engine.keyFunc, hmethod, if_neg (hsecret hpem), Except.ok.injEq] at hfound
        rw [← hfound]
        exact .secret hpem
      · -- a public key is loaded, and it fits no method that takes a secret
        have hfits := e.matched k hk t.alg hallowed
        rw [algMatches_hmac (Gojwt.hmac_alg text t hreads hmethod)] at hfits
        cases hfits
    · rintro ⟨hpem⟩
      simp [Engine.keyFunc, hmethod, hsecret hpem]
  · obtain ⟨hnone, hpem⟩ | ⟨k', hk', hpem, hparse⟩ := hpub
    · simp only [Engine.keyFunc, hmethod, hnone]
      constructor
      · intro hk
        cases hk
      · rintro (_ | ⟨hne, -⟩)
        exact absurd hpem hne
    · simp only [Engine.keyFunc, hmethod, hk']
      constructor
      · intro hk
        cases hk
        exact .publicKey hpem hparse
      · rintro (_ | ⟨-, hk⟩)
        rw [Except.ok.inj (hparse.symm.trans hk)]

theorem accepts_iff {now : Nat} (h : new cfg = .ok e) :
    Accepts cfg now text t key ↔
      Verified e.parserOpts e.keyFunc now text t key ∧
        ∀ name ∈ cfg.requiredClaims, Filled t.claims name := by
  have hopts : e.parserOpts =
      Tokens.parserOpts cfg.algorithms cfg.issuer cfg.audience cfg.leeway := by
    rw [Engine.parserOpts, (new_ok h).1]
  rw [hopts]
  constructor
  · intro ha
    have hfound := (keyFunc_ok_iff h ha.reads ha.allowed ha.signed).mpr ha.trusted
    exact ⟨⟨ha.reads, ha.allowed, hfound, ha.signed, ha.valid⟩, ha.filled⟩
  · rintro ⟨hv, hfilled⟩
    have htrusted := (keyFunc_ok_iff h hv.reads hv.allowed hv.signed).mp hv.found
    exact ⟨hv.reads, hv.allowed, htrusted, hv.signed, hv.valid, hfilled⟩

end

section
variable [Unicode] [X509] [Gojwt]

/-- A request passes an engine exactly with a token the configuration accepts. -/
theorem inspect_eq_iff {cfg : Config} {e : Engine} (h : new cfg = .ok e) (now : Nat)
    {req : Request} (hdir : req.direction = .request) :
    e.inspect now req = {} ↔
      ∃ raw, header req.headers cfg.header = some raw ∧ trimSpace raw ≠ [] ∧
        ∃ t key, Accepts cfg now (stripBearer raw) t key := by
  obtain ⟨hcfg, hheader, -, -⟩ := new_ok h
  have hblock : ∀ ruleID reason, Engine.block ruleID reason ≠ {} := by
    intro ruleID reason heq
    cases congrArg Verdict.action heq
  simp only [Engine.inspect, hdir, ne_eq, not_true_eq_false, if_false, hheader]
  cases header req.headers cfg.header with
  | none => simp [hblock]
  | some raw =>
    by_cases hblank : trimSpace raw = []
    · simp [hblank, hblock]
    have hok : checkToken e.parserOpts e.keyFunc e.cfg.requiredClaims now (stripBearer raw) = .ok ↔
        ∃ t key, Accepts cfg now (stripBearer raw) t key := by
      simp only [checkToken_eq_ok, accepts_iff h, hcfg]
    simp only [hblank, if_false, Option.some.injEq, exists_eq_left', not_false_eq_true, true_and,
      ← hok]
    cases checkToken e.parserOpts e.keyFunc e.cfg.requiredClaims now (stripBearer raw) with
    | invalid => simp [hblock]
    | missing name => simp [hblock]
    | ok => simp

end

end ElchiShield.Jwt
