import ElchiShield.Engine
import ElchiShield.Engine.Tokens
import ElchiShield.Go.Base64
import ElchiShield.Go.Encoding
import ElchiShield.Lib.Guarded

/-! # Tokens under a published key set

Package `engine/jwks`: the keys come from a JWK set, a file or a document that is fetched again
and again. Requests read whatever set was published last and never wait for a fetch. -/
namespace ElchiShield.Jwks
open ElchiShield.Go ElchiShield.Config ElchiShield.Engine ElchiShield.Tokens ElchiShield.Lib

/-! ## JWK sets -/

structure JwkKey where
  kty : Bytes
  kid : Bytes := []
  crv : Bytes := []
  n : Bytes := []
  e : Bytes := []
  x : Bytes := []
  y : Bytes := []

/-- The decoder of JSON. -/
class Jwk where
  unmarshal : Bytes → Except Err (List JwkKey)

abbrev Keys := List (Bytes × PublicKey)

theorem lookup_isSome {keys : Keys} {kid : Bytes} :
    (keys.lookup kid).isSome = true ↔ kid ∈ keys.map Prod.fst := by
  simp only [List.lookup_isSome_iff, beq_iff_eq, List.mem_map]
  exact ⟨fun ⟨p, hp, h⟩ => ⟨p, hp, h.symm⟩, fun ⟨p, hp, h⟩ => ⟨p, hp, h.symm⟩⟩

/-- Where the kids are distinct, a kid has the one key it stands beside. -/
theorem lookup_eq_some {keys : Keys} (h : (keys.map Prod.fst).Nodup) {kid : Bytes}
    {pub : PublicKey} : keys.lookup kid = some pub ↔ (kid, pub) ∈ keys := by
  constructor
  · intro hfound
    obtain ⟨before, after, hsplit, -⟩ := List.lookup_eq_some_iff.mp hfound
    rw [hsplit]
    exact List.mem_append_right _ List.mem_cons_self
  · intro hmem
    obtain ⟨before, after, rfl⟩ := List.append_of_mem hmem
    refine List.lookup_eq_some_iff.mpr ⟨before, after, rfl, fun p hp => ?_⟩
    rw [List.map_append, List.nodup_append] at h
    have hne := h.2.2 p.1 (List.mem_map_of_mem hp) kid (by simp)
    simpa using hne.symm

def b64uBig (s : Bytes) : Option Nat := (rawURLDecode s).map setBytes

def minRSABits : Nat := 2048

def rsaFromJWK (k : JwkKey) : Except Err PublicKey :=
  if k.n = [] ∨ k.e = [] then .error ⟨"jwks: RSA key missing required n/e", []⟩
  else match b64uBig k.n with
    | none => .error ⟨"jwks: RSA n: %w", []⟩
    | some n =>
      if n = 0 then .error ⟨"jwks: RSA modulus must be positive", []⟩
      else if bitLen n < minRSABits then
        .error ⟨"jwks: RSA modulus too small (%d bits, minimum %d)", [.int (bitLen n), .int minRSABits]⟩
      else match rawURLDecode k.e with
        | none => .error ⟨"jwks: RSA e: %w", []⟩
        | some eb =>
          if eb.length = 0 ∨ eb.length > 8 then
            .error ⟨"jwks: RSA exponent length %d invalid (want 1..8 bytes)", [.int eb.length]⟩
          -- eight bytes can hold a number that is negative as an `int`
          else if int64 (setBytes eb) < 2 then
            .error ⟨"jwks: RSA exponent %d invalid", [.int (int64 (setBytes eb))]⟩
          else .ok (.rsa n (int64 (setBytes eb)))

def curveNames : List (Bytes × Curve) :=
  [(ascii "P-256", .p256), (ascii "P-384", .p384), (ascii "P-521", .p521)]

def ecFromJWK (k : JwkKey) : Except Err PublicKey :=
  if k.x = [] ∨ k.y = [] then .error ⟨"jwks: EC key missing required x/y", []⟩
  else match curveNames.lookup k.crv with
    | none => .error ⟨"jwks: unsupported EC curve %q", [.str k.crv]⟩
    | some curve => match b64uBig k.x with
      | none => .error ⟨"jwks: EC x: %w", []⟩
      | some x => match b64uBig k.y with
        | none => .error ⟨"jwks: EC y: %w", []⟩
        | some y =>
          if curve.isOnCurve x y then .ok (.ecdsa curve x y)
          else .error ⟨"jwks: EC point not on curve %q: %w", [.str k.crv]⟩

/-- A key of an unknown type is skipped. -/
def fromJWK (k : JwkKey) : Except Err (Option PublicKey) :=
  if k.kty = ascii "RSA" then (rsaFromJWK k).map some
  else if k.kty = ascii "EC" then (ecFromJWK k).map some
  else .ok none

/-- The loop of `parseJWKS`. -/
def addKeys : List JwkKey → Keys → Except Err Keys
  | [], out => .ok out
  | k :: rest, out => match fromJWK k with
    | .error e => .error e
    | .ok none => addKeys rest out
    | .ok (some pub) =>
      if (out.lookup k.kid).isSome then .error ⟨"jwks: duplicate kid %q", [.str k.kid]⟩
      else addKeys rest (out ++ [(k.kid, pub)])

def parseSet (set : List JwkKey) : Except Err Keys :=
  match addKeys set [] with
  | .error e => .error e
  | .ok out => if out = [] then .error ⟨"jwks: no usable RSA/EC keys", []⟩ else .ok out

def parseJWKS [Jwk] (data : Bytes) : Except Err Keys :=
  match Jwk.unmarshal data with
  | .error e => .error ⟨"jwks: parse: " ++ e.format, e.args⟩
  | .ok set => parseSet set

/-! ## What is parsed -/

/-- A key a set may hold. -/
def Strong : PublicKey → Prop
  | .rsa n e => minRSABits ≤ bitLen n ∧ 2 ≤ e ∧ e < 2 ^ 63
  | .ecdsa curve x y => curve.isOnCurve x y = true
  | _ => False

structure WellFormed (keys : Keys) : Prop where
  nonempty : keys ≠ []
  distinct : (keys.map Prod.fst).Nodup
  strong : ∀ p ∈ keys, Strong p.2

theorem rsaFromJWK_strong {k : JwkKey} {pub : PublicKey} (h : rsaFromJWK k = .ok pub) :
    Strong pub := by
  unfold rsaFromJWK at h
  split at h
  next => cases h
  next =>
    split at h
    next => cases h
    next n _ =>
      split at h
      next => cases h
      next =>
        split at h
        next => cases h
        next hbits =>
          split at h
          next => cases h
          next eb _ =>
            split at h
            next => cases h
            next =>
              split at h
              next => cases h
              next hexp =>
                cases h
                have hlt : int64 (setBytes eb) < 2 ^ 63 := by
                  have := Int.bmod_lt (x := (setBytes eb : Int)) (m := 2 ^ 64) (by decide)
                  unfold int64
                  omega
                exact ⟨by omega, by omega, hlt⟩

theorem ecFromJWK_strong {k : JwkKey} {pub : PublicKey} (h : ecFromJWK k = .ok pub) :
    Strong pub := by
  unfold ecFromJWK at h
  split at h
  next => cases h
  next =>
    split at h
    next => cases h
    next =>
      split at h
      next => cases h
      next =>
        split at h
        next => cases h
        next =>
          split at h
          next hcurve =>
            cases h
            exact hcurve
          next => cases h

theorem fromJWK_strong {k : JwkKey} {pub : PublicKey} (h : fromJWK k = .ok (some pub)) :
    Strong pub := by
  unfold fromJWK at h
  split at h
  next =>
    cases hrsa : rsaFromJWK k with
    | error e => simp [hrsa, Except.map] at h
    | ok pub' =>
      simp only [hrsa, Except.map, Except.ok.injEq, Option.some.injEq] at h
      exact h ▸ rsaFromJWK_strong hrsa
  next =>
    split at h
    next =>
      cases hec : ecFromJWK k with
      | error e => simp [hec, Except.map] at h
      | ok pub' =>
        simp only [hec, Except.map, Except.ok.injEq, Option.some.injEq] at h
        exact h ▸ ecFromJWK_strong hec
    next => cases h

/-- The loop keeps the kids distinct and adds strong keys only. -/
theorem addKeys_ok {set : List JwkKey} {out keys : Keys} (h : addKeys set out = .ok keys)
    (hdistinct : (out.map Prod.fst).Nodup) (hstrong : ∀ p ∈ out, Strong p.2) :
    (keys.map Prod.fst).Nodup ∧ ∀ p ∈ keys, Strong p.2 := by
  fun_induction addKeys set out with
  | case1 out =>
    cases h
    exact ⟨hdistinct, hstrong⟩
  | case2 => cases h
  | case3 _ _ _ _ ih => exact ih h hdistinct hstrong
  | case4 => cases h
  | case5 out k rest pub hpub hnew ih =>
    refine ih h ?_ ?_
    · rw [List.map_append, List.nodup_append]
      refine ⟨hdistinct, by simp, ?_⟩
      rintro kid hkid _ hlast rfl
      simp only [List.map_cons, List.map_nil, List.mem_singleton] at hlast
      exact hnew (lookup_isSome.mpr (hlast ▸ hkid))
    · intro p hp
      rcases List.mem_append.mp hp with hp | hp
      · exact hstrong p hp
      · rw [List.mem_singleton.mp hp]
        exact fromJWK_strong hpub

theorem parseSet_wellFormed {set : List JwkKey} {keys : Keys} (h : parseSet set = .ok keys) :
    WellFormed keys := by
  unfold parseSet at h
  split at h
  next => cases h
  next out hout =>
    split at h
    next => cases h
    next hne =>
      cases h
      obtain ⟨hdistinct, hstrong⟩ := addKeys_ok hout (by simp) (by simp)
      exact ⟨hne, hdistinct, hstrong⟩

theorem parseJWKS_wellFormed [Jwk] {data : Bytes} {keys : Keys} (h : parseJWKS data = .ok keys) :
    WellFormed keys := by
  unfold parseJWKS at h
  split at h
  next => cases h
  next => exact parseSet_wellFormed h

/-! ## What is written is parsed -/

def curveName : Curve → Bytes
  | .p256 => ascii "P-256"
  | .p384 => ascii "P-384"
  | .p521 => ascii "P-521"

/-- A coordinate is written in full width: no coordinate is the empty text. -/
def coordinate (width n : Nat) : Bytes :=
  List.replicate (width - (bigBytes n).length) 0 ++ bigBytes n

/-- The JWK of a key. -/
def marshalKey : Bytes × PublicKey → JwkKey
  | (kid, .rsa n e) =>
    { kty := ascii "RSA", kid, n := rawURLEncode (bigBytes n), e := rawURLEncode (bigBytes e.toNat) }
  | (kid, .ecdsa curve x y) =>
    { kty := ascii "EC", kid, crv := curveName curve
      x := rawURLEncode (coordinate curve.width x)
      y := rawURLEncode (coordinate curve.width y) }
  | (kid, _) => { kty := [], kid }

theorem marshalKey_kid (p : Bytes × PublicKey) : (marshalKey p).kid = p.1 := by
  obtain ⟨kid, pub⟩ := p
  cases pub <;> rfl

theorem b64uBig_coordinate (width n : Nat) : b64uBig (rawURLEncode (coordinate width n)) = some n := by
  simp [b64uBig, rawURLDecode_encode, coordinate, setBytes_zeros, setBytes_bigBytes]

theorem coordinate_ne_nil {width : Nat} (hwidth : 0 < width) (n : Nat) :
    rawURLEncode (coordinate width n) ≠ [] := by
  refine rawURLEncode_ne_nil (List.ne_nil_of_length_pos ?_)
  simp only [coordinate, List.length_append, List.length_replicate]
  omega

theorem rsaFromJWK_marshal {kid : Bytes} {n : Nat} {e : Int} (h : Strong (.rsa n e)) :
    rsaFromJWK (marshalKey (kid, .rsa n e)) = .ok (.rsa n e) := by
  obtain ⟨hbits, htwo, hlt⟩ := h
  have hn : n ≠ 0 := by
    rintro rfl
    simp [minRSABits, bitLen] at hbits
  have hexp : int64 (setBytes (bigBytes e.toNat)) = e := by
    rw [setBytes_bigBytes, Int.toNat_of_nonneg (by omega), int64]
    exact Int.bmod_eq_of_le (by omega) (by omega)
  have hlength := bigBytes_length_le (n := e.toNat) (k := 8) (by omega)
  have hne := bigBytes_ne_nil (n := e.toNat) (by omega)
  have hpos := List.length_pos_of_ne_nil hne
  have htext := rawURLEncode_ne_nil (bigBytes_ne_nil hn)
  have hlengths : ¬((bigBytes e.toNat).length = 0 ∨ (bigBytes e.toNat).length > 8) := by omega
  have hsmall : ¬bitLen n < minRSABits := by omega
  have hlow : ¬e < 2 := by omega
  simp only [rsaFromJWK, marshalKey, htext, rawURLEncode_ne_nil hne, or_self, if_false, b64uBig,
    rawURLDecode_encode, Option.map_some, setBytes_bigBytes n, hn, hsmall, hlengths, hexp, hlow]

theorem ecFromJWK_marshal {kid : Bytes} {curve : Curve} {x y : Nat} (h : Strong (.ecdsa curve x y)) :
    ecFromJWK (marshalKey (kid, .ecdsa curve x y)) = .ok (.ecdsa curve x y) := by
  have hwidth : 0 < curve.width := by
    cases curve <;> decide
  have hcurve : curveNames.lookup (curveName curve) = some curve := by
    cases curve <;> decide
  have honCurve : curve.isOnCurve x y = true := h
  simp [ecFromJWK, marshalKey, coordinate_ne_nil hwidth, hcurve, b64uBig_coordinate, honCurve]

theorem fromJWK_marshal {p : Bytes × PublicKey} (h : Strong p.2) :
    fromJWK (marshalKey p) = .ok (some p.2) := by
  obtain ⟨kid, pub⟩ := p
  cases pub with
  | rsa n e =>
    have hkty : (marshalKey (kid, .rsa n e)).kty = ascii "RSA" := rfl
    rw [fromJWK, if_pos hkty, rsaFromJWK_marshal h]
    rfl
  | ecdsa curve x y =>
    have hkty : (marshalKey (kid, .ecdsa curve x y)).kty = ascii "EC" := rfl
    rw [fromJWK, hkty, if_neg (by decide), if_pos rfl, ecFromJWK_marshal h]
    rfl
  | ed25519 key => cases h
  | other => cases h

theorem addKeys_marshal {keys out : Keys} (hdistinct : ((out ++ keys).map Prod.fst).Nodup)
    (hstrong : ∀ p ∈ keys, Strong p.2) : addKeys (keys.map marshalKey) out = .ok (out ++ keys) := by
  induction keys generalizing out with
  | nil => simp [addKeys]
  | cons p keys ih =>
    obtain ⟨hp, hkeys⟩ := List.forall_mem_cons.mp hstrong
    have hnew : ¬(out.lookup p.1).isSome = true := by
      rw [lookup_isSome]
      intro hmem
      rw [List.map_append, List.nodup_append] at hdistinct
      exact hdistinct.2.2 p.1 hmem p.1 (by simp) rfl
    rw [List.map_cons, addKeys, fromJWK_marshal hp]
    simp only [marshalKey_kid]
    rw [if_neg hnew, ih (by simpa using hdistinct) hkeys, List.append_assoc, List.singleton_append]

/-- Every set of keys that may be published can be written as a JWK set, and is what is read
from it. -/
theorem parseSet_marshal {keys : Keys} (h : WellFormed keys) :
    parseSet (keys.map marshalKey) = .ok keys := by
  have hadded : addKeys (keys.map marshalKey) [] = .ok keys := addKeys_marshal h.distinct h.strong
  simp only [parseSet, hadded, h.nonempty, if_false]

theorem rsa_and_ec_key_are_read :
    let keys : Keys := [(ascii "a", .rsa (2 ^ 2047) 65537),
      (ascii "b", .ecdsa .p384 (Curve.generator .p384).1 (Curve.generator .p384).2)]
    parseSet (keys.map marshalKey) = .ok keys := by
  intro keys
  refine parseSet_marshal ⟨List.cons_ne_nil _ _, ?_, ?_⟩
  · show [ascii "a", ascii "b"].Nodup
    decide
  · simp only [keys, List.forall_mem_cons]
    refine ⟨⟨?_, by decide, by decide⟩, Curve.generator_isOnCurve .p384, by simp⟩
    rw [bitLen, Nat.size_pow]
    decide

/-! ## The engine -/

structure Config where
  file : Bytes := []
  url : Bytes := []
  issuer : Bytes := []
  audience : Bytes := []
  algorithms : List Bytes
  requiredClaims : List Bytes := []
  headerName : Bytes := []
  leeway : Duration := 0

def Config.header (cfg : Config) : Bytes :=
  if cfg.headerName = [] then ascii "Authorization" else cfg.headerName

structure Response where
  status : Nat
  body : Except Err Bytes

/-- What a load finds outside: the file, and the answer to a request for the URL. -/
structure World where
  file : Except Err Bytes
  answer : Except Err Response

/-- A document is cut off after a mebibyte. -/
def fetch (url : Bytes) (answer : Except Err Response) : Except Err Bytes :=
  match answer with
  | .error e => .error ⟨"jwks: fetch %s: " ++ e.format, .str url :: e.args⟩
  | .ok resp =>
    if resp.status ≠ 200 then .error ⟨"jwks: fetch %s: status %d", [.str url, .int resp.status]⟩
    else resp.body.map (List.take (2 ^ 20))

/-- Where the goroutine of `refreshLoop` stands; for a file there is none. -/
inductive Stage where
  | waiting
  | loading
  | stopped
  deriving DecidableEq

structure Engine where
  cfg : Config
  header : Bytes
  keys : Keys
  stage : Stage
  closed : Bool := false

section
variable [Jwk]

def load (cfg : Config) (w : World) : Except Err Keys :=
  if cfg.file ≠ [] then
    match w.file with
    | .error e => .error ⟨"jwks: read file: " ++ e.format, e.args⟩
    | .ok data => parseJWKS data
  else match fetch cfg.url w.answer with
    | .error e => .error e
    | .ok data => parseJWKS data

def new (cfg : Config) (w : World) : Except Err Engine :=
  if (cfg.file = []) = (cfg.url = []) then
    .error ⟨"jwks: exactly one of file or url is required", []⟩
  else if cfg.algorithms = [] then .error ⟨"jwks: algorithms is required", []⟩
  else match load cfg w with
    | .error e => .error e
    | .ok keys =>
      .ok { cfg, header := cfg.header, keys, stage := if cfg.url ≠ [] then .waiting else .stopped }

/-- `loaded` is the end of a load that found `w`; `done` is the loop that sees its context
cancelled. -/
inductive Action where
  | tick
  | loaded (w : World)
  | close
  | done

/-- The body of `refreshLoop`: a load that fails leaves the keys as they are. -/
def Engine.refreshed (e : Engine) (w : World) : Keys :=
  match load e.cfg w with
  | .error _ => e.keys
  | .ok keys => if keys.length > 0 then keys else e.keys

def Engine.next (e : Engine) : Action → Option Engine
  | .tick => if e.stage = .waiting then some { e with stage := .loading } else none
  | .loaded w =>
    if e.stage = .loading then some { e with stage := .waiting, keys := e.refreshed w } else none
  | .close => some { e with closed := true }
  | .done => if e.stage = .waiting ∧ e.closed then some { e with stage := .stopped } else none

def step : Engine → Action → Bool × Engine := guarded Engine.next

def run (e : Engine) (is : List Action) : Engine := runFrom step e is

end

namespace Engine

def parserOpts (e : Engine) : ParserOptions :=
  Tokens.parserOpts e.cfg.algorithms e.cfg.issuer e.cfg.audience e.cfg.leeway

/-- The key of a set for a kid. -/
def findKey (keys : Keys) (kid : Bytes) : Except Err Key :=
  match keys.lookup kid with
  | some pub => .ok (.public pub)
  | none => match kid, keys with
    -- the only key of a set needs no kid
    | [], [p] => .ok (.public p.2)
    | _, _ => .error ⟨"jwks: no key for kid %q", [.str kid]⟩

def keyFunc (e : Engine) (t : Token) : Except Err Key :=
  match t.method with
  | .none => .error ⟨"alg:none is not allowed", []⟩
  | .hmac => .error ⟨"HMAC algorithms are not allowed with a JWKS (asymmetric keys only)", []⟩
  | .other => findKey e.keys t.kid

def block (ruleID : String) (reason : Bytes) : Verdict where
  action := .block
  reason := reason
  ruleID := ascii ruleID
  engine := ascii "jwks"
  severity := .high
  statusCode := defaultBlockStatus

/-- `Inspect` at a time. Unlike in `jwt`, a header of blanks is not missing but invalid. -/
def inspect [Unicode] [Gojwt] (e : Engine) (now : Nat) (req : Request) : Verdict :=
  if req.direction ≠ .request then {}
  else match ElchiShield.Engine.header req.headers e.header with
    | none => block "jwks.missing" (ascii "missing JWT in " ++ e.header)
    | some raw =>
      if raw = [] then block "jwks.missing" (ascii "missing JWT in " ++ e.header)
      else match checkToken e.parserOpts e.keyFunc e.cfg.requiredClaims now (stripBearer raw) with
        | .invalid => block "jwks.invalid" (ascii "JWT validation failed")
        | .missing name =>
          block "jwks.missing_claim" (ascii "required claim missing or empty: " ++ name)
        | .ok => {}

end Engine

/-! ## Runs -/

section
variable [Jwk]

/-- The set of keys that a step brings: that of a document which was asked for and is good. -/
def goodSet (ev : Event Engine Action Bool) : Option Keys :=
  match ev.input with
  | .loaded w => if ev.output then (load ev.before.cfg w).toOption else none
  | _ => none

theorem load_wellFormed {cfg : Config} {w : World} {keys : Keys} (h : load cfg w = .ok keys) :
    WellFormed keys := by
  unfold load at h
  split at h
  next =>
    split at h
    next => cases h
    next => exact parseJWKS_wellFormed h
  next =>
    split at h
    next => cases h
    next => exact parseJWKS_wellFormed h

theorem refreshed_eq (e : Engine) (w : World) : e.refreshed w = (load e.cfg w).toOption.getD e.keys := by
  unfold Engine.refreshed
  split
  next _ herr => simp [herr, Except.toOption]
  next keys hload =>
    have hpos := List.length_pos_of_ne_nil (load_wellFormed hload).nonempty
    simp [hload, Except.toOption, hpos]

/-- A step leaves the configuration as it is, and the keys too unless it brings a good set. -/
theorem step_keys (e : Engine) (a : Action) :
    (step e a).2.cfg = e.cfg ∧ (step e a).2.header = e.header ∧
      (step e a).2.keys = (goodSet (event step e a)).getD e.keys := by
  cases a with
  | tick =>
    by_cases hstage : e.stage = .waiting <;>
      simp [step, guarded, event, goodSet, Engine.next, hstage]
  | loaded w =>
    by_cases hstage : e.stage = .loading <;>
      simp [step, guarded, event, goodSet, Engine.next, hstage, refreshed_eq]
  | close => exact ⟨rfl, rfl, rfl⟩
  | done =>
    by_cases hstage : e.stage = .waiting ∧ e.closed = true <;>
      simp [step, guarded, event, goodSet, Engine.next, hstage]

/-- The good sets of a run, in the order they came. -/
def goodSets (e : Engine) (is : List Action) : List Keys := (trace step e is).filterMap goodSet

theorem run_keys (e : Engine) (is : List Action) :
    (run e is).cfg = e.cfg ∧ (run e is).header = e.header ∧
      (run e is).keys = (goodSets e is).getLastD e.keys := by
  induction is generalizing e with
  | nil => exact ⟨rfl, rfl, rfl⟩
  | cons a is ih =>
    obtain ⟨hcfg, hheader, hkeys⟩ := step_keys e a
    obtain ⟨hcfg', hheader', hkeys'⟩ := ih (step e a).2
    refine ⟨hcfg'.trans hcfg, hheader'.trans hheader, hkeys'.trans ?_⟩
    rw [hkeys, goodSets, goodSets, trace]
    cases hgood : goodSet (event step e a) with
    | none => rw [List.filterMap_cons_none hgood, Option.getD_none]
    | some keys => rw [List.filterMap_cons_some hgood, Option.getD_some, List.getLastD_cons]

theorem goodSet_wellFormed {ev : Event Engine Action Bool} {keys : Keys}
    (h : goodSet ev = some keys) : WellFormed keys := by
  unfold goodSet at h
  split at h
  next w _ =>
    split at h
    next =>
      cases hload : load ev.before.cfg w with
      | error e => simp [hload, Except.toOption] at h
      | ok keys' =>
        simp only [hload, Except.toOption, Option.some.injEq] at h
        exact h ▸ load_wellFormed hload
    next => cases h
  next => cases h

theorem new_ok {cfg : Config} {w : World} {e : Engine} (h : new cfg w = .ok e) :
    e.cfg = cfg ∧ e.header = cfg.header ∧ load cfg w = .ok e.keys := by
  unfold new at h
  split at h
  next => cases h
  next =>
    split at h
    next => cases h
    next =>
      split at h
      next => cases h
      next keys hload =>
        cases h
        exact ⟨rfl, rfl, hload⟩

/-- Every set that requests can see is well formed. -/
theorem run_wellFormed {cfg : Config} {w : World} {e : Engine} (h : new cfg w = .ok e)
    (is : List Action) : WellFormed (run e is).keys := by
  rw [(run_keys e is).2.2]
  cases hlast : (goodSets e is).getLast? with
  | none =>
    rw [List.getLastD_eq_getLast?, hlast]
    exact load_wellFormed (new_ok h).2.2
  | some keys =>
    rw [List.getLastD_eq_getLast?, hlast]
    obtain ⟨ev, -, hgood⟩ := List.mem_filterMap.mp (List.mem_of_getLast? hlast)
    exact goodSet_wellFormed hgood

end

/-! ## Which key verifies what -/

/-- The key of a set that a token asks for: the one of its kid, or the only one there is where
the token has no kid. -/
inductive Chosen (keys : Keys) (kid : Bytes) (pub : PublicKey) : Prop where
  | named (hmem : (kid, pub) ∈ keys)
  | only (hkid : kid = []) {kid' : Bytes} (honly : keys = [(kid', pub)])

/-- A text holds a token that a configuration accepts at a time, signed under a key of a set. -/
structure Accepts [Gojwt] (cfg : Config) (keys : Keys) (now : Nat) (text : Bytes) (t : Token)
    (pub : PublicKey) : Prop where
  reads : Gojwt.reads text t
  allowed : t.alg ∈ cfg.algorithms
  chosen : Chosen keys t.kid pub
  signed : Gojwt.signed t (.public pub) text
  valid : Gojwt.valid (Tokens.parserOpts cfg.algorithms cfg.issuer cfg.audience cfg.leeway) now
    t.claims
  filled : ∀ name ∈ cfg.requiredClaims, Filled t.claims name

theorem findKey_ok_iff {keys : Keys} (hdistinct : (keys.map Prod.fst).Nodup) {kid : Bytes}
    {pub : PublicKey} : Engine.findKey keys kid = .ok (.public pub) ↔ Chosen keys kid pub := by
  constructor
  · intro h
    unfold Engine.findKey at h
    split at h
    next found hfound =>
      cases h
      exact .named ((lookup_eq_some hdistinct).mp hfound)
    next =>
      split at h
      next p =>
        cases h
        exact .only rfl rfl
      next => cases h
  · intro h
    cases h with
    | named hmem => simp only [Engine.findKey, (lookup_eq_some hdistinct).mpr hmem]
    | only hkid honly =>
      subst hkid honly
      unfold Engine.findKey
      split
      next found hfound =>
        have hmem := (lookup_eq_some hdistinct).mp hfound
        rw [List.mem_singleton, Prod.mk.injEq] at hmem
        rw [hmem.2]
      next => rfl

section
variable [Gojwt] {e : Engine} {text : Bytes} {t : Token}

/-- A token that is signed under a key is given it exactly where the key is the public key the token
asks for. -/
theorem keyFunc_ok_iff (hdistinct : (e.keys.map Prod.fst).Nodup) {key : Key}
    (hsigned : Gojwt.signed t key text) :
    e.keyFunc t = .ok key ↔ ∃ pub, key = .public pub ∧ Chosen e.keys t.kid pub := by
  obtain ⟨hmethod, s, rfl⟩ | ⟨hmethod, pub, rfl⟩ := Gojwt.signed_key text t key hsigned
  · simp [Engine.keyFunc, hmethod]
  · simp only [Engine.keyFunc, hmethod, findKey_ok_iff hdistinct, Key.public.injEq, exists_eq_left']

theorem accepts_iff (hdistinct : (e.keys.map Prod.fst).Nodup) {now : Nat} :
    (∃ pub, Accepts e.cfg e.keys now text t pub) ↔
      ∃ key, Verified e.parserOpts e.keyFunc now text t key ∧
        ∀ name ∈ e.cfg.requiredClaims, Filled t.claims name := by
  constructor
  · rintro ⟨pub, ha⟩
    have hfound := (keyFunc_ok_iff hdistinct ha.signed).mpr ⟨pub, rfl, ha.chosen⟩
    exact ⟨.public pub, ⟨ha.reads, ha.allowed, hfound, ha.signed, ha.valid⟩, ha.filled⟩
  · rintro ⟨key, hv, hfilled⟩
    obtain ⟨pub, rfl, hchosen⟩ := (keyFunc_ok_iff hdistinct hv.signed).mp hv.found
    exact ⟨pub, hv.reads, hv.allowed, hchosen, hv.signed, hv.valid, hfilled⟩

/-- A request passes exactly with a token the configuration accepts under a key of the set. -/
theorem inspect_eq_iff [Unicode] (hdistinct : (e.keys.map Prod.fst).Nodup) (now : Nat)
    {req : Request} (hdir : req.direction = .request) :
    e.inspect now req = {} ↔
      ∃ raw, header req.headers e.header = some raw ∧ raw ≠ [] ∧
        ∃ t pub, Accepts e.cfg e.keys now (stripBearer raw) t pub := by
  have hblock : ∀ ruleID reason, Engine.block ruleID reason ≠ {} := by
    intro ruleID reason heq
    cases congrArg Verdict.action heq
  simp only [Engine.inspect, hdir, ne_eq, not_true_eq_false, if_false]
  cases header req.headers e.header with
  | none => simp [hblock]
  | some raw =>
    by_cases hempty : raw = []
    · simp [hempty, hblock]
    have hok : checkToken e.parserOpts e.keyFunc e.cfg.requiredClaims now (stripBearer raw) = .ok ↔
        ∃ t pub, Accepts e.cfg e.keys now (stripBearer raw) t pub := by
      simp only [checkToken_eq_ok, accepts_iff hdistinct]
    simp only [hempty, if_false, Option.some.injEq, exists_eq_left', not_false_eq_true, true_and,
      ← hok]
    cases checkToken e.parserOpts e.keyFunc e.cfg.requiredClaims now (stripBearer raw) with
    | invalid => simp [hblock]
    | missing name => simp [hblock]
    | ok => simp

/-- At every point of a run the keys are those of the last good document, and a request passes
exactly with a token signed under the one of them it asks for. No secret ever verifies a token. -/
theorem requests_use_last_good_set [Unicode] [Jwk] {cfg : Config} {w : World} {e : Engine}
    (h : new cfg w = .ok e) (is : List Action) (now : Nat) {req : Request}
    (hdir : req.direction = .request) :
    (run e is).keys = (goodSets e is).getLastD e.keys ∧ WellFormed (run e is).keys ∧
      ((run e is).inspect now req = {} ↔
        ∃ raw, header req.headers cfg.header = some raw ∧ raw ≠ [] ∧
          ∃ t pub, Accepts cfg (run e is).keys now (stripBearer raw) t pub) := by
  obtain ⟨hcfg, hheader, -⟩ := new_ok h
  obtain ⟨hcfg', hheader', hkeys⟩ := run_keys e is
  have hwell := run_wellFormed h is
  have hpasses := inspect_eq_iff hwell.distinct now hdir
  rw [hheader', hheader, hcfg', hcfg] at hpasses
  exact ⟨hkeys, hwell, hpasses⟩

end

/-! ## A refresh that fails -/

def urlConfig : Config where
  url := ascii "https://idp/keys"
  algorithms := [ascii "ES256"]
  requiredClaims := [ascii "sub"]

/-- A set with the public key of the private key 1. -/
def generatorSet : Bytes :=
  ascii "\x7b\"keys\":[\x7b\"kty\":\"EC\",\"kid\":\"k1\",\"crv\":\"P-256\"," ++
    ascii "\"x\":\"axfR8uEsQkf4vOblY6RA8ncDfYEt6zOg9KE5RdiYwpY\"," ++
    ascii "\"y\":\"T-NC4v4af5uO5-tKfA-eFivOM1drMV7Oy7ZAaDe_UfU\"\x7d]\x7d"

/-- The decoder on that set; other texts are not read. -/
@[reducible] def generatorJwk : Jwk where
  unmarshal data :=
    if data = generatorSet then
      .ok [{ kty := ascii "EC", kid := ascii "k1", crv := ascii "P-256"
             x := ascii "axfR8uEsQkf4vOblY6RA8ncDfYEt6zOg9KE5RdiYwpY"
             y := ascii "T-NC4v4af5uO5-tKfA-eFivOM1drMV7Oy7ZAaDe_UfU" }]
    else .error ⟨"unexpected end of JSON input", []⟩

def generatorKey : PublicKey :=
  .ecdsa .p256 (Curve.generator .p256).1 (Curve.generator .p256).2

/-- A token for the subject "u1" that expires in 2100, signed with the private key 1. -/
def generatorToken : Sample where
  text :=
    ascii "eyJhbGciOiJFUzI1NiIsInR5cCI6IkpXVCJ9.eyJleHAiOjQxMDI0NDQ4MDAsInN1YiI6InUxIn0." ++
      ascii "Rxw-dYxJBChbun5TEY7Q9SSt6wdX0lvS-Oew1236cUwsH3Ewlbp0MXDSsHxiLF6a1sPNBRjbndZ7cSD_nh_1fA"
  token :=
    { method := .other
      alg := ascii "ES256"
      kid := []
      claims := [(ascii "exp", .number (.fin 4102444800)), (ascii "sub", .string (ascii "u1"))] }
  key := .public generatorKey
  exp := 4102444800
  named := by simp
  keyed := .inr ⟨rfl, _, rfl⟩

def tokenRequest : Request where
  direction := .request
  host := []
  path := []
  method := []
  contentType := []
  sourceIP := []
  body := []
  headers := [⟨ascii "authorization", ascii "Bearer " ++ generatorToken.text⟩]

/-- A refresh that is answered with an error leaves the key in use. -/
theorem token_passes_after_failed_refresh :
    let _ := generatorJwk
    let _ := generatorToken.gojwt
    let _ := Unicode.asciiOnly
    ∃ e, new urlConfig ⟨.ok [], .ok ⟨200, .ok generatorSet⟩⟩ = .ok e ∧
      (run e [.tick, .loaded ⟨.ok [], .ok ⟨503, .ok []⟩⟩]).inspect (1700000000 * 10 ^ 9) tokenRequest =
        {} := by
  intro jwk tokens unicode
  let e : Engine := ⟨urlConfig, ascii "Authorization", [(ascii "k1", generatorKey)], .waiting, false⟩
  have hload : load urlConfig ⟨.ok [], .ok ⟨200, .ok generatorSet⟩⟩ = .ok [(ascii "k1", generatorKey)] := by
    decide +kernel
  have hnew : new urlConfig ⟨.ok [], .ok ⟨200, .ok generatorSet⟩⟩ = .ok e := by
    rw [new, if_neg (by decide), if_neg (by decide), hload]
    rfl
  refine ⟨e, hnew, ?_⟩
  obtain ⟨-, -, hpasses⟩ := requests_use_last_good_set hnew
    [.tick, .loaded ⟨.ok [], .ok ⟨503, .ok []⟩⟩] (1700000000 * 10 ^ 9)
    (show tokenRequest.direction = .request from rfl)
  refine hpasses.mpr ⟨ascii "Bearer " ++ generatorToken.text, by decide +kernel, by simp [ascii],
    generatorToken.token, generatorKey, ?_⟩
  have htext : stripBearer (ascii "Bearer " ++ generatorToken.text) = generatorToken.text := by
    decide +kernel
  exact
    { reads := ⟨htext, rfl⟩
      allowed := by decide
      chosen := .only rfl rfl
      signed := ⟨htext, rfl, rfl⟩
      valid := show generatorToken.Valid _ _ by decide +kernel
      filled := List.forall_mem_singleton.mpr ⟨_, rfl, by decide⟩ }

end ElchiShield.Jwks
