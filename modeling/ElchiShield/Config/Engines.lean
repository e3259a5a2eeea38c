import ElchiShield.Config.Types
import ElchiShield.Go.Netip

/-! # Checks of the engine blocks

Package `config`, validate.go: the checks of the `engines` and `dlp` blocks. Every check
names the field it is about, relative to the policy. -/
namespace ElchiShield.Config
open ElchiShield.Go

/-- Field paths with what is wrong there, in the order the checks run. -/
abbrev Problems := List (Bytes × Err)

/-- Report `err` at `field` when `bad`. -/
def check (bad : Bool) (field : Bytes) (err : Err) : Problems :=
  if bad then [(field, err)] else []

@[simp] theorem check_eq_nil (bad : Bool) (field : Bytes) (err : Err) :
    check bad field err = [] ↔ bad = false := by
  cases bad <;> simp [check]

/-- The field path of entry `i` of the list at `field`. -/
def entry (field : Bytes) (i : Nat) : Bytes := field ++ ascii "[" ++ itoa i ++ ascii "]"

/-- The checks of every entry of a list, each told its path. -/
def checkEach {α : Type} (field : Bytes) (xs : List α) (f : Bytes → α → Problems) : Problems :=
  xs.zipIdx.flatMap fun p => f (entry field p.2) p.1

/-- The checks of a block that may be absent. -/
def checkBlock {α : Type} (block : Option α) (f : α → Problems) : Problems :=
  (block.map f).getD []

def knownJWTAlgs : List Bytes :=
  ["HS256", "HS384", "HS512", "RS256", "RS384", "RS512", "ES256", "ES384", "ES512", "PS256",
    "PS384", "PS512", "EdDSA"].map ascii

def isHS (alg : Bytes) : Bool := (ascii "HS").isPrefixOf alg

def validateJWT (j : JWTSpec) : Problems :=
  let algorithms := ascii "engines.jwt.algorithms"
  check (j.algorithms = []) algorithms ⟨"at least one algorithm is required", []⟩ ++
  check (j.hmacSecret = [] && j.publicKeyFile = []) (ascii "engines.jwt")
    ⟨"hmac_secret or public_key_file is required", []⟩ ++
  check (j.hmacSecret ≠ [] && j.publicKeyFile ≠ []) (ascii "engines.jwt")
    ⟨"set either hmac_secret (HS*) or public_key_file (RS*/ES*), not both — mixing symmetric and asymmetric keys enables algorithm-confusion attacks", []⟩ ++
  checkEach algorithms j.algorithms (fun p alg =>
    if !knownJWTAlgs.contains alg then
      [(p, ⟨"unsupported or unsafe algorithm %q (alg=none is rejected)", [.str alg]⟩)]
    else
      check (isHS alg && j.publicKeyFile ≠ [] && j.hmacSecret = []) p
        ⟨"algorithm %q needs hmac_secret, but only public_key_file is set", [.str alg]⟩ ++
      check (!isHS alg && j.hmacSecret ≠ [] && j.publicKeyFile = []) p
        ⟨"algorithm %q needs public_key_file, but only hmac_secret is set", [.str alg]⟩) ++
  check (j.leeway < 0) (ascii "engines.jwt.leeway") ⟨"must be >= 0, got %s", [.int j.leeway]⟩ ++
  check (j.leeway > 5 * minute) (ascii "engines.jwt.leeway")
    ⟨"must be <= 5m (sane clock-skew tolerance — a large leeway accepts long-expired tokens), got %s",
      [.int j.leeway]⟩

def crsMaxParanoia : Int := 4

/-- The regular expression of rule ids: digits, or two numbers joined by a dash. -/
def corazaRuleIDRe (s : Bytes) : Bool :=
  let parts := s.splitOn (ch '-')
  parts.length ≤ 2 && parts.all fun p => p ≠ [] && p.all isDigit

def checkPL (field : Bytes) (v : Int) : Problems :=
  check (v < 0 || v > crsMaxParanoia) field
    ⟨"must be within [1,%d] (0 = CRS default), got %d", [.int crsMaxParanoia, .int v]⟩

def validateCoraza (c : CorazaSpec) : Problems :=
  let tuned := c.paranoiaLevel ≠ 0 || c.detectionParanoiaLevel ≠ 0 ||
    c.inboundAnomalyThreshold ≠ 0 || c.outboundAnomalyThreshold ≠ 0
  check (c.directives = [] && c.directivesFile = [] && !c.includeOWASP) (ascii "engines.coraza")
    ⟨"directives, directives_file, or include_owasp is required", []⟩ ++
  check (tuned && !c.includeOWASP) (ascii "engines.coraza")
    ⟨"paranoia_level/detection_paranoia_level/inbound_anomaly_threshold/outbound_anomaly_threshold require include_owasp: true (they tune the OWASP CRS)", []⟩ ++
  checkPL (ascii "engines.coraza.paranoia_level") c.paranoiaLevel ++
  checkPL (ascii "engines.coraza.detection_paranoia_level") c.detectionParanoiaLevel ++
  check (c.detectionParanoiaLevel ≠ 0 && c.paranoiaLevel ≠ 0 &&
      c.detectionParanoiaLevel < c.paranoiaLevel) (ascii "engines.coraza.detection_paranoia_level")
    ⟨"must be >= paranoia_level (%d), got %d",
      [.int c.paranoiaLevel, .int c.detectionParanoiaLevel]⟩ ++
  check (c.inboundAnomalyThreshold < 0) (ascii "engines.coraza.inbound_anomaly_threshold")
    ⟨"must be >= 0 (0 = CRS default 5)", []⟩ ++
  check (c.outboundAnomalyThreshold < 0) (ascii "engines.coraza.outbound_anomaly_threshold")
    ⟨"must be >= 0 (0 = CRS default 4)", []⟩ ++
  checkEach (ascii "engines.coraza.exclude_rule_ids") c.excludeRuleIDs fun p id =>
    check (!corazaRuleIDRe id) p
      ⟨"must be a numeric rule id or range (e.g. 942100 or 942100-942999), got %q", [.str id]⟩

def validateRateLimit (rl : RateLimitSpec) : Problems :=
  let badRate := match rl.requestsPerSecond with
    | .fin r => decide (r ≤ 0)
    | _ => true
  check badRate (ascii "engines.rate_limit.requests_per_second")
    ⟨"must be a finite value > 0", []⟩ ++
  check (rl.burst < 0) (ascii "engines.rate_limit.burst")
    ⟨"must be >= 0 (0 = derive from rate)", []⟩ ++
  check (!(["", "ip", "host", "header"].map ascii).contains rl.key) (ascii "engines.rate_limit.key")
    ⟨"invalid key %q (want ip|host|header)", [.str rl.key]⟩ ++
  check (rl.key = ascii "header" && rl.header = []) (ascii "engines.rate_limit.header")
    ⟨"header is required when key is \"header\"", []⟩

def knownFeedFormats : List Bytes := ["cidr_lines", "firehol_netset", "spamhaus_json"].map ascii

/-- The check of a feed format, shared by the reputation feeds and the verified bots. -/
def checkFormat (field format : Bytes) : Problems :=
  check (!knownFeedFormats.contains format) field
    ⟨"invalid format %q (want cidr_lines|firehol_netset|spamhaus_json)", [.str format]⟩

def checkRequired (field value : Bytes) : Problems := check (value = []) field ⟨"required", []⟩

section
variable [Library]

def checkCIDRs (field : Bytes) (cidrs : List Bytes) : Problems :=
  checkEach field cidrs fun p c =>
    check (Netip.parsePrefix c).isNone p ⟨"invalid CIDR %q", [.str c]⟩

def validateGeoIP (g : GeoIPSpec) : Problems :=
  let geoip := ascii "engines.ip_reputation.geoip"
  check (g.databaseFile = [] && g.asnDatabaseFile = []) geoip
    ⟨"database_file or asn_database_file is required", []⟩ ++
  check (g.blockCountries = [] && g.allowCountries = [] && g.blockASNs = [] &&
      g.onMissing ≠ ascii "block") geoip
    ⟨"at least one of block_countries, allow_countries, block_asns, or on_missing=block is required", []⟩ ++
  checkEach (geoip ++ ascii ".countries") (g.blockCountries ++ g.allowCountries) (fun p cc =>
    check (cc.length ≠ 2) p ⟨"invalid ISO country code %q (want 2 letters)", [.str cc]⟩) ++
  g.allowCountries.flatMap (fun cc =>
    check ((g.blockCountries.map toUpper).contains (toUpper cc)) geoip
      ⟨"country %q is in both block_countries and allow_countries", [.str cc]⟩) ++
  check (!(["", "continue", "block"].map ascii).contains g.onMissing) (geoip ++ ascii ".on_missing")
    ⟨"invalid on_missing %q (want continue|block)", [.str g.onMissing]⟩

def validateIPReputation (ir : IPReputationSpec) : Problems :=
  checkCIDRs (ascii "engines.ip_reputation.allow_cidrs") ir.allowCIDRs ++
  checkCIDRs (ascii "engines.ip_reputation.deny_cidrs") ir.denyCIDRs ++
  check (ir.allowCIDRs = [] && ir.denyCIDRs = [] && ir.feeds = [] && ir.geoIP.isNone)
    (ascii "engines.ip_reputation")
    ⟨"at least one of allow_cidrs, deny_cidrs, feeds, or geoip is required", []⟩ ++
  checkEach (ascii "engines.ip_reputation.feeds") ir.feeds (fun p f =>
    checkRequired (p ++ ascii ".name") f.name ++
    checkRequired (p ++ ascii ".file") f.file ++
    checkFormat (p ++ ascii ".format") f.format ++
    check (!(["", "low", "medium", "high", "critical"].map ascii).contains f.severity)
      (p ++ ascii ".severity")
      ⟨"invalid severity %q (want low|medium|high|critical)", [.str f.severity]⟩) ++
  checkBlock ir.geoIP validateGeoIP

def checkFingerprints (field : Bytes) (list : List Bytes) : Problems :=
  checkEach field list fun p h => check (trimSpace h = []) p ⟨"must not be empty", []⟩

def validateBotUA (ua : BotUASpec) : Problems :=
  checkEach (ascii "engines.bot.user_agent.deny_substrings") ua.denySubstrings (fun p s =>
    check (trimSpace s = []) p
      ⟨"must not be empty (an empty substring matches every User-Agent and blocks all traffic)", []⟩) ++
  check (ua.scoreKnownBot < 0) (ascii "engines.bot.user_agent.score_known_bot")
    ⟨"must be >= 0", []⟩

def validateBotTLS (t : BotTLSSpec) : Problems :=
  let tls := ascii "engines.bot.tls_fingerprint."
  checkFingerprints (tls ++ ascii "deny_ja4") t.denyJA4 ++
  checkFingerprints (tls ++ ascii "deny_ja3") t.denyJA3 ++
  checkFingerprints (tls ++ ascii "tool_ja4") t.toolJA4 ++
  t.scoreJA4.flatMap fun hs =>
    check (hs.2 < 0) (tls ++ ascii "score_ja4") ⟨"score for %q must be >= 0", [.str hs.1]⟩

def BotSpec.hasLayer (b : BotSpec) : Bool :=
  b.userAgent.any (fun ua => ua.denySubstrings ≠ [] || ua.blockEmpty || ua.scoreKnownBot > 0) ||
  b.verifiedBots ≠ [] ||
  b.tlsFingerprint.any (fun t =>
    t.denyJA4 ≠ [] || t.denyJA3 ≠ [] || t.toolJA4 ≠ [] || t.scoreJA4 ≠ []) ||
  b.heuristics.any (fun h => h.scorePerAnomaly > 0)

def BotSpec.hasScoreLayer (b : BotSpec) : Bool :=
  b.userAgent.any (fun ua => ua.scoreKnownBot > 0) ||
  b.tlsFingerprint.any (fun t => t.scoreJA4 ≠ []) ||
  b.heuristics.any (fun h => h.scorePerAnomaly > 0)

def checkRegexp (field re : Bytes) : Problems :=
  match Library.regexp re with
  | .error e => [(field, ⟨"invalid regex: %w", [.str e]⟩)]
  | .ok _ => []

def validateVerifiedBot (p : Bytes) (vb : BotVerifiedSpec) : Problems :=
  checkRequired (p ++ ascii ".name") vb.name ++
  checkRequired (p ++ ascii ".file") vb.file ++
  checkFormat (p ++ ascii ".format") vb.format ++
  if vb.uaMatch = [] then [(p ++ ascii ".ua_match", ⟨"required", []⟩)]
  else checkRegexp (p ++ ascii ".ua_match") vb.uaMatch

def validateBot (b : BotSpec) : Problems :=
  check (!b.hasLayer) (ascii "engines.bot")
    ⟨"at least one detection layer (user_agent, verified_bots, tls_fingerprint, or heuristics) is required", []⟩ ++
  checkBlock b.userAgent validateBotUA ++
  checkBlock b.tlsFingerprint validateBotTLS ++
  check (b.heuristics.any fun h => h.scorePerAnomaly < 0)
    (ascii "engines.bot.heuristics.score_per_anomaly") ⟨"must be >= 0", []⟩ ++
  check (b.hasScoreLayer && b.scoreThreshold ≤ 0 && !b.emitScore)
    (ascii "engines.bot.score_threshold")
    ⟨"must be > 0 when score layers are configured (or set emit_score to feed the policy anomaly scorer)", []⟩ ++
  check (b.emitScore && !b.hasScoreLayer) (ascii "engines.bot.emit_score")
    ⟨"requires at least one score layer (user_agent.score_known_bot, tls_fingerprint.score_ja4, or heuristics.score_per_anomaly)", []⟩ ++
  checkEach (ascii "engines.bot.verified_bots") b.verifiedBots validateVerifiedBot

def validateAPIKeyEntry (p : Bytes) (k : APIKeyEntrySpec) : Problems :=
  check (k.sha256 = [] && k.key = []) p ⟨"each key needs sha256 or key", []⟩ ++
  check (k.sha256 ≠ [] && (!isHex k.sha256 || k.sha256.length ≠ 64)) (p ++ ascii ".sha256")
    ⟨"must be a 64-char hex sha256 digest", []⟩

def validateAPIKey (ak : APIKeySpec) : Problems :=
  check (!(["", "header", "query"].map ascii).contains ak.source) (ascii "engines.api_key.source")
    ⟨"invalid source %q (want header|query)", [.str ak.source]⟩ ++
  check (ak.keys = []) (ascii "engines.api_key.keys") ⟨"at least one key is required", []⟩ ++
  checkEach (ascii "engines.api_key.keys") ak.keys validateAPIKeyEntry ++
  checkEach (ascii "engines.api_key.require_scope_for_path") ak.bindings fun p b =>
    check (b.pathPrefix = [] || b.scope = []) p ⟨"path_prefix and scope are required", []⟩

def hmacMinSecretLen : Nat := 16
def hmacMaxWindow : Duration := hour

def validateHMACSign (h : HMACSignSpec) : Problems :=
  check (h.secret = [] && h.secrets = []) (ascii "engines.hmac_sign")
    ⟨"secret or secrets is required", []⟩ ++
  check (h.secret ≠ [] && h.secrets ≠ []) (ascii "engines.hmac_sign")
    ⟨"set either secret or secrets, not both", []⟩ ++
  check (h.secret ≠ [] && h.secret.length < hmacMinSecretLen) (ascii "engines.hmac_sign.secret")
    ⟨"must be at least %d bytes (weak secret)", [.int hmacMinSecretLen]⟩ ++
  h.secrets.flatMap (fun s =>
    check (s.2.length < hmacMinSecretLen) (ascii "engines.hmac_sign.secrets")
      ⟨"secret for key id %q must be at least %d bytes (weak secret)",
        [.str s.1, .int hmacMinSecretLen]⟩) ++
  check (!(["", "sha256", "sha512"].map ascii).contains h.algorithm)
    (ascii "engines.hmac_sign.algorithm")
    ⟨"invalid algorithm %q (want sha256|sha512)", [.str h.algorithm]⟩ ++
  check (h.window < 0) (ascii "engines.hmac_sign.window") ⟨"must be >= 0", []⟩ ++
  check (h.window > 0 && h.window < second) (ascii "engines.hmac_sign.window")
    ⟨"must be >= 1s (the timestamp is second-granular) or 0 to use the default", []⟩ ++
  check (h.window > hmacMaxWindow) (ascii "engines.hmac_sign.window")
    ⟨"must be <= %s", [.int hmacMaxWindow]⟩ ++
  check (h.nonceTTL < 0) (ascii "engines.hmac_sign.nonce_ttl") ⟨"must be >= 0", []⟩ ++
  check (h.nonceTTL > hmacMaxWindow) (ascii "engines.hmac_sign.nonce_ttl")
    ⟨"must be <= %s", [.int hmacMaxWindow]⟩

def httpsigMinSecretLen : Nat := 64
def httpsigMaxAge : Duration := hour

def validateHTTPSignature (hs : HTTPSignatureSpec) : Problems :=
  let secret := ascii "engines.http_signature.secret"
  check (hs.secret = []) secret ⟨"required (hmac-sha256 shared secret)", []⟩ ++
  check (hs.secret ≠ [] && hs.secret.length < httpsigMinSecretLen) secret
    ⟨"must be at least %d bytes (RFC 9421 hmac-sha256 requirement)", [.int httpsigMinSecretLen]⟩ ++
  check (hs.maxAge < 0) (ascii "engines.http_signature.max_age") ⟨"must be >= 0", []⟩ ++
  check (hs.maxAge > httpsigMaxAge) (ascii "engines.http_signature.max_age")
    ⟨"must be <= %s", [.int httpsigMaxAge]⟩

def isLoopbackHost (host : Bytes) : Bool :=
  host = ascii "localhost" || (Netip.parseAddr host).any Netip.Addr.isLoopback

def validateJWKSURL (url : Bytes) : Problems :=
  if url = [] then []
  else match Library.parseURL url with
    | .error e => [(ascii "engines.jwks.url", ⟨"invalid URL: %w", [.str e]⟩)]
    | .ok (scheme, hostname) =>
      check (scheme ≠ ascii "https" && !isLoopbackHost hostname) (ascii "engines.jwks.url")
        ⟨"must use https (an http JWKS URL is MITM-able → an attacker can swap the keys); got scheme %q",
          [.str scheme]⟩

def validateJWKS (j : JWKSSpec) : Problems :=
  let algorithms := ascii "engines.jwks.algorithms"
  check (decide (j.file = []) == decide (j.url = [])) (ascii "engines.jwks")
    ⟨"exactly one of file or url is required", []⟩ ++
  check (j.algorithms = []) algorithms ⟨"at least one algorithm is required", []⟩ ++
  checkEach algorithms j.algorithms (fun p alg =>
    if !knownJWTAlgs.contains alg then
      [(p, ⟨"unsupported or unsafe algorithm %q", [.str alg]⟩)]
    else
      check (isHS alg) p
        ⟨"symmetric algorithm %q is not allowed with a JWKS (asymmetric keys only — RS*/ES*/PS*/EdDSA)",
          [.str alg]⟩) ++
  validateJWKSURL j.url ++
  check (j.leeway < 0) (ascii "engines.jwks.leeway") ⟨"must be >= 0", []⟩ ++
  check (j.leeway > 5 * minute) (ascii "engines.jwks.leeway")
    ⟨"must be <= 5m (a large leeway accepts long-expired tokens), got %s", [.int j.leeway]⟩ ++
  check (j.refreshInterval < 0) (ascii "engines.jwks.refresh_interval") ⟨"must be >= 0", []⟩ ++
  check (j.httpTimeout < 0) (ascii "engines.jwks.http_timeout") ⟨"must be >= 0", []⟩

def validateXFCC (x : XFCCSpec) : Problems :=
  check (!x.requirePresent &&
      x.uris.length + x.dnsNames.length + x.subjects.length + x.hashes.length = 0)
    (ascii "engines.xfcc") ⟨"require_present or at least one allow-list dimension is required", []⟩

/-- The limits of a GraphQL guard under their config names. -/
def GraphQLSpec.limits (g : GraphQLSpec) : List (Bytes × Int) :=
  [(ascii "max_depth", g.maxDepth), (ascii "max_aliases", g.maxAliases),
    (ascii "max_root_fields", g.maxRootFields), (ascii "max_total_fields", g.maxTotalFields),
    (ascii "max_operations", g.maxOperations), (ascii "max_fragment_depth", g.maxFragmentDepth),
    (ascii "max_complexity", g.maxComplexity)]

def validateGraphQL (g : GraphQLSpec) : Problems :=
  g.limits.flatMap (fun lim =>
    check (lim.2 < 0) (ascii "engines.graphql." ++ lim.1) ⟨"must be >= 0", []⟩) ++
  check (g.limits.all (fun lim => lim.2 ≤ 0) && !g.blockIntrospection) (ascii "engines.graphql")
    ⟨"at least one limit (max_depth/max_aliases/max_root_fields/max_total_fields/max_operations/max_fragment_depth/max_complexity) or block_introspection is required", []⟩

def validateOpenAPI (o : OpenAPISpec) : Problems :=
  checkRequired (ascii "engines.openapi.spec_file") o.specFile

def validateEngines (e : EnginesSpec) : Problems :=
  checkBlock e.jwt validateJWT ++ checkBlock e.coraza validateCoraza ++
  checkBlock e.rateLimit validateRateLimit ++ checkBlock e.ipReputation validateIPReputation ++
  checkBlock e.bot validateBot ++ checkBlock e.apiKey validateAPIKey ++
  checkBlock e.hmacSign validateHMACSign ++ checkBlock e.httpSignature validateHTTPSignature ++
  checkBlock e.jwks validateJWKS ++ checkBlock e.xfcc validateXFCC ++
  checkBlock e.graphQL validateGraphQL ++ checkBlock e.openAPI validateOpenAPI

end

/-! ## Data-loss prevention -/

def knownDLPKinds : List Bytes :=
  ["credit_card", "ssn", "email", "jwt", "aws_access_key", "private_key", "google_api_key",
    "slack_token", "github_token", "stripe_key"].map ascii

def validateDLP (d : DLPSpec) : Problems :=
  check (!(["", "response", "request", "both"].map ascii).contains d.direction)
    (ascii "checks.body.dlp.direction")
    ⟨"invalid direction %q (want response|request|both)", [.str d.direction]⟩ ++
  check (d.block = [] && d.redact = []) (ascii "checks.body.dlp")
    ⟨"at least one block or redact kind is required", []⟩ ++
  (d.block ++ d.redact).flatMap fun k =>
    check (!knownDLPKinds.contains k) (ascii "checks.body.dlp") ⟨"unknown DLP kind %q", [.str k]⟩

end ElchiShield.Config
