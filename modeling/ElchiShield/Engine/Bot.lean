import ElchiShield.Engine.IpReputation
import ElchiShield.Go.Library

/-! # Bots

Package `engine/bot`: layers of tests on the headers of a request, the decisive ones first, and a
score where none decides. The parser of User-Agent strings is third-party code. -/
namespace ElchiShield.Bot
open ElchiShield.Go ElchiShield.Go.Netip ElchiShield.Engine ElchiShield.Lib

/-- What `useragent.Parse` finds. -/
structure UserAgent where
  bot : Bool
  isChrome : Bool
  isFirefox : Bool
  isSafari : Bool
  isEdge : Bool
  isOpera : Bool

class UserAgents where
  parse : Bytes → UserAgent

structure UAConfig where
  denySubstrings : List Bytes := []
  blockEmpty : Bool := false
  scoreKnownBot : Int64 := 0

structure VerifiedBotConfig where
  name : Bytes
  file : Bytes
  format : Bytes
  uaMatch : Bytes

/-- `scoreJA4` has the entries of the map in the order in which it is ranged over. -/
structure TLSConfig where
  ja4Header : Bytes := []
  ja3Header : Bytes := []
  denyJA4 : List Bytes := []
  denyJA3 : List Bytes := []
  scoreJA4 : List (Bytes × Int64) := []
  toolJA4 : List Bytes := []

structure HeuristicsConfig where
  requireAccept : Bool := false
  requireAcceptLanguage : Bool := false
  requireAcceptEncoding : Bool := false
  scorePerAnomaly : Int64 := 0

structure Config where
  scoreThreshold : Int64 := 0
  ua : UAConfig := {}
  verifiedBots : List VerifiedBotConfig := []
  tls : TLSConfig := {}
  heuristics : HeuristicsConfig := {}
  emitScore : Bool := false

structure VerifiedBot [PrefixTable] where
  name : Bytes
  ua : Bytes → Bool
  ips : Netmatch.Set Unit

structure Engine [PrefixTable] where
  threshold : Int64
  denyUA : Option (Bytes → Bool)
  blockEmpty : Bool
  scoreKnownBot : Int64
  verified : List VerifiedBot
  ja4Header : Bytes
  ja3Header : Bytes
  denyJA4 : List Bytes
  denyJA3 : List Bytes
  scoreJA4 : List (Bytes × Int64)
  toolJA4 : List Bytes
  hRequireAccept : Bool
  hRequireAL : Bool
  hRequireAE : Bool
  hScore : Int64
  emitScore : Bool

/-! ## New -/

def orDefault (v default : Bytes) : Bytes := if v = [] then default else v

/-- `regexp.QuoteMeta`. -/
def quoteMeta (s : Bytes) : Bytes :=
  s.flatMap fun b => if (ascii "\\.+*?()|[]\x7b\x7d^$").contains b then [ch '\\', b] else [b]

section
variable [Library]

/-- How a fingerprint is compared, in the config and in a request. -/
def fingerprint (s : Bytes) : Bytes := toLower (trimSpace s)

def toSet (items : List Bytes) : List Bytes := (items.map fingerprint).filter (· ≠ [])

def lowerKeys (entries : List (Bytes × Int64)) : List (Bytes × Int64) :=
  entries.map fun entry => (fingerprint entry.1, entry.2)

/-- The later of two entries of one key is the one that stays. -/
def scoreOf (scores : List (Bytes × Int64)) (key : Bytes) : Int64 := (scores.reverse.lookup key).getD 0

def compileDeny (substrings : List Bytes) : Except Err (Option (Bytes → Bool)) :=
  let quoted := (substrings.filter (· ≠ [])).map quoteMeta
  if quoted = [] then .ok none
  else match Library.regexp (ascii "(?i)" ++ join (ascii "|") quoted) with
    | .ok matches_ => .ok (some matches_)
    | .error err => .error ⟨"bot: deny_substrings: %w", [.str err]⟩

variable [PrefixTable] [Feed.Records]

def compileVerified (fs : Bytes → Option Bytes) (vb : VerifiedBotConfig) :
    Except Err VerifiedBot :=
  match Library.regexp vb.uaMatch with
  | .error err => .error ⟨"bot: verified_bots %q ua_match: %w", [.str vb.name, .str err]⟩
  | .ok ua => match Feed.load fs vb.file vb.format with
    | .error err => .error ⟨"bot: verified_bots %q feed: " ++ err.format, .str vb.name :: err.args⟩
    | .ok prefixes => .ok ⟨vb.name, ua, prefixes.foldl (·.insert · ()) .new⟩

def new (fs : Bytes → Option Bytes) (cfg : Config) : Except Err Engine := do
  let denyUA ← compileDeny cfg.ua.denySubstrings
  let verified ← cfg.verifiedBots.mapM (compileVerified fs)
  return {
    threshold := cfg.scoreThreshold
    denyUA
    blockEmpty := cfg.ua.blockEmpty
    scoreKnownBot := cfg.ua.scoreKnownBot
    verified
    ja4Header := orDefault cfg.tls.ja4Header (ascii "x-shield-ja4")
    ja3Header := orDefault cfg.tls.ja3Header (ascii "x-shield-ja3")
    denyJA4 := toSet cfg.tls.denyJA4
    denyJA3 := toSet cfg.tls.denyJA3
    scoreJA4 := lowerKeys cfg.tls.scoreJA4
    toolJA4 := toSet cfg.tls.toolJA4
    hRequireAccept := cfg.heuristics.requireAccept
    hRequireAL := cfg.heuristics.requireAcceptLanguage
    hRequireAE := cfg.heuristics.requireAcceptEncoding
    hScore := cfg.heuristics.scorePerAnomaly
    emitScore := cfg.emitScore }

end

/-! ## Inspect -/

def block (ruleID reason : Bytes) (severity : Severity) : Verdict where
  action := .block
  reason := reason
  ruleID := ruleID
  engine := ascii "bot"
  severity := severity
  statusCode := defaultBlockStatus

def impersonation (claimed : Bytes) : Verdict :=
  block (ascii "bot.impersonation:" ++ claimed)
    (ascii "claims " ++ claimed ++ ascii " but source IP is not in its published ranges") .high

/-- A browser, and not a declared bot. -/
def isBrowserClaim (p : UserAgent) : Bool :=
  !p.bot && (p.isChrome || p.isFirefox || p.isSafari || p.isEdge || p.isOpera)

section
variable [Library]

def headerOf (req : Request) (name : Bytes) : Bytes := (header req.headers name).getD []

def hasHeader (req : Request) (name : Bytes) : Bool := headerOf req name ≠ []

variable [PrefixTable]

/-- The loop over the verified bots, with the name claimed so far; `none` when it decides nothing. -/
def verify (ua : Bytes) (ip : Option Addr) : List VerifiedBot → Bytes → Option Verdict
  | [], claimed => if claimed ≠ [] then some (impersonation claimed) else none
  | vb :: rest, claimed =>
    if vb.ua ua then
      let claimed := if claimed = [] then vb.name else claimed
      if ip.any vb.ips.contains then some {} else verify ua ip rest claimed
    else verify ua ip rest claimed

variable [UserAgents]

def Engine.score (e : Engine) (req : Request) (ja4 : Bytes) : Int64 :=
  let anomaly (required : Bool) (name : String) : Int64 :=
    if required && !hasHeader req (ascii name) then e.hScore else 0
  (if e.scoreKnownBot > 0 ∧ (UserAgents.parse (headerOf req (ascii "user-agent"))).bot then
    e.scoreKnownBot else 0) +
  (if ja4 ≠ [] then scoreOf e.scoreJA4 ja4 else 0) +
  (if e.hScore > 0 then
    anomaly e.hRequireAccept "accept" + anomaly e.hRequireAL "accept-language" +
      anomaly e.hRequireAE "accept-encoding"
  else 0)

/-- `Inspect` behind the verified bots. -/
def Engine.inspectLayers (e : Engine) (req : Request) : Verdict :=
  let ua := headerOf req (ascii "user-agent")
  let ja4 := fingerprint (headerOf req e.ja4Header)
  let ja3 := fingerprint (headerOf req e.ja3Header)
  let score := e.score req ja4
  if e.blockEmpty ∧ trimSpace ua = [] then
    block (ascii "bot.ua_empty") (ascii "missing User-Agent") .medium
  else if e.denyUA.any (· ua) then
    block (ascii "bot.ua_deny") (ascii "User-Agent matches a denied client") .high
  else if ja4 ≠ [] ∧ e.denyJA4.contains ja4 then
    block (ascii "bot.ja4_deny") (ascii "TLS fingerprint (JA4) is denied") .high
  else if ja4 ≠ [] ∧ e.toolJA4.contains ja4 ∧ isBrowserClaim (UserAgents.parse ua) then
    block (ascii "bot.ja4_ua_mismatch")
      (ascii "TLS fingerprint is an automation tool but User-Agent claims a browser") .high
  else if ja3 ≠ [] ∧ e.denyJA3.contains ja3 then
    block (ascii "bot.ja3_deny") (ascii "TLS fingerprint (JA3) is denied") .high
  else if e.emitScore then { score := score.toInt }
  else if e.threshold > 0 ∧ score ≥ e.threshold then
    block (ascii "bot.score") (ascii "bot score " ++ formatInt score.toInt ++ ascii " >= threshold " ++
      formatInt e.threshold.toInt) .medium
  else {}

def Engine.inspect (e : Engine) (req : Request) : Verdict :=
  if req.direction ≠ .request then {}
  else
    let ip := (parseAddr req.sourceIP).map Addr.unmap
    (verify (headerOf req (ascii "user-agent")) ip e.verified []).getD (e.inspectLayers req)

/-- The methods of the interface `SecurityEngine`. -/
def Engine.securityEngine (e : Engine) : SecurityEngine where
  name := ascii "bot"
  requiresBody := false
  inspectsResponse := false
  inspect := fun _ req => .verdict (e.inspect req)

end

/-! ## Crawlers -/

section
variable [Library] [PrefixTable] [Feed.Records] {fs : Bytes → Option Bytes} {ua : Bytes}
  {ip : Option Addr}

/-- The User-Agent is that of the crawler. -/
def VerifiedBotConfig.claimedBy (vb : VerifiedBotConfig) (ua : Bytes) : Bool :=
  (Library.regexp vb.uaMatch).toOption.any (· ua)

/-- The feed file of the crawler has the address. -/
def VerifiedBotConfig.publishes (fs : Bytes → Option Bytes) (vb : VerifiedBotConfig) (ip : Addr) :
    Bool := ((Feed.load fs vb.file vb.format).toOption.getD []).any (·.contains ip)

/-- The address is published for one of the crawlers that are claimed. -/
def Config.verifies (fs : Bytes → Option Bytes) (cfg : Config) (ua : Bytes) (ip : Option Addr) :
    Bool := cfg.verifiedBots.any fun vb => vb.claimedBy ua && ip.any (vb.publishes fs)

/-- The first crawler with a name that is claimed. -/
def Config.claimed (cfg : Config) (ua : Bytes) : Option Bytes :=
  (cfg.verifiedBots.find? fun vb => vb.claimedBy ua && decide (vb.name ≠ [])).map (·.name)

omit [Library] [Feed.Records] in
/-- What the loop over the verified bots decides. -/
theorem verify_eq (vbs : List VerifiedBot) (claimed : Bytes) :
    verify ua ip vbs claimed =
      if vbs.any fun vb => vb.ua ua && ip.any vb.ips.contains then some {}
      else if claimed ≠ [] then some (impersonation claimed)
      else ((vbs.find? fun vb => vb.ua ua && decide (vb.name ≠ [])).map (·.name)).map
        impersonation := by
  induction vbs generalizing claimed with
  | nil => by_cases h : claimed = [] <;> simp [verify, h]
  | cons vb vbs ih =>
    unfold verify
    cases hua : vb.ua ua with
    | false => simp [ih, hua]
    | true =>
      cases hip : ip.any vb.ips.contains with
      | true => simp [hua, hip]
      | false =>
        by_cases h : claimed = []
        · by_cases hname : vb.name = [] <;> simp [ih, hua, hip, h, hname]
        · simp [ih, hua, hip, h]

/-- A compiled bot is the one of the config. -/
structure CompiledFrom (fs : Bytes → Option Bytes) (vb : VerifiedBotConfig) (v : VerifiedBot) :
    Prop where
  name : v.name = vb.name
  ua : ∀ ua, v.ua ua = vb.claimedBy ua
  ips : ∀ ip, v.ips.contains ip = vb.publishes fs ip

theorem compileVerified_from {vb : VerifiedBotConfig} {v : VerifiedBot}
    (h : compileVerified fs vb = .ok v) : CompiledFrom fs vb v := by
  unfold compileVerified at h
  split at h
  next => cases h
  next matches_ hre =>
    split at h
    next => cases h
    next prefixes hload =>
      cases h
      refine ⟨rfl, fun ua => ?_, fun ip => ?_⟩
      · rw [VerifiedBotConfig.claimedBy, hre]
        rfl
      · rw [IpReputation.contains_foldl_insert, Netmatch.Set.contains_new, Bool.false_or,
          VerifiedBotConfig.publishes, hload]
        rfl

theorem mapM_compileVerified {vbs : List VerifiedBotConfig} {vs : List VerifiedBot}
    (h : vbs.mapM (compileVerified fs) = .ok vs) : List.Forall₂ (CompiledFrom fs) vbs vs := by
  induction vbs generalizing vs with
  | nil =>
    cases h
    exact .nil
  | cons vb vbs ih =>
    rw [List.mapM_cons] at h
    obtain ⟨v, hv, h⟩ := bind_eq_ok h
    obtain ⟨rest, hrest, h⟩ := bind_eq_ok h
    cases h
    exact .cons (compileVerified_from hv) (ih hrest)

theorem verifies_eq {vbs : List VerifiedBotConfig} {vs : List VerifiedBot}
    (h : List.Forall₂ (CompiledFrom fs) vbs vs) :
    (vs.any fun v => v.ua ua && ip.any v.ips.contains) =
      vbs.any fun vb => vb.claimedBy ua && ip.any (vb.publishes fs) := by
  induction h with
  | nil => rfl
  | @cons vb v vbs vs hv _ ih =>
    have hips : v.ips.contains = vb.publishes fs := funext hv.ips
    rw [List.any_cons, List.any_cons, hv.ua, hips, ih]

theorem claimed_eq {vbs : List VerifiedBotConfig} {vs : List VerifiedBot}
    (h : List.Forall₂ (CompiledFrom fs) vbs vs) :
    (vs.find? fun v => v.ua ua && decide (v.name ≠ [])).map (·.name) =
      (vbs.find? fun vb => vb.claimedBy ua && decide (vb.name ≠ [])).map (·.name) := by
  induction h with
  | nil => rfl
  | cons hv _ ih =>
    rw [List.find?_cons, List.find?_cons, hv.ua, hv.name]
    split
    · exact congrArg some hv.name
    · exact ih

theorem new_ok {cfg : Config} {e : Engine} (h : new fs cfg = .ok e) :
    List.Forall₂ (CompiledFrom fs) cfg.verifiedBots e.verified ∧
      new fs { cfg with verifiedBots := [] } = .ok { e with verified := [] } := by
  obtain ⟨denyUA, hdeny, h⟩ := bind_eq_ok h
  obtain ⟨verified, hverified, h⟩ := bind_eq_ok h
  cases h
  refine ⟨mapM_compileVerified hverified, ?_⟩
  rw [new, hdeny]
  rfl

variable [UserAgents]

/-- **The feeds decide about crawlers.** A request that comes from an address published for a
crawler it claims to be is let pass, whatever the other layers say and however the entries are
ordered. One that claims to be a crawler with a name, and does not, is blocked under the first such
name. To any other the verified bots make no difference. -/
theorem crawlers_decided_by_feeds {cfg : Config} {e : Engine} (hnew : new fs cfg = .ok e)
    (req : Request) (hdir : req.direction = .request) :
    ∃ e', new fs { cfg with verifiedBots := [] } = .ok e' ∧
      e.inspect req =
        if cfg.verifies fs (headerOf req (ascii "user-agent"))
          ((parseAddr req.sourceIP).map Addr.unmap) then {}
        else (cfg.claimed (headerOf req (ascii "user-agent"))).elim (e'.inspect req)
          impersonation := by
  obtain ⟨hfrom, hwithout⟩ := new_ok hnew
  have hrequest : ¬ req.direction ≠ .request := not_not.mpr hdir
  have hrest : Engine.inspect { e with verified := [] } req = e.inspectLayers req := by
    rw [Engine.inspect, if_neg hrequest]
    rfl
  refine ⟨_, hwithout, ?_⟩
  rw [hrest, Engine.inspect, if_neg hrequest]
  dsimp only
  rw [verify_eq, verifies_eq hfrom, claimed_eq hfrom, ← Config.verifies, ← Config.claimed,
    if_neg (not_not.mpr rfl)]
  split
  · rfl
  · cases cfg.claimed (headerOf req (ascii "user-agent")) <;> rfl

end

/-- An expression matches the text it is written as. -/
@[reducible] def literalPatterns : Library := { Library.nothing with regexp := fun re => .ok (· == re) }

@[reducible] def noBrowsers : UserAgents := ⟨fun _ => ⟨false, false, false, false, false, false⟩⟩

/-- One crawler, with the addresses 66.249.64.0 to 66.249.95.255, and no other agent. -/
def crawlerConfig : Config where
  ua := { blockEmpty := true }
  verifiedBots := [⟨ascii "googlebot", ascii "ranges", Feed.formatCIDRLines, ascii "Googlebot"⟩]

def publishedRanges (path : Bytes) : Option Bytes :=
  if path = ascii "ranges" then some (ascii "66.249.64.0/19\n") else none

def requestFrom (userAgent sourceIP : String) : Request where
  direction := .request
  host := []
  path := ascii "/"
  method := ascii "GET"
  contentType := []
  sourceIP := ascii sourceIP
  body := []
  headers := [⟨ascii "User-Agent", ascii userAgent⟩]

theorem googlebot_is_verified :
    let _ := literalPatterns
    let _ := PrefixTable.entries
    let _ := IpReputation.noRecords
    let _ := noBrowsers
    ∃ e, new publishedRanges crawlerConfig = .ok e ∧
      e.inspect (requestFrom "Googlebot" "66.249.66.1") = {} ∧
      e.inspect (requestFrom "Googlebot" "203.0.113.7") = impersonation (ascii "googlebot") := by
  intro lib table records agents
  obtain ⟨e, hnew⟩ : ∃ e, new publishedRanges crawlerConfig = .ok e := ⟨_, rfl⟩
  obtain ⟨_, -, hreal⟩ := crawlers_decided_by_feeds hnew (requestFrom "Googlebot" "66.249.66.1") rfl
  obtain ⟨_, -, hfake⟩ := crawlers_decided_by_feeds hnew (requestFrom "Googlebot" "203.0.113.7") rfl
  rw [if_pos (by decide +kernel)] at hreal
  rw [if_neg (by decide +kernel), show crawlerConfig.claimed _ = some (ascii "googlebot") by
    decide +kernel] at hfake
  exact ⟨e, hnew, hreal, hfake⟩

end ElchiShield.Bot
