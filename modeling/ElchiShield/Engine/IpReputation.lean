import ElchiShield.Engine
import ElchiShield.Feed
import ElchiShield.Lib.Attempt

/-! # Source addresses and their reputation

Package `engine/ipreputation` with `netmatch` and `geoip`: a request is blocked by its source
address, through static lists, feeds and the country or network it belongs to. The prefix table
and the reader of GeoIP databases are third-party code. -/
namespace ElchiShield
open ElchiShield.Go ElchiShield.Go.Netip ElchiShield.Engine

/-! ## Sets of prefixes -/

/-- `bart.Table`: an address is found when a stored prefix contains it. -/
class PrefixTable where
  Table : Type → Type
  empty {V : Type} : Table V
  insert {V : Type} : Table V → Prefix → V → Table V
  lookup {V : Type} : Table V → Addr → Option V
  contains {V : Type} : Table V → Addr → Bool
  contains_empty {V : Type} (ip : Addr) : contains (empty : Table V) ip = false
  contains_insert {V : Type} (t : Table V) (p : Prefix) (v : V) (ip : Addr) :
    contains (insert t p v) ip = (contains t ip || p.contains ip)
  isSome_lookup {V : Type} (t : Table V) (ip : Addr) : (lookup t ip).isSome = contains t ip

/-- The more specific of two entries, the first of equal ones. -/
def moreSpecific {V : Type} (e : Prefix × V) : Option (Prefix × V) → Option (Prefix × V)
  | none => some e
  | some f => if e.1.bits < f.1.bits then some f else some e

theorem isSome_foldr_moreSpecific {V : Type} (entries : List (Prefix × V)) :
    (entries.foldr moreSpecific none).isSome = !entries.isEmpty := by
  cases entries with
  | nil => rfl
  | cons e entries =>
    rw [List.foldr_cons]
    unfold moreSpecific
    split
    next => rfl
    next => split <;> rfl

/-- A table that keeps its entries in a list. -/
@[reducible] def PrefixTable.entries : PrefixTable where
  Table V := List (Prefix × V)
  empty := []
  insert t p v := (p, v) :: t.filter (·.1 ≠ p)
  lookup t ip := ((t.filter (·.1.contains ip)).foldr moreSpecific none).map Prod.snd
  contains t ip := t.any (·.1.contains ip)
  contains_empty _ := rfl
  contains_insert t p v ip := by
    rw [Bool.eq_iff_iff]
    simp only [List.any_cons, List.any_filter, Bool.or_eq_true, List.any_eq_true, Bool.and_eq_true,
      decide_eq_true_eq]
    constructor
    · rintro (h | ⟨f, hf, -, h⟩)
      · exact .inr h
      · exact .inl ⟨f, hf, h⟩
    · rintro (⟨f, hf, h⟩ | h)
      · by_cases hp : f.1 = p
        · exact .inl (hp ▸ h)
        · exact .inr ⟨f, hf, hp, h⟩
      · exact .inl h
  isSome_lookup t ip := by
    rw [Option.isSome_map, isSome_foldr_moreSpecific, Bool.eq_iff_iff]
    simp

namespace Netmatch

/-- `netmatch.Set`; its size counts the insertions. -/
structure Set [PrefixTable] (V : Type) where
  table : PrefixTable.Table V
  size : Nat
  size_pos : ∀ ip, PrefixTable.contains table ip = true → 0 < size

variable [PrefixTable] {V : Type}

def Set.new : Set V where
  table := PrefixTable.empty
  size := 0
  size_pos ip h := by rw [PrefixTable.contains_empty] at h; cases h

def Set.insert (s : Set V) (p : Prefix) (v : V) : Set V where
  table := PrefixTable.insert s.table p.masked v
  size := s.size + 1
  size_pos _ _ := Nat.succ_pos _

def Set.lookup (s : Set V) (ip : Addr) : Option V := PrefixTable.lookup s.table ip

def Set.contains (s : Set V) (ip : Addr) : Bool := PrefixTable.contains s.table ip

def Set.len (s : Set V) : Nat := s.size

@[simp] theorem Set.contains_new (ip : Addr) : (Set.new : Set V).contains ip = false :=
  PrefixTable.contains_empty ip

@[simp] theorem Set.contains_insert (s : Set V) (p : Prefix) (v : V) (ip : Addr) :
    (s.insert p v).contains ip = (s.contains ip || p.contains ip) := by
  rw [Set.contains, Set.insert, PrefixTable.contains_insert, Prefix.contains_masked, Set.contains]

@[simp] theorem Set.isSome_lookup (s : Set V) (ip : Addr) :
    (s.lookup ip).isSome = s.contains ip := PrefixTable.isSome_lookup s.table ip

/-- An empty set needs no lookup. -/
theorem Set.len_pos_and_contains (s : Set V) (ip : Addr) :
    (decide (0 < s.len) && s.contains ip) = s.contains ip := by
  cases h : s.contains ip with
  | false => exact Bool.and_false _
  | true => simpa using show 0 < s.len from s.size_pos ip h

end Netmatch

/-! ## GeoIP databases -/

namespace Geoip

/-- `maxminddb.OpenBytes`, and `Lookup` with `Decode` of the one field that is read; `none` is an
address that is not found. -/
class MaxMind where
  country : Bytes → Except Bytes (Addr → Except Bytes (Option Bytes))
  asn : Bytes → Except Bytes (Addr → Except Bytes (Option Nat))

structure Record where
  country : Bytes := []
  asn : Nat := 0
  deriving DecidableEq

structure Reader where
  country : Option (Addr → Except Bytes (Option Bytes))
  asn : Option (Addr → Except Bytes (Option Nat))

/-- One database of `Open`; an empty path leaves it out. -/
def openCopy {α : Type} (fs : Bytes → Option Bytes) (path : Bytes)
    (openBytes : Bytes → Except Bytes α) : Except Bytes (Option α) :=
  if path = [] then .ok none
  else match fs path with
    | none => .error path
    | some data => (openBytes data).map some

def openReader [MaxMind] (fs : Bytes → Option Bytes) (countryPath asnPath : Bytes) :
    Except Bytes Reader := do
  let country ← openCopy fs countryPath MaxMind.country
  let asn ← openCopy fs asnPath MaxMind.asn
  return { country, asn }

/-- One field of `Lookup`: its zero value without a database, or when nothing is found. -/
def field {α : Type} (zero : α) (db : Option (Addr → Except Bytes (Option α))) (ip : Addr) :
    Except Bytes α :=
  match db with
  | none => .ok zero
  | some find => (find ip).map (·.getD zero)

def Reader.lookup (r : Reader) (ip : Addr) : Except Bytes Record := do
  let country ← field [] r.country ip
  let asn ← field 0 r.asn ip
  return { country, asn }

end Geoip

end ElchiShield

namespace ElchiShield.IpReputation
open ElchiShield.Go ElchiShield.Go.Netip ElchiShield.Engine ElchiShield.Geoip ElchiShield.Lib

structure FeedConfig where
  name : Bytes
  file : Bytes
  format : Bytes
  severity : Severity := .none
  deriving DecidableEq, Repr

structure GeoConfig where
  countryDBFile : Bytes := []
  asnDBFile : Bytes := []
  blockCountries : List Bytes := []
  allowCountries : List Bytes := []
  blockASNs : List Nat := []
  blockOnMissing : Bool := false
  deriving DecidableEq, Repr

structure Config where
  allowCIDRs : List Bytes := []
  denyCIDRs : List Bytes := []
  feeds : List FeedConfig := []
  geo : Option GeoConfig := none
  deriving DecidableEq, Repr

structure FeedMeta where
  name : Bytes
  severity : Severity
  deriving DecidableEq, Repr

structure GeoMatch where
  reader : Geoip.Reader
  blockCountries : List Bytes
  allowCountries : List Bytes
  blockASNs : List Nat
  hasAllow : Bool
  blockOnMissing : Bool

structure Engine [PrefixTable] where
  allow : Netmatch.Set Unit
  deny : Netmatch.Set Unit
  feeds : Netmatch.Set FeedMeta
  geo : Option GeoMatch

def block (ruleID reason : Bytes) (severity : Severity) : Verdict where
  action := .block
  reason := reason
  ruleID := ruleID
  engine := ascii "ipreputation"
  severity := severity
  statusCode := defaultBlockStatus

def geoCountry (country reason : Bytes) : Verdict :=
  block (ascii "ipreputation.geo_country:" ++ country) reason .medium

/-- `geoMatch.inspect`; `none` when the address may pass. -/
def GeoMatch.inspect (g : GeoMatch) (ip : Addr) : Except Bytes (Option Verdict) :=
  match g.reader.lookup ip with
  | .error err => .error (ascii "geoip lookup: " ++ err)
  | .ok record =>
    let unknown := geoCountry (ascii "unknown") (ascii "source country unknown, not in allow-list")
    if record.country = [] ∧ record.asn = 0 then
      if g.blockOnMissing then
        .ok (some (block (ascii "ipreputation.geo_unknown")
          (ascii "source IP not found in GeoIP database") .low))
      else if g.hasAllow then .ok (some unknown)
      else .ok none
    else if record.country ≠ [] ∧ g.blockCountries.contains record.country then
      .ok (some (geoCountry record.country (ascii "source country blocked: " ++ record.country)))
    else if record.country ≠ [] ∧ g.hasAllow ∧ !g.allowCountries.contains record.country then
      .ok (some (geoCountry record.country (ascii "source country not allowed: " ++ record.country)))
    else if record.country = [] ∧ g.hasAllow then .ok (some unknown)
    else if record.asn ≠ 0 ∧ g.blockASNs.contains record.asn then
      .ok (some (block (ascii "ipreputation.geo_asn:" ++ itoa record.asn)
        (ascii "source ASN blocked: " ++ itoa record.asn) .medium))
    else .ok none

section
variable [PrefixTable]

def Engine.hasAllow (e : Engine) : Bool := 0 < e.allow.len
def Engine.hasDeny (e : Engine) : Bool := 0 < e.deny.len
def Engine.hasFeeds (e : Engine) : Bool := 0 < e.feeds.len

/-- An empty set of feeds needs no lookup. -/
theorem Engine.hasFeeds_then_lookup (e : Engine) (ip : Addr) :
    (if e.hasFeeds = true then e.feeds.lookup ip else none) = e.feeds.lookup ip := by
  split
  next => rfl
  next hempty =>
    have hmiss : e.feeds.contains ip = false := by
      rw [← e.feeds.len_pos_and_contains]
      exact Bool.and_eq_false_imp.mpr fun h => absurd h hempty
    rw [← e.feeds.isSome_lookup, Option.isSome_eq_false_iff, Option.isNone_iff_eq_none] at hmiss
    rw [hmiss]

/-- `Inspect` behind the feeds. -/
def Engine.inspectGeo (e : Engine) (ip : Addr) : Outcome :=
  match e.geo with
  | none => .verdict {}
  | some g => match g.inspect ip with
    | .error err => .error err
    | .ok none => .verdict {}
    | .ok (some v) => .verdict v

def Engine.inspect (e : Engine) (req : Request) : Outcome :=
  if req.direction ≠ .request then .verdict {}
  else match parseAddr req.sourceIP with
    | none =>
      if e.hasAllow then
        .verdict (block (ascii "ipreputation.not_allowlisted")
          (ascii "source IP not in allow list (unidentifiable client)") .high)
      else .verdict {}
    | some addr =>
      let ip := addr.unmap
      if e.hasDeny && e.deny.contains ip then
        .verdict (block (ascii "ipreputation.deny_cidr") (ascii "source IP in deny list") .high)
      else if e.hasAllow then
        if e.allow.contains ip then .verdict {}
        else .verdict (block (ascii "ipreputation.not_allowlisted")
          (ascii "source IP not in allow list") .high)
      else match (if e.hasFeeds then e.feeds.lookup ip else none) with
        | some m =>
          .verdict (block (ascii "ipreputation.feed:" ++ m.name)
            (ascii "source IP in threat feed " ++ m.name) m.severity)
        | none => e.inspectGeo ip

def insertCIDR (field : String) (s : Netmatch.Set Unit) (c : Bytes) :
    Except Err (Netmatch.Set Unit) :=
  match Netip.parsePrefix c with
  | some p => .ok (s.insert p ())
  | none => .error ⟨field ++ ": invalid CIDR %q: %w", [.str c]⟩

/-- A list of the config that `New` parses, under its field. -/
def parseCIDRs (field : String) (cidrs : List Bytes) : Except Err (Netmatch.Set Unit) :=
  cidrs.foldlM (insertCIDR field) .new

def FeedConfig.stored (fc : FeedConfig) : FeedMeta :=
  ⟨fc.name, if fc.severity = .none then .medium else fc.severity⟩

def insertFeed [Feed.Records] (fs : Bytes → Option Bytes) (s : Netmatch.Set FeedMeta)
    (fc : FeedConfig) : Except Err (Netmatch.Set FeedMeta) :=
  match Feed.load fs fc.file fc.format with
  | .ok prefixes => .ok (prefixes.foldl (·.insert · fc.stored) s)
  | .error err => .error ⟨"feed %q: " ++ err.format, .str fc.name :: err.args⟩

def loadFeeds [Feed.Records] (fs : Bytes → Option Bytes) (feeds : List FeedConfig) :
    Except Err (Netmatch.Set FeedMeta) := feeds.foldlM (insertFeed fs) .new

def buildGeo [Unicode] [MaxMind] (fs : Bytes → Option Bytes) (c : GeoConfig) :
    Except Err GeoMatch :=
  match openReader fs c.countryDBFile c.asnDBFile with
  | .error err => .error ⟨"geoip: %w", [.str err]⟩
  | .ok reader => .ok
      { reader
        blockCountries := c.blockCountries.map toUpper
        allowCountries := c.allowCountries.map toUpper
        blockASNs := c.blockASNs
        hasAllow := 0 < c.allowCountries.length
        blockOnMissing := c.blockOnMissing }

def new [Unicode] [Feed.Records] [MaxMind] (fs : Bytes → Option Bytes) (cfg : Config) :
    Except Err Engine := do
  let allow ← parseCIDRs "allow_cidrs" cfg.allowCIDRs
  let deny ← parseCIDRs "deny_cidrs" cfg.denyCIDRs
  let feeds ← loadFeeds fs cfg.feeds
  let geo ← match cfg.geo with
    | none => .ok none
    | some g => (buildGeo fs g).map some
  return { allow, deny, feeds, geo }

/-- The methods of the interface `SecurityEngine`. -/
def Engine.securityEngine (e : Engine) : SecurityEngine where
  name := ascii "ipreputation"
  requiresBody := false
  inspectsResponse := false
  inspect := fun _ req => e.inspect req

/-! ## What an engine without GeoIP rules blocks -/

def Engine.blocks (e : Engine) (req : Request) : Bool :=
  match e.inspect req with
  | .verdict v => v.action == .block
  | _ => false

/-- A static list holds the address. -/
def listed (cidrs : List Bytes) (ip : Addr) : Bool :=
  cidrs.any fun c => (Netip.parsePrefix c).any (·.contains ip)

/-- A feed holds the address. -/
def fed [Feed.Records] (fs : Bytes → Option Bytes) (feeds : List FeedConfig) (ip : Addr) : Bool :=
  feeds.any fun fc => ((Feed.load fs fc.file fc.format).toOption.getD []).any (·.contains ip)

theorem contains_foldl_insert {V : Type} (v : V) (ip : Addr) (prefixes : List Prefix)
    (s : Netmatch.Set V) : (prefixes.foldl (·.insert · v) s).contains ip =
      (s.contains ip || prefixes.any (·.contains ip)) := by
  induction prefixes generalizing s with
  | nil => simp
  | cons p prefixes ih => rw [List.foldl_cons, ih]; simp [Bool.or_assoc]

/-- Sets that are filled step by step hold what the steps add. -/
theorem contains_foldlM {α V : Type} {step : Netmatch.Set V → α → Except Err (Netmatch.Set V)}
    (hit : α → Addr → Bool) (ip : Addr)
    (hstep : ∀ {s a s'}, step s a = .ok s' → s'.contains ip = (s.contains ip || hit a ip))
    {items : List α} {s s' : Netmatch.Set V} (h : items.foldlM step s = .ok s') :
    s'.contains ip = (s.contains ip || items.any (hit · ip)) := by
  induction items generalizing s with
  | nil => cases h; simp
  | cons a items ih =>
    rw [List.foldlM_cons] at h
    obtain ⟨next, ha, h⟩ := bind_eq_ok h
    rw [ih h, hstep ha, List.any_cons, Bool.or_assoc]

theorem insertCIDR_ok {name : String} {s s' : Netmatch.Set Unit} {c : Bytes}
    (h : insertCIDR name s c = .ok s') :
    ∃ p, Netip.parsePrefix c = some p ∧ s' = s.insert p () := by
  unfold insertCIDR at h
  split at h
  next p hp => exact ⟨p, hp, (Except.ok.inj h).symm⟩
  next => cases h

theorem contains_parseCIDRs {name : String} {cidrs : List Bytes} {s : Netmatch.Set Unit}
    (h : parseCIDRs name cidrs = .ok s) (ip : Addr) : s.contains ip = listed cidrs ip := by
  have hfold := contains_foldlM (fun c ip => (Netip.parsePrefix c).any (·.contains ip)) ip ?_ h
  · simpa [listed] using hfold
  · intro s c s' hs
    obtain ⟨p, hp, rfl⟩ := insertCIDR_ok hs
    simp [hp]

theorem len_foldlM {name : String} {cidrs : List Bytes} {s s' : Netmatch.Set Unit}
    (h : cidrs.foldlM (insertCIDR name) s = .ok s') : s'.len = s.len + cidrs.length := by
  induction cidrs generalizing s with
  | nil => cases h; rfl
  | cons c cidrs ih =>
    rw [List.foldlM_cons] at h
    obtain ⟨next, hc, h⟩ := bind_eq_ok h
    obtain ⟨p, -, rfl⟩ := insertCIDR_ok hc
    rw [ih h, List.length_cons]
    simp only [Netmatch.Set.len, Netmatch.Set.insert]
    omega

theorem insertFeed_ok [Feed.Records] {fs : Bytes → Option Bytes} {s s' : Netmatch.Set FeedMeta}
    {fc : FeedConfig} (h : insertFeed fs s fc = .ok s') :
    ∃ prefixes, Feed.load fs fc.file fc.format = .ok prefixes ∧
      s' = prefixes.foldl (·.insert · fc.stored) s := by
  unfold insertFeed at h
  split at h
  next prefixes hload => exact ⟨prefixes, hload, (Except.ok.inj h).symm⟩
  next => cases h

theorem contains_loadFeeds [Feed.Records] {fs : Bytes → Option Bytes} {feeds : List FeedConfig}
    {s : Netmatch.Set FeedMeta} (h : loadFeeds fs feeds = .ok s) (ip : Addr) :
    s.contains ip = fed fs feeds ip := by
  have hfold := contains_foldlM
    (fun fc ip => ((Feed.load fs fc.file fc.format).toOption.getD []).any (·.contains ip)) ip ?_ h
  · simpa [fed] using hfold
  · intro s fc s' hs
    obtain ⟨prefixes, hload, rfl⟩ := insertFeed_ok hs
    simp [hload, contains_foldl_insert, Except.toOption]

section
variable [Unicode] [Feed.Records] [MaxMind] {fs : Bytes → Option Bytes} {cfg : Config} {e : Engine}

theorem new_ok (h : new fs cfg = .ok e) (hgeo : cfg.geo = none) :
    parseCIDRs "allow_cidrs" cfg.allowCIDRs = .ok e.allow ∧
      parseCIDRs "deny_cidrs" cfg.denyCIDRs = .ok e.deny ∧
      loadFeeds fs cfg.feeds = .ok e.feeds ∧ e.geo = none := by
  obtain ⟨allow, hallow, h⟩ := bind_eq_ok h
  obtain ⟨deny, hdeny, h⟩ := bind_eq_ok h
  obtain ⟨feeds, hfeeds, h⟩ := bind_eq_ok h
  rw [hgeo] at h
  cases h
  exact ⟨hallow, hdeny, hfeeds, rfl⟩

theorem hasAllow_eq (h : new fs cfg = .ok e) (hgeo : cfg.geo = none) :
    e.hasAllow = decide (cfg.allowCIDRs ≠ []) := by
  have hlen := len_foldlM (new_ok h hgeo).1
  rw [Engine.hasAllow, hlen, decide_eq_decide, ← List.length_pos_iff]
  simp [Netmatch.Set.len, Netmatch.Set.new]

/-- A request without a usable address is blocked by an allow list only. -/
theorem blocks_unparsed (h : new fs cfg = .ok e) (hgeo : cfg.geo = none) {req : Request}
    (hreq : req.direction = .request) (haddr : parseAddr req.sourceIP = none) :
    e.blocks req = decide (cfg.allowCIDRs ≠ []) := by
  rw [← hasAllow_eq h hgeo]
  have hdir : ¬ req.direction ≠ .request := not_not.mpr hreq
  cases hallow : e.hasAllow <;>
    simp [Engine.blocks, Engine.inspect, if_neg hdir, haddr, hallow, block]

/-- Deny lists come first, and feeds are looked at when there is no allow list. -/
theorem blocks_parsed (h : new fs cfg = .ok e) (hgeo : cfg.geo = none) {req : Request}
    (hreq : req.direction = .request) {addr : Addr} (haddr : parseAddr req.sourceIP = some addr) :
    e.blocks req = (listed cfg.denyCIDRs addr.unmap ||
      if cfg.allowCIDRs = [] then fed fs cfg.feeds addr.unmap
      else !listed cfg.allowCIDRs addr.unmap) := by
  obtain ⟨hallow, hdeny, hfeeds, hnogeo⟩ := new_ok h hgeo
  have hdir : ¬ req.direction ≠ .request := not_not.mpr hreq
  rw [← contains_parseCIDRs hdeny, ← contains_parseCIDRs hallow, ← contains_loadFeeds hfeeds]
  simp only [Engine.blocks, Engine.inspect, if_neg hdir, haddr, e.hasFeeds_then_lookup,
    Engine.hasDeny, Netmatch.Set.len_pos_and_contains, hasAllow_eq h hgeo]
  cases e.deny.contains addr.unmap with
  | true => rfl
  | false =>
    by_cases hnone : cfg.allowCIDRs = []
    · have hhit := e.feeds.isSome_lookup addr.unmap
      cases hfeed : e.feeds.lookup addr.unmap <;> rw [hfeed] at hhit <;>
        simp [hnone, hnogeo, Engine.inspectGeo, block, ← hhit]
    · cases e.allow.contains addr.unmap <;> simp [hnone, block]

/-! ## A static list and a feed of the same text -/

/-- The address is an IPv4 address whose mapped form is in the prefix. -/
def InMapped (p : Prefix) (source : Bytes) : Prop :=
  ∃ addr ip, parseAddr source = some addr ∧ addr.unmap = .v4 ip ∧
    p.contains (Addr.mapped ip) = true

theorem static_agrees_with_feed_iff {c data : Bytes} {p : Prefix} {fc : FeedConfig}
    {denying feeding : Engine} (hp : Netip.parsePrefix c = some p)
    (hformat : fc.format = Feed.formatCIDRLines) (hfile : fs fc.file = some data)
    (honly : Feed.OnlyLine c data) (hdeny : new fs { denyCIDRs := [c] } = .ok denying)
    (hfeed : new fs { feeds := [fc] } = .ok feeding) {req : Request}
    (hreq : req.direction = .request) :
    (denying.blocks req = true ↔ feeding.blocks req = true) ↔
      ¬ (96 ≤ p.bits ∧ InMapped p req.sourceIP) := by
  cases haddr : parseAddr req.sourceIP with
  | none =>
    rw [blocks_unparsed hdeny rfl hreq haddr, blocks_unparsed hfeed rfl hreq haddr]
    simp [InMapped, haddr]
  | some addr =>
    obtain ⟨_, hinsert, -⟩ := bind_eq_ok (new_ok hfeed rfl).2.2.1
    obtain ⟨ps, hload, -⟩ := insertFeed_ok hinsert
    rw [hformat] at hload
    have hfed : fed fs [fc] addr.unmap = (Feed.unmapPrefix p).contains addr.unmap := by
      simp [fed, hformat, hload, Feed.load_onlyLine hp hfile honly hload, Except.toOption]
    have hlisted : listed [c] addr.unmap = p.contains addr.unmap := by simp [listed, hp]
    have hhidden : InMapped p req.sourceIP ↔
        ∃ ip, addr.unmap = .v4 ip ∧ p.contains (Addr.mapped ip) = true := by
      simp [InMapped, haddr]
    have hdenies : denying.blocks req = p.contains addr.unmap := by
      simp [blocks_parsed hdeny rfl hreq haddr, hlisted, fed]
    have hfeeds : feeding.blocks req = (Feed.unmapPrefix p).contains addr.unmap := by
      simp [blocks_parsed hfeed rfl hreq haddr, hfed, listed]
    -- a long prefix with mapped addresses has no other ones, so the static list misses them all
    have hmiss : 96 ≤ p.bits ∧ InMapped p req.sourceIP → ¬ p.contains addr.unmap = true := by
      rintro ⟨hbits, h⟩ hin
      obtain ⟨ip, -, hip⟩ := hhidden.mp h
      have h4 := Prefix.is4In6_of_contains hbits hip
      rw [Addr.is4In6_mapped, ← Prefix.is4In6_of_contains hbits hin, Addr.is4In6_unmap] at h4
      cases h4
    rw [hdenies, hfeeds, Feed.contains_unmapPrefix p addr.is4In6_unmap, ← hhidden]
    constructor
    · intro hiff hhit
      exact hmiss hhit (hiff.mpr (.inr hhit))
    · intro hhit
      exact ⟨.inl, fun h => h.resolve_right hhit⟩

end

end

/-- A file with a comment above its one entry. -/
def feedData (c : Bytes) : Bytes := ascii "# test\n" ++ c ++ ascii "\n"

def feedFile (c path : Bytes) : Option Bytes :=
  if path = ascii "feed.txt" then some (feedData c) else none

def feedOfFile : FeedConfig where
  name := ascii "test"
  file := ascii "feed.txt"
  format := Feed.formatCIDRLines

def requestFrom (source : Bytes) : Request where
  direction := .request
  host := []
  path := []
  method := []
  contentType := []
  sourceIP := source
  body := []
  headers := []

@[reducible] def noRecords : Feed.Records := ⟨fun _ => none⟩

@[reducible] def noDatabases : MaxMind := ⟨fun _ => .error [], fun _ => .error []⟩

/-- The engine of a config, with the file of `c`. -/
def built (c : Bytes) (cfg : Config) : Except Err (@Engine PrefixTable.entries) :=
  @new PrefixTable.entries Unicode.asciiOnly noRecords noDatabases (feedFile c) cfg

/-- What the engine does with a request; `none` when it is not built. -/
def blocksFrom (c : Bytes) (cfg : Config) (source : Bytes) : Option Bool :=
  (built c cfg).toOption.map fun e => @Engine.blocks PrefixTable.entries e (requestFrom source)

theorem built_of_blocksFrom {c : Bytes} {cfg : Config} {source : Bytes}
    (h : (blocksFrom c cfg source).isSome = true) :
    ∃ e, built c cfg = .ok e ∧
      blocksFrom c cfg source = some (@Engine.blocks PrefixTable.entries e (requestFrom source)) := by
  obtain ⟨e, he⟩ := exists_ok (Option.isSome_map .. ▸ h)
  exact ⟨e, he, by rw [blocksFrom, he]; rfl⟩

theorem plain_prefix_blocks_alike :
    blocksFrom (ascii "192.0.2.0/24") { denyCIDRs := [ascii "192.0.2.0/24"] } (ascii "192.0.2.7") =
        some true ↔
      blocksFrom (ascii "192.0.2.0/24") { feeds := [feedOfFile] } (ascii "192.0.2.7") =
        some true := by
  have hbits : (Netip.parsePrefix (ascii "192.0.2.0/24")).map Prefix.bits = some 24 := by
    decide +kernel
  obtain ⟨p, hp, hbits⟩ := Option.map_eq_some_iff.mp hbits
  have honly : Feed.OnlyLine (ascii "192.0.2.0/24") (feedData (ascii "192.0.2.0/24")) :=
    ⟨[ascii "# test"], [], by decide +kernel, by decide +kernel⟩
  obtain ⟨denying, hdeny, hd⟩ := built_of_blocksFrom (c := ascii "192.0.2.0/24")
    (show (blocksFrom _ { denyCIDRs := [ascii "192.0.2.0/24"] } (ascii "192.0.2.7")).isSome = true by
      decide +kernel)
  obtain ⟨feeding, hfeed, hf⟩ := built_of_blocksFrom (c := ascii "192.0.2.0/24")
    (show (blocksFrom _ { feeds := [feedOfFile] } (ascii "192.0.2.7")).isSome = true by
      decide +kernel)
  have hfile : feedFile (ascii "192.0.2.0/24") feedOfFile.file =
      some (feedData (ascii "192.0.2.0/24")) := by decide +kernel
  rw [hd, hf, Option.some.injEq, Option.some.injEq]
  refine (@static_agrees_with_feed_iff PrefixTable.entries Unicode.asciiOnly noRecords noDatabases
    _ _ _ _ _ _ _ hp rfl hfile honly hdeny hfeed (requestFrom _) rfl).mpr ?_
  rw [hbits]
  exact fun h => absurd h.1 (by decide)

/-- The static list does not see the address that the feed blocks. -/
theorem mapped_prefix_denies_nothing :
    blocksFrom (ascii "::ffff:192.0.2.0/120") { denyCIDRs := [ascii "::ffff:192.0.2.0/120"] }
          (ascii "192.0.2.7") = some false ∧
      blocksFrom (ascii "::ffff:192.0.2.0/120") { feeds := [feedOfFile] } (ascii "192.0.2.7") =
        some true := by
  decide +kernel

end ElchiShield.IpReputation
