import ElchiShield.Engine
import ElchiShield.Engine.Replay
import ElchiShield.Go.Encoding
import ElchiShield.Lib.Runs
import Mathlib.Tactic.Ring

/-! # Signed requests

Package `engine/hmacsign`: the engine that verifies the HMAC of a request and refuses a
signature it has let through before. -/
namespace ElchiShield.HmacSign
open ElchiShield.Go ElchiShield.Lib ElchiShield.Config ElchiShield.Engine ElchiShield.Auth

inductive HashAlg where
  | sha256
  | sha512
  deriving DecidableEq

class Crypto where
  /-- `sha256.Sum256`. -/
  sha256 : Bytes → Bytes
  /-- `hmac.New` with a key, and its `Sum` of a message. -/
  hmac : HashAlg → Bytes → Bytes → Bytes
  hmac_ne_nil : ∀ alg key msg, hmac alg key msg ≠ []

structure Engine where
  secret : Bytes
  secrets : List (Bytes × Bytes)
  sigHdr : Bytes
  tsHdr : Bytes
  nonceHdr : Bytes
  keyIDHdr : Bytes
  newHash : HashAlg
  window : Duration
  requireN : Bool
  requireBD : Bool
  replay : ReplayCache

def orDefault (v : Bytes) (dflt : String) : Bytes := if v = [] then ascii dflt else v

/-- `New`; its `Config` has the fields of the spec. -/
def new (cfg : HMACSignSpec) (index : Bytes → Fin numShards) : Engine :=
  let window := if cfg.window ≤ 0 then 5 * minute else cfg.window
  let nonceTTL := if cfg.nonceTTL ≤ 0 then int64 (2 * window) else cfg.nonceTTL
  { secret := cfg.secret
    secrets := cfg.secrets
    sigHdr := orDefault cfg.signatureHeader "X-Signature"
    tsHdr := orDefault cfg.timestampHeader "X-Timestamp"
    nonceHdr := orDefault cfg.nonceHeader "X-Nonce"
    keyIDHdr := orDefault cfg.keyIDHeader "X-Key-Id"
    newHash := if cfg.algorithm = ascii "sha512" then .sha512 else .sha256
    window
    requireN := cfg.requireNonce
    requireBD := cfg.requireBodyDigest
    replay := ⟨nonceTTL, index⟩ }

theorem new_ttl {cfg : HMACSignSpec} (h : cfg.nonceTTL ≤ 0) (index : Bytes → Fin numShards) :
    (new cfg index).replay.ttl = int64 (2 * (new cfg index).window) := by
  simp [new, h]

def block (ruleID reason : String) : Verdict where
  action := .block
  reason := ascii reason
  ruleID := ascii ruleID
  engine := ascii "hmacsign"
  severity := .high
  statusCode := defaultBlockStatus

/-- `Time.Unix`. -/
def unix (t : Time) : Int := t / second

/-- A call of `Inspect`, with the clock as the timestamp check reads it and as the replay
cache does. -/
structure Call where
  request : Request
  checkedAt : Time
  seenAt : Time

section
variable [Unicode]

def headerValue (req : Request) (name : Bytes) : Bytes := (header req.headers name).getD []

def Engine.secretFor (e : Engine) (req : Request) : Option Bytes :=
  if e.secrets = [] then some e.secret else e.secrets.lookup (headerValue req e.keyIDHdr)

def timestamp (e : Engine) (req : Request) : Option Int :=
  parseInt64 (trimSpace (headerValue req e.tsHdr))

/-- The timestamp is more than the window away, in whole seconds. -/
def Engine.stale (e : Engine) (now : Time) (ts : Int) : Prop :=
  int64 (unix now - ts) > e.window.tdiv second ∨ int64 (unix now - ts) < -e.window.tdiv second

instance (e : Engine) (now : Time) (ts : Int) : Decidable (e.stale now ts) :=
  inferInstanceAs (Decidable (_ ∨ _))

variable [Crypto]

/-- The bytes of the request the client signs. -/
def canonical (e : Engine) (req : Request) : Bytes :=
  let digest := if e.requireBD then hexEncode (Crypto.sha256 req.body) else []
  let nl := ascii "\n"
  req.method ++ nl ++ req.path ++ nl ++ headerValue req e.tsHdr ++ nl ++
    headerValue req e.nonceHdr ++ nl ++ digest

def replayKey (e : Engine) (req : Request) (expected : Bytes) : Bytes :=
  if headerValue req e.nonceHdr = [] then hexEncode expected else headerValue req e.nonceHdr

/-- `Inspect` up to the replay cache: the replay key, or the verdict it ends with. -/
def verify (e : Engine) (now : Time) (req : Request) : Except Verdict Bytes :=
  let sig := headerValue req e.sigHdr
  if sig = [] then .error (block "sig.missing" "missing request signature")
  else match hexDecode (trimSpace sig) with
    | none => .error (block "sig.invalid" "malformed signature encoding")
    | some provided => match timestamp e req with
      | none => .error (block "sig.invalid_timestamp" "missing or malformed timestamp")
      | some ts =>
        if e.stale now ts then
          .error (block "sig.stale" "request timestamp outside the allowed window")
        else if e.requireN && headerValue req e.nonceHdr = [] then
          .error (block "sig.nonce_missing" "missing nonce")
        else match e.secretFor req with
          | none => .error (block "sig.unknown_key" "unknown signing key id")
          | some secret =>
            let expected := Crypto.hmac e.newHash secret (canonical e req)
            if expected ≠ provided then
              .error (block "sig.invalid" "signature verification failed")
            else .ok (replayKey e req expected)

def inspect (e : Engine) (shards : Shards) (call : Call) : Verdict × Shards :=
  if call.request.direction ≠ .request then ({}, shards)
  else match verify e call.checkedAt call.request with
    | .error v => (v, shards)
    | .ok key => match e.replay.seenBefore shards call.seenAt key with
      | (true, shards) =>
        (block "sig.replayed" "request signature already used (replay)", shards)
      | (false, shards) => ({}, shards)

/-! ## What verification depends on -/

/-- Two requests with the same signed content and the same signature. -/
structure SameSigned (e : Engine) (r r' : Request) : Prop where
  direction : r.direction = .request ∧ r'.direction = .request
  method : r.method = r'.method
  path : r.path = r'.path
  timestamp : headerValue r e.tsHdr = headerValue r' e.tsHdr
  nonce : headerValue r e.nonceHdr = headerValue r' e.nonceHdr
  body : r.body = r'.body
  keyID : headerValue r e.keyIDHdr = headerValue r' e.keyIDHdr
  signature : headerValue r e.sigHdr = headerValue r' e.sigHdr

/-- The request bears the MAC of its canonical bytes under the secret of its key id, and its
timestamp is in the window. -/
structure Signed (e : Engine) (now : Time) (req : Request) (secret : Bytes) : Prop where
  known : e.secretFor req = some secret
  mac : hexDecode (trimSpace (headerValue req e.sigHdr)) =
    some (Crypto.hmac e.newHash secret (canonical e req))
  fresh : ∃ ts, timestamp e req = some ts ∧ ¬ e.stale now ts
  nonce : e.requireN = true → headerValue req e.nonceHdr ≠ []

theorem verify_signed {e : Engine} {now : Time} {req : Request} {key : Bytes}
    (h : verify e now req = .ok key) : ∃ secret, Signed e now req secret ∧
      key = replayKey e req (Crypto.hmac e.newHash secret (canonical e req)) := by
  unfold verify at h
  dsimp only at h
  split at h
  next => cases h
  next =>
    split at h
    next => cases h
    next provided hdecode =>
      split at h
      next => cases h
      next ts hts =>
        split at h
        next => cases h
        next hstale =>
          split at h
          next => cases h
          next hnonce =>
            split at h
            next => cases h
            next secret hsecret =>
              split at h
              next => cases h
              next hmac =>
                refine ⟨secret, ⟨hsecret, ?_, ⟨ts, hts, hstale⟩, ?_⟩, (Except.ok.inj h).symm⟩
                · rw [not_not.mp hmac]
                  exact hdecode
                · simpa using hnonce

/-- What a verified request has passed. -/
theorem verify_ok {e : Engine} {now : Time} {req : Request} {key : Bytes}
    (h : verify e now req = .ok key) :
    (∃ ts, timestamp e req = some ts ∧ ¬ e.stale now ts) ∧
      ∃ secret, e.secretFor req = some secret ∧
        key = replayKey e req (Crypto.hmac e.newHash secret (canonical e req)) := by
  obtain ⟨secret, hsigned, hkey⟩ := verify_signed h
  exact ⟨hsigned.fresh, secret, hsigned.known, hkey⟩

theorem verify_error {e : Engine} {now : Time} {req : Request} {v : Verdict}
    (h : verify e now req = .error v) : v.action = .block := by
  unfold verify at h
  dsimp only at h
  repeat' split at h
  all_goals cases h
  all_goals rfl

theorem verify_key_ne_nil {e : Engine} {now : Time} {req : Request} {key : Bytes}
    (h : verify e now req = .ok key) : key ≠ [] := by
  obtain ⟨-, secret, -, rfl⟩ := verify_ok h
  unfold replayKey
  split
  next => exact hexEncode_ne_nil (Crypto.hmac_ne_nil _ _ _)
  next hnonce => exact hnonce

theorem SameSigned.key {e : Engine} {r r' : Request} (hsame : SameSigned e r r') {t t' : Time}
    {key key' : Bytes} (h : verify e t r = .ok key) (h' : verify e t' r' = .ok key') :
    key = key' := by
  obtain ⟨-, secret, hsecret, rfl⟩ := verify_ok h
  obtain ⟨-, secret', hsecret', rfl⟩ := verify_ok h'
  have hfor : e.secretFor r = e.secretFor r' := by
    unfold Engine.secretFor
    rw [hsame.keyID]
  have hcanonical : canonical e r = canonical e r' := by
    unfold canonical
    rw [hsame.method, hsame.path, hsame.timestamp, hsame.nonce, hsame.body]
  rw [hfor, hsecret'] at hsecret
  obtain rfl := Option.some.inj hsecret
  unfold replayKey
  rw [hsame.nonce, hcanonical]

/-! ## Runs of the engine -/

/-- The replay key a call brings to the cache. -/
def keyOf (e : Engine) (call : Call) : Option Bytes :=
  if call.request.direction = .request then (verify e call.checkedAt call.request).toOption
  else none

/-- The clock does not go back. -/
def Clocked (calls : List Call) : Prop :=
  (calls.flatMap fun c => [c.checkedAt, c.seenAt]).Pairwise (· ≤ ·)

/-- Few replay keys reach the same shard. -/
def FewKeys (e : Engine) (calls : List Call) : Prop := Few e.replay (calls.filterMap (keyOf e))

def Accepted (v : Verdict) : Prop := v.action ≠ .block

theorem keyOf_eq_some {e : Engine} {call : Call} {key : Bytes} :
    keyOf e call = some key ↔
      call.request.direction = .request ∧ verify e call.checkedAt call.request = .ok key := by
  unfold keyOf
  by_cases hdir : call.request.direction = .request
  · rw [if_pos hdir]
    cases verify e call.checkedAt call.request with
    | error v => simp [Except.toOption]
    | ok key' => simp [Except.toOption, hdir]
  · simp [hdir]

section
variable {e : Engine} {shards : Shards} {uses : Uses}

/-- Inversion: a call records a use and is accepted, or it leaves the log as it is and is
accepted only as a response. -/
theorem inspect_cases (h : Remembers e.replay shards uses)
    (hroom : ∀ i, (shards i).cur.keys.length < maxKeysPerShard) (call : Call) :
    (∃ key, keyOf e call = some key ∧ ¬ uses.recent e.replay.ttl call.seenAt key ∧
      Accepted (inspect e shards call).1 ∧
      Remembers e.replay (inspect e shards call).2 ((key, call.seenAt) :: uses)) ∨
    Remembers e.replay (inspect e shards call).2 uses ∧
      (call.request.direction = .request → ¬ Accepted (inspect e shards call).1) ∧
      ∀ key, keyOf e call = some key → uses.recent e.replay.ttl call.seenAt key := by
  unfold inspect keyOf
  by_cases hdir : call.request.direction = .request
  · rw [if_neg (not_not_intro hdir), if_pos hdir]
    cases hverify : verify e call.checkedAt call.request with
    | error v =>
      refine .inr ⟨h, fun _ haccepted => haccepted (verify_error hverify), ?_⟩
      intro key hkey
      cases hkey
    | ok key =>
      have hspec := seenBefore_spec h (verify_key_ne_nil hverify) (hroom _) call.seenAt
      dsimp only
      obtain ⟨⟨seen, shards'⟩, hrun⟩ : ∃ r, e.replay.seenBefore shards call.seenAt key = r :=
        ⟨_, rfl⟩
      rw [hrun] at hspec ⊢
      rcases hspec with ⟨hrecent, hseen, hlog⟩ | ⟨hold, hseen, hlog⟩
      · obtain rfl : seen = true := hseen
        refine .inr ⟨hlog, fun _ haccepted => haccepted rfl, ?_⟩
        intro key' hkey'
        obtain rfl := Option.some.inj hkey'
        exact hrecent
      · obtain rfl : seen = false := hseen
        exact .inl ⟨key, rfl, hold, by simp [Accepted], hlog⟩
  · rw [if_pos hdir, if_neg hdir]
    refine .inr ⟨h, fun hreq => absurd hreq hdir, ?_⟩
    intro key hkey
    cases hkey

/-- The shards remember uses of these keys. -/
structure Logged (e : Engine) (keys : List Bytes) (shards : Shards) (uses : Uses) : Prop where
  remembers : Remembers e.replay shards uses
  keys : ∀ u ∈ uses, u.1 ∈ keys

variable {keys : List Bytes} {call : Call}

theorem Logged.inspect_cases (h : Logged e keys shards uses) (hfew : Few e.replay keys)
    (hkeys : ∀ key, keyOf e call = some key → key ∈ keys) :
    (∃ key, keyOf e call = some key ∧ ¬ uses.recent e.replay.ttl call.seenAt key ∧
      Accepted (inspect e shards call).1 ∧
      Logged e keys (inspect e shards call).2 ((key, call.seenAt) :: uses)) ∨
    Logged e keys (inspect e shards call).2 uses ∧
      (call.request.direction = .request → ¬ Accepted (inspect e shards call).1) ∧
      ∀ key, keyOf e call = some key → uses.recent e.replay.ttl call.seenAt key := by
  rcases HmacSign.inspect_cases h.remembers (h.remembers.room h.keys hfew) call with
    ⟨key, hkey, hold, haccepted, hlog⟩ | ⟨hlog, hblocked, hrecent⟩
  · refine .inl ⟨key, hkey, hold, haccepted, hlog, ?_⟩
    intro u hu
    rcases List.mem_cons.mp hu with rfl | hu
    · exact hkeys key hkey
    · exact h.keys u hu
  · exact .inr ⟨⟨hlog, h.keys⟩, hblocked, hrecent⟩

/-- A run of calls that bring these keys keeps a log of their uses. -/
theorem Logged.run (hfew : Few e.replay keys) {calls : List Call}
    (hkeys : ∀ c ∈ calls, ∀ key, keyOf e c = some key → key ∈ keys)
    (h : ∃ uses, Logged e keys shards uses) :
    ∃ uses, Logged e keys (runFrom (inspect e) shards calls) uses := by
  refine runFrom_invariant (I := fun s => ∃ uses, Logged e keys s uses) ?_ h
  rintro c hc s ⟨uses, huses⟩
  rcases huses.inspect_cases hfew (hkeys c hc) with ⟨key, -, -, -, hlog⟩ | ⟨hlog, -⟩
  · exact ⟨_, hlog⟩
  · exact ⟨_, hlog⟩

/-- The key was last used at this time or later. -/
def UsedSince (e : Engine) (keys : List Bytes) (key : Bytes) (since : Time) (shards : Shards) :
    Prop :=
  ∃ uses, Logged e keys shards uses ∧ ∃ t, uses.lookup key = some t ∧ since ≤ t

theorem UsedSince.run {key : Bytes} {since : Time} (hfew : Few e.replay keys) {calls : List Call}
    (hkeys : ∀ c ∈ calls, ∀ key, keyOf e c = some key → key ∈ keys)
    (hclock : ∀ c ∈ calls, since ≤ c.seenAt) (h : UsedSince e keys key since shards) :
    UsedSince e keys key since (runFrom (inspect e) shards calls) := by
  refine runFrom_invariant ?_ h
  rintro c hc s ⟨uses, huses, t, ht, hsince⟩
  rcases huses.inspect_cases hfew (hkeys c hc) with ⟨used, -, -, -, hlog⟩ | ⟨hlog, -⟩
  · refine ⟨_, hlog, ?_⟩
    -- the same key used again is used later
    by_cases hused : key = used
    · subst hused
      exact ⟨c.seenAt, by simp, hclock c hc⟩
    · refine ⟨t, ?_, hsince⟩
      have hne : (key == used) = false := by simpa using hused
      simpa [List.lookup_cons, hne] using ht
  · exact ⟨_, hlog, t, ht, hsince⟩

end

omit [Unicode] [Crypto] in
theorem Clocked.seenAt {calls : List Call} (h : Clocked calls) :
    calls.Pairwise fun a b => a.seenAt ≤ b.seenAt := by
  refine (List.pairwise_flatMap.mp h).2.imp ?_
  intro a b hab
  exact hab a.seenAt (by simp) b.seenAt (by simp)

/-- The call passes everything before the replay cache: the timestamp is in the window and
the signature verifies. -/
def Verifies (e : Engine) (call : Call) : Prop :=
  ∃ key, verify e call.checkedAt call.request = .ok key

/-- In a run that starts with `pre`, `a` and `mid`, both `a` and the call after `mid` are
accepted. -/
def BothAccepted (e : Engine) (pre mid : List Call) (a b : Call) : Prop :=
  Accepted (inspect e (runFrom (inspect e) noShards pre) a).1 ∧
    Accepted (inspect e (runFrom (inspect e) noShards (pre ++ a :: mid)) b).1

variable {e : Engine} {a b : Call}

omit [Unicode] [Crypto] in
theorem logged_nothing (e : Engine) (keys : List Bytes) : Logged e keys noShards [] :=
  ⟨remembers_nothing e.replay, by simp⟩

/-- Two calls with the same signed request are both accepted only if an entry of the cache
expires between them. -/
theorem accepted_apart (hsame : SameSigned e a.request b.request) {pre mid post : List Call}
    (hclock : Clocked (pre ++ a :: (mid ++ b :: post)))
    (hfew : FewKeys e (pre ++ a :: (mid ++ b :: post))) (h : BothAccepted e pre mid a b) :
    Verifies e a ∧ Verifies e b ∧ a.seenAt + e.replay.ttl ≤ b.seenAt := by
  have hkeys : ∀ c ∈ pre ++ a :: (mid ++ b :: post), ∀ key, keyOf e c = some key →
      key ∈ (pre ++ a :: (mid ++ b :: post)).filterMap (keyOf e) :=
    fun c hc key hkey => List.mem_filterMap.mpr ⟨c, hc, hkey⟩
  have hlater : ∀ c ∈ mid, a.seenAt ≤ c.seenAt := by
    intro c hc
    exact List.rel_of_pairwise_cons (List.pairwise_append.mp hclock.seenAt).2.1 (by simp [hc])
  obtain ⟨haccepted, hagain⟩ := h
  rw [runFrom_append] at hagain
  obtain ⟨uses, huses⟩ : ∃ uses, Logged e _ (runFrom (inspect e) noShards pre) uses :=
    Logged.run hfew (fun c hc => hkeys c (List.mem_append_left _ hc)) ⟨[], logged_nothing e _⟩
  rcases huses.inspect_cases hfew (hkeys a (by simp)) with
    ⟨key, hkey, -, -, hlog⟩ | ⟨-, hblocked, -⟩
  · have hused : UsedSince e _ key a.seenAt _ := ⟨_, hlog, a.seenAt, by simp, le_refl _⟩
    obtain ⟨uses', huses', t, ht, hsince⟩ :=
      hused.run hfew (fun c hc => hkeys c (by simp [hc])) hlater
    rcases huses'.inspect_cases hfew (hkeys b (by simp)) with
      ⟨key', hkey', hold, -⟩ | ⟨-, hblocked, -⟩
    · have ha := (keyOf_eq_some.mp hkey).2
      have hb := (keyOf_eq_some.mp hkey').2
      obtain rfl := hsame.key ha hb
      refine ⟨⟨key, ha⟩, ⟨key, hb⟩, ?_⟩
      by_contra hapart
      exact hold ⟨t, ht, lt_of_lt_of_le (not_le.mp hapart) (Int.add_le_add_right hsince _)⟩
    · exact absurd hagain (hblocked hsame.direction.2)
  · exact absurd haccepted (hblocked hsame.direction.1)

/-- Calls that verify and are as far apart are both accepted, with nothing before and between
them. -/
theorem bothAccepted_of_apart (hsame : SameSigned e a.request b.request) (ha : Verifies e a)
    (hb : Verifies e b) (hapart : a.seenAt + e.replay.ttl ≤ b.seenAt) :
    BothAccepted e [] [] a b := by
  obtain ⟨key, hkey⟩ := ha
  obtain ⟨key', hkey'⟩ := hb
  obtain rfl := hsame.key hkey hkey'
  have hfew : Few e.replay [key] := few_of_short _ (by simp [maxKeysPerShard])
  have haOf : keyOf e a = some key := keyOf_eq_some.mpr ⟨hsame.direction.1, hkey⟩
  have hbOf : keyOf e b = some key := keyOf_eq_some.mpr ⟨hsame.direction.2, hkey'⟩
  have hmem : ∀ c, keyOf e c = some key → ∀ k, keyOf e c = some k → k ∈ [key] := by
    intro c hc k hk
    rw [hc] at hk
    exact List.mem_singleton.mpr (Option.some.inj hk).symm
  rcases (logged_nothing e [key]).inspect_cases hfew (hmem a haOf) with
    ⟨used, hused, -, haccepted, hlog⟩ | ⟨-, -, hrecent⟩
  · obtain rfl : key = used := Option.some.inj (haOf.symm.trans hused)
    refine ⟨haccepted, ?_⟩
    rcases hlog.inspect_cases hfew (hmem b hbOf) with ⟨-, -, -, hagain, -⟩ | ⟨-, -, hrecent⟩
    · exact hagain
    · obtain ⟨t, ht, hlt⟩ := hrecent key hbOf
      obtain rfl : a.seenAt = t := by simpa using ht
      exact absurd hlt (not_lt.mpr hapart)
  · obtain ⟨t, ht, -⟩ := hrecent key haOf
    cases ht

/-- With the default lifetime of the nonces, two calls with the same signed request are never
both accepted exactly if they cannot both verify two windows apart. -/
theorem never_both_accepted_iff (cfg : HMACSignSpec) (index : Bytes → Fin numShards) (a b : Call)
    (httl : cfg.nonceTTL ≤ 0) (hsame : SameSigned (new cfg index) a.request b.request)
    (hclock : Clocked [a, b]) :
    (∀ pre mid post, Clocked (pre ++ a :: (mid ++ b :: post)) →
      FewKeys (new cfg index) (pre ++ a :: (mid ++ b :: post)) →
      ¬ BothAccepted (new cfg index) pre mid a b) ↔
    (Verifies (new cfg index) a → Verifies (new cfg index) b →
      b.seenAt < a.seenAt + int64 (2 * (new cfg index).window)) := by
  rw [← new_ttl httl index]
  constructor
  · intro h ha hb
    by_contra hapart
    have hfew : FewKeys (new cfg index) [a, b] := by
      refine few_of_short _ (lt_of_le_of_lt (List.length_filterMap_le _ _) ?_)
      simp [maxKeysPerShard]
    exact h [] [] [] hclock hfew (bothAccepted_of_apart hsame ha hb (not_lt.mp hapart))
  · intro h pre mid post hrun hfew hboth
    obtain ⟨ha, hb, hapart⟩ := accepted_apart hsame hrun hfew hboth
    exact absurd (h ha hb) (not_lt.mpr hapart)

end

/-! ## A window of one minute -/

def constantMac : Bytes := [0xab]

@[reducible] def constantCrypto : Crypto where
  sha256 _ := []
  hmac _ _ _ := constantMac
  hmac_ne_nil _ _ _ := List.cons_ne_nil _ _

def minuteWindow : HMACSignSpec where
  secret := ascii "0123456789abcdef"
  window := minute

/-- Signed a minute ahead of the clock at second 1000000. -/
def signedRequest : Request where
  direction := .request
  host := []
  path := ascii "/hmac"
  method := ascii "GET"
  contentType := []
  sourceIP := []
  body := []
  headers := [⟨ascii "X-Signature", hexEncode constantMac⟩, ⟨ascii "X-Timestamp", ascii "1000060"⟩]

def signedCall (sec : Int) : Call := ⟨signedRequest, sec * second, sec * second⟩

def firstShard : Bytes → Fin numShards := fun _ => ⟨0, by decide⟩

/-- The timestamp is still accepted two windows after the first use, at the moment at which
the entry of the cache expires. -/
theorem replay_after_two_windows :
    let _ := Unicode.asciiOnly
    let _ := constantCrypto
    let e := new minuteWindow firstShard
    Clocked [signedCall 1000000, signedCall 1000120] ∧
      FewKeys e [signedCall 1000000, signedCall 1000120] ∧
      SameSigned e (signedCall 1000000).request (signedCall 1000120).request ∧
      BothAccepted e [] [] (signedCall 1000000) (signedCall 1000120) := by
  intro unicode crypto e
  refine ⟨by unfold Clocked; decide +kernel, few_of_short _ (by decide +kernel), ?_, ?_⟩
  · exact ⟨⟨rfl, rfl⟩, rfl, rfl, rfl, rfl, rfl, rfl, rfl⟩
  · unfold BothAccepted Accepted
    decide +kernel

/-- A replay 65 seconds after the first use is refused in every run. -/
theorem replay_within_two_windows :
    let _ := Unicode.asciiOnly
    let _ := constantCrypto
    let e := new minuteWindow firstShard
    let a := signedCall 1000000
    let b := signedCall 1000065
    ∀ pre mid post, Clocked (pre ++ a :: (mid ++ b :: post)) →
      FewKeys e (pre ++ a :: (mid ++ b :: post)) → ¬ BothAccepted e pre mid a b := by
  intro unicode crypto e a b
  have hsame : SameSigned e a.request b.request := ⟨⟨rfl, rfl⟩, rfl, rfl, rfl, rfl, rfl, rfl, rfl⟩
  have hclock : Clocked [a, b] := by unfold Clocked; decide +kernel
  refine (never_both_accepted_iff minuteWindow firstShard a b (by decide) hsame hclock).mpr ?_
  intro _ _
  decide +kernel

end ElchiShield.HmacSign
