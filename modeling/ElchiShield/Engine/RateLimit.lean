import ElchiShield.Engine
import ElchiShield.Go.Library
import ElchiShield.Lib.Metered
import ElchiShield.Lib.Sizes
import Mathlib.Data.List.AList
import Mathlib.Data.Fintype.Pigeonhole
import Mathlib.Data.Rat.Cast.Order

/-! # Rate limits

Package `engine/ratelimit`: a token bucket per key, in shards that hold a bounded number of
buckets. Rates and times, in seconds, are exact. -/
namespace ElchiShield.RateLimit
open ElchiShield.Go ElchiShield.Lib ElchiShield.Engine

inductive KeySource where
  | ip
  | host
  | header
  deriving DecidableEq

structure Config where
  requestsPerSecond : Rat
  burst : Int := 0
  key : KeySource := .ip
  header : Bytes := []

def numShards : Nat := 64
def maxKeysPerShard : Nat := 16384
def unkeyedBucket : Bytes := 0 :: ascii "__unkeyed__"

structure Bucket where
  tokens : Rat
  last : Rat

abbrev Buckets := AList fun _ : Bytes => Bucket

/-- `index` is what `maphash` says under the seed of the engine, masked. The shards, which
change, are kept apart. -/
structure Engine where
  cfg : Config
  rps : Rat
  burst : Rat
  index : Bytes → Fin numShards

abbrev Shards := Fin numShards → Buckets

def noBuckets : Shards := fun _ => ∅

def new (cfg : Config) (index : Bytes → Fin numShards) : Except Err Engine :=
  if cfg.requestsPerSecond ≤ 0 then
    .error ⟨"ratelimit: requests_per_second must be > 0", []⟩
  else
    let burst : Rat := cfg.burst
    let burst :=
      if burst ≤ 0 then if cfg.requestsPerSecond < 1 then 1 else cfg.requestsPerSecond else burst
    .ok ⟨cfg, cfg.requestsPerSecond, burst, index⟩

theorem new_ok {cfg : Config} {index : Bytes → Fin numShards} {e : Engine}
    (h : new cfg index = .ok e) : 0 < e.rps ∧ 1 ≤ e.burst := by
  unfold new at h
  split at h
  next => cases h
  next hrps =>
    obtain rfl := Except.ok.inj h
    refine ⟨not_le.mp hrps, ?_⟩
    dsimp only
    split
    next =>
      split
      next => exact le_refl _
      next hone => exact not_lt.mp hone
    next hburst =>
      have hpos : (0 : Rat) < cfg.burst := not_le.mp hburst
      exact_mod_cast hpos

/-! ## The buckets of a shard -/

section
variable (e : Engine)

/-- The buckets that have not been idle for long enough to be full again. -/
def evictIdle (now : Rat) (buckets : Buckets) : Buckets :=
  ⟨buckets.entries.filter fun en => !decide (e.burst / e.rps ≤ now - en.2.last),
    buckets.nodupKeys.sublist List.filter_sublist⟩

/-- `allow` when there is no bucket: one is created if there is room. -/
def create (now : Rat) (key : Bytes) (buckets : Buckets) : Buckets :=
  if maxKeysPerShard ≤ buckets.keys.length then
    if maxKeysPerShard ≤ (evictIdle e now buckets).keys.length then evictIdle e now buckets
    else (evictIdle e now buckets).insert key ⟨e.burst - 1, now⟩
  else buckets.insert key ⟨e.burst - 1, now⟩

def refill (now : Rat) (b : Bucket) : Bucket :=
  if now - b.last > 0 then
    let tokens := b.tokens + (now - b.last) * e.rps
    ⟨if tokens > e.burst then e.burst else tokens, now⟩
  else b

def allowIn (now : Rat) (key : Bytes) (buckets : Buckets) : Bool × Buckets :=
  match buckets.lookup key with
  | none => (true, create e now key buckets)
  | some b =>
    let b := refill e now b
    if b.tokens ≥ 1 then (true, buckets.insert key { b with tokens := b.tokens - 1 })
    else (false, buckets.insert key b)

def allow (shards : Shards) (now : Rat) (key : Bytes) : Bool × Shards :=
  let r := allowIn e now key (shards (e.index key))
  (r.1, Function.update shards (e.index key) r.2)

end

/-! ## The engine -/

/-- The host of `net.SplitHostPort`, `none` on an error. -/
def splitHostPort (s : Bytes) : Option Bytes :=
  if s.head? = some (ch '[') then
    let inner := s.tail.takeWhile (· ≠ ch ']')
    match s.tail.dropWhile (· ≠ ch ']') with
    | _ :: c :: port =>
      if c = ch ':' ∧ ch ':' ∉ port ∧ ch '[' ∉ inner ∧ ch '[' ∉ port ∧ ch ']' ∉ port then some inner
      else none
    | _ => none
  else match cut (ch ':') s with
    | some (host, port) =>
      if ch ':' ∉ port ∧ ch '[' ∉ s ∧ ch ']' ∉ s then some host else none
    | none => none

/-- `strings.Trim(s, "[]")`. -/
def trimBrackets (s : Bytes) : Bytes :=
  let drop := List.dropWhile fun b : UInt8 => b = ch '[' ∨ b = ch ']'
  (drop (drop s).reverse).reverse

section
variable [Unicode]

def canonHost (h : Bytes) : Bytes :=
  let h := trimSpace h
  toLower (trimBrackets ((splitHostPort h).getD h))

def key (e : Engine) (req : Request) : Bytes :=
  match e.cfg.key with
  | .host => canonHost req.host
  | .header => (header req.headers e.cfg.header).getD []
  | .ip => req.sourceIP

def inspect (e : Engine) (shards : Shards) (now : Rat) (req : Request) : Verdict × Shards :=
  if req.direction ≠ .request then ({}, shards)
  else
    let k := if key e req = [] then unkeyedBucket else key e req
    match allow e shards now k with
    | (true, shards) => ({}, shards)
    | (false, shards) =>
      ({ action := .block
         reason := ascii "rate limit exceeded"
         ruleID := ascii "ratelimit.exceeded"
         engine := ascii "ratelimit"
         severity := .low
         statusCode := 429 }, shards)

end

/-! ## What a call does to the bucket of a key -/

structure Call where
  key : Bytes
  time : Rat

def step (e : Engine) (shards : Shards) (call : Call) : Bool × Shards :=
  allow e shards call.time call.key

def bucketOf (e : Engine) (shards : Shards) (k : Bytes) : Option Bucket :=
  (shards (e.index k)).lookup k

/-- The key has no bucket, and the shard is full of buckets that are in use. A call is then
allowed without a bucket. -/
def saturated (e : Engine) (shards : Shards) (call : Call) : Bool :=
  (bucketOf e shards call.key).isNone &&
    decide (maxKeysPerShard ≤
      (evictIdle e call.time (shards (e.index call.key))).keys.length)

section
variable {e : Engine} {now : Rat} {buckets : Buckets} {k key : Bytes}

theorem lookup_evictIdle (e : Engine) (now : Rat) (buckets : Buckets) (k : Bytes) :
    (evictIdle e now buckets).lookup k =
      (buckets.lookup k).filter fun b => !decide (e.burst / e.rps ≤ now - b.last) := by
  ext b
  rw [← Option.mem_def, AList.mem_lookup_iff, Option.filter_eq_some_iff, ← Option.mem_def,
    AList.mem_lookup_iff]
  exact List.mem_filter

theorem keys_evictIdle_le (e : Engine) (now : Rat) (buckets : Buckets) :
    (evictIdle e now buckets).keys.length ≤ buckets.keys.length := by
  simp only [AList.keys, List.keys, List.length_map]
  exact List.length_filter_le _ _

/-- A bucket is kept, or it is full again and evicted. -/
theorem evictIdle_lookup_cases :
    (evictIdle e now buckets).lookup k = buckets.lookup k ∨
      (evictIdle e now buckets).lookup k = none ∧
        ∃ b, buckets.lookup k = some b ∧ e.burst / e.rps ≤ now - b.last := by
  rw [lookup_evictIdle]
  cases buckets.lookup k with
  | none => exact .inl rfl
  | some b =>
    by_cases hidle : e.burst / e.rps ≤ now - b.last
    · exact .inr ⟨by simp [hidle], b, rfl, hidle⟩
    · exact .inl (by simp [hidle])

theorem create_lookup_other (hk : k ≠ key) :
    (create e now key buckets).lookup k = buckets.lookup k ∨
      (create e now key buckets).lookup k = none ∧
        ∃ b, buckets.lookup k = some b ∧ e.burst / e.rps ≤ now - b.last := by
  unfold create
  split
  next =>
    split
    next => exact evictIdle_lookup_cases
    next =>
      rw [AList.lookup_insert_ne hk]
      exact evictIdle_lookup_cases
  next => exact .inl (AList.lookup_insert_ne hk)

theorem create_lookup_own (hnone : buckets.lookup key = none) :
    (create e now key buckets).lookup key =
      if maxKeysPerShard ≤ (evictIdle e now buckets).keys.length then none
      else some ⟨e.burst - 1, now⟩ := by
  unfold create
  have hle := keys_evictIdle_le e now buckets
  by_cases hfull : maxKeysPerShard ≤ (evictIdle e now buckets).keys.length
  · rw [if_pos (le_trans hfull hle), if_pos hfull, if_pos hfull, lookup_evictIdle, hnone]
    rfl
  · rw [if_neg hfull, if_neg hfull]
    split
    next => exact AList.lookup_insert _
    next => exact AList.lookup_insert _

end

section
variable {e : Engine} {shards : Shards} {call : Call} {k : Bytes}

theorem step_fst :
    (step e shards call).1 = (allowIn e call.time call.key (shards (e.index call.key))).1 := rfl

theorem step_snd : (step e shards call).2 = Function.update shards (e.index call.key)
    (allowIn e call.time call.key (shards (e.index call.key))).2 := rfl

theorem bucketOf_step_own : bucketOf e (step e shards call).2 call.key =
    (allowIn e call.time call.key (shards (e.index call.key))).2.lookup call.key := by
  rw [bucketOf, step_snd, Function.update_self]

theorem bucketOf_step_other (hk : k ≠ call.key) :
    bucketOf e (step e shards call).2 k = bucketOf e shards k ∨
      bucketOf e (step e shards call).2 k = none ∧
        ∃ b, bucketOf e shards k = some b ∧ e.burst / e.rps ≤ call.time - b.last := by
  rw [bucketOf, bucketOf, step_snd]
  by_cases hi : e.index k = e.index call.key
  · rw [hi, Function.update_self]
    unfold allowIn
    cases (shards (e.index call.key)).lookup call.key with
    | none => exact create_lookup_other hk
    | some b =>
      dsimp only
      split
      next => exact .inl (AList.lookup_insert_ne hk)
      next => exact .inl (AList.lookup_insert_ne hk)
  · rw [Function.update_of_ne hi]
    exact .inl rfl

/-- A key without a bucket is allowed, and gets one unless the shard is saturated. -/
theorem step_new (hnone : bucketOf e shards call.key = none) :
    (step e shards call).1 = true ∧ bucketOf e (step e shards call).2 call.key =
      if saturated e shards call then none else some ⟨e.burst - 1, call.time⟩ := by
  have hsaturated : saturated e shards call = decide (maxKeysPerShard ≤
      (evictIdle e call.time (shards (e.index call.key))).keys.length) := by
    simp [saturated, hnone]
  rw [hsaturated]
  rw [bucketOf_step_own, step_fst]
  unfold bucketOf at hnone
  unfold allowIn
  rw [hnone]
  refine ⟨rfl, ?_⟩
  rw [create_lookup_own hnone]
  simp only [decide_eq_true_eq]

/-- A key with a bucket is allowed if there is a token after the refill, and takes it. -/
theorem step_known {b : Bucket} (hb : bucketOf e shards call.key = some b) :
    (1 ≤ (refill e call.time b).tokens ∧ (step e shards call).1 = true ∧
      bucketOf e (step e shards call).2 call.key =
        some { refill e call.time b with tokens := (refill e call.time b).tokens - 1 }) ∨
    (¬ 1 ≤ (refill e call.time b).tokens ∧ (step e shards call).1 = false ∧
      bucketOf e (step e shards call).2 call.key = some (refill e call.time b)) := by
  rw [bucketOf_step_own, step_fst]
  unfold bucketOf at hb
  unfold allowIn
  rw [hb]
  dsimp only
  by_cases htoken : 1 ≤ (refill e call.time b).tokens
  · rw [if_pos htoken]
    exact .inl ⟨htoken, rfl, AList.lookup_insert _⟩
  · rw [if_neg htoken]
    exact .inr ⟨htoken, rfl, AList.lookup_insert _⟩

end

/-! ## The level of a key -/

/-- The tokens a bucket would have after a refill; a key without a bucket has them all. -/
def levelOf (e : Engine) (t : Rat) : Option Bucket → Rat
  | none => e.burst
  | some b => min e.burst (b.tokens + e.rps * (t - b.last))

/-- A bucket as it can be at a time. -/
structure Bucket.Valid (e : Engine) (t : Rat) (b : Bucket) : Prop where
  nonneg : 0 ≤ b.tokens
  le_burst : b.tokens ≤ e.burst
  last : b.last ≤ t

/-- Allowed by a bucket of the key. -/
def counted (e : Engine) (k : Bytes) (ev : Event Shards Call Bool) : Bool :=
  decide (ev.input.key = k) && ev.output && !saturated e ev.before ev.input

section
variable {e : Engine} {t t' : Rat} {b : Bucket}

theorem levelOf_now (hle : b.tokens ≤ e.burst) (hlast : b.last = t) :
    levelOf e t (some b) = b.tokens := by
  show min e.burst (b.tokens + e.rps * (t - b.last)) = b.tokens
  rw [hlast, sub_self, mul_zero, add_zero, min_eq_right hle]

theorem refill_spec (hb : b.Valid e t) :
    (refill e t b).tokens = levelOf e t (some b) ∧ (refill e t b).last = t := by
  unfold refill
  by_cases helapsed : t - b.last > 0
  · rw [if_pos helapsed]
    dsimp only [levelOf]
    rw [mul_comm (t - b.last)]
    refine ⟨?_, rfl⟩
    by_cases hfull : b.tokens + e.rps * (t - b.last) > e.burst
    · rw [if_pos hfull, min_eq_left (le_of_lt hfull)]
    · rw [if_neg hfull, min_eq_right (not_lt.mp hfull)]
  · rw [if_neg helapsed]
    have hlast : b.last = t := by
      have := hb.last
      linarith
    exact ⟨(levelOf_now hb.le_burst hlast).symm, hlast⟩

theorem levelOf_nonneg (hburst : 0 ≤ e.burst) (hrps : 0 ≤ e.rps) (hb : b.Valid e t) :
    0 ≤ levelOf e t (some b) := by
  have hin : 0 ≤ e.rps * (t - b.last) := mul_nonneg hrps (sub_nonneg.mpr hb.last)
  have htokens := hb.nonneg
  exact le_min hburst (by linarith)

theorem levelOf_le_burst (e : Engine) (t : Rat) (b : Option Bucket) : levelOf e t b ≤ e.burst := by
  cases b with
  | none => exact le_refl _
  | some b => exact min_le_left _ _

theorem levelOf_fills (hrps : 0 ≤ e.rps) (ht : t ≤ t') (b : Option Bucket) :
    levelOf e t' b ≤ levelOf e t b + e.rps * (t' - t) := by
  have hin : 0 ≤ e.rps * (t' - t) := mul_nonneg hrps (sub_nonneg.mpr ht)
  cases b with
  | none =>
    show e.burst ≤ e.burst + _
    linarith
  | some b =>
    unfold levelOf
    rw [← min_add_add_right]
    refine min_le_min (by linarith) ?_
    rw [add_assoc, ← mul_add]
    refine le_of_eq ?_
    ring

/-- A bucket that has been idle for long enough is as good as none. -/
theorem levelOf_idle (hrps : 0 < e.rps) (hb : b.Valid e t)
    (hidle : e.burst / e.rps ≤ t - b.last) : levelOf e t (some b) = e.burst := by
  have hfull : e.burst ≤ (t - b.last) * e.rps := (div_le_iff₀ hrps).mp hidle
  have htokens := hb.nonneg
  rw [mul_comm] at hfull
  exact min_eq_left (by linarith)

variable {shards : Shards} {call : Call} {k : Bytes}

/-- The bucket of a key, if there is one, is valid. -/
def ValidAt (e : Engine) (k : Bytes) (t : Rat) (shards : Shards) : Prop :=
  ∀ b, bucketOf e shards k = some b → b.Valid e t

/-- A bucket that has just been written. -/
theorem ValidAt.of_written (hb : bucketOf e shards k = some b) (hnonneg : 0 ≤ b.tokens)
    (hle : b.tokens ≤ e.burst) (hlast : b.last = t) :
    ValidAt e k t shards ∧ levelOf e t (bucketOf e shards k) = b.tokens := by
  rw [hb, levelOf_now hle hlast]
  refine ⟨?_, rfl⟩
  intro b' hb'
  rw [hb] at hb'
  obtain rfl := Option.some.inj hb'
  exact ⟨hnonneg, hle, le_of_eq hlast⟩

/-- What a call leaves of the level of its own key. -/
theorem step_level_own (hrps : 0 < e.rps) (hburst : 1 ≤ e.burst)
    (h : ValidAt e call.key call.time shards) :
    ValidAt e call.key call.time (step e shards call).2 ∧
      levelOf e call.time (bucketOf e (step e shards call).2 call.key) +
        (if (step e shards call).1 && !saturated e shards call then 1 else 0) ≤
      levelOf e call.time (bucketOf e shards call.key) := by
  cases hb : bucketOf e shards call.key with
  | none =>
    obtain ⟨hallowed, hafter⟩ := step_new hb
    rw [hallowed, Bool.true_and]
    by_cases hsaturated : saturated e shards call = true
    · rw [if_pos hsaturated] at hafter
      rw [hafter, hsaturated]
      refine ⟨?_, by simp⟩
      intro b hb
      rw [hafter] at hb
      cases hb
    · rw [if_neg hsaturated] at hafter
      rw [Bool.not_eq_true] at hsaturated
      obtain ⟨hvalid, hlevel⟩ :=
        ValidAt.of_written hafter (sub_nonneg.mpr hburst) (sub_le_self _ zero_le_one) rfl
      rw [hlevel, hsaturated]
      exact ⟨hvalid, by simp [levelOf]⟩
  | some b =>
    have hvalid := h b hb
    obtain ⟨htokens, hlast⟩ := refill_spec hvalid
    have hsaturated : saturated e shards call = false := by simp [saturated, hb]
    have hle := levelOf_le_burst e call.time (some b)
    rw [hsaturated, ← htokens]
    rw [← htokens] at hle
    rcases step_known hb with ⟨htoken, hallowed, hafter⟩ | ⟨-, hblocked, hafter⟩
    · obtain ⟨hvalid, hlevel⟩ := ValidAt.of_written hafter (sub_nonneg.mpr htoken)
        (le_trans (sub_le_self _ zero_le_one) hle) hlast
      rw [hlevel, hallowed]
      exact ⟨hvalid, by simp⟩
    · have hnonneg := levelOf_nonneg (le_trans zero_le_one hburst) (le_of_lt hrps) hvalid
      rw [← htokens] at hnonneg
      obtain ⟨hvalid, hlevel⟩ := ValidAt.of_written hafter hnonneg hle hlast
      rw [hlevel, hblocked]
      exact ⟨hvalid, by simp⟩

/-- A call for another key leaves the level as it is. -/
theorem step_level_other (hrps : 0 < e.rps) (hk : k ≠ call.key)
    (h : ValidAt e k call.time shards) :
    ValidAt e k call.time (step e shards call).2 ∧
      levelOf e call.time (bucketOf e (step e shards call).2 k) =
        levelOf e call.time (bucketOf e shards k) := by
  rcases bucketOf_step_other hk with hsame | ⟨hevicted, b, hb, hidle⟩
  · rw [hsame]
    exact ⟨fun b hb => h b (hsame.symm.trans hb), rfl⟩
  · rw [hevicted, hb, levelOf_idle hrps (h b hb) hidle]
    refine ⟨?_, rfl⟩
    intro b' hb'
    rw [hevicted] at hb'
    cases hb'

theorem step_level (hrps : 0 < e.rps) (hburst : 1 ≤ e.burst)
    (h : ValidAt e k call.time shards) :
    ValidAt e k call.time (step e shards call).2 ∧
      levelOf e call.time (bucketOf e (step e shards call).2 k) +
        (if counted e k (event (step e) shards call) then 1 else 0) ≤
      levelOf e call.time (bucketOf e shards k) := by
  by_cases hk : call.key = k
  · subst hk
    have hcounted : counted e call.key (event (step e) shards call) =
        ((step e shards call).1 && !saturated e shards call) := by
      simp [counted, event]
    rw [hcounted]
    exact step_level_own hrps hburst h
  · have hcounted : counted e k (event (step e) shards call) = false := by
      simp [counted, event, hk]
    obtain ⟨hvalid, hlevel⟩ := step_level_other hrps (Ne.symm hk) h
    rw [hcounted, hlevel]
    exact ⟨hvalid, by simp⟩

end

/-- The level of a key is a meter of what its bucket allows. -/
def meter (e : Engine) (hrps : 0 < e.rps) (hburst : 1 ≤ e.burst) (k : Bytes) :
    Meter (step e) Call.time (counted e k) e.burst e.rps where
  Inv := ValidAt e k
  level shards t := levelOf e t (bucketOf e shards k)
  rate_nonneg := le_of_lt hrps
  later ht h b hb := ⟨(h b hb).nonneg, (h b hb).le_burst, le_trans (h b hb).last ht⟩
  nonneg {t s} h := by
    cases hb : bucketOf e s k with
    | none => exact le_trans zero_le_one hburst
    | some b => exact levelOf_nonneg (le_trans zero_le_one hburst) (le_of_lt hrps) (h b hb)
  le_burst _ := levelOf_le_burst e _ _
  fills ht _ := levelOf_fills (le_of_lt hrps) ht _
  step_inv h := (step_level hrps hburst h).1
  takes h := (step_level hrps hburst h).2

/-- In every window of time, a key is allowed at most its burst and what the rate gives, apart
from the calls that meet a saturated shard. -/
theorem allowed_in_window_le (cfg : Config) (index : Bytes → Fin numShards) (e : Engine)
    (hnew : new cfg index = .ok e) (calls : List Call)
    (hclock : calls.Pairwise fun a b => a.time ≤ b.time) (k : Bytes) (t d : Rat) (hd : 0 ≤ d) :
    ((trace (step e) noBuckets calls).countP fun ev =>
      (decide (ev.input.key = k) && ev.output && !saturated e ev.before ev.input) &&
        (decide (t ≤ ev.input.time) && decide (ev.input.time ≤ t + d)) : Rat) ≤
      e.burst + e.rps * d := by
  obtain ⟨hrps, hburst⟩ := new_ok hnew
  have hvalid : ∀ start, ValidAt e k start noBuckets := by
    intro start b hb
    cases hb
  cases calls with
  | nil =>
    exact (meter e hrps hburst k).count_window_le hclock (hvalid 0) (by simp) t hd
  | cons call rest =>
    refine (meter e hrps hburst k).count_window_le hclock (hvalid call.time) ?_ t hd
    intro c hc
    rcases List.mem_cons.mp hc with rfl | hc
    · exact le_refl _
    · exact List.rel_of_pairwise_cons hclock hc

/-- Three calls at once are allowed by a burst of three, and a fourth is not. -/
theorem burst_of_three :
    let index : Bytes → Fin numShards := fun _ => ⟨0, by decide⟩
    let e : Engine := ⟨⟨1, 3, .ip, []⟩, 1, 3, index⟩
    let calls := List.replicate 4 (⟨ascii "192.0.2.1", 0⟩ : Call)
    (trace (step e) noBuckets calls).map Event.output = [true, true, true, false] ∧
      ((trace (step e) noBuckets calls).countP fun ev =>
        (decide (ev.input.key = ascii "192.0.2.1") && ev.output &&
          !saturated e ev.before ev.input) &&
          (decide (0 ≤ ev.input.time) && decide (ev.input.time ≤ 0 + 0)) : Rat) ≤ 3 + 1 * 0 := by
  intro index e calls
  have hclock : calls.Pairwise fun a b => a.time ≤ b.time :=
    List.pairwise_replicate.mpr (.inr (le_refl _))
  exact ⟨by decide +kernel, allowed_in_window_le ⟨1, 3, .ip, []⟩ index e (by rfl) calls hclock
    (ascii "192.0.2.1") 0 0 (le_refl _)⟩

/-! ## A flood of keys -/

/-- One request per second, and no burst. -/
def slow : Config := { requestsPerSecond := 1, burst := 1 }

def slowEngine (index : Bytes → Fin numShards) : Engine := ⟨slow, 1, 1, index⟩

/-- The shard holds a bucket, written at time 0, for each of these keys and for no other. -/
structure Flooded (i : Fin numShards) (keys : List Bytes) (shards : Shards) : Prop where
  mem : ∀ k, k ∈ shards i ↔ k ∈ keys
  length : (shards i).keys.length = keys.length
  fresh : ∀ en ∈ (shards i).entries, en.2.last = 0

section
variable {index : Bytes → Fin numShards} {i : Fin numShards} {keys : List Bytes} {shards : Shards}
  {k : Bytes}

theorem Flooded.lookup_none (h : Flooded i keys shards) (hk : k ∉ keys) :
    (shards i).lookup k = none := by
  rw [AList.lookup_eq_none, h.mem]
  exact hk

theorem Flooded.evictIdle_eq (h : Flooded i keys shards) :
    evictIdle (slowEngine index) 0 (shards i) = shards i := by
  refine AList.ext (List.filter_eq_self.mpr ?_)
  intro en hen
  rw [h.fresh en hen]
  simp [slowEngine]

theorem step_slow (shards : Shards) (hi : index k = i) (hnone : (shards i).lookup k = none) :
    step (slowEngine index) shards ⟨k, 0⟩ =
      (true, Function.update shards i (create (slowEngine index) 0 k (shards i))) := by
  subst hi
  unfold step allow allowIn
  rw [show (shards ((slowEngine index).index k)).lookup k = none from hnone]
  rfl

theorem Flooded.add (h : Flooded i keys shards) (hi : index k = i) (hk : k ∉ keys)
    (hroom : keys.length < maxKeysPerShard) :
    Flooded i (k :: keys) (step (slowEngine index) shards ⟨k, 0⟩).2 := by
  have hnone := h.lookup_none hk
  have hentries : (create (slowEngine index) 0 k (shards i)).entries =
      ⟨k, ⟨1 - 1, 0⟩⟩ :: (shards i).entries := by
    unfold create
    rw [if_neg (by rw [h.length]; omega)]
    exact AList.entries_insert_of_notMem (AList.lookup_eq_none.mp hnone)
  have hafter : (step (slowEngine index) shards ⟨k, 0⟩).2 i =
      create (slowEngine index) 0 k (shards i) := by
    rw [step_slow shards hi hnone]
    exact Function.update_self ..
  refine ⟨?_, ?_, ?_⟩
  · intro k'
    rw [hafter, AList.mem_keys, AList.keys, hentries, List.mem_cons, ← h.mem]
    simp [AList.mem_keys, AList.keys]
  · rw [hafter, AList.keys, hentries]
    simpa [AList.keys] using h.length
  · intro en hen
    rw [hafter, hentries] at hen
    rcases List.mem_cons.mp hen with rfl | hen
    · rfl
    · exact h.fresh en hen

theorem Flooded.run (h : Flooded i keys shards) {more : List Bytes} (hi : ∀ k ∈ more, index k = i)
    (hnodup : (more ++ keys).Nodup) (hroom : (more ++ keys).length ≤ maxKeysPerShard) :
    Flooded i (more.reverse ++ keys)
      (runFrom (step (slowEngine index)) shards (more.map fun k => ⟨k, 0⟩)) := by
  induction more generalizing keys shards with
  | nil => exact h
  | cons k more ih =>
    rw [List.cons_append, List.nodup_cons, List.mem_append, not_or] at hnodup
    rw [List.cons_append, List.length_cons, List.length_append] at hroom
    have hstep := h.add (hi k List.mem_cons_self) hnodup.1.2 (by omega)
    have hnext := ih hstep (fun k hk => hi k (List.mem_cons_of_mem _ hk)) ?_ ?_
    · rw [List.reverse_cons, List.append_assoc]
      exact hnext
    · rw [List.nodup_middle, List.nodup_cons, List.mem_append, not_or]
      exact hnodup
    · rw [List.length_append, List.length_cons]
      omega

/-- Distinct keys of one shard, as many as it may hold, each get a bucket. -/
theorem flooded_run (hi : ∀ k ∈ keys, index k = i) (hnodup : keys.Nodup)
    (hroom : keys.length ≤ maxKeysPerShard) : Flooded i keys.reverse
      (runFrom (step (slowEngine index)) noBuckets (keys.map fun k => ⟨k, 0⟩)) := by
  have hempty : Flooded i [] noBuckets := by
    refine ⟨?_, rfl, ?_⟩
    · simp [noBuckets]
    · simp [noBuckets]
  simpa using hempty.run hi (by simpa using hnodup) (by simpa using hroom)

/-- A call that finds the shard full is allowed and changes nothing. -/
theorem Flooded.full (h : Flooded i keys shards) (hi : index k = i) (hk : k ∉ keys)
    (hfull : maxKeysPerShard ≤ keys.length) :
    step (slowEngine index) shards ⟨k, 0⟩ = (true, shards) := by
  rw [step_slow shards hi (h.lookup_none hk)]
  unfold create
  rw [h.evictIdle_eq, h.length, if_pos hfull, if_pos hfull, Function.update_eq_self]

end

/-- A call that is allowed without a trace is allowed again. -/
theorem two_le_count {e : Engine} {calls : List Call} {k : Bytes}
    (h : step e (runFrom (step e) noBuckets calls) ⟨k, 0⟩ =
      (true, runFrom (step e) noBuckets calls)) :
    2 ≤ (trace (step e) noBuckets (calls ++ [⟨k, 0⟩, ⟨k, 0⟩])).countP fun ev =>
      (decide (ev.input.key = k) && ev.output) &&
        (decide (0 ≤ ev.input.time) && decide (ev.input.time ≤ 0 + 0)) := by
  rw [trace_append, List.countP_append]
  refine le_trans (le_of_eq ?_) (Nat.le_add_left _ _)
  simp [trace, event, h]

section
variable {index : Bytes → Fin numShards} {i : Fin numShards} {k : Bytes} {more : List Bytes}

/-- A key comes twice at once to the shard that as many others have filled. -/
def flood (more : List Bytes) (k : Bytes) : List Call := (more ++ [k, k]).map fun k => ⟨k, 0⟩

theorem flood_clock (more : List Bytes) (k : Bytes) :
    (flood more k).Pairwise fun a b => a.time ≤ b.time :=
  List.pairwise_map.mpr (List.pairwise_of_forall fun _ _ => le_refl _)

theorem flood_overruns (hshard : ∀ k' ∈ k :: more, index k' = i) (hnodup : (k :: more).Nodup)
    (hlength : more.length = maxKeysPerShard) :
    (slowEngine index).burst + (slowEngine index).rps * 0 <
      ((trace (step (slowEngine index)) noBuckets (flood more k)).countP fun ev =>
        (decide (ev.input.key = k) && ev.output) &&
          (decide (0 ≤ ev.input.time) && decide (ev.input.time ≤ 0 + 0)) : Rat) := by
  rw [List.nodup_cons] at hnodup
  have hflooded := flooded_run (fun k hk => hshard k (List.mem_cons_of_mem _ hk)) hnodup.2
    (le_of_eq hlength)
  have hfull : step (slowEngine index) _ ⟨k, 0⟩ = (true, _) :=
    hflooded.full (hshard k List.mem_cons_self) (by simpa using hnodup.1) (by simp [hlength])
  have hcalls : flood more k = (more.map fun k => ⟨k, 0⟩) ++ [⟨k, 0⟩, ⟨k, 0⟩] := by
    simp [flood]
  have htwice : ((2 : Nat) : Rat) ≤ _ := Nat.cast_le.mpr (two_le_count hfull)
  rw [hcalls]
  refine lt_of_lt_of_le ?_ htwice
  norm_num [slowEngine]

end

/-- Whatever the hash, a key that comes to a shard full of fresh buckets is allowed as often as
it comes: here twice at once, with a burst of one. -/
theorem every_hash_overruns (index : Bytes → Fin numShards) :
    ∃ (k : Bytes) (more : List Bytes),
      (slowEngine index).burst + (slowEngine index).rps * 0 <
        ((trace (step (slowEngine index)) noBuckets (flood more k)).countP fun ev =>
          (decide (ev.input.key = k) && ev.output) &&
            (decide (0 ≤ ev.input.time) && decide (ev.input.time ≤ 0 + 0)) : Rat) := by
  -- some shard takes infinitely many keys
  obtain ⟨i, hinf⟩ := Finite.exists_infinite_fiber index
  obtain ⟨chosen, hcard⟩ :=
    Infinite.exists_subset_card_eq (Set.preimage index {i}) (maxKeysPerShard + 1)
  have hshard : ∀ k ∈ chosen.toList.map Subtype.val, index k = i := by
    intro k hk
    obtain ⟨k', -, rfl⟩ := List.mem_map.mp hk
    exact k'.2
  have hlength : (chosen.toList.map Subtype.val).length = maxKeysPerShard + 1 := by
    rw [List.length_map, Finset.length_toList, hcard]
  have hnodup := chosen.nodup_toList.map Subtype.val_injective
  obtain ⟨k, more, hsplit⟩ := List.exists_cons_of_length_eq_add_one hlength
  rw [hsplit] at hshard hlength hnodup
  exact ⟨k, more, flood_overruns hshard hnodup (Nat.succ.inj hlength)⟩

/-- Keys of one letter and of different lengths. -/
def floodKeys : List Bytes :=
  (List.range maxKeysPerShard).map fun n => List.replicate (n + 1) (ch 'k')

theorem floodKeys_length : floodKeys.length = maxKeysPerShard := by
  rw [floodKeys, List.length_map, List.length_range]

theorem floodKeys_nodup : (ascii "192.0.2.1" :: floodKeys).Nodup :=
  Lib.nodup_cons_runs (by decide) maxKeysPerShard

/-- With a hash that sends every key to one shard. -/
theorem flooded_shard_allows_all :
    let index : Bytes → Fin numShards := fun _ => ⟨0, by decide⟩
    let calls := flood floodKeys (ascii "192.0.2.1")
    new slow index = .ok (slowEngine index) ∧
      calls.Pairwise (fun a b => a.time ≤ b.time) ∧
        (slowEngine index).burst + (slowEngine index).rps * 0 <
          ((trace (step (slowEngine index)) noBuckets calls).countP fun ev =>
            (decide (ev.input.key = ascii "192.0.2.1") && ev.output) &&
              (decide (0 ≤ ev.input.time) && decide (ev.input.time ≤ 0 + 0)) : Rat) := by
  intro index calls
  exact ⟨by rfl, flood_clock floodKeys _,
    flood_overruns (fun _ _ => rfl) floodKeys_nodup floodKeys_length⟩

end ElchiShield.RateLimit
