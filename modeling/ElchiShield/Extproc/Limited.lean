import ElchiShield.Engine.RateLimit
import ElchiShield.Extproc.FailClosed
import ElchiShield.Lib.Places

/-! # Requests within the rate

The buckets of a rate limit are shared by all streams of a process. The calls of the limiter come
in one order, that of the locks of its shards, and the answers a stream gets are those to its own
calls. -/
namespace ElchiShield.RateLimit
open ElchiShield.Go ElchiShield.Lib ElchiShield.Engine

section
variable [Unicode]

/-- The key a request is counted under. -/
def keyOf (e : Engine) (req : Request) : Bytes := if key e req = [] then unkeyedBucket else key e req

/-- The engine as one stream sees it: `place` says which of the calls is the one it makes at a
tick. Where it makes none there is no answer. -/
def Engine.securityEngine (e : Engine) (calls : List (Event Shards Call Bool))
    (place : Nat → Option Nat) : SecurityEngine where
  name := ascii "ratelimit"
  requiresBody := false
  inspectsResponse := false
  inspect := fun tick req =>
    match (place tick).bind (calls[·]?) with
    | none => .panicked
    | some call =>
      if call.input.key = keyOf e req then .verdict (inspect e call.before call.input.time req).1
      else .panicked

theorem inspect_action {e : Engine} {shards : Shards} {now : Rat} {req : Request}
    (hdir : req.direction = .request) (h : (inspect e shards now req).1.action ≠ .block) :
    (allow e shards now (keyOf e req)).1 = true := by
  rw [inspect, if_neg (not_not.mpr hdir)] at h
  dsimp only at h
  rw [← keyOf] at h
  split at h
  next hallow => rw [hallow]
  next => exact absurd rfl h

omit [Unicode] in
theorem count_in_window_le {cfg : Config} {index : Bytes → Fin numShards} {e : Engine}
    (hnew : new cfg index = .ok e) {calls : List Call}
    (hclock : calls.Pairwise fun a b => a.time ≤ b.time) (k : Bytes) (t : Rat) {d : Rat}
    (hd : 0 ≤ d) :
    ((trace (step e) noBuckets calls).countP fun call => counted e k call &&
      (decide (t ≤ call.input.time) && decide (call.input.time ≤ t + d)) : Rat) ≤
      e.burst + e.rps * d := by
  obtain ⟨hrps, hburst⟩ := new_ok hnew
  have hvalid : ∀ start, ValidAt e k start noBuckets := by
    intro start b hb
    cases hb
  cases calls with
  | nil => exact (meter e hrps hburst k).count_window_le hclock (hvalid 0) (by simp) t hd
  | cons call rest =>
    refine (meter e hrps hburst k).count_window_le hclock (hvalid call.time) ?_ t hd
    exact List.forall_mem_cons.mpr ⟨le_refl _, fun c hc => List.rel_of_pairwise_cons hclock hc⟩

/-- A request the engine does not block has made a call that was allowed. -/
theorem cleared_call {e : Engine} {calls : List Call} {place : Nat → Option Nat} {req : Request}
    (hdir : req.direction = .request) {tick : Nat} {v : Verdict}
    (h : (e.securityEngine (trace (step e) noBuckets calls) place).inspect tick req = .verdict v)
    (hv : v.action ≠ .block) :
    ∃ i call, place tick = some i ∧ (trace (step e) noBuckets calls)[i]? = some call ∧
      call.input.key = keyOf e req ∧ call.output = true := by
  have houtput : ∀ call ∈ trace (step e) noBuckets calls,
      call.output = (step e call.before call.input).1 :=
    trace_invariant (C := fun _ => True) (I := fun _ => True) (fun _ _ _ _ => ⟨rfl, trivial⟩) trivial
      fun _ _ => trivial
  simp only [Engine.securityEngine] at h
  split at h
  next => cases h
  next call hcall =>
    split at h
    next hkey =>
      obtain ⟨i, hi, hget⟩ := Option.bind_eq_some_iff.mp hcall
      refine ⟨i, call, hi, hget, hkey, ?_⟩
      cases h
      rw [houtput call (List.mem_of_getElem? hget), step, hkey]
      exact inspect_action hdir hv
    next => cases h

end

end ElchiShield.RateLimit

namespace ElchiShield.Extproc
open ElchiShield.Go ElchiShield.Lib ElchiShield.Engine ElchiShield.Policy ElchiShield.Runtime
open ElchiShield.Pipeline ElchiShield.Stages

section
variable [Library]

/-- A request comes to a stream, whose calls of the limiter are at `place`. -/
structure Arrival where
  processor : Processor
  world : World
  stream : Exec
  attributes : List Bytes
  headers : HttpHeaders
  place : Nat → Option Nat

/-- The request as the stages of its policy see it. -/
def Arrival.seen (a : Arrival) : Transaction :=
  (preludeOf a.processor a.world a.headers (received a.attributes a.stream)).2.tx

def Arrival.handled (a : Arrival) : Option ProcessingResponse × Exec :=
  a.processor.handle a.world a.stream (.requestHeaders a.attributes a.headers)

def Arrival.forwarded (a : Arrival) : Bool := !a.handled.1.any ProcessingResponse.isImmediate

/-- The call at the place `i` is made for the request: behind its prelude and before its answer. -/
def Arrival.Makes (a : Arrival) (i : Nat) : Prop :=
  ∃ tick, (preludeOf a.processor a.world a.headers (received a.attributes a.stream)).2.tick ≤ tick ∧
    tick < a.handled.2.tick ∧ a.place tick = some i

/-- The request is under a policy that fails closed and has the engine. -/
structure Limited (e : RateLimit.Engine)
    (calls : List (Event RateLimit.Shards RateLimit.Call Bool)) (a : Arrival) : Prop where
  unsettled : a.stream.tx.requestSettled = false
  policy : ∃ p, a.seen.policy = some p ∧ FailsClosed p ∧
    Config.stageWAFEngine ∈ effectiveOrder p .request ∧
    e.securityEngine calls a.place ∈ p.engineSet.engines

/-- A call for the request has allowed it under its key. -/
def AllowedBy (e : RateLimit.Engine) (calls : List (Event RateLimit.Shards RateLimit.Call Bool))
    (a : Arrival) (i : Nat) : Prop :=
  a.Makes i ∧ ∃ call, calls[i]? = some call ∧
    call.input.key = RateLimit.keyOf e (engineRequest a.seen) ∧ call.output = true

theorem Limited.allowed {e : RateLimit.Engine} {calls : List RateLimit.Call} {a : Arrival}
    (h : Limited e (trace (RateLimit.step e) RateLimit.noBuckets calls) a)
    (hforwarded : a.forwarded = true) :
    ∃ i, AllowedBy e (trace (RateLimit.step e) RateLimit.noBuckets calls) a i := by
  obtain ⟨p, hp, hc, hwaf, hmem⟩ := h.policy
  have hpass : a.handled.1.any ProcessingResponse.isImmediate = false := by
    simpa [Arrival.forwarded] using hforwarded
  obtain ⟨tick, v, hfrom, huntil, hv, hblock⟩ :=
    forwarded_headers_cleared hc hwaf h.unsettled rfl hp hpass _ hmem rfl
  have hdir := (preludeOf_request a.processor a.world a.headers a.attributes a.stream).1
  obtain ⟨i, call, hplace, hget, hkey, houtput⟩ := RateLimit.cleared_call hdir hv hblock
  exact ⟨i, ⟨tick, hfrom, huntil, hplace⟩, call, hget, hkey, houtput⟩

/-- The calls for a request fall in the window of `d` seconds from `t`, and none meets a saturated
shard. -/
def Arrival.Within (e : RateLimit.Engine) (calls : List (Event RateLimit.Shards RateLimit.Call Bool))
    (t d : Rat) (a : Arrival) : Prop :=
  ∀ i call, a.Makes i → calls[i]? = some call → t ≤ call.input.time ∧ call.input.time ≤ t + d ∧
    RateLimit.saturated e call.before call.input = false

/-- **No more requests of a key are let pass than its rate allows**, in any window of time and
however the streams interleave. Each request that is let pass was allowed by a call of its own; and
of those that have the key and make their calls within the window, apart from calls that meet a
saturated shard, there are at most the burst and what the rate gives. -/
theorem forwarded_requests_within_rate {cfg : RateLimit.Config}
    {index : Bytes → Fin RateLimit.numShards} {e : RateLimit.Engine}
    (hnew : RateLimit.new cfg index = .ok e) {calls : List RateLimit.Call}
    (hclock : calls.Pairwise fun a b => a.time ≤ b.time) {arrivals : List Arrival}
    (hlimited : ∀ a ∈ arrivals, Limited e (trace (RateLimit.step e) RateLimit.noBuckets calls) a)
    (hplaces : arrivals.Pairwise fun a b => ∀ i, a.Makes i → ¬ b.Makes i) :
    (∀ a ∈ arrivals, a.forwarded = true →
      ∃ i, AllowedBy e (trace (RateLimit.step e) RateLimit.noBuckets calls) a i) ∧
    ∀ (k : Bytes) (t d : Rat) (passed : List Arrival), 0 ≤ d → passed.Sublist arrivals →
      (∀ a ∈ passed, a.forwarded = true ∧ RateLimit.keyOf e (engineRequest a.seen) = k ∧
        a.Within e (trace (RateLimit.step e) RateLimit.noBuckets calls) t d) →
      (passed.length : Rat) ≤ e.burst + e.rps * d := by
  refine ⟨fun a ha => (hlimited a ha).allowed, ?_⟩
  intro k t d passed hd hsub hpassed
  refine le_trans ?_ (RateLimit.count_in_window_le hnew hclock k t hd)
  refine Nat.cast_le.mpr (length_le_countP ?_ (hplaces.sublist hsub))
  intro a ha
  obtain ⟨hforwarded, hkey, hwithin⟩ := hpassed a ha
  obtain ⟨i, hmakes, call, hget, hcall, houtput⟩ := (hlimited a (hsub.subset ha)).allowed hforwarded
  obtain ⟨hfrom, huntil, hunsaturated⟩ := hwithin i call hmakes hget
  refine ⟨i, hmakes, ?_⟩
  rw [hget]
  simp [RateLimit.counted, hcall, hkey, houtput, hunsaturated, hfrom, huntil]

/-- One request per second, and all keys in one shard. -/
def slowLimit : RateLimit.Engine := RateLimit.slowEngine fun _ => Fin.last 63

/-- Two requests without a key come at once, and a third a second later. -/
def threeCalls : List RateLimit.Call :=
  [⟨RateLimit.unkeyedBucket, 0⟩, ⟨RateLimit.unkeyedBucket, 0⟩, ⟨RateLimit.unkeyedBucket, 1⟩]

/-- The engine is asked by the stream with the call at the place `i`. -/
def limitedPolicy (i : Nat) : CompiledPolicy :=
  { plainPolicy with
    failMode := .failClose
    engines := some ⟨[slowLimit.securityEngine
      (trace (RateLimit.step slowLimit) RateLimit.noBuckets threeCalls) fun _ => some i]⟩ }

def arrivalAt (i : Nat) : Arrival where
  processor := plainProcessor true
  world := World.quiet
  stream := (plainProcessor true).newStream (catchAllSnapshot (limitedPolicy i))
  attributes := []
  headers := getRequest []
  place := fun _ => some i

theorem Arrival.Makes.eq {i j : Nat} (h : (arrivalAt i).Makes j) : i = j := by
  obtain ⟨_, -, -, hplace⟩ := h
  exact Option.some.inj hplace

end

theorem second_request_is_limited :
    let _ := Library.nothing
    let calls := trace (RateLimit.step slowLimit) RateLimit.noBuckets threeCalls
    (arrivalAt 0).forwarded = true ∧ (arrivalAt 1).forwarded = false ∧
      (arrivalAt 2).forwarded = true ∧ (∃ i, AllowedBy slowLimit calls (arrivalAt 0) i) ∧
      (∃ i, AllowedBy slowLimit calls (arrivalAt 2) i) ∧
      (([arrivalAt 0, arrivalAt 2].length : Nat) : Rat) ≤ slowLimit.burst + slowLimit.rps * 1 := by
  intro lib calls
  have hfirst : (arrivalAt 0).forwarded = true := by
    decide +kernel
  have hthird : (arrivalAt 2).forwarded = true := by
    decide +kernel
  have hclock : threeCalls.Pairwise fun a b => a.time ≤ b.time := by
    decide +kernel
  have hwaf : Config.stageWAFEngine ∈ effectiveOrder plainPolicy .request := by
    decide
  have hlimited : ∀ i, Limited slowLimit calls (arrivalAt i) := fun i =>
    ⟨rfl, limitedPolicy i, rfl, ⟨rfl, rfl⟩, hwaf, List.mem_singleton.mpr rfl⟩
  have hplaces : [arrivalAt 0, arrivalAt 1, arrivalAt 2].Pairwise fun a b =>
      ∀ i, a.Makes i → ¬ b.Makes i := by
    have hapart : ∀ i j, i ≠ j → ∀ k, (arrivalAt i).Makes k → ¬ (arrivalAt j).Makes k :=
      fun i j hne k hi hj => hne (hi.eq.trans hj.eq.symm)
    simp only [List.pairwise_cons, List.forall_mem_cons]
    exact ⟨⟨hapart 0 1 (by decide), hapart 0 2 (by decide), by simp⟩,
      ⟨hapart 1 2 (by decide), by simp⟩, by simp⟩
  have hnew : RateLimit.new RateLimit.slow slowLimit.index = .ok slowLimit := by
    rfl
  obtain ⟨hallowed, hbound⟩ := forwarded_requests_within_rate hnew hclock
    (List.forall_mem_cons.mpr ⟨hlimited 0, List.forall_mem_cons.mpr
      ⟨hlimited 1, List.forall_mem_singleton.mpr (hlimited 2)⟩⟩) hplaces
  refine ⟨hfirst, by decide +kernel, hthird, hallowed _ (by simp) hfirst, hallowed _ (by simp) hthird,
    hbound RateLimit.unkeyedBucket 0 1 _ (by decide) (by simp) ?_⟩
  refine List.forall_mem_cons.mpr ⟨⟨hfirst, by decide +kernel, ?_⟩,
    List.forall_mem_singleton.mpr ⟨hthird, by decide +kernel, ?_⟩⟩
  · intro i call hmakes hcall
    obtain rfl := hmakes.eq
    cases hcall
    decide +kernel
  · intro i call hmakes hcall
    obtain rfl := hmakes.eq
    cases hcall
    decide +kernel

end ElchiShield.Extproc
