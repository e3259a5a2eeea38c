import ElchiShield.Engine.HmacSign
import ElchiShield.Extproc.FailClosed
import ElchiShield.Lib.Joined

/-! # Signed requests that pass

The replay cache of an `hmac_sign` engine is shared by all streams of a process. Its calls come in
one order, that of the locks of its shards, and the answers a stream gets are those to its own calls.
The clock is read before the lock is taken, so that the readings may come in any order. -/
namespace ElchiShield.HmacSign
open ElchiShield.Go ElchiShield.Lib ElchiShield.Engine ElchiShield.Auth

section
variable [Unicode] [Crypto] {e : Engine}

/-! ## What a signature binds -/

/-- The parts of the request that are signed as they are have no line break. -/
structure OneLine (e : Engine) (req : Request) : Prop where
  method : ch '\n' ∉ req.method
  path : ch '\n' ∉ req.path
  timestamp : ch '\n' ∉ headerValue req e.tsHdr
  nonce : ch '\n' ∉ headerValue req e.nonceHdr

/-- Two requests with the same signed content. -/
structure SameContent (e : Engine) (r r' : Request) : Prop where
  method : r.method = r'.method
  path : r.path = r'.path
  timestamp : headerValue r e.tsHdr = headerValue r' e.tsHdr
  nonce : headerValue r e.nonceHdr = headerValue r' e.nonceHdr
  digest : e.requireBD = true → Crypto.sha256 r.body = Crypto.sha256 r'.body

/-- The canonical bytes read back. -/
theorem canonical_inj {r r' : Request} (hr : OneLine e r) (hr' : OneLine e r')
    (h : canonical e r = canonical e r') : SameContent e r r' := by
  have hnl : ascii "\n" = [ch '\n'] := rfl
  simp only [canonical, hnl, List.append_assoc, List.singleton_append] at h
  obtain ⟨hmethod, h⟩ := append_sep_inj hr.method hr'.method h
  obtain ⟨hpath, h⟩ := append_sep_inj hr.path hr'.path h
  obtain ⟨htimestamp, h⟩ := append_sep_inj hr.timestamp hr'.timestamp h
  obtain ⟨hnonce, h⟩ := append_sep_inj hr.nonce hr'.nonce h
  refine ⟨hmethod, hpath, htimestamp, hnonce, ?_⟩
  intro hdigest
  rw [if_pos hdigest, if_pos hdigest] at h
  exact hexEncode_inj h

/-- The signature of `req` was made for `signed`, and the HMAC does not collide on the two. -/
structure MadeFor (e : Engine) (secret : Bytes) (req signed : Request) : Prop where
  mac : hexDecode (trimSpace (headerValue req e.sigHdr)) =
    some (Crypto.hmac e.newHash secret (canonical e signed))
  apart : Crypto.hmac e.newHash secret (canonical e signed) =
    Crypto.hmac e.newHash secret (canonical e req) → canonical e signed = canonical e req

theorem Signed.content {now : Time} {req : Request} {secret : Bytes}
    (h : Signed e now req secret) (hreq : OneLine e req) {signed : Request}
    (hsigned : OneLine e signed) (hmade : MadeFor e secret req signed) : SameContent e signed req :=
  canonical_inj hsigned hreq (hmade.apart (Option.some.inj (hmade.mac.symm.trans h.mac)))

omit [Crypto] in
theorem SameSigned.symm {r r' : Request} (h : SameSigned e r r') : SameSigned e r' r :=
  ⟨h.direction.symm, h.method.symm, h.path.symm, h.timestamp.symm, h.nonce.symm, h.body.symm,
    h.keyID.symm, h.signature.symm⟩

/-! ## Calls of many streams -/

/-- The engine as one stream sees it: `place` says which of the calls is the one it makes at a
tick. Where it makes none there is no answer. -/
def Engine.securityEngine (e : Engine) (calls : List (Event Shards Call Verdict))
    (place : Nat → Option Nat) : SecurityEngine where
  name := ascii "hmacsign"
  requiresBody := e.requireBD
  inspectsResponse := false
  inspect := fun tick req =>
    match (place tick).bind (calls[·]?) with
    | none => .panicked
    | some call => if call.input.request = req then .verdict call.output else .panicked

omit [Unicode] [Crypto] in
theorem cleared_call {calls : List (Event Shards Call Verdict)} {place : Nat → Option Nat}
    {req : Request} {tick : Nat} {v : Verdict}
    (h : (e.securityEngine calls place).inspect tick req = .verdict v) (hv : v.action ≠ .block) :
    ∃ i call, place tick = some i ∧ calls[i]? = some call ∧ call.input.request = req ∧
      Accepted call.output := by
  simp only [Engine.securityEngine] at h
  split at h
  next => cases h
  next call hcall =>
    split at h
    next hreq =>
      obtain ⟨i, hi, hget⟩ := Option.bind_eq_some_iff.mp hcall
      cases h
      exact ⟨i, call, hi, hget, hreq, hv⟩
    next => cases h

/-- A request that is accepted has verified. -/
theorem Accepted.verified {shards : Shards} {call : Call}
    (h : Accepted (inspect e shards call).1) (hdir : call.request.direction = .request) :
    ∃ key, keyOf e call = some key := by
  unfold inspect at h
  rw [if_neg (not_not.mpr hdir)] at h
  cases hverify : verify e call.checkedAt call.request with
  | error v =>
    rw [hverify] at h
    exact absurd (verify_error hverify) h
  | ok key => exact ⟨key, keyOf_eq_some.mpr ⟨hdir, hverify⟩⟩

/-- A key that is used again is used later, since a use within the lifetime is refused. -/
theorem UsedSince.calls {keys : List Bytes} {key : Bytes} {since : Time} {shards : Shards}
    (httl : 0 ≤ e.replay.ttl) (hfew : Few e.replay keys) {calls : List Call}
    (hkeys : ∀ c ∈ calls, ∀ key, keyOf e c = some key → key ∈ keys)
    (h : UsedSince e keys key since shards) :
    UsedSince e keys key since (runFrom (inspect e) shards calls) := by
  refine runFrom_invariant ?_ h
  rintro c hc s ⟨uses, huses, t, ht, hsince⟩
  rcases huses.inspect_cases hfew (hkeys c hc) with ⟨used, -, hold, -, hlog⟩ | ⟨hlog, -⟩
  · refine ⟨_, hlog, ?_⟩
    by_cases hused : key = used
    · subst hused
      have hlater : t + e.replay.ttl ≤ c.seenAt := by
        by_contra hrecent
        exact hold ⟨t, ht, not_le.mp hrecent⟩
      exact ⟨c.seenAt, by simp, hsince.trans ((Int.le_add_of_nonneg_right httl).trans hlater)⟩
    · refine ⟨t, ?_, hsince⟩
      have hne : (key == used) = false := by simpa using hused
      simpa [List.lookup_cons, hne] using ht
  · exact ⟨_, hlog, t, ht, hsince⟩

/-- Two calls with the same signed request that are both accepted are the lifetime apart, in the
order of the calls and whatever other calls there are. -/
theorem accepted_calls_apart (httl : 0 ≤ e.replay.ttl) {calls : List Call} (hfew : FewKeys e calls)
    {i j : Nat} (hlt : i < j) {a b : Event Shards Call Verdict}
    (ha : (trace (inspect e) noShards calls)[i]? = some a)
    (hb : (trace (inspect e) noShards calls)[j]? = some b)
    (hsame : SameSigned e a.input.request b.input.request)
    (hacceptedA : Accepted a.output) (hacceptedB : Accepted b.output) :
    a.input.seenAt + e.replay.ttl ≤ b.input.seenAt := by
  obtain ⟨pre, mid, post, hcalls, ha, hb⟩ := trace_split_two hlt ha hb
  have hkeys : ∀ c ∈ calls, ∀ key, keyOf e c = some key → key ∈ calls.filterMap (keyOf e) :=
    fun c hc key hkey => List.mem_filterMap.mpr ⟨c, hc, hkey⟩
  rw [ha] at hacceptedA
  rw [hb, event, runFrom_append] at hacceptedB
  obtain ⟨uses, huses⟩ : ∃ uses, Logged e _ (runFrom (inspect e) noShards pre) uses :=
    Logged.run hfew (fun c hc => hkeys c (by simp [hcalls, hc])) ⟨[], logged_nothing e _⟩
  obtain ⟨key, hkey⟩ := hacceptedA.verified hsame.direction.1
  obtain ⟨key', hkey'⟩ := hacceptedB.verified hsame.direction.2
  obtain rfl : key = key' := hsame.key (keyOf_eq_some.mp hkey).2 (keyOf_eq_some.mp hkey').2
  rcases huses.inspect_cases hfew (hkeys a.input (by simp [hcalls])) with
    ⟨used, hused, -, -, hlog⟩ | ⟨-, hblocked, -⟩
  · obtain rfl : key = used := Option.some.inj (hkey.symm.trans hused)
    have hsince : UsedSince e _ key a.input.seenAt _ :=
      ⟨_, hlog, a.input.seenAt, by simp, le_refl _⟩
    have hmid : ∀ c ∈ mid, ∀ key, keyOf e c = some key → key ∈ calls.filterMap (keyOf e) :=
      fun c hc => hkeys c (by simp [hcalls, hc])
    obtain ⟨uses', huses', t, ht, hlater⟩ := hsince.calls httl hfew hmid
    rcases huses'.inspect_cases hfew (hkeys b.input (by simp [hcalls])) with
      ⟨again, hagain, hold, -⟩ | ⟨-, hblocked, -⟩
    · obtain rfl : key = again := Option.some.inj (hkey'.symm.trans hagain)
      by_contra hapart
      exact hold ⟨t, ht, lt_of_lt_of_le (not_le.mp hapart) (Int.add_le_add_right hlater _)⟩
    · exact absurd hacceptedB (hblocked hsame.direction.2)
  · exact absurd hacceptedA (hblocked hsame.direction.1)

end

end ElchiShield.HmacSign

namespace ElchiShield.Extproc
open ElchiShield.Go ElchiShield.Lib ElchiShield.Engine ElchiShield.Policy ElchiShield.Runtime
open ElchiShield.Pipeline ElchiShield.Stages

section
variable [Library] [HmacSign.Crypto]

/-- A request comes with its body over a new stream, whose calls of the engine are at `place`. -/
structure Submission where
  processor : Processor
  world : World
  snapshot : Snapshot
  attributes : List Bytes
  exchange : Exchange
  place : Nat → Option Nat

namespace Submission
variable (s : Submission)

def first : Message := .requestHeaders s.attributes s.exchange.headers

def stream : Exec := s.processor.newStream s.snapshot

/-- The state behind the prelude. -/
def begun : Exec :=
  (preludeOf s.processor s.world s.exchange.headers (received s.attributes s.stream)).2

/-- The request as the stages of its policy see it. -/
def seen : Transaction := s.begun.tx

/-- The state behind the last message. -/
def answered : Exec :=
  deliver s.processor s.world s.stream (s.first :: s.exchange.following .request)

def passes : Prop := Unblocked .request s.answered

/-- The call at the place `i` is made for the request. -/
def Makes (i : Nat) : Prop :=
  ∃ tick, s.begun.tick ≤ tick ∧ tick < s.answered.tick ∧ s.place tick = some i

/-- The request as the engine is given it: with a view of its body where the body is signed. -/
def Gives (e : HmacSign.Engine) (req : Engine.Request) : Prop :=
  if e.requireBD then ∃ p tx, s.seen.policy = some p ∧
    Seen s.processor.deps.detector p s.seen.headers s.exchange.parts.flatten tx ∧
    req = { engineRequest s.seen with body := tx.body }
  else req = engineRequest s.seen

end Submission

/-- The request is under a policy that fails closed and has the engine. -/
structure SignatureRequired (e : HmacSign.Engine)
    (calls : List (Event Auth.Shards HmacSign.Call Verdict)) (s : Submission) : Prop where
  whole : OneChunk s.processor s.world .request s.stream s.first s.exchange
  policy : ∃ p, s.seen.policy = some p ∧ FailsClosed p ∧
    Config.stageWAFEngine ∈ effectiveOrder p .request ∧
    e.securityEngine calls s.place ∈ p.engineSet.engines

/-- A call of the submission has accepted the request. -/
def LetThrough (e : HmacSign.Engine)
    (calls : List (Event Auth.Shards HmacSign.Call Verdict)) (s : Submission)
    (call : Event Auth.Shards HmacSign.Call Verdict) : Prop :=
  (∃ i, s.Makes i ∧ calls[i]? = some call) ∧ s.Gives e call.input.request ∧
    call.input.request.direction = .request ∧ HmacSign.Accepted call.output

omit [HmacSign.Crypto] in
theorem Submission.call {s : Submission} {e : HmacSign.Engine}
    {calls : List (Event Auth.Shards HmacSign.Call Verdict)} {req : Engine.Request}
    (h : Clears s.begun.tick s.answered.tick req (e.securityEngine calls s.place)) :
    ∃ call, (∃ i, s.Makes i ∧ calls[i]? = some call) ∧ call.input.request = req ∧
      HmacSign.Accepted call.output := by
  obtain ⟨tick, v, hfrom, huntil, hv, hblock⟩ := h
  obtain ⟨i, call, hplace, hget, hreq, haccepted⟩ := HmacSign.cleared_call hv hblock
  exact ⟨call, ⟨i, ⟨tick, hfrom, huntil, hplace⟩, hget⟩, hreq, haccepted⟩

omit [HmacSign.Crypto] in
theorem SignatureRequired.letThrough {e : HmacSign.Engine}
    {calls : List (Event Auth.Shards HmacSign.Call Verdict)} {s : Submission}
    (h : SignatureRequired e calls s) (hpass : s.passes) : ∃ call, LetThrough e calls s call := by
  obtain ⟨p, hp, hc, hwaf, hmem⟩ := h.policy
  have hcleared : Cleared s.processor.deps.detector p s.begun s.exchange.parts.flatten
      s.answered.tick :=
    (unblocked_request_passes hc h.whole rfl hp hpass).cleared hc hp hwaf
  have hdir : (engineRequest s.seen).direction = .request :=
    (preludeOf_request s.processor s.world s.exchange.headers s.attributes s.stream).1
  cases hdigest : e.requireBD with
  | false =>
    obtain ⟨call, hmade, hreq, haccepted⟩ := Submission.call (hcleared.headers _ hmem hdigest)
    refine ⟨call, hmade, ?_, hreq ▸ hdir, haccepted⟩
    rw [Submission.Gives, if_neg (by simp [hdigest])]
    exact hreq
  | true =>
    have hbody : p.engineSet.requiresBody = true := List.any_eq_true.mpr ⟨_, hmem, hdigest⟩
    obtain ⟨tx, hseen, hrequest, hall⟩ := hcleared.body hbody
    obtain ⟨call, hmade, hreq, haccepted⟩ := Submission.call (hall _ hmem hdigest)
    rw [hrequest] at hreq
    refine ⟨call, hmade, ?_, hreq ▸ hdir, haccepted⟩
    rw [Submission.Gives, if_pos hdigest]
    exact ⟨p, tx, hp, hseen, hreq⟩

/-- **A request that passes was signed.** It has the MAC of its canonical bytes under the secret of
its key id, a timestamp in the window and the nonce that is required; and its method, path,
timestamp, nonce and body are those its signature was made for. -/
theorem passing_request_is_signed {e : HmacSign.Engine} {calls : List HmacSign.Call}
    {s : Submission}
    (h : SignatureRequired e (trace (HmacSign.inspect e) Auth.noShards calls) s)
    (hpass : s.passes) :
    ∃ call secret, LetThrough e (trace (HmacSign.inspect e) Auth.noShards calls) s call ∧
      HmacSign.Signed e call.input.checkedAt call.input.request secret ∧
      ∀ signed, HmacSign.OneLine e call.input.request → HmacSign.OneLine e signed →
        HmacSign.MadeFor e secret call.input.request signed →
        HmacSign.SameContent e signed call.input.request := by
  obtain ⟨call, hlet⟩ := h.letThrough hpass
  have hlet' := hlet
  obtain ⟨⟨i, -, hget⟩, -, hdir, haccepted⟩ := hlet'
  obtain ⟨pre, post, -, -, hcall⟩ := trace_split hget
  rw [hcall] at haccepted
  obtain ⟨key, hkey⟩ := haccepted.verified hdir
  obtain ⟨secret, hsigned, -⟩ := HmacSign.verify_signed (HmacSign.keyOf_eq_some.mp hkey).2
  exact ⟨call, secret, hlet, hsigned, fun signed hreq hone hmade => hsigned.content hreq hone hmade⟩

/-- **A signed request does not pass twice within the lifetime of its replay key**, over whichever
streams it comes and however their calls interleave: the calls that let two pass are at least the
lifetime apart if they are the same signed request. -/
theorem replays_pass_apart {e : HmacSign.Engine} (httl : 0 ≤ e.replay.ttl)
    {calls : List HmacSign.Call} (hfew : HmacSign.FewKeys e calls) {s t : Submission}
    (hs : SignatureRequired e (trace (HmacSign.inspect e) Auth.noShards calls) s)
    (ht : SignatureRequired e (trace (HmacSign.inspect e) Auth.noShards calls) t)
    (hplaces : ∀ i, s.Makes i → ¬ t.Makes i)
    (hpassS : s.passes) (hpassT : t.passes) :
    (∃ a, LetThrough e (trace (HmacSign.inspect e) Auth.noShards calls) s a) ∧
    (∃ b, LetThrough e (trace (HmacSign.inspect e) Auth.noShards calls) t b) ∧
    ∀ a b, LetThrough e (trace (HmacSign.inspect e) Auth.noShards calls) s a →
      LetThrough e (trace (HmacSign.inspect e) Auth.noShards calls) t b →
      HmacSign.SameSigned e a.input.request b.input.request →
      a.input.seenAt + e.replay.ttl ≤ b.input.seenAt ∨
        b.input.seenAt + e.replay.ttl ≤ a.input.seenAt := by
  refine ⟨hs.letThrough hpassS, ht.letThrough hpassT, ?_⟩
  intro a b ha hb hsame
  obtain ⟨⟨i, hi, hgetA⟩, -, -, hacceptedA⟩ := ha
  obtain ⟨⟨j, hj, hgetB⟩, -, -, hacceptedB⟩ := hb
  have hne : i ≠ j := by
    rintro rfl
    exact hplaces i hi hj
  rcases Nat.lt_or_gt_of_ne hne with hlt | hgt
  · exact .inl (HmacSign.accepted_calls_apart httl hfew hlt hgetA hgetB hsame hacceptedA hacceptedB)
  · exact .inr (HmacSign.accepted_calls_apart httl hfew hgt hgetB hgetA hsame.symm hacceptedB
      hacceptedA)

end

/-! ## A request that comes twice -/

/-- A MAC that shows its key and its message. -/
@[reducible] def openCrypto : HmacSign.Crypto where
  sha256 b := b
  hmac _ key msg := ch '.' :: key ++ msg
  hmac_ne_nil _ _ _ := List.cons_ne_nil _ _

/-- The window is a minute and the body is signed. -/
def bodySigned : HmacSign.Engine :=
  HmacSign.new { HmacSign.minuteWindow with requireBodyDigest := true } HmacSign.firstShard

/-- The signature of a `GET` of the root with the body `abc`. -/
def rootSignature : Bytes :=
  hexEncode (ascii ".0123456789abcdefGET\n/\n1000060\n\n616263")

def signedExchange : Exchange where
  headers :=
    { headers := (getRequest []).headers ++
        [⟨ascii "x-signature", rootSignature, []⟩, ⟨ascii "x-timestamp", ascii "1000060", []⟩]
      endOfStream := false }
  rest := some { chunks := [ascii "ab", ascii "c"] }
  ended := rfl

def rootRequest : Engine.Request where
  direction := .request
  host := []
  path := ascii "/"
  method := ascii "GET"
  contentType := []
  sourceIP := []
  body := ascii "abc"
  headers := loadHeaders signedExchange.headers.headers

def rootCall (sec : Int) : HmacSign.Call := ⟨rootRequest, sec * Config.second, sec * Config.second⟩

section
variable [Library] [HmacSign.Crypto]

/-- The engine is asked by the stream with the call at the place `i`. -/
def signedPolicy (calls : List HmacSign.Call) (i : Nat) : CompiledPolicy :=
  { plainPolicy with
    failMode := .failClose
    engines := some ⟨[bodySigned.securityEngine
      (trace (HmacSign.inspect bodySigned) Auth.noShards calls) fun _ => some i]⟩ }

def submissionAt (calls : List HmacSign.Call) (i : Nat) : Submission where
  processor := plainProcessor true
  world := World.quiet
  snapshot := catchAllSnapshot (signedPolicy calls i)
  attributes := []
  exchange := signedExchange
  place := fun _ => some i

end

theorem submissionAt_required :
    let _ := Library.nothing
    let _ := openCrypto
    ∀ calls i, SignatureRequired bodySigned
      (trace (HmacSign.inspect bodySigned) Auth.noShards calls) (submissionAt calls i) := by
  intro lib crypto calls i
  refine ⟨?_, signedPolicy calls i, rfl, ⟨rfl, rfl⟩, ?_, List.mem_singleton.mpr rfl⟩
  · intro hmutates
    cases hmutates
  · show Config.stageWAFEngine ∈ effectiveOrder plainPolicy .request
    decide

theorem root_request_is_signed :
    let _ := Library.nothing
    let _ := openCrypto
    let calls := [rootCall 1000000, rootCall 1000065]
    (submissionAt calls 0).passes ∧ ¬ (submissionAt calls 1).passes ∧
    ∃ call secret,
      LetThrough bodySigned (trace (HmacSign.inspect bodySigned) Auth.noShards calls)
        (submissionAt calls 0) call ∧
      HmacSign.Signed bodySigned call.input.checkedAt call.input.request secret := by
  intro lib crypto calls
  have hpass : (submissionAt calls 0).passes := by
    unfold Submission.passes Unblocked
    decide +kernel
  have hagain : ¬ (submissionAt calls 1).passes := by
    unfold Submission.passes Unblocked
    decide +kernel
  obtain ⟨call, secret, hlet, hsigned, -⟩ :=
    passing_request_is_signed (submissionAt_required calls 0) hpass
  exact ⟨hpass, hagain, call, secret, hlet, hsigned⟩

theorem root_request_passes_again :
    let _ := Library.nothing
    let _ := openCrypto
    let calls := [rootCall 1000000, rootCall 1000120]
    (submissionAt calls 0).passes ∧ (submissionAt calls 1).passes ∧
    ∀ a b, LetThrough bodySigned (trace (HmacSign.inspect bodySigned) Auth.noShards calls)
        (submissionAt calls 0) a →
      LetThrough bodySigned (trace (HmacSign.inspect bodySigned) Auth.noShards calls)
        (submissionAt calls 1) b →
      HmacSign.SameSigned bodySigned a.input.request b.input.request →
      a.input.seenAt + 2 * Config.minute ≤ b.input.seenAt ∨
        b.input.seenAt + 2 * Config.minute ≤ a.input.seenAt := by
  intro lib crypto calls
  have hpassS : (submissionAt calls 0).passes := by
    unfold Submission.passes Unblocked
    decide +kernel
  have hpassT : (submissionAt calls 1).passes := by
    unfold Submission.passes Unblocked
    decide +kernel
  have hfew : HmacSign.FewKeys bodySigned calls := Auth.few_of_short _ (by decide +kernel)
  have hplaces : ∀ i, (submissionAt calls 0).Makes i → ¬ (submissionAt calls 1).Makes i := by
    rintro i ⟨_, -, -, hs⟩ ⟨_, -, -, ht⟩
    cases hs
    cases ht
  refine ⟨hpassS, hpassT, ?_⟩
  exact (replays_pass_apart (e := bodySigned) (by decide) hfew (submissionAt_required calls 0)
    (submissionAt_required calls 1) hplaces hpassS hpassT).2.2

end ElchiShield.Extproc
