import ElchiShield.Engine.Jwt
import ElchiShield.Extproc.FailClosed

/-! # Requests that are let pass are authenticated

A policy with a `jwt` engine, from the message of the proxy to the key of the configuration. The
policy blocks and fails closed: under any other the engine finds, but does not keep out. -/
namespace ElchiShield.Extproc
open ElchiShield.Go ElchiShield.Lib ElchiShield.Engine ElchiShield.Policy ElchiShield.Runtime
open ElchiShield.Pipeline ElchiShield.Stages ElchiShield.Tokens

section
variable [Library] [Gojwt] [Jwt.X509]

/-- **Only requests with a token signed under the configured key are let pass**, whatever else the
policy does, in every state of the stream in which the request is not settled. The token is valid
at a time the clock showed while the message was handled. -/
theorem forwarded_request_has_token (pr : Processor) (w : World) {p : CompiledPolicy}
    (hc : FailsClosed p) (hwaf : Config.stageWAFEngine ∈ effectiveOrder p .request)
    {cfg : Jwt.Config} {e : Jwt.Engine} (hnew : Jwt.new cfg = .ok e) {clock : Nat → Nat}
    (hmem : e.securityEngine clock ∈ p.engineSet.engines) {st : Exec}
    (hset : st.tx.requestSettled = false) {attributes : List Bytes} {h : HttpHeaders}
    (hp : (preludeOf pr w h (received attributes st)).2.tx.policy = some p)
    (hpass : (pr.handle w st (.requestHeaders attributes h)).1.any
      ProcessingResponse.isImmediate = false) :
    ∃ tick raw, (preludeOf pr w h (received attributes st)).2.tick ≤ tick ∧
      tick < (pr.handle w st (.requestHeaders attributes h)).2.tick ∧
      header (loadHeaders h.headers) cfg.header = some raw ∧
      ∃ t key, Jwt.Accepts cfg (clock tick) (stripBearer raw) t key := by
  obtain ⟨⟨d, t⟩, hrun⟩ : ∃ r, preludeOf pr w h (received attributes st) = r := ⟨_, rfl⟩
  rw [hrun] at hp ⊢
  obtain ⟨tick, v, hfrom, huntil, hv, hblock⟩ :=
    forwarded_headers_cleared hc hwaf hset hrun hp hpass _ hmem rfl
  have hseen := preludeOf_request pr w h attributes st
  rw [hrun] at hseen
  obtain ⟨hdir, hheaders⟩ := hseen
  have hallowed : e.inspect (clock tick) (engineRequest t.tx) = {} := by
    obtain rfl := Outcome.verdict.inj hv
    exact (e.inspect_cases _ _).resolve_left hblock
  obtain ⟨raw, hraw, -, htoken⟩ := (Jwt.inspect_eq_iff hnew _ hdir).mp hallowed
  exact ⟨tick, raw, hfrom, huntil, hheaders ▸ hraw, htoken⟩

end

def secretConfig : Jwt.Config where
  algorithms := [ascii "HS256"]
  hmacSecret := ascii "test-secret"
  requiredClaims := [ascii "sub"]

def secretEngine : Jwt.Engine where
  cfg := secretConfig
  headerName := ascii "Authorization"
  pubKey := none
  keyed := by decide
  matched := by simp

@[reducible] def noPEM : Jwt.X509 where
  decodePEM _ := none
  parsePKIXPublicKey _ := none
  parseCertificate _ := none

/-- A token for the subject "u1" that expires in 2100, signed with the secret. -/
def secretToken : Sample where
  text :=
    ascii "eyJhbGciOiJIUzI1NiIsInR5cCI6IkpXVCJ9.eyJleHAiOjQxMDI0NDQ4MDAsInN1YiI6InUxIn0." ++
      ascii "DKkQLtkl1-kqt58r1S4Qk5fPWpPaU9rrn3EOFAp-OVY"
  token :=
    { method := .hmac
      alg := ascii "HS256"
      kid := []
      claims := [(ascii "exp", .number (.fin 4102444800)), (ascii "sub", .string (ascii "u1"))] }
  key := .secret (ascii "test-secret")
  exp := 4102444800
  named _ := by decide
  keyed := .inl ⟨rfl, _, rfl⟩

/-- A tick takes a nanosecond. -/
def nanoseconds (tick : Nat) : Nat := 1700000000 * 10 ^ 9 + tick

theorem request_with_token_is_forwarded :
    let _ := Library.nothing
    let _ := secretToken.gojwt
    let _ := noPEM
    let pr := plainProcessor true
    let p := { plainPolicy with
      failMode := .failClose
      engines := some ⟨[secretEngine.securityEngine nanoseconds]⟩ }
    let st := pr.newStream (catchAllSnapshot p)
    let h := getRequest [⟨ascii "authorization", ascii "bearer " ++ secretToken.text, []⟩]
    (pr.handle World.quiet st (.requestHeaders [] h)).1.any ProcessingResponse.isImmediate = false ∧
      ∃ tick raw, (preludeOf pr World.quiet h (received [] st)).2.tick ≤ tick ∧
        tick < (pr.handle World.quiet st (.requestHeaders [] h)).2.tick ∧
        header (loadHeaders h.headers) secretConfig.header = some raw ∧
        ∃ t key, Jwt.Accepts secretConfig (nanoseconds tick) (stripBearer raw) t key := by
  intro lib tokens keys pr p st h
  have hpass : (pr.handle World.quiet st (.requestHeaders [] h)).1.any
      ProcessingResponse.isImmediate = false := by
    decide +kernel
  have hwaf : Config.stageWAFEngine ∈ effectiveOrder p .request :=
    List.mem_cons_of_mem _ (List.mem_cons_of_mem _ List.mem_cons_self)
  exact ⟨hpass, forwarded_request_has_token pr World.quiet ⟨rfl, rfl⟩ hwaf
    (show Jwt.new secretConfig = .ok secretEngine from rfl) (List.mem_singleton.mpr rfl) rfl (by rfl)
    hpass⟩

end ElchiShield.Extproc
