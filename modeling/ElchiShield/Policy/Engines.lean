import ElchiShield.Config.Types
import ElchiShield.Engine.Xfcc

/-! # Building the engines of a policy

Package `policy`, engines.go. Every file a config refers to is read while the engines are
built. The constructors of the engine packages other than `xfcc` are parameters: functions
of their config and of the contents of the files it names, and for Coraza of the files its
directives include. -/
namespace ElchiShield.Policy
open ElchiShield.Go ElchiShield.Config ElchiShield.Engine

/-- The readable files with their contents. -/
abbrev FileSystem := Bytes → Option Bytes

/-- The files each engine block names, in the order they are read. -/
def filesOfJWT (j : JWTSpec) : List Bytes := if j.publicKeyFile = [] then [] else [j.publicKeyFile]

def filesOfIPReputation (ir : IPReputationSpec) : List Bytes :=
  ir.feeds.map FeedSpec.file ++
    (ir.geoIP.map fun g => [g.databaseFile, g.asnDatabaseFile].filter (· ≠ [])).getD []

def filesOfBot (b : BotSpec) : List Bytes := b.verifiedBots.map BotVerifiedSpec.file

def filesOfJWKS (j : JWKSSpec) : List Bytes := if j.file = [] then [] else [j.file]

def filesOfOpenAPI (o : OpenAPISpec) : List Bytes := [o.specFile]

/-- The directives of the file follow those of the config. -/
def corazaDirectives (fs : FileSystem) (c : CorazaSpec) : Except Err Bytes :=
  if c.directivesFile = [] then .ok c.directives
  else match fs c.directivesFile with
    | some data => .ok (c.directives ++ ascii "\n" ++ data)
    | none => .error ⟨"coraza directives_file: %w", []⟩

/-- The `New` functions of the engine packages. `contents` are the named files in order;
one that cannot be read is `none`. -/
class Constructors where
  jwt : JWTSpec → (publicKeyPEM : Option Bytes) → Except Bytes SecurityEngine
  coraza : CorazaSpec → (directives : Bytes) → FileSystem → Except Bytes SecurityEngine
  rateLimit : RateLimitSpec → Except Bytes SecurityEngine
  ipReputation : IPReputationSpec → (contents : List (Option Bytes)) → Except Bytes SecurityEngine
  bot : BotSpec → (contents : List (Option Bytes)) → Except Bytes SecurityEngine
  apiKey : APIKeySpec → Except Bytes SecurityEngine
  hmacSign : HMACSignSpec → Except Bytes SecurityEngine
  httpSignature : HTTPSignatureSpec → Except Bytes SecurityEngine
  jwks : JWKSSpec → (contents : List (Option Bytes)) → Except Bytes SecurityEngine
  graphQL : GraphQLSpec → Except Bytes SecurityEngine
  openAPI : OpenAPISpec → (contents : List (Option Bytes)) → Except Bytes SecurityEngine
  /-- The files that Coraza reads for the directives: those that an `Include` names or matches,
  and those that the included files refer to in turn. -/
  included : CorazaSpec → (directives : Bytes) → FileSystem → List Bytes
  coraza_reads : ∀ c directives fs fs',
    (∀ f, f ∈ included c directives fs ∨ f ∈ included c directives fs' → fs f = fs' f) →
      coraza c directives fs = coraza c directives fs'

/-- Constructors that reject every config. -/
@[reducible] def Constructors.nothing : Constructors where
  jwt _ _ := .error []
  coraza _ _ _ := .error []
  rateLimit _ := .error []
  ipReputation _ _ := .error []
  bot _ _ := .error []
  apiKey _ := .error []
  hmacSign _ := .error []
  httpSignature _ := .error []
  jwks _ _ := .error []
  graphQL _ := .error []
  openAPI _ _ := .error []
  included _ _ _ := []
  coraza_reads _ _ _ _ _ := rfl

/-- The file of the config, and what the directives include. -/
def filesOfCoraza [Constructors] (fs : FileSystem) (c : CorazaSpec) : List Bytes :=
  (if c.directivesFile = [] then [] else [c.directivesFile]) ++
    ((corazaDirectives fs c).toOption.map fun directives =>
      Constructors.included c directives fs).getD []

/-- Every file an `engines` block refers to. -/
def enginesFiles [Constructors] (fs : FileSystem) (e : EnginesSpec) : List Bytes :=
  (e.jwt.map filesOfJWT).getD [] ++ (e.coraza.map (filesOfCoraza fs)).getD [] ++
  (e.ipReputation.map filesOfIPReputation).getD [] ++ (e.bot.map filesOfBot).getD [] ++
  (e.jwks.map filesOfJWKS).getD [] ++ (e.openAPI.map filesOfOpenAPI).getD []

section
variable [Unicode] [Constructors]

def buildJWT (fs : FileSystem) (j : JWTSpec) : Except Bytes SecurityEngine :=
  if j.publicKeyFile = [] then Constructors.jwt j none
  else match fs j.publicKeyFile with
    | some pem => Constructors.jwt j (some pem)
    | none => .error (ascii "public_key_file: ")

def buildIPReputation (fs : FileSystem) (ir : IPReputationSpec) : Except Bytes SecurityEngine :=
  Constructors.ipReputation ir ((filesOfIPReputation ir).map fs)

def buildBot (fs : FileSystem) (b : BotSpec) : Except Bytes SecurityEngine :=
  Constructors.bot b ((filesOfBot b).map fs)

def buildJWKS (fs : FileSystem) (j : JWKSSpec) : Except Bytes SecurityEngine :=
  Constructors.jwks j ((filesOfJWKS j).map fs)

def buildOpenAPI (fs : FileSystem) (o : OpenAPISpec) : Except Bytes SecurityEngine :=
  Constructors.openAPI o ((filesOfOpenAPI o).map fs)

def buildXFCC (x : XFCCSpec) : Except Bytes SecurityEngine :=
  .ok (Xfcc.new
    { headerName := x.headerName
      requirePresent := x.requirePresent
      uris := x.uris
      dnsNames := x.dnsNames
      subjects := x.subjects
      hashes := x.hashes })

/-- Wrap the error of a constructor under a label. -/
def labelled {α : Type} (label : String) : Except Bytes α → Except Err α
  | .ok a => .ok a
  | .error err => .error ⟨label, [.str err]⟩

def buildCoraza (fs : FileSystem) (c : CorazaSpec) : Except Err SecurityEngine := do
  let directives ← corazaDirectives fs c
  labelled "coraza engine: %w" (Constructors.coraza c directives fs)

/-- A block of `buildEngines` gives an engine when it is there. -/
def buildBlock {α : Type} (block : Option α) (build : α → Except Err SecurityEngine) :
    Except Err (List SecurityEngine) :=
  match block with
  | none => .ok []
  | some spec => (build spec).map fun e => [e]

/-- The engines of every block, in the order they are built. -/
def engineBuilders (fs : FileSystem) (spec : EnginesSpec) :
    List (Except Err (List SecurityEngine)) :=
  [buildBlock spec.jwt fun j => labelled "jwt engine: %w" (buildJWT fs j),
    buildBlock spec.coraza (buildCoraza fs),
    buildBlock spec.rateLimit fun r => labelled "rate_limit engine: %w" (Constructors.rateLimit r),
    buildBlock spec.ipReputation fun ir =>
      labelled "ip_reputation engine: %w" (buildIPReputation fs ir),
    buildBlock spec.bot fun b => labelled "bot engine: %w" (buildBot fs b),
    buildBlock spec.apiKey fun ak => labelled "api_key engine: %w" (Constructors.apiKey ak),
    buildBlock spec.hmacSign fun h => labelled "hmac_sign engine: %w" (Constructors.hmacSign h),
    buildBlock spec.httpSignature fun h =>
      labelled "http_signature engine: %w" (Constructors.httpSignature h),
    buildBlock spec.jwks fun j => labelled "jwks engine: %w" (buildJWKS fs j),
    buildBlock spec.xfcc fun x => labelled "xfcc engine: %w" (buildXFCC x),
    buildBlock spec.graphQL fun g => labelled "graphql engine: %w" (Constructors.graphQL g),
    buildBlock spec.openAPI fun o => labelled "openapi engine: %w" (buildOpenAPI fs o)]

/-- `buildEngines`: the first error aborts, and no engine at all gives a nil set. -/
def buildEngines (fs : FileSystem) (spec : EnginesSpec) : Except Err (Option EngineSet) := do
  let engines ← (engineBuilders fs spec).mapM id
  return if engines.flatten.isEmpty then none else some ⟨engines.flatten⟩

end

end ElchiShield.Policy
