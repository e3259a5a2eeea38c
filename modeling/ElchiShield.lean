import ElchiShield.Go.Strings
import ElchiShield.Go.Library
import ElchiShield.Config.Types
import ElchiShield.Config.Policy
import ElchiShield.Lib.Splitter
import ElchiShield.Decision
import ElchiShield.Engine
import ElchiShield.Engine.Xfcc
import ElchiShield.Engine.XfccTrust
import ElchiShield.Config.Engines
import ElchiShield.Config.Validate
import ElchiShield.Config.Load
import ElchiShield.Matcher
import ElchiShield.Policy.Engines
import ElchiShield.Policy.Policy
import ElchiShield.Policy.Resolver
import ElchiShield.Go.Ascii
import ElchiShield.Lib.Selection
import ElchiShield.Policy.Compiled
import ElchiShield.Matcher.Hosts
import ElchiShield.Policy.Precedence
import ElchiShield.Lib.Runs
import ElchiShield.Runtime.Reloader
import ElchiShield.Runtime.KeepLastGood
import ElchiShield.Runtime.Content
import ElchiShield.Runtime.Unchanged
import ElchiShield.Audit
import ElchiShield.Pipeline.Pipeline
import ElchiShield.Stages.Precheck
import ElchiShield.Stages.Body
import ElchiShield.Stages.Waf
import ElchiShield.Extproc.Processor
import ElchiShield.Pipeline.Frame
import ElchiShield.Stages.Inspectors
import ElchiShield.Extproc.Handlers
import ElchiShield.Extproc.Request
import ElchiShield.Extproc.HostGate
import ElchiShield.Extproc.Phases
import ElchiShield.Extproc.Observe
import ElchiShield.Extproc.BodyPhase
import ElchiShield.Extproc.Scored
import ElchiShield.Extproc.Exchange
import ElchiShield.Extproc.Decoded
import ElchiShield.Config.Merging
import ElchiShield.Stages.Orders
import ElchiShield.Lib.Attempt
import ElchiShield.Policy.Construction
import ElchiShield.Runtime.FailedReload
import ElchiShield.Engine.Replay
import ElchiShield.Engine.HmacSign
import ElchiShield.Lib.Metered
import ElchiShield.Engine.RateLimit
import ElchiShield.Extproc.Rule
import ElchiShield.Pipeline.Findings
import ElchiShield.Extproc.AuditTrail
import ElchiShield.Extproc.Budget
import ElchiShield.Extproc.Resident
import ElchiShield.Extproc.SkippedResponse
import ElchiShield.Lib.Latched
import ElchiShield.Extproc.Directions
import ElchiShield.Extproc.Interleaved
import ElchiShield.Lib.Segments
import ElchiShield.Matcher.Paths
import ElchiShield.Matcher.DotSegments
import ElchiShield.Engine.ApiKey
import ElchiShield.Stages.ClientIP
import ElchiShield.Engine.GraphQL
import ElchiShield.Engine.PathScope
import ElchiShield.Audit.Buffered
import ElchiShield.Audit.ClickHouse
import ElchiShield.Engine.HostKeys
import ElchiShield.Runtime.Retirement
import ElchiShield.Policy.Allocation
import ElchiShield.Policy.Close
import ElchiShield.Extproc.Pooled
import ElchiShield.Lib.Regex
import ElchiShield.Lib.Spans
import ElchiShield.Sensitive
import ElchiShield.Stages.Redaction
import ElchiShield.Sensitive.Redacted
import ElchiShield.Sensitive.Cards
import ElchiShield.Engine.Aggregate
import ElchiShield.Stages.Scoring
import ElchiShield.Lib.FirstBest
import ElchiShield.Pipeline.Attribution
import ElchiShield.Extproc.Charges
import ElchiShield.Engine.Expansion
import ElchiShield.Engine.Walk
import ElchiShield.Engine.ReplayExact
import ElchiShield.Lib.Sizes
import ElchiShield.Engine.ReplayBound
import ElchiShield.Engine.Eviction
import ElchiShield.Config.Snippets
import ElchiShield.Explain
import ElchiShield.Lib.LeadingBits
import ElchiShield.Go.Netip
import ElchiShield.Feed
import ElchiShield.Engine.IpReputation
import ElchiShield.Lib.Joined
import ElchiShield.Config.Signatures
import ElchiShield.Policy.Duplicates
import ElchiShield.Watcher
import ElchiShield.Runtime.Status
import ElchiShield.Runtime.Convergence
import ElchiShield.Engine.Jwt
import ElchiShield.Go.Base64
import ElchiShield.Engine.Jwks
import ElchiShield.Extproc.Authenticated
import ElchiShield.Extproc.Checked
import ElchiShield.Engine.Coraza
import ElchiShield.Extproc.Evaluated
import ElchiShield.Audit.RateCap
import ElchiShield.Audit.Delivery
import ElchiShield.Engine.Bot
import ElchiShield.Extproc.Limited
import ElchiShield.Extproc.Signed
import ElchiShield.Lib.Latched
