import ElchiShield.Config.Types
import Mathlib.Data.List.Sort

/-! # Effective policies and merged files

Package `config`, policy.go and merge.go: how sparse policies fold into a concrete one,
and how the files of the directory fold into one config. -/
namespace ElchiShield.Config
open ElchiShield.Go

/-! ## Resolution -/

structure ResolvedPolicy where
  mode : Mode
  failMode : FailMode
  inspectRequestBody : Bool
  inspectResponseBody : Bool
  maxRequestBodyBytes : Int
  maxResponseBodyBytes : Int
  maxHeaderBytes : Int
  timeout : Duration
  logLevel : Bytes
  samplingRate : Float64
  anomalyThreshold : Int
  skipChecks : List Bytes
  requestOrder : Option (List Bytes)
  responseOrder : Option (List Bytes)
  checks : Checks
  engines : Option EnginesPtr
  deriving DecidableEq

/-- The built-in baseline: block mode, fail open, no body inspection. -/
def defaultPolicy : ResolvedPolicy where
  mode := .block
  failMode := .failOpen
  inspectRequestBody := false
  inspectResponseBody := false
  maxRequestBodyBytes := 1048576
  maxResponseBodyBytes := 0
  maxHeaderBytes := 8192
  timeout := 50 * millisecond
  logLevel := ascii "info"
  -- the float64 nearest to 0.05
  samplingRate := .fin (3602879701896397 / 72057594037927936)
  anomalyThreshold := 0
  skipChecks := []
  requestOrder := none
  responseOrder := none
  checks := {}
  engines := none

/-- The de-duplicated union, the entries of `a` first. -/
def unionStrings (a b : List Bytes) : List Bytes :=
  (a ++ b).foldl (fun out s => if out.contains s then out else out ++ [s]) []

/-- One round of the loop of `Resolve`. The source collects the skipped checks in a map
and reads them back in any order; here they keep the order they were written in. -/
def applySpec (out : ResolvedPolicy) (s : PolicySpec) : ResolvedPolicy where
  mode := s.mode.getD out.mode
  failMode := s.failMode.getD out.failMode
  inspectRequestBody := s.inspectRequestBody.getD out.inspectRequestBody
  inspectResponseBody := s.inspectResponseBody.getD out.inspectResponseBody
  maxRequestBodyBytes := s.maxRequestBodyBytes.getD out.maxRequestBodyBytes
  maxResponseBodyBytes := s.maxResponseBodyBytes.getD out.maxResponseBodyBytes
  maxHeaderBytes := s.maxHeaderBytes.getD out.maxHeaderBytes
  timeout := s.timeout.getD out.timeout
  logLevel := s.logLevel.getD out.logLevel
  samplingRate := s.samplingRate.getD out.samplingRate
  anomalyThreshold := s.anomalyThreshold.getD out.anomalyThreshold
  skipChecks := unionStrings out.skipChecks s.skipChecks
  requestOrder := (s.pipeline.bind PipelineSpec.request).or out.requestOrder
  responseOrder := (s.pipeline.bind PipelineSpec.response).or out.responseOrder
  checks := { headers := s.checks.headers.or out.checks.headers
              body := s.checks.body.or out.checks.body }
  engines := s.engines.or out.engines

/-- A DLP block turns on the body inspection of its direction. -/
def inspectForDLP (out : ResolvedPolicy) : ResolvedPolicy :=
  match out.checks.body.bind BodyChecks.dlp with
  | none => out
  | some d =>
    if d.direction = ascii "request" then { out with inspectRequestBody := true }
    else if d.direction = ascii "both" then
      { out with inspectRequestBody := true, inspectResponseBody := true }
    else { out with inspectResponseBody := true }

/-- The direction-agnostic body checks default to the request body. -/
def inspectForChecks (out : ResolvedPolicy) : ResolvedPolicy :=
  match out.checks.body with
  | none => out
  | some b =>
    if (b.requireJSON || b.detectSensitiveData) && !out.inspectRequestBody &&
        !out.inspectResponseBody then
      { out with inspectRequestBody := true }
    else out

def resolve (base : ResolvedPolicy) (specs : List PolicySpec) : ResolvedPolicy :=
  inspectForChecks (inspectForDLP (specs.foldl applySpec base))

/-! ## Merging -/

structure ParsedFile where
  name : Bytes
  file : File
  deriving DecidableEq

structure MergedDomain where
  domain : Domain
  source : Bytes
  deriving DecidableEq

structure MergedConfig where
  fileDefaults : PolicySpec := {}
  domains : List MergedDomain := []
  sources : List Bytes := []
  excludes : List Bytes := []
  deriving DecidableEq

def overlaySpec (base overlay : PolicySpec) : PolicySpec where
  mode := overlay.mode.or base.mode
  failMode := overlay.failMode.or base.failMode
  inspectRequestBody := overlay.inspectRequestBody.or base.inspectRequestBody
  inspectResponseBody := overlay.inspectResponseBody.or base.inspectResponseBody
  maxRequestBodyBytes := overlay.maxRequestBodyBytes.or base.maxRequestBodyBytes
  maxResponseBodyBytes := overlay.maxResponseBodyBytes.or base.maxResponseBodyBytes
  maxHeaderBytes := overlay.maxHeaderBytes.or base.maxHeaderBytes
  timeout := overlay.timeout.or base.timeout
  logLevel := overlay.logLevel.or base.logLevel
  samplingRate := overlay.samplingRate.or base.samplingRate
  anomalyThreshold := overlay.anomalyThreshold.or base.anomalyThreshold
  skipChecks :=
    if overlay.skipChecks = [] then base.skipChecks
    else unionStrings base.skipChecks overlay.skipChecks
  -- the whole block is replaced, also the direction the later file leaves out
  pipeline := overlay.pipeline.or base.pipeline
  checks := { headers := overlay.checks.headers.or base.checks.headers
              body := overlay.checks.body.or base.checks.body }
  engines := overlay.engines.or base.engines

/-- One round of the loop of `Merge`. -/
def mergeFile (out : MergedConfig) (pf : ParsedFile) : MergedConfig where
  fileDefaults := overlaySpec out.fileDefaults pf.file.spec.defaults
  domains := out.domains ++ pf.file.spec.domains.map fun d => ⟨d, pf.name⟩
  sources := out.sources ++ [pf.name]
  excludes := unionStrings out.excludes pf.file.spec.exclude

/-- `Merge`. The names of the files `ReadDir` returns are distinct, so any sort gives
the same order. -/
def merge (files : List ParsedFile) : MergedConfig :=
  (files.insertionSort fun a b => bytesLE a.name b.name).foldl mergeFile {}

end ElchiShield.Config
