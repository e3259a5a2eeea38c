import ElchiShield.Lib.Runs
import ElchiShield.Runtime.Content
import ElchiShield.Runtime.Reloader

/-! # What "unchanged" says

A reload answers "unchanged" from the hash of the merged config. The files the config
refers to are no part of the hash, so the active engines are those a compilation would
give now only as long as these files have not changed since the active snapshot was
compiled. -/
namespace ElchiShield.Runtime
open ElchiShield.Go ElchiShield.Config ElchiShield.Policy ElchiShield.Engine ElchiShield.Lib

theorem computeHash_ne_empty [Heap] [Hasher] {cfg : MergedConfig} : computeHash cfg ≠ .ok emptyVersion := by
  intro h
  unfold computeHash at h
  cases hsum : Hasher.sum (configContent cfg) with
  | error e =>
    rw [hsum] at h
    cases h
  | ok sum =>
    rw [hsum] at h
    have hlen := congrArg List.length (Except.ok.inj h)
    rw [hexEncode_length, Hasher.sum_length _ _ hsum] at hlen
    cases hlen

section
variable [Library] [Heap] [Decoder] [Constructors] [Hasher]

/-- The store, with the files as they were when its snapshot was compiled. -/
structure Watched where
  store : Store
  compiledFrom : FileSystem

def watch (r : Reloader) (w : Watched) (disk : Disk) : Reloaded × Watched :=
  let (res, store) := reload r w.store disk
  (res, ⟨store, if res.outcome = .applied then disk.files else w.compiledFrom⟩)

/-- Equal hashes mean equal content, and the files that are read for the config are as they were
when the active snapshot was compiled. -/
def nothingElseChanged (r : Reloader) (w : Watched) (disk : Disk) : Prop :=
  ∀ cfg, load r.dir disk.dir = .ok cfg → computeHash cfg = .ok w.store.active.hash →
    configContent w.store.active.cfg = configContent cfg ∧
      ∀ f ∈ configFiles w.compiledFrom w.store.active.cfg ++
          configFiles disk.files w.store.active.cfg, w.compiledFrom f = disk.files f

/-- The active snapshot is the empty one, or what its config compiled to. -/
def Compiled (w : Watched) : Prop :=
  w.store.active.hash = emptyVersion ∨
    ∃ resolver, w.store.active.resolver = some resolver ∧
      compile w.compiledFrom w.store.active.cfg = .ok resolver

/-- "Unchanged" is answered only where compiling now gives the active resolver. -/
def UnchangedIsSame (r : Reloader) (e : Event Watched Disk Reloaded) : Prop :=
  e.output.outcome = .unchanged →
    ∃ cfg resolver, load r.dir e.input.dir = .ok cfg ∧
      compile e.input.files cfg = .ok resolver ∧ e.after.store.active.resolver = some resolver

/-- What a compilation of the directory would give now. -/
def recompiled (r : Reloader) (disk : Disk) : Option Resolver :=
  (load r.dir disk.dir).toOption.bind fun cfg => (compile disk.files cfg).toOption

omit [Hasher] in
theorem UnchangedIsSame.recompiled {r : Reloader} {e : Event Watched Disk Reloaded}
    (h : UnchangedIsSame r e) (hout : e.output.outcome = .unchanged) :
    recompiled r e.input = e.after.store.active.resolver := by
  obtain ⟨cfg, resolver, hload, hcompile, hactive⟩ := h hout
  rw [Runtime.recompiled, hload, hactive]
  show (compile e.input.files cfg).toOption = some resolver
  rw [hcompile]
  rfl

theorem watch_step {r : Reloader} {w : Watched} {disk : Disk} (hw : Compiled w)
    (hc : nothingElseChanged r w disk) :
    UnchangedIsSame r (event (watch r) w disk) ∧ Compiled (watch r w disk).2 := by
  obtain ⟨⟨res, store'⟩, h⟩ : ∃ p, reload r w.store disk = p := ⟨_, rfl⟩
  have hwatch : watch r w disk =
      (res, ⟨store', if res.outcome = .applied then disk.files else w.compiledFrom⟩) := by
    rw [watch, h]
  rw [event, hwatch]
  obtain ⟨hne, rfl, -, hunchanged⟩ | ⟨cfg, -, hsnap, happ, -⟩ := reload_cases h
  · rw [if_neg hne]
    refine ⟨fun hout => ?_, hw⟩
    obtain ⟨cfg, hload, hhash⟩ := hunchanged hout
    rcases hw with hempty | ⟨resolver, hres, hcompile⟩
    · rw [hempty] at hhash
      exact absurd hhash computeHash_ne_empty
    · obtain ⟨hcontent, hfiles⟩ := hc cfg hload hhash
      exact ⟨cfg, resolver, hload, compile_congr hcontent hfiles hcompile, hres⟩
  · rw [if_pos happ]
    obtain ⟨hcfg, -, resolver, hres, hcompile⟩ := newSnapshot_ok hsnap
    refine ⟨fun hout => ?_, .inr ⟨resolver, hres, by rw [hcfg]; exact hcompile⟩⟩
    rw [happ] at hout
    cases hout

/-- In every run in which nothing changes behind an equal hash, "unchanged" means that a
compilation would give the resolver that is active. -/
theorem unchanged_is_same (r : Reloader) (fs : FileSystem) (disks : List Disk)
    (hc : ∀ e ∈ trace (watch r) ⟨newStore, fs⟩ disks, nothingElseChanged r e.before e.input) :
    ∀ e ∈ trace (watch r) ⟨newStore, fs⟩ disks, UnchangedIsSame r e :=
  trace_invariant (fun _ _ hw hc => watch_step hw hc) (.inl rfl) hc

end

/-! ## A threat feed that changes -/

def feedEngines : EnginesSpec where
  ipReputation := some
    { feeds := [{ name := ascii "drop", file := ascii "/feed", format := ascii "cidr_lines" }] }

@[reducible] def feedHeap : Heap where
  engines _ := feedEngines

def feedFile : File where
  apiVersion := apiVersionV1
  kind := kindSecurityPolicy
  spec := { domains := [{ hosts := [star], policy := { engines := some 0 } }] }

def feedText : Bytes :=
  ascii "apiVersion: sentinel.elchi.io/v1\nkind: SecurityPolicy\nspec:\n  domains:\n" ++
  ascii "    - hosts: [\"*\"]\n      policy:\n        engines:\n          ip_reputation:\n" ++
  ascii "            feeds:\n              - name: drop\n                file: /feed\n" ++
  ascii "                format: cidr_lines\n"

/-- A decoder that knows one text. -/
@[reducible] def feedDecoder : Decoder where
  json _ := .error []
  yaml data := if data = feedText then .ok feedFile else .error []

/-- The reputation engine on feeds that hold one address each. -/
def feedEngine (contents : List (Option Bytes)) : SecurityEngine where
  name := ascii "ipreputation"
  requiresBody := false
  inspectsResponse := false
  inspect _ req :=
    if req.direction = .request ∧ contents.contains (some req.sourceIP) then
      .verdict
        { action := .block
          reason := ascii "source IP in threat feed drop"
          ruleID := ascii "ipreputation.feed:drop"
          engine := ascii "ipreputation"
          severity := .medium
          statusCode := defaultBlockStatus }
    else .verdict {}

@[reducible] def feedConstructors : Constructors :=
  { Constructors.nothing with ipReputation := fun _ contents => .ok (feedEngine contents) }

@[reducible] def constantHasher : Hasher where
  sum _ := .ok (List.replicate 32 0)
  sum_length _ b h := by
    obtain rfl := Except.ok.inj h
    exact List.length_replicate

def feedDisk (feed : Bytes) : Disk where
  dir := { list := .ok [⟨ascii "policy.yaml", false⟩], read := fun _ => .ok feedText }
  files := fun f => if f = ascii "/feed" then some feed else none

/-- What the engines of a resolver say about a request from an address. -/
def verdictFor [Library] (r : Resolver) (ip : Bytes) : List Engine.Outcome :=
  let p := r.resolve ⟨[], ascii "/", ascii "GET", [], []⟩
  ((p.bind CompiledPolicy.engines).map fun s => s.engines.map fun e =>
    e.inspect 0 ⟨.request, [], ascii "/", ascii "GET", [], ip, [], []⟩).getD []

def feedReloader : Reloader := ⟨ascii "/conf", true⟩

/-- The feed starts to name another address; the reload that follows says "unchanged", and
the active engine lets through what a compiled one blocks. -/
theorem feed_change_is_missed :
    let _ := Library.nothing
    let _ := feedHeap
    let _ := feedDecoder
    let _ := feedConstructors
    let _ := constantHasher
    let disks := [feedDisk (ascii "192.0.2.1"), feedDisk (ascii "192.0.2.2")]
    ∃ e ∈ trace (watch feedReloader) ⟨newStore, fun _ => none⟩ disks,
      e.output.outcome = .unchanged ∧ ¬ UnchangedIsSame feedReloader e := by
  intro lib heap decoder constructors hasher disks
  -- outcome, verdict of the active engine and verdict of a compiled one, reload by reload
  let row (e : Event Watched Disk Reloaded) :=
    (e.output.outcome, e.after.store.active.resolver.map (verdictFor · (ascii "192.0.2.2")),
      (recompiled feedReloader e.input).map (verdictFor · (ascii "192.0.2.2")))
  let rows := (trace (watch feedReloader) ⟨newStore, fun _ => none⟩ disks).map row
  have hrow : ∃ y ∈ rows, y.1 = .unchanged ∧ y.2.1 ≠ y.2.2 := by decide +kernel
  obtain ⟨y, hy, hout, hne⟩ := hrow
  obtain ⟨e, he, rfl⟩ := List.mem_map.mp hy
  refine ⟨e, he, hout, fun h => hne ?_⟩
  show e.after.store.active.resolver.map _ = (recompiled feedReloader e.input).map _
  rw [h.recompiled hout]

theorem same_feed_is_unchanged :
    let _ := Library.nothing
    let _ := feedHeap
    let _ := feedDecoder
    let _ := feedConstructors
    let _ := constantHasher
    let disks := [feedDisk (ascii "192.0.2.1"), feedDisk (ascii "192.0.2.1")]
    let es := trace (watch feedReloader) ⟨newStore, fun _ => none⟩ disks
    es.map (fun e => e.output.outcome) = [.applied, .unchanged] ∧
      ∀ e ∈ es, UnchangedIsSame feedReloader e := by
  intro lib heap decoder constructors hasher disks es
  refine ⟨by decide +kernel, unchanged_is_same feedReloader _ disks ?_⟩
  have hfirst : (load feedReloader.dir (feedDisk (ascii "192.0.2.1")).dir).toOption =
      some (merge [⟨ascii "/conf/policy.yaml", feedFile⟩]) := by decide +kernel
  intro e he cfg hload hhash
  rcases List.mem_cons.mp he with rfl | he
  · exact absurd hhash computeHash_ne_empty
  · obtain rfl := List.mem_singleton.mp he
    have hcfg : some cfg = some (merge [⟨ascii "/conf/policy.yaml", feedFile⟩]) := by
      rw [← hfirst]
      exact (congrArg Except.toOption hload).symm
    obtain rfl := Option.some.inj hcfg
    exact ⟨by decide +kernel, by decide +kernel⟩

end ElchiShield.Runtime
