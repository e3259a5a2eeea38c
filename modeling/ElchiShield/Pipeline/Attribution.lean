import ElchiShield.Lib.FirstBest
import ElchiShield.Pipeline.Pipeline

/-! # Whose finding a run reports

A run that enforces nothing returns a decision with the reason, rule, engine and severity of one
of the findings it recorded. `record` takes an empty reason for the sign that there was no finding
yet, so a finding without a reason is given up for the next one. -/
namespace ElchiShield
open ElchiShield.Go ElchiShield.Lib ElchiShield.Engine ElchiShield.Policy

/-- What a decision takes over from a finding. -/
structure Attribution where
  reason : Bytes
  ruleID : Bytes
  engine : Bytes
  severity : Severity
  deriving DecidableEq, Repr

namespace Attribution

def unexplained (a : Attribution) : Bool := a.reason = []

def rank (a : Attribution) : Nat := a.severity.rank

def none : Attribution := ⟨[], [], [], .none⟩

end Attribution

def Decision.attribution (d : Decision) : Attribution := ⟨d.reason, d.ruleID, d.engine, d.severity⟩

namespace Pipeline

/-! ## What stages give to record -/

/-- A stage does not write what `Run` keeps on the transaction; the two fields are not exported. -/
def KeepsRecord (s : Stage) : Prop :=
  ∀ w ctx st, (s.process w ctx st).2.tx.result = st.tx.result ∧
    (s.process w ctx st).2.tx.findings = st.tx.findings

/-- The decision a result carries to be recorded. -/
def StageResult.carries (res : StageResult) : Option Decision :=
  match res.action with
  | .deny | .shadowDetect => res.decision
  | _ => none

section
variable (w : World) (ctx : Ctx)

/-- The decisions the results of the stages carry, in the order of the run. -/
def carried : List Stage → Exec → List Decision
  | [], _ => []
  | s :: ss, st =>
    (if gated s.phase st.tx then none else (runStage w ctx s st.next).1.carries).toList ++
      carried ss (stageStep w ctx s st).2

/-- No stage ends the run. -/
def Passes : List Stage → Exec → Prop
  | [], _ => True
  | s :: ss, st => (stageStep w ctx s st).1 = none ∧ Passes ss (stageStep w ctx s st).2

end

/-! ## The running decision -/

/-- The findings of a transaction and what its running decision makes of them. -/
structure Attributed (ds : List Decision) (tx : Transaction) : Prop where
  findings : tx.findings.map Decision.attribution = ds.map Decision.attribution
  result : tx.result.attribution =
    (ds.map Decision.attribution).foldl
      (takeBetter Attribution.unexplained Attribution.rank) Attribution.none

variable {w : World} {ctx : Ctx} {s : Stage} {stages : List Stage} {st : Exec} {ds : List Decision}
  {tx : Transaction}

theorem recordResult_attribution_none (final : Decision) (mode : Action) :
    (recordResult final none mode).attribution = final.attribution := by
  unfold recordResult
  dsimp only
  split <;> rfl

theorem recordResult_attribution_some (final d : Decision) (mode : Action) :
    (recordResult final (some d) mode).attribution =
      takeBetter Attribution.unexplained Attribution.rank final.attribution d.attribution := by
  have hiff : (final.attribution.unexplained = true ∨
      final.attribution.rank < d.attribution.rank) ↔
      (final.reason = [] ∨ final.severity.rank < d.severity.rank) := by
    rw [Attribution.unexplained, decide_eq_true_eq]
    rfl
  unfold recordResult
  dsimp only
  by_cases htake : final.reason = [] ∨ final.severity.rank < d.severity.rank
  · rw [takeBetter, if_pos (hiff.mpr htake)]
    split <;> rfl
  · rw [takeBetter, if_neg (mt hiff.mp htake)]
    split <;> rfl

theorem Attributed.record (h : Attributed ds tx) (res : StageResult) (mode : Action) :
    Attributed (ds ++ res.decision.toList) (record res mode tx) := by
  cases hres : res.decision with
  | none =>
    refine ⟨?_, ?_⟩
    · simpa [Pipeline.record, hres] using h.findings
    · simpa [Pipeline.record, hres, recordResult_attribution_none] using h.result
  | some d =>
    refine ⟨?_, ?_⟩
    · simp only [Pipeline.record, hres, Option.map_some, Option.toList_some, List.map_append,
        h.findings]
      rfl
    · simp only [Pipeline.record, hres, recordResult_attribution_some, Option.toList_some,
        List.map_append, List.foldl_append, ← h.result]
      rfl

theorem Attributed.congr {tx' : Transaction} (h : Attributed ds tx) (hresult : tx'.result = tx.result)
    (hfindings : tx'.findings = tx.findings) : Attributed ds tx' :=
  ⟨hfindings ▸ h.findings, hresult ▸ h.result⟩

theorem runStage_keeps (hs : KeepsRecord s) (w : World) (ctx : Ctx) (st : Exec) :
    (runStage w ctx s st).2.tx.result = st.tx.result ∧
      (runStage w ctx s st).2.tx.findings = st.tx.findings := by
  have hkeeps := hs w ctx (st.emit (.ran s.name st.tx))
  unfold runStage
  split
  next heq => rw [heq] at hkeeps; exact hkeeps
  next heq => rw [heq] at hkeeps; exact hkeeps

/-- A result that does not end the run is recorded with what it carries. -/
theorem settle_attributed {res : StageResult} (hpass : (settle res st).1 = none)
    (h : Attributed ds st.tx) :
    Attributed (ds ++ res.carries.toList) (settle res st).2.tx := by
  unfold settle StageResult.carries at *
  cases haction : res.action <;> simp only [haction] at hpass ⊢
  case continue_ => simpa using h
  case allow => cases hpass
  case deny =>
    unfold applyDeny at hpass ⊢
    split
    next hblock =>
      rw [if_pos hblock] at hpass
      cases hres : res.decision <;> simp [hres] at hpass
    next => exact h.record res _
  case shadowDetect => exact h.record res _
  case skipBody =>
    rw [Option.toList_none, List.append_nil]
    exact h.congr rfl rfl
  case skipRemaining => cases hpass
  case error => cases hpass

/-- One round that does not end the run records what its stage carries. -/
theorem stageStep_attributed (hs : KeepsRecord s) (hpass : (stageStep w ctx s st).1 = none)
    (h : Attributed ds st.tx) :
    Attributed (ds ++
      (if gated s.phase st.tx then none else (runStage w ctx s st.next).1.carries).toList)
      (stageStep w ctx s st).2.tx := by
  cases hg : gated s.phase st.tx with
  | true => simpa [stageStep, hg] using h
  | false =>
    cases hc : ctx st.tick with
    | true =>
      rw [stageStep_late st hg hc] at hpass
      cases hpass
    | false =>
      rw [stageStep_live st hg hc] at hpass ⊢
      obtain ⟨hresult, hfindings⟩ := runStage_keeps hs w ctx st.next
      exact settle_attributed hpass (h.congr hresult hfindings)

/-- The decision of a run no stage ends is the running one. -/
theorem chain_attributed (hs : ∀ s ∈ stages, KeepsRecord s) (hpass : Passes w ctx stages st)
    (h : Attributed ds st.tx) :
    ∃ t, chain (stageStep w ctx) (fun st => st.tx.result) stages st = (t.tx.result, t) ∧
      Attributed (ds ++ carried w ctx stages st) t.tx := by
  induction stages generalizing st ds with
  | nil => exact ⟨st, rfl, by simpa [carried] using h⟩
  | cons s stages ih =>
    obtain ⟨hnone, hrest⟩ := hpass
    have hstep := stageStep_attributed (hs s List.mem_cons_self) hnone h
    obtain ⟨t, hchain, ht⟩ := ih (fun s' hs' => hs s' (List.mem_cons_of_mem _ hs')) hrest hstep
    refine ⟨t, ?_, by simpa [carried] using ht⟩
    rw [chain_cons_pass (t := (stageStep w ctx s st).2) (Prod.ext hnone rfl), hchain]

/-! ## The first of the most severe findings -/

theorem FirstBest.attribution {f : Decision} (h : FirstBest (fun d => d.severity.rank) ds f) :
    FirstBest Attribution.rank (ds.map Decision.attribution) f.attribution := by
  obtain ⟨before, after, rfl, hbefore, hafter⟩ := h
  refine ⟨before.map Decision.attribution, after.map Decision.attribution, by simp, ?_, ?_⟩
  · exact List.forall_mem_map.mpr hbefore
  · exact List.forall_mem_map.mpr hafter

/-- The findings of a run are what its stages carry. Its decision has the attribution of the first
of the most severe ones exactly if that one has a reason, or none of the most severe ones has one
and the last finding is like it. -/
theorem run_attribution_iff {p : Pipeline} (hs : ∀ s ∈ p.stages, KeepsRecord s)
    (hpass : Passes w ctx p.stages (p.start st))
    (hne : carried w ctx p.stages (p.start st) ≠ []) :
    (p.run w ctx st).2.tx.findings.map Decision.attribution =
      (carried w ctx p.stages (p.start st)).map Decision.attribution ∧
    (∃ f, FirstBest (fun d => d.severity.rank) (carried w ctx p.stages (p.start st)) f) ∧
    ∀ f, FirstBest (fun d => d.severity.rank) (carried w ctx p.stages (p.start st)) f →
      ((p.run w ctx st).1.attribution = f.attribution ↔
        f.reason ≠ [] ∨
          (∀ g ∈ carried w ctx p.stages (p.start st),
            g.severity.rank = f.severity.rank → g.reason = []) ∧
          ∃ g, (carried w ctx p.stages (p.start st)).getLast? = some g ∧
            g.attribution = f.attribution) := by
  have hstart : Attributed [] (p.start st).tx := ⟨rfl, rfl⟩
  obtain ⟨t, hrun, ht⟩ := chain_attributed hs hpass hstart
  rw [List.nil_append] at ht
  have hrun : p.run w ctx st = (t.tx.result, t) := hrun
  rw [hrun]
  refine ⟨ht.findings, exists_firstBest _ hne, fun f hf => ?_⟩
  rw [ht.result, foldl_takeBetter_iff rfl (FirstBest.attribution hf)]
  have hreason (d : Decision) : d.attribution.unexplained = true ↔ d.reason = [] :=
    decide_eq_true_iff
  rw [← Bool.not_eq_true, hreason, List.forall_mem_map, List.getLast?_map, Option.map_eq_some_iff]
  simp only [hreason]
  rfl

/-- A pipeline whose stages deny with the given decisions. -/
def denying (ds : List Decision) : Pipeline where
  name := ascii "headers"
  stages := ds.map fun d => ⟨ascii "stage", .preCheck, fun _ _ st => (some (.deny d), st)⟩

theorem denying_keepsRecord {ds : List Decision} : ∀ s ∈ (denying ds).stages, KeepsRecord s := by
  intro s hs
  obtain ⟨d, -, rfl⟩ := List.mem_map.mp hs
  exact fun _ _ _ => ⟨rfl, rfl⟩

/-- A transaction under a policy that only detects. -/
def detecting : Exec := { tx := { policy := some { id := [], mode := .detect } } }

def lowFinding : Decision :=
  { action := .block, reason := ascii "low-reason", ruleID := ascii "R-low", engine := ascii "e-low",
    severity := .low }

def highFinding (reason : Bytes) : Decision :=
  { action := .block, reason, ruleID := ascii "R-high", engine := ascii "e-high", severity := .high }

/-- A more severe finding takes over from the one before it. -/
theorem run_attribution_iff_severe :
    ((denying [lowFinding, highFinding (ascii "high-reason")]).run World.quiet (fun _ => false)
      detecting).1.attribution = (highFinding (ascii "high-reason")).attribution := by
  have hcarried : carried World.quiet (fun _ => false)
      (denying [lowFinding, highFinding (ascii "high-reason")]).stages
      ((denying [lowFinding, highFinding (ascii "high-reason")]).start detecting) =
      [lowFinding, highFinding (ascii "high-reason")] := by decide +kernel
  have hpass : Passes World.quiet (fun _ => false)
      (denying [lowFinding, highFinding (ascii "high-reason")]).stages
      ((denying [lowFinding, highFinding (ascii "high-reason")]).start detecting) :=
    ⟨rfl, rfl, trivial⟩
  obtain ⟨-, -, hiff⟩ := run_attribution_iff denying_keepsRecord hpass
    (hcarried ▸ List.cons_ne_nil _ _)
  refine (hiff (highFinding (ascii "high-reason")) (hcarried ▸ ?_)).mpr (.inl (by decide))
  exact ⟨[lowFinding], [], rfl, by decide, by simp⟩

/-- A severe finding without a reason is given up for a minor one. -/
theorem unexplained_finding_given_up :
    Passes World.quiet (fun _ => false) (denying [highFinding [], lowFinding]).stages
      ((denying [highFinding [], lowFinding]).start detecting) ∧
    carried World.quiet (fun _ => false) (denying [highFinding [], lowFinding]).stages
      ((denying [highFinding [], lowFinding]).start detecting) = [highFinding [], lowFinding] ∧
    FirstBest (fun d => d.severity.rank) [highFinding [], lowFinding] (highFinding []) ∧
    ((denying [highFinding [], lowFinding]).run World.quiet (fun _ => false)
      detecting).1.attribution = lowFinding.attribution ∧
    lowFinding.attribution ≠ (highFinding []).attribution := by
  refine ⟨⟨rfl, rfl, trivial⟩, by decide +kernel, ⟨[], [lowFinding], rfl, by simp, by decide⟩,
    by decide +kernel, by decide +kernel⟩

end Pipeline

end ElchiShield
