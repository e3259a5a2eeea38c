import ElchiShield.Extproc.BodyPhase
import ElchiShield.Extproc.Decoded
import ElchiShield.Stages.Clock
import ElchiShield.Stages.Orders

/-! # What gets past a policy that fails closed

Under a policy that blocks and fails closed, an engine that finds something, returns an error or
panics, a deadline that is over and a pipeline that does not build all end in a block. So where a
request is let pass, every engine was asked about it and has answered. -/
namespace ElchiShield.Extproc
open ElchiShield.Go ElchiShield.Lib ElchiShield.Engine ElchiShield.Policy ElchiShield.Runtime
open ElchiShield.Pipeline ElchiShield.Stages

/-! ## Engines -/

/-- The engine has looked at the request between the ticks `start` and `stop` and has nothing
against it. -/
def Clears (start stop : Nat) (req : Engine.Request) (e : SecurityEngine) : Prop :=
  ∃ tick v, start ≤ tick ∧ tick < stop ∧ e.inspect tick req = .verdict v ∧ v.action ≠ .block

theorem Clears.within {start stop start' stop' : Nat} {req : Engine.Request} {e : SecurityEngine}
    (h : Clears start stop req e) (hstart : start' ≤ start) (hstop : stop ≤ stop') :
    Clears start' stop' req e := by
  obtain ⟨tick, v, hfrom, huntil, hv, hblock⟩ := h
  exact ⟨tick, v, hstart.trans hfrom, huntil.trans_le hstop, hv, hblock⟩

theorem worse_ne_block {worst v : Verdict} (h : (worse worst v).action ≠ .block) :
    worst.action ≠ .block ∧ v.action ≠ .block := by
  unfold worse at h
  split at h
  next hv => exact absurd hv.1 h
  next hfirst =>
    split at h
    next hv => exact absurd hv.1 h
    next =>
      split at h
      next hv => exact ⟨hv.2.1, hv.1⟩
      next => exact ⟨h, fun hv => hfirst ⟨hv, h⟩⟩

/-- An error and a block stay: without them every engine that was wanted has cleared the
request while the loop ran. -/
theorem inspectLoop_clears {ctx : Ctx} {req : Engine.Request} {want : SecurityEngine → Bool}
    {engines : List SecurityEngine} {acc r : Engine.Inspected} {tick tick' : Nat}
    (h : inspectLoop ctx req want engines acc tick = (some r, tick')) (herrs : r.errs = [])
    (hworst : r.worst.action ≠ .block) :
    acc.errs = [] ∧ acc.worst.action ≠ .block ∧
      ∀ e ∈ engines, want e = true → Clears tick tick' req e := by
  fun_induction inspectLoop ctx req want engines acc tick with
  | case1 acc tick =>
    cases h
    exact ⟨herrs, hworst, by simp⟩
  | case2 e rest acc tick hskip ih =>
    obtain ⟨hacc, hblock, hrest⟩ := ih h
    refine ⟨hacc, hblock, List.forall_mem_cons.mpr ⟨fun hwant => ?_, hrest⟩⟩
    simp [hwant] at hskip
  | case3 e rest acc tick =>
    cases h
    simp at herrs
  | case4 => cases h
  | case5 e rest acc tick _ _ err _ ih =>
    obtain ⟨hacc, -⟩ := ih h
    simp at hacc
  | case6 e rest acc tick _ _ v hv ih =>
    obtain ⟨hacc, hblock, hrest⟩ := ih h
    obtain ⟨hold, hnew⟩ := worse_ne_block hblock
    have hstop : tick + 2 ≤ tick' := by
      have hle := inspectLoop_tick_le ctx req want rest { acc with
        worst := worse acc.worst v
        totalScore := if v.score > 0 then acc.totalScore + v.score else acc.totalScore } (tick + 2)
      rwa [h] at hle
    refine ⟨hacc, hold, List.forall_mem_cons.mpr ⟨fun _ => ?_, fun e' he' hwant => ?_⟩⟩
    · exact ⟨tick + 1, v, Nat.le_succ _, hstop, hv, hnew⟩
    · exact (hrest e' he' hwant).within (Nat.le_add_right _ _) (le_refl _)

/-- The engines of a policy that a stage asks have cleared the request, if it continues. -/
theorem runEngines_continue {want : SecurityEngine → Bool} {ctx : Ctx} {st t : Exec}
    {p : CompiledPolicy} (hp : st.tx.policy = some p) (henf : p.enforcing = true)
    (h : runEngines (fun s ctx req tick => s.inspect ctx req want tick) ctx st =
      (some .continue_, t)) :
    ∀ e ∈ p.engineSet.engines, want e = true → Clears st.tick t.tick (engineRequest st.tx) e := by
  unfold runEngines at h
  rw [hp] at h
  dsimp only at h
  split at h
  next hskip =>
    have hnone : p.engineSet.engines = [] := by
      simpa [henf, EngineSet.len] using hskip
    simp [hnone]
  next =>
    split at h
    next => cases h
    next v errs tick hinspect =>
      unfold EngineSet.inspect at hinspect
      split at hinspect
      next => cases hinspect
      next r _ hloop =>
        simp only [Prod.mk.injEq, Option.some.injEq] at hinspect
        obtain ⟨⟨rfl, rfl⟩, rfl⟩ := hinspect
        have hres : (applyVerdict p { r.worst with score := r.totalScore } r.errs st.tx).1 =
            .continue_ := Option.some.inj (Prod.mk.inj h).1
        unfold applyVerdict at hres
        split at hres
        next => cases hres
        next hblock =>
          split at hres
          next => cases hres
          next herrs =>
            obtain rfl := (Prod.mk.inj h).2
            exact (inspectLoop_clears hloop (by simpa using herrs) hblock).2.2

/-! ## Pipelines -/

structure FailsClosed (p : CompiledPolicy) : Prop where
  blocking : p.blocking = true
  closed : p.failOpen = false

/-- A stage that never ends a run early without a reason. -/
def Firm (s : Stage) : Prop := ∀ w ctx st, (s.process w ctx st).1 ≠ some .skipRemaining

section
variable {p : CompiledPolicy} {w : World} {ctx : Ctx} {s : Stage} {st : Exec}

theorem failPosture_closed (h : FailsClosed p) {tx : Transaction} (hp : tx.policy = some p)
    (timedOut : Bool) : (failPosture tx timedOut).isBlock = true := by
  simp [failPosture, hp, h.closed, Decision.isBlock]

/-- The stage is not due, or it continues. -/
def Passed (w : World) (ctx : Ctx) (s : Stage) (st t : Exec) : Prop :=
  gated s.phase st.tx = true ∧ t = st ∨
    s.process w ctx (st.next.emit (.ran s.name st.tx)) = (some .continue_, t)

theorem Passed.tick_le {t : Exec} (h : Passed w ctx s st t) (honward : Onward s) :
    st.tick ≤ t.tick := by
  rcases h with ⟨-, rfl⟩ | hcontinue
  · exact le_refl _
  · have hle := honward w ctx (st.next.emit (.ran s.name st.tx))
    rw [hcontinue] at hle
    exact (Nat.le_succ _).trans hle

/-- A stage passes or the run ends in a block. -/
theorem stageStep_closed (hc : FailsClosed p) (hs : Inspector s) (hfirm : Firm s)
    (hp : st.tx.policy = some p) :
    After (Passed w ctx s st) (fun d _ => d.isBlock = true) (stageStep w ctx s st) := by
  cases hg : gated s.phase st.tx with
  | true =>
    have heq : stageStep w ctx s st = (none, st) := by simp [stageStep, hg]
    rw [heq]
    exact .inl ⟨hg, rfl⟩
  | false =>
    cases hctx : ctx st.tick with
    | true =>
      rw [stageStep_late st hg hctx]
      exact failPosture_closed hc hp true
    | false =>
      obtain ⟨⟨r, t⟩, hr⟩ : ∃ r, s.process w ctx (st.next.emit (.ran s.name st.tx)) = r := ⟨_, rfl⟩
      have hpolicy := (hs.rel w ctx (st.next.emit (.ran s.name st.tx))).policy
      have hplain := hs.plain w ctx (st.next.emit (.ran s.name st.tx))
      have hskip := hfirm w ctx (st.next.emit (.ran s.name st.tx))
      rw [hr] at hpolicy hplain hskip
      have hp' : t.tx.policy = some p := hpolicy.trans hp
      cases r with
      | none =>
        have hrun : runStage w ctx s st.next = (.fail, t) := by
          simp only [runStage, Exec.next_tx, hr]
        rw [stageStep_live st hg hctx, hrun]
        exact failPosture_closed hc hp' false
      | some res =>
        rw [stageStep_result st hg hctx hr]
        cases hplain res rfl with
        | continue_ => exact .inr hr
        | skipRemaining => exact absurd rfl hskip
        | fail => exact failPosture_closed hc hp' false
        | deny d hd =>
          have hblock : t.tx.policy.any CompiledPolicy.blocking = true := by
            rw [hp']
            exact hc.blocking
          have hd' : d.isBlock = true := by simp [Decision.isBlock, hd]
          show After _ _ (applyDeny (.deny d) t)
          unfold applyDeny
          rw [if_pos hblock]
          dsimp only [StageResult.deny]
          split
          · exact hd'
          · exact hd'

end

/-- The loop of `Run` over the stages that are left. -/
def runStages (w : World) (ctx : Ctx) (stages : List Stage) (st : Exec) : Decision × Exec :=
  chain (stageStep w ctx) (fun st => st.tx.result) stages st

theorem run_eq (q : Pipeline) (w : World) (ctx : Ctx) (st : Exec) :
    q.run w ctx st = runStages w ctx q.stages (q.start st) := rfl

section
variable {p : CompiledPolicy} {w : World} {ctx : Ctx} {stages : List Stage} {s : Stage} {st : Exec}

/-- A run that is let pass has its first stage behind it. -/
theorem runStages_cons (hc : FailsClosed p) (hs : Inspector s ∧ Firm s)
    (hp : st.tx.policy = some p) (hpass : (runStages w ctx (s :: stages) st).1.isBlock = false) :
    ∃ t, Passed w ctx s st t ∧ runStages w ctx (s :: stages) st = runStages w ctx stages t := by
  have hstep : After (Passed w ctx s st) (fun d _ => d.isBlock = true) (stageStep w ctx s st) :=
    stageStep_closed hc hs.1 hs.2 hp
  obtain ⟨⟨d, t⟩, heq⟩ : ∃ r, stageStep w ctx s st = r := ⟨_, rfl⟩
  rw [heq] at hstep
  cases d with
  | none => exact ⟨t, hstep, chain_cons_pass heq⟩
  | some d =>
    rw [runStages, chain_cons_stop heq] at hpass
    cases hpass.symm.trans hstep

/-- A run that is let pass has every one of its stages behind it. -/
theorem runStages_append {I : Exec → Prop} {before after : List Stage} (hc : FailsClosed p)
    (hs : ∀ s ∈ before, Inspector s ∧ Firm s) (hpolicy : ∀ t, I t → t.tx.policy = some p)
    (hpassed : ∀ s ∈ before, ∀ t u, I t → Passed w ctx s t u → I u) (h : I st)
    (hpass : (runStages w ctx (before ++ after) st).1.isBlock = false) :
    ∃ t, I t ∧ runStages w ctx (before ++ after) st = runStages w ctx after t := by
  induction before generalizing st with
  | nil => exact ⟨st, h, rfl⟩
  | cons s before ih =>
    obtain ⟨hs, hbefore⟩ := List.forall_mem_cons.mp hs
    obtain ⟨hfirst, hrest⟩ := List.forall_mem_cons.mp hpassed
    rw [List.cons_append] at hpass ⊢
    obtain ⟨t, ht, heq⟩ := runStages_cons hc hs (hpolicy st h) hpass
    rw [heq] at hpass ⊢
    exact ih hbefore hrest (hfirst st t h ht) hpass

/-- A stage of a run that is let pass is passed in a state that has what the other stages keep, and
the run goes on from there. -/
theorem runStages_mem {I : Exec → Prop} (hc : FailsClosed p)
    (hs : ∀ s ∈ stages, Inspector s ∧ Firm s) (hpolicy : ∀ t, I t → t.tx.policy = some p)
    (hpassed : ∀ s' ∈ stages, s' ≠ s → ∀ t u, I t → Passed w ctx s' t u → I u) (h : I st)
    (hmem : s ∈ stages) (hpass : (runStages w ctx stages st).1.isBlock = false) :
    ∃ t u after, I t ∧ Passed w ctx s t u ∧ after ⊆ stages ∧
      runStages w ctx stages st = runStages w ctx after u := by
  obtain ⟨before, after, rfl, hfirst⟩ := List.eq_append_cons_of_mem hmem
  obtain ⟨t, ht, heq⟩ := runStages_append hc (fun s' hs' => hs s' (List.mem_append_left _ hs')) hpolicy
    (fun s' hs' => hpassed s' (List.mem_append_left _ hs') (ne_of_mem_of_not_mem hs' hfirst)) h hpass
  rw [heq] at hpass
  obtain ⟨u, hu, hrest⟩ := runStages_cons hc (hs s hmem) (hpolicy t ht) hpass
  refine ⟨t, u, after, ht, hu, ?_, heq.trans hrest⟩
  intro s' hs'
  exact List.mem_append_right _ (List.mem_cons_of_mem _ hs')

end

/-! ## The stages of a policy -/

section
variable [Library]

theorem fastPreChecks_firm : Firm fastPreChecks := by
  intro w ctx st
  simp only [fastPreChecks, pureStage, requestHeaderChecks]
  repeat' split
  all_goals simp [deny, denyEngine, StageResult.deny, StageResult.continue_, StageResult.skipRemaining]

theorem bodyContentDecode_firm : Firm bodyContentDecode := by
  intro w ctx st
  simp only [bodyContentDecode, decodeInto]
  repeat' split
  all_goals simp [denyEngine, StageResult.deny, StageResult.continue_, StageResult.skipRemaining]

theorem jsonCheck_action {p : CompiledPolicy} {tx : Transaction} {res : StageResult}
    (h : jsonCheck p tx = some res) : res.action = .deny := by
  unfold jsonCheck at h
  split at h
  next =>
    split at h
    next =>
      cases h
      rfl
    next =>
      split at h
      next =>
        cases h
        rfl
      next => cases h
  next => cases h

omit [Library] in
theorem sensitiveCheck_action {detector : Option Detector} {p : CompiledPolicy} {tx : Transaction}
    {res : StageResult} (h : sensitiveCheck detector p tx = some res) : res.action = .deny := by
  obtain ⟨det, -, hdet⟩ := Option.bind_eq_some_iff.mp h
  split at hdet
  next =>
    obtain ⟨kind, -, hkind⟩ := Option.bind_eq_some_iff.mp hdet
    cases hkind
    rfl
  next => cases hdet

omit [Library] in
theorem runDLP_firm (det : Detector) (p : CompiledPolicy) (dlp : CompiledDLP) (st : Exec) :
    (runDLP det p dlp st).1 ≠ some .skipRemaining := by
  simp only [runDLP]
  repeat' split
  all_goals simp [denyEngine, StageResult.deny, StageResult.continue_, StageResult.skipRemaining]

theorem bodyChecks_firm (detector : Option Detector) : Firm (bodyChecks detector) := by
  intro w ctx st
  have hcheck : ∀ p res, (jsonCheck p st.tx).or (sensitiveCheck detector p st.tx) = some res →
      res ≠ .skipRemaining := by
    rintro p res h rfl
    rcases Option.or_eq_some_iff.mp h with hjson | ⟨-, hsensitive⟩
    · cases jsonCheck_action hjson
    · cases sensitiveCheck_action hsensitive
  have hcontinue : some StageResult.continue_ ≠ some .skipRemaining := by
    simp [StageResult.continue_, StageResult.skipRemaining]
  simp only [bodyChecks]
  split
  next => exact hcontinue
  next p _ =>
    split
    next => exact hcontinue
    next =>
      split
      next res hres => exact fun h => hcheck p res hres (Option.some.inj h)
      next =>
        split
        next =>
          split
          next => exact runDLP_firm _ p _ st
          next => exact hcontinue
        next => exact hcontinue

end

theorem bodyGate_firm : Firm bodyGate := by
  intro w ctx st
  simp only [bodyGate]
  repeat' split
  all_goals simp [StageResult.continue_, StageResult.skipRemaining]

theorem bodyTruncationGuard_firm : Firm bodyTruncationGuard := by
  intro w ctx st
  simp only [bodyTruncationGuard, pureStage]
  repeat' split
  all_goals simp [denyEngine, StageResult.deny, StageResult.continue_, StageResult.skipRemaining]

theorem runEngines_firm (inspect : EngineSet → Ctx → Engine.Request → Nat →
    Option (Verdict × List Bytes) × Nat) (ctx : Ctx) (st : Exec) :
    (runEngines inspect ctx st).1 ≠ some .skipRemaining := by
  simp only [runEngines, applyVerdict]
  repeat' split
  all_goals simp [StageResult.deny, StageResult.continue_, StageResult.skipRemaining, StageResult.fail]

section
variable [Library] {deps : Deps} {dir : Direction} {q : Pipeline} {p : CompiledPolicy} {w : World}
  {ctx : Ctx} {st : Exec}

theorem headerPipeline_firm (hq : HeaderPipeline dir q) : ∀ s ∈ q.stages, Inspector s ∧ Firm s := by
  intro s hs
  refine ⟨hq.inspector s hs, ?_⟩
  rcases hq.mem hs with rfl | rfl | rfl
  · exact fastPreChecks_firm
  · exact fun _ => runEngines_firm EngineSet.inspectHeaderPhase
  · exact bodyGate_firm

theorem bodyPipeline_firm (hq : BodyPipeline deps dir q) : ∀ s ∈ q.stages, Inspector s ∧ Firm s := by
  intro s hs
  refine ⟨hq.inspector s hs, ?_⟩
  obtain ⟨body, hstages, hbody⟩ := hq.stages
  rw [hstages] at hs
  rcases List.mem_cons.mp hs with rfl | hs
  · exact bodyTruncationGuard_firm
  rcases List.mem_cons.mp hs with rfl | hs
  · exact bodyContentDecode_firm
  rcases hbody s hs with rfl | rfl
  · exact bodyChecks_firm _
  · exact fun _ => runEngines_firm EngineSet.inspectBodyPhase

/-- The stages an inspection has in the header pipeline and in the body pipeline. -/
def Inspection.inHeaders : Stages.Inspection → Option Stage
  | .headerChecks => some fastPreChecks
  | .bodyChecks => none
  | .engines => some wafHeaderEngine

def Inspection.inBody (deps : Deps) : Stages.Inspection → Option Stage
  | .headerChecks => none
  | .bodyChecks => some (bodyChecks deps.detector)
  | .engines => some wafEngine

/-- An order that lists an inspection has its stages in the pipelines. -/
theorem splitStages_lists {order : List Bytes} {header body : List Stage}
    (h : splitStages deps order = .ok (header, body)) {i : Stages.Inspection}
    (hi : i.stage ∈ order) :
    (∀ s ∈ Inspection.inHeaders i, s ∈ header) ∧ ∀ s ∈ Inspection.inBody deps i, s ∈ body := by
  induction order generalizing header body with
  | nil => cases hi
  | cons name rest ih =>
    unfold splitStages at h
    split at h
    next hname =>
      obtain ⟨⟨header', body'⟩, hr, h⟩ := Lib.bind_eq_ok h
      obtain ⟨rfl, rfl⟩ := Prod.mk.inj (Except.ok.inj h)
      rcases List.mem_cons.mp hi with hfirst | hrest
      · cases i with
        | engines => simp [Inspection.inHeaders, Inspection.inBody]
        | headerChecks => exact absurd (hfirst.trans hname) (by decide)
        | bodyChecks => exact absurd (hfirst.trans hname) (by decide)
      · obtain ⟨hheader, hbody⟩ := ih hr hrest
        exact ⟨fun s hs => List.mem_cons_of_mem _ (hheader s hs),
          fun s hs => List.mem_cons_of_mem _ (hbody s hs)⟩
    next hname =>
      split at h
      next => cases h
      next s hlookup =>
        obtain ⟨⟨header', body'⟩, hr, h⟩ := Lib.bind_eq_ok h
        -- the stage goes where its phase says
        have hplace : (∀ s' ∈ header', s' ∈ header) ∧ (∀ s' ∈ body', s' ∈ body) ∧
            (s.phase = .preCheck → s ∈ header) ∧ (s.phase ≠ .preCheck → s ∈ body) := by
          dsimp only at h
          split at h
          next hphase =>
            obtain ⟨rfl, rfl⟩ := Prod.mk.inj (Except.ok.inj h)
            exact ⟨fun _ => List.mem_cons_of_mem _, fun _ => id, fun _ => List.mem_cons_self,
              fun hne => absurd hphase hne⟩
          next hphase =>
            obtain ⟨rfl, rfl⟩ := Prod.mk.inj (Except.ok.inj h)
            exact ⟨fun _ => id, fun _ => List.mem_cons_of_mem _, fun heq => absurd heq hphase,
              fun _ => List.mem_cons_self⟩
        obtain ⟨hheader, hbody, hpre, hpost⟩ := hplace
        rcases List.mem_cons.mp hi with rfl | hrest
        · cases i with
          | engines => exact absurd rfl hname
          | headerChecks =>
            obtain rfl : fastPreChecks = s := Option.some.inj hlookup
            simpa [Inspection.inHeaders, Inspection.inBody] using hpre rfl
          | bodyChecks =>
            obtain rfl : bodyChecks deps.detector = s := Option.some.inj hlookup
            simpa [Inspection.inHeaders, Inspection.inBody] using
              hpost (show Phase.body ≠ Phase.preCheck by decide)
        · obtain ⟨hheader', hbody'⟩ := ih hr hrest
          exact ⟨fun s hs => hheader s (hheader' s hs), fun s hs => hbody s (hbody' s hs)⟩

theorem pipelines_list {pp : PolicyPipelines} (h : buildPolicyPipelines deps p = .ok pp)
    {i : Stages.Inspection} (hi : i.stage ∈ effectiveOrder p dir) :
    (∀ s ∈ Inspection.inHeaders i, s ∈ (pp.header dir).stages) ∧
      ∀ s ∈ Inspection.inBody deps i, s ∈ (pp.body dir).stages := by
  have hsplit : ∀ {name : Bytes} {order : List Bytes} {pair : Pipeline × Pipeline},
      split deps name order = .ok pair → i.stage ∈ order →
      (∀ s ∈ Inspection.inHeaders i, s ∈ pair.1.stages) ∧
        ∀ s ∈ Inspection.inBody deps i, s ∈ pair.2.stages := by
    intro name order pair hpair hmem
    obtain ⟨r, hr, hpair⟩ := Lib.bind_eq_ok hpair
    obtain rfl := Except.ok.inj hpair
    obtain ⟨hheader, hbody⟩ := splitStages_lists hr hmem
    exact ⟨fun s hs => List.mem_append_left _ (hheader s hs),
      fun s hs => List.mem_cons_of_mem _ (List.mem_cons_of_mem _ (hbody s hs))⟩
  unfold buildPolicyPipelines at h
  obtain ⟨req, hreq, h⟩ := Lib.bind_eq_ok h
  obtain ⟨resp, hresp, h⟩ := Lib.bind_eq_ok h
  obtain rfl := Except.ok.inj h
  cases dir with
  | request => exact hsplit hreq hi
  | response => exact hsplit hresp hi

/-- Header stages leave alone what the engines look at. -/
theorem headerPipeline_passed (hq : HeaderPipeline dir q) {s : Stage} (hs : s ∈ q.stages) {t u : Exec}
    (h : Passed w ctx s t u) :
    u.tx.policy = t.tx.policy ∧ engineRequest u.tx = engineRequest t.tx := by
  rcases h with ⟨-, rfl⟩ | hcontinue
  · exact ⟨rfl, rfl⟩
  have hstate := congrArg Prod.snd hcontinue
  dsimp only at hstate
  rw [← hstate]
  rcases hq.mem hs with rfl | rfl | rfl
  · exact ⟨rfl, rfl⟩
  · obtain ⟨-, score, denied, tick, heq⟩ := runEngines_spec EngineSet.inspectHeaderPhase ctx
      (t.next.emit (.ran wafHeaderEngine.name t.tx))
    show (runEngines _ _ _).2.tx.policy = _ ∧ engineRequest (runEngines _ _ _).2.tx = _
    rw [heq]
    exact ⟨rfl, rfl⟩
  · obtain ⟨-, required, waf, heq⟩ := bodyGate_spec w ctx
      (t.next.emit (.ran bodyGate.name t.tx))
    rw [heq]
    exact ⟨rfl, rfl⟩

/-- What the stages of a header pipeline keep. -/
structure Unread (p : CompiledPolicy) (st t : Exec) : Prop where
  policy : t.tx.policy = some p
  request : engineRequest t.tx = engineRequest st.tx
  later : st.tick ≤ t.tick

theorem Unread.passed (hq : HeaderPipeline dir q) :
    ∀ s ∈ q.stages, ∀ t u, Unread p st t → Passed w ctx s t u → Unread p st u := by
  intro s hs t u hunread hpassed
  obtain ⟨hpolicy, hrequest⟩ := headerPipeline_passed hq hs hpassed
  exact ⟨hpolicy.trans hunread.policy, hrequest.trans hunread.request,
    hunread.later.trans (hpassed.tick_le (hq.onward s hs))⟩

/-- Every stage of a header pipeline has passed the headers that pass, before the run ended. -/
theorem headers_passed (hc : FailsClosed p) (hq : HeaderPipeline dir q) {s : Stage}
    (hs : s ∈ q.stages) (hp : st.tx.policy = some p) (hpass : (q.run w ctx st).1.isBlock = false) :
    ∃ t u, Unread p st t ∧ Passed w ctx s t u ∧ u.tick ≤ (q.run w ctx st).2.tick := by
  have hstart : Unread p st (q.start st) := ⟨hp, rfl, le_refl _⟩
  rw [run_eq] at hpass ⊢
  obtain ⟨t, u, after, hunread, hpassed, hsub, heq⟩ := runStages_mem hc (headerPipeline_firm hq)
    (fun _ => Unread.policy) (fun s hs _ => Unread.passed hq s hs) hstart hs hpass
  refine ⟨t, u, hunread, hpassed, ?_⟩
  rw [heq]
  exact stages_tick_le (fun s hs => hq.inspector s (hsub hs)) (fun s hs => hq.onward s (hsub hs)) w
    ctx u

/-- The engines that need no body have cleared the headers that pass, in the run over them. -/
theorem headers_cleared (hc : FailsClosed p) (hq : HeaderPipeline dir q)
    (hwaf : wafHeaderEngine ∈ q.stages) (hp : st.tx.policy = some p)
    (hpass : (q.run w ctx st).1.isBlock = false) :
    ∀ e ∈ p.engineSet.engines, e.requiresBody = false →
      Clears st.tick (q.run w ctx st).2.tick (engineRequest st.tx) e := by
  obtain ⟨t, u, hunread, ⟨hgated, -⟩ | hcontinue, hend⟩ := headers_passed hc hq hwaf hp hpass
  · cases hgated
  · intro e he hbody
    have hp' : (t.next.emit (.ran wafHeaderEngine.name t.tx)).tx.policy = some p := hunread.policy
    have hcleared : Clears (t.tick + 1) u.tick (engineRequest t.tx) e :=
      runEngines_continue hp' (CompiledPolicy.enforcing_of_blocking hc.blocking) hcontinue e he
        (by simp [hbody])
    rw [← hunread.request]
    exact hcleared.within (Nat.le_succ_of_le hunread.later) hend

/-- The gate at the end of the headers that pass asks for the body where the policy looks at it. -/
theorem headers_ask (hc : FailsClosed p) (hq : HeaderPipeline dir q) (hp : st.tx.policy = some p)
    (hpass : (q.run w ctx st).1.isBlock = false) :
    (q.run w ctx st).2.tx.bodyRequired = inspectsBody p st.tx.direction ∧
      (q.run w ctx st).2.tx.wafEnabled = p.engineSet.requiresBody := by
  have hfirm := headerPipeline_firm hq
  have hkeeps : ∀ s ∈ q.stages, ∀ t u, Unread p st t → Passed w ctx s t u → Unread p st u :=
    Unread.passed hq
  obtain ⟨header, hstages, -⟩ := hq.stages
  rw [run_eq] at hpass ⊢
  rw [hstages] at hfirm hkeeps hpass ⊢
  have hstart : Unread p st (q.start st) := ⟨hp, rfl, le_refl _⟩
  obtain ⟨t, ⟨hp', hreq, -⟩, heq⟩ := runStages_append hc
    (fun s hs => hfirm s (List.mem_append_left _ hs)) (fun _ => Unread.policy)
    (fun s hs => hkeeps s (List.mem_append_left _ hs)) hstart hpass
  rw [heq] at hpass ⊢
  obtain ⟨u, ⟨hgated, -⟩ | hcontinue, heq⟩ := runStages_cons hc (hfirm bodyGate (by simp)) hp' hpass
  · cases hgated
  · rw [bodyGate_enforcing w ctx (by exact hp') (CompiledPolicy.enforcing_of_blocking hc.blocking)]
      at hcontinue
    rw [heq, ← show t.tx.direction = st.tx.direction from congrArg Engine.Request.direction hreq]
    cases hcontinue
    exact ⟨rfl, rfl⟩

/-- What the inspectors of a body pipeline keep, besides the fields of every inspection. -/
structure Kept (st t : Exec) : Prop where
  pinned : t.tx.pinned = st.tx.pinned
  required : t.tx.bodyRequired = st.tx.bodyRequired
  waf : t.tx.wafEnabled = st.tx.wafEnabled
  later : st.tick ≤ t.tick

theorem Kept.process {t : Exec} (h : Kept st t) (w : World) (ctx : Ctx) {s : Stage}
    (hs : s = bodyChecks deps.detector ∨ s = wafEngine) : Kept st (s.process w ctx t).2 := by
  rcases hs with rfl | rfl
  · obtain ⟨-, heq | ⟨q, body, -, -, -, heq⟩⟩ := bodyChecks_spec deps.detector w ctx t
    · rw [heq]
      exact h
    · rw [heq]
      exact ⟨h.pinned, h.required, h.waf, h.later⟩
  · have hlater := h.later.trans (wafEngine_onward w ctx t)
    obtain ⟨-, score, denied, tick, heq⟩ := runEngines_spec EngineSet.inspectBodyPhase ctx t
    show Kept st (runEngines _ _ _).2
    refine ⟨?_, ?_, ?_, hlater⟩ <;> rw [heq]
    exacts [h.pinned, h.required, h.waf]

omit [Library] in
theorem Kept.policy {t : Exec} (h : Kept st t) : t.tx.policy = st.tx.policy :=
  (congrArg Transaction.policy h.pinned :)

omit [Library] in
/-- An inspection changes nothing of what the engines look at but the body. -/
theorem engineRequest_of_pinned {a b : Transaction} (h : b.pinned = a.pinned) :
    engineRequest b = { engineRequest a with body := b.body } :=
  (congrArg (fun tx => { engineRequest tx with body := b.body }) h :)

/-- No inspector is one of the guards. -/
theorem bodyPipeline_mem {body : List Stage}
    (hstages : q.stages = bodyTruncationGuard :: bodyContentDecode :: body) {s : Stage}
    (hs : s = bodyChecks deps.detector ∨ s = wafEngine) (hmem : s ∈ q.stages) : s ∈ body := by
  have hname : s.name ≠ bodyTruncationGuard.name ∧ s.name ≠ bodyContentDecode.name := by
    rcases hs with rfl | rfl
    · exact ⟨show Config.stageBodyChecks ≠ ascii "body_truncation_guard" by decide,
        show Config.stageBodyChecks ≠ ascii "body_content_decode" by decide⟩
    · exact ⟨show Config.stageWAFEngine ≠ ascii "body_truncation_guard" by decide,
        show Config.stageWAFEngine ≠ ascii "body_content_decode" by decide⟩
  rw [hstages] at hmem
  rcases List.mem_cons.mp hmem with hguard | hmem
  · exact absurd (congrArg Stage.name hguard) hname.1
  rcases List.mem_cons.mp hmem with hdecode | hmem
  · exact absurd (congrArg Stage.name hdecode) hname.2
  · exact hmem

/-- The guards have passed a body that passes: the inspectors behind them start on a body that is
whole and decoded. -/
theorem body_decoded {raw : Bytes} {body : List Stage} (hc : FailsClosed p)
    (hq : BodyPipeline deps dir q)
    (hstages : q.stages = bodyTruncationGuard :: bodyContentDecode :: body)
    (hp : st.tx.policy = some p) (hreq : st.tx.bodyRequired = true)
    (hraw : st.tx.bodyTruncated = false → st.tx.body = raw)
    (hpass : (q.run w ctx st).1.isBlock = false) :
    ∃ u, Decoded st.tx.headers raw u.tx.body ∧ st.tx.bodyTruncated = false ∧ Kept st u ∧
      q.run w ctx st = runStages w ctx body u := by
  have henf := CompiledPolicy.enforcing_of_blocking hc.blocking
  have hfirm := bodyPipeline_firm hq
  rw [hstages] at hfirm
  rw [run_eq, hstages] at hpass ⊢
  have hgate : gated .body st.tx = false := by simp [gated, hreq]
  obtain ⟨t, ⟨hgated, -⟩ | hcontinue, heq⟩ := runStages_cons hc (hfirm _ List.mem_cons_self)
    (show (q.start st).tx.policy = some p from hp) hpass
  · cases hgate.symm.trans hgated
  obtain ⟨rfl, hwhole⟩ := bodyTruncationGuard_continue (by exact hp) henf hcontinue
  rw [heq] at hpass ⊢
  obtain ⟨u, hpassed, heq⟩ := runStages_cons hc (hfirm bodyContentDecode (by simp)) (by exact hp) hpass
  have hlater : st.tick + 1 ≤ u.tick := hpassed.tick_le bodyContentDecode_onward
  rcases hpassed with ⟨hgated, -⟩ | hcontinue
  · cases hgate.symm.trans hgated
  obtain ⟨decoded, reserved, htx, hdecoded⟩ := bodyContentDecode_continue (by exact hp) henf hcontinue
  obtain rfl := hraw hwhole
  have hkept : Kept st u :=
    ⟨by rw [htx]; rfl, by rw [htx]; rfl, by rw [htx]; rfl, (Nat.le_succ _).trans hlater⟩
  refine ⟨u, ?_, hwhole, hkept, heq⟩
  rw [htx]
  exact hdecoded

/-- A stage of a body pipeline that is passed keeps what its inspectors keep. -/
theorem Kept.passed {t u : Exec} (h : Kept st t) {s : Stage}
    (hs : s = bodyChecks deps.detector ∨ s = wafEngine) (hpassed : Passed w ctx s t u) : Kept st u := by
  rcases hpassed with ⟨-, rfl⟩ | hcontinue
  · exact h
  · have hran : Kept st (t.next.emit (.ran s.name t.tx)) :=
      ⟨h.pinned, h.required, h.waf, Nat.le_succ_of_le h.later⟩
    have hstays := hran.process w ctx hs
    rwa [hcontinue] at hstays

/-- The engines that need the body have cleared a body that passes in the run over it, on a view of it
that is whole and decoded. -/
theorem body_cleared {raw : Bytes} (hc : FailsClosed p) (hq : BodyPipeline deps dir q)
    (hwaf : wafEngine ∈ q.stages) (hp : st.tx.policy = some p) (hreq : st.tx.bodyRequired = true)
    (hasked : st.tx.wafEnabled = true) (hraw : st.tx.bodyTruncated = false → st.tx.body = raw)
    (hpass : (q.run w ctx st).1.isBlock = false) :
    ∃ tx, Seen deps.detector p st.tx.headers raw tx ∧
      engineRequest tx = { engineRequest st.tx with body := tx.body } ∧
      ∀ e ∈ p.engineSet.engines, e.requiresBody = true →
        Clears st.tick (q.run w ctx st).2.tick (engineRequest tx) e := by
  obtain ⟨body, hstages, hbody⟩ := hq.stages
  obtain ⟨u, hdecoded, hwhole, hkept, hrun⟩ := body_decoded hc hq hstages hp hreq hraw hpass
  rw [hrun] at hpass ⊢
  have hstart : Seen deps.detector p st.tx.headers raw u.tx ∧ Kept st u :=
    ⟨⟨hkept.policy.trans hp, (congrArg Transaction.headers hkept.pinned :),
      (congrArg Transaction.bodyTruncated hkept.pinned :).trans hwhole, _, hdecoded, .refl⟩, hkept⟩
  have hkeeps : ∀ s ∈ body, ∀ t v, Seen deps.detector p st.tx.headers raw t.tx ∧ Kept st t →
      Passed w ctx s t v → Seen deps.detector p st.tx.headers raw v.tx ∧ Kept st v := by
    rintro s hs t v ⟨hseen, hkept⟩ hpassed
    refine ⟨?_, hkept.passed (hbody s hs) hpassed⟩
    rcases hpassed with ⟨-, rfl⟩ | hcontinue
    · exact hseen
    · have hnew := (Seen.process (hbody s hs) w ctx (t.next.emit (.ran s.name t.tx)) hseen).1
      rwa [hcontinue] at hnew
  have hmem : wafEngine ∈ body :=
    bodyPipeline_mem hstages (show wafEngine = bodyChecks deps.detector ∨ _ from .inr rfl) hwaf
  have hsub : ∀ s ∈ body, s ∈ q.stages := by
    intro s hs
    rw [hstages]
    exact List.mem_cons_of_mem _ (List.mem_cons_of_mem _ hs)
  obtain ⟨t, v, after, ⟨hseen, hkept⟩, ⟨hgated, -⟩ | hcontinue, hafter, hrest⟩ := runStages_mem hc
    (fun s hs => bodyPipeline_firm hq s (hsub s hs)) (fun _ h => h.1.policy)
    (fun s hs _ => hkeeps s hs) hstart hmem hpass
  · simp [wafEngine, gated, hkept.waf, hasked] at hgated
  · have hp' : (t.next.emit (.ran wafEngine.name t.tx)).tx.policy = some p := hseen.policy
    have hend : v.tick ≤ (runStages w ctx after v).2.tick :=
      stages_tick_le (fun s hs => hq.inspector s (hsub s (hafter hs)))
        (fun s hs => hq.onward s (hsub s (hafter hs))) w ctx v
    refine ⟨t.tx, hseen, engineRequest_of_pinned hkept.pinned, ?_⟩
    intro e he hneeds
    have hcleared : Clears (t.tick + 1) v.tick (engineRequest t.tx) e :=
      runEngines_continue hp' (CompiledPolicy.enforcing_of_blocking hc.blocking) hcontinue e he hneeds
    rw [hrest]
    exact hcleared.within (Nat.le_succ_of_le hkept.later) hend

end

/-! ## Phases -/

section
variable [Library] {pr : Processor} {w : World} {p : CompiledPolicy} {dir : Direction}
  {phase : Audit.Phase} {a st t : Exec} {d : Decision}

/-- A phase that is let pass is one whose pipeline ran. -/
theorem Inspected.built (h : Inspected pr w p phase a d t) (hc : FailsClosed p)
    (hp : a.tx.policy = some p) (hpass : d.isBlock = false) :
    ∃ pp, pr.policyPipelines p = .ok pp ∧
      (phasePipeline pp phase).run w (Processor.inspectCtx w a) a = (d, t) := by
  cases h with
  | unbuilt e build decision state =>
    rw [decision] at hpass
    simp [Processor.buildFailed, hp, hc.closed, Decision.isBlock] at hpass
  | ran pp build run => exact ⟨pp, build, run⟩

theorem Inspected.tick_le (h : Inspected pr w p phase a d t) : a.tick ≤ t.tick := by
  cases h with
  | unbuilt e build decision state =>
    rw [state]
  | ran pp build run =>
    have hspec := buildPolicyPipelines_spec build
    have hle : a.tick ≤ (Processor.runInspect w (phasePipeline pp phase) a).2.tick := by
      cases phase with
      | requestHeaders => exact (hspec .request).1.tick_le w _ a
      | requestBody => exact (hspec .request).2.tick_le w _ a
      | responseHeaders => exact (hspec .response).1.tick_le w _ a
      | responseBody => exact (hspec .response).2.tick_le w _ a
    rwa [run] at hle

theorem inspectBufferedBody_tick_le (pr : Processor) (w : World) (st : Exec) :
    st.tick ≤ (pr.inspectBufferedBody w st).2.tick := by
  obtain ⟨-, heq⟩ | ⟨p, d, t, -, hrun, heq⟩ := inspectBufferedBody_cases pr w st
  · rw [heq]
  · obtain ⟨-, hfinish, -⟩ := finish_spec pr w (Audit.bodyPhase st.tx.direction) d t
    rw [heq]
    exact hrun.tick_le.trans hfinish

/-- The body phase of a policy starts in `v`, after headers in `t`, with all of the body `raw` or
marked as truncated. -/
structure BodyStart (p : CompiledPolicy) (t : Exec) (raw : Bytes) (v : Exec) : Prop where
  policy : v.tx.policy = some p
  request : engineRequest v.tx = { engineRequest t.tx with body := v.tx.body }
  required : v.tx.bodyRequired = true
  waf : v.tx.wafEnabled = p.engineSet.requiresBody
  whole : v.tx.bodyTruncated = false → v.tx.body = raw
  later : t.tick ≤ v.tick

/-- The run of a pipeline from `t` ends by the tick `stop`, and not in a block. -/
structure RunPasses (w : World) (q : Pipeline) (t : Exec) (stop : Nat) : Prop where
  pass : (q.run w (Processor.inspectCtx w t) t).1.isBlock = false
  ends : (q.run w (Processor.inspectCtx w t) t).2.tick ≤ stop

/-- The pipelines of the policy let a direction pass by the tick `stop`: its headers in `t`, and the
body `raw` where the policy looks at it. -/
structure Passes (pr : Processor) (w : World) (p : CompiledPolicy) (dir : Direction) (t : Exec)
    (raw : Bytes) (stop : Nat) : Prop where
  headers : ∃ pp, pr.policyPipelines p = .ok pp ∧ RunPasses w (pp.header dir) t stop
  body : inspectsBody p dir = true → ∃ pp v, pr.policyPipelines p = .ok pp ∧
    BodyStart p t raw v ∧ RunPasses w (pp.body dir) v stop

theorem Inspected.passes (h : Inspected pr w p (Audit.headersPhase dir) a d t) (hc : FailsClosed p)
    (hp : a.tx.policy = some p) (hdir : a.tx.direction = dir) (hpass : d.isBlock = false) {stop : Nat}
    (hstop : t.tick ≤ stop) :
    (∃ pp, pr.policyPipelines p = .ok pp ∧ RunPasses w (pp.header dir) a stop) ∧
    t.tx.bodyRequired = inspectsBody p dir ∧ t.tx.wafEnabled = p.engineSet.requiresBody := by
  obtain ⟨pp, hpp, hrun⟩ := h.built hc hp hpass
  rw [phasePipeline_headers] at hrun
  have hpasses : RunPasses w (pp.header dir) a stop := by
    constructor
    · rw [hrun]
      exact hpass
    · rw [hrun]
      exact hstop
  have hask := headers_ask hc (buildPolicyPipelines_spec hpp dir).1 hp hpasses.pass
  rw [hrun, hdir] at hask
  exact ⟨⟨pp, hpp, hpasses⟩, hask⟩

/-! ## Exchanges -/

def finishesBlocked (dir : Direction) : Effect → Bool
  | .finished phase d => phase.direction = dir && d.isBlock
  | _ => false

/-- The direction was not finished with a block. -/
def Unblocked (dir : Direction) (st : Exec) : Prop :=
  ∀ e ∈ trail st, finishesBlocked dir e = false

omit [Library] in
theorem Unblocked.finish (h : Unblocked dir t) {v : Exec} (hphase : phase.direction = dir)
    (hrest : Buffering pr w dir (pr.finish w phase d v) t) : d.isBlock = false := by
  obtain ⟨-, -, hfinish⟩ := finish_spec pr w phase d v
  have hlast := h (.finished phase d) (by rw [hrest.trail, hfinish]; simp)
  simpa [finishesBlocked, hphase] using hlast

/-- A body phase that follows headers. -/
theorem Course.passes {bytes : Bytes} {v : Exec} (h : Course pr w dir true bytes d t v)
    (hc : FailsClosed p) (ho : Opened dir t) (hp : t.tx.policy = some p) (hpass : Unblocked dir v) :
    (∃ pp, pr.policyPipelines p = .ok pp ∧ RunPasses w (pp.header dir) t v.tick) ∧
    ∃ pp u, pr.policyPipelines p = .ok pp ∧ BodyStart p t bytes u ∧
      RunPasses w (pp.body dir) u v.tick := by
  cases h with
  | passed asks => cases asks
  | ended _ _ _ asks => cases asks
  | @body q dh u v policy enforcing run pass due chunks pending =>
    obtain rfl := Option.some.inj (policy.symm.trans hp)
    have hnoted := headerFindings_noted pr w (Audit.headersPhase dir) dh u
    have hlater : u.tick ≤ v.tick := hnoted.tick.trans chunks.tick_le
    have hend : v.tick ≤ (pr.inspectBufferedBody w v).2.tick := inspectBufferedBody_tick_le pr w v
    obtain ⟨hheaders, -, hwaf⟩ := run.passes hc hp ho.direction pass (hlater.trans hend)
    have hstart : v.tx.bodyRequired = true ∧ v.tx.wafEnabled = q.engineSet.requiresBody ∧
        engineRequest v.tx = { engineRequest t.tx with body := v.tx.body } := by
      refine chunks.induct (I := fun s => s.tx.bodyRequired = true ∧
        s.tx.wafEnabled = q.engineSet.requiresBody ∧
        engineRequest s.tx = { engineRequest t.tx with body := s.tx.body }) ?_ ?_
      · rintro s chunk ⟨hrequired, hwaf, hrequest⟩
        obtain ⟨body, _, _, _, _, heq, -⟩ := buffered_spec pr w dir chunk s
        rw [heq]
        exact ⟨hrequired, hwaf, (congrArg (fun r => { r with body }) hrequest :)⟩
      · rw [hnoted.tx]
        exact ⟨run.requires ho due, hwaf, engineRequest_of_pinned run.inspection.pinned⟩
    obtain ⟨hrequired, hwaf, hrequest⟩ := hstart
    refine ⟨hheaders, ?_⟩
    obtain ⟨db, z, hrun, heq⟩ := pending.inspected w
    rw [heq] at hpass ⊢
    have hdb : db.isBlock = false := hpass.finish (by cases dir <;> rfl) .refl
    obtain ⟨pp, hpp, hbody⟩ := hrun.built hc pending.due.policy hdb
    rw [phasePipeline_body] at hbody
    refine ⟨pp, latched v, hpp, ⟨pending.due.policy, hrequest, hrequired, hwaf, pending.whole,
      run.tick_le.trans hlater⟩, ?_, ?_⟩
    · rw [hbody]
      exact hdb
    · rw [hbody]
      exact (finish_spec pr w (Audit.bodyPhase dir) db z).2.1

/-- The header phase and what follows it. -/
theorem inspectHeaders_passes (hc : FailsClosed p) (ho : Opened dir t) (hp : t.tx.policy = some p)
    {reply : Bool → ProcessingResponse} (hreply : ∀ b, (reply b).isImmediate = false) {m : Message}
    {x : Exchange}
    (hhandle : pr.handle w st m =
      (pr.inspectHeaders w dir reply x.headers.endOfStream p t).map some id)
    (hone : OneChunk pr w dir st m x)
    (hpass : Unblocked dir (deliver pr w st (m :: x.following dir))) :
    Passes pr w p dir t x.parts.flatten (deliver pr w st (m :: x.following dir)).tick := by
  have henf := CompiledPolicy.enforcing_of_blocking hc.blocking
  have hone' : p.mutatesBody dir = true → x.parts.length ≤ 1 := by
    intro hm
    refine hone ?_
    rw [hhandle]
    show (pr.inspectHeaders w dir reply x.headers.endOfStream p t).2.tx.policy.any _ = true
    rw [inspectHeaders_policy, hp]
    exact hm
  have hphase : (Audit.headersPhase dir).direction = dir := by
    cases dir <;> rfl
  obtain ⟨dh, u, hrun, ⟨c, -, hend, -, heq⟩ | ⟨hdh, hasked, ⟨pp, hpp⟩, -⟩⟩ :=
    inspectHeaders_cases pr w dir reply x.headers.endOfStream p t
  · -- the direction ends with its headers, so that the body is not asked for
    rw [heq] at hhandle
    have hsettled : (pr.handle w st m).1.any ProcessingResponse.isImmediate = true ∨
        Idle (pr.handle w st m).2 := by
      rw [hhandle]
      rcases hend with hblock | hnone | rfl
      · refine .inl ?_
        simp [Processor.replyTo, hblock, immediateResponse, ProcessingResponse.isImmediate]
      · exact .inr (Idle.finish (fun _ _ _ => hnone) pr w _ dh)
      · exact .inr (ho.idle.finish pr w _ dh)
    have hrest := deliver_settled dir hsettled x
    rw [hhandle] at hrest
    have hdh := hpass.finish hphase hrest
    have hstop : u.tick ≤ (deliver pr w st (m :: x.following dir)).tick :=
      (finish_spec pr w (Audit.headersPhase dir) dh u).2.1.trans hrest.tick_le
    obtain ⟨hheaders, hrequired, -⟩ := hrun.passes hc hp ho.direction hdh hstop
    refine ⟨hheaders, fun hbody => ?_⟩
    rw [hbody] at hrequired
    rcases hend with hblock | hnone | rfl
    · cases hblock.symm.trans hdh
    · simp [hrequired] at hnone
    · cases hrequired.symm.trans ho.required
  · have hasks : asksBody pr w dir p t = true := by
      cases hrun with
      | unbuilt e build => cases hpp.symm.trans build
      | ran pp' build run =>
        rw [phasePipeline_headers] at run
        simp [asksBody, build, run, hdh, hasked]
    have hcourse := inspectHeaders_course ho hp henf hreply (d := dh) hhandle hone'
    rw [hasks] at hcourse
    obtain ⟨hheaders, hbody⟩ := hcourse.passes hc ho hp hpass
    exact ⟨hheaders, fun _ => hbody⟩

/-- A request that is not finished with a block was let pass by the pipelines of its policy. -/
theorem unblocked_request_passes (hc : FailsClosed p) {snap : Snapshot} {attributes : List Bytes}
    {x : Exchange}
    (hone : OneChunk pr w .request (pr.newStream snap) (.requestHeaders attributes x.headers) x)
    (hrun : preludeOf pr w x.headers (received attributes (pr.newStream snap)) = (d, t))
    (hp : t.tx.policy = some p)
    (hpass : Unblocked .request (deliver pr w (pr.newStream snap)
      (.requestHeaders attributes x.headers :: x.following .request))) :
    Passes pr w p .request t x.parts.flatten (deliver pr w (pr.newStream snap)
      (.requestHeaders attributes x.headers :: x.following .request)).tick := by
  have ho := newStream_opened pr w snap attributes x.headers
  have hrel := (requestPrelude_spec pr.deps w w.ctx
    (Processor.loadRequest w x.headers (received attributes (pr.newStream snap)))).rel
  rw [← preludeOf, hrun] at hrel
  obtain ⟨d', t', hrun', hcases⟩ := onRequestHeaders_cases pr w x.headers
    (show (received attributes (pr.newStream snap)).tx.requestSettled = false from rfl)
  obtain ⟨rfl, rfl⟩ := Prod.mk.inj (hrun.symm.trans hrun')
  obtain ⟨hend, heq⟩ | ⟨q, -, hq, -, heq⟩ := hcases
  · have hblock : d.isBlock = true := by
      rcases hend with hblock | hpassive
      · exact hblock
      · simp [hp, CompiledPolicy.enforcing_of_blocking hc.blocking] at hpassive
    have hhandle : pr.handle w (pr.newStream snap) (.requestHeaders attributes x.headers) =
        (some (immediateResponse d), pr.finish w .requestHeaders d t) := by
      show (pr.onRequestHeaders w x.headers (received attributes (pr.newStream snap))).map some id = _
      rw [heq, Processor.replyTo, if_pos hblock]
      rfl
    have hrest := deliver_settled .request (.inl (by rw [hhandle]; rfl)) x
    rw [hhandle] at hrest
    cases hblock.symm.trans (hpass.finish rfl hrest)
  · obtain rfl := Option.some.inj (hq.symm.trans hp)
    have hhandle : pr.handle w (pr.newStream snap) (.requestHeaders attributes x.headers) =
        (pr.inspectHeaders w .request (Processor.requestReply t) x.headers.endOfStream q t).map
          some id := by
      show (pr.onRequestHeaders w x.headers (received attributes (pr.newStream snap))).map some id = _
      rw [heq]
    exact inspectHeaders_passes hc (ho.resolving hrel) hp (fun _ => rfl) hhandle hone hpass

/-- The same of a response, in any state of the stream. -/
theorem unblocked_response_passes (hc : FailsClosed p) {x : Exchange}
    (hone : OneChunk pr w .response st (.responseHeaders x.headers) x)
    (hrun : (responsePrelude pr.deps).run w w.ctx (loadResponse x.headers st) = (d, t))
    (hp : t.tx.policy = some p)
    (hpass : Unblocked .response (deliver pr w st
      (.responseHeaders x.headers :: x.following .response))) :
    Passes pr w p .response t x.parts.flatten (deliver pr w st
      (.responseHeaders x.headers :: x.following .response)).tick := by
  have hrel := (responsePrelude_spec pr.deps w w.ctx (loadResponse x.headers st)).rel
  rw [hrun] at hrel
  obtain ⟨d', t', hrun', hcases⟩ := onResponseHeaders_cases pr w x.headers st
  obtain ⟨rfl, rfl⟩ := Prod.mk.inj (hrun.symm.trans hrun')
  obtain ⟨hpassive, -⟩ | ⟨q, hq, -, heq⟩ := hcases
  · simp [hp, CompiledPolicy.enforcing_of_blocking hc.blocking] at hpassive
  · obtain rfl := Option.some.inj (hq.symm.trans hp)
    have hhandle : pr.handle w st (.responseHeaders x.headers) =
        (pr.inspectHeaders w .response Processor.responseReply x.headers.endOfStream q t).map
          some id := by
      show (pr.onResponseHeaders w x.headers st).map some id = _
      rw [heq]
    exact inspectHeaders_passes hc ((loadResponse_opened x.headers st).resolving hrel) hp
      (fun _ => rfl) hhandle hone hpass

/-- What the stages of the policy are given is the request of the message. -/
theorem preludeOf_request (pr : Processor) (w : World) (h : HttpHeaders) (attributes : List Bytes)
    (st : Exec) :
    (preludeOf pr w h (received attributes st)).2.tx.direction = .request ∧
      (preludeOf pr w h (received attributes st)).2.tx.headers = loadHeaders h.headers := by
  have hrel := (requestPrelude_spec pr.deps w w.ctx
    (Processor.loadRequest w h (received attributes st))).rel
  rw [← preludeOf] at hrel
  obtain ⟨requestID, hload⟩ := loadRequest_spec w h (received attributes st)
  exact ⟨hrel.direction.trans (congrArg Transaction.direction hload),
    hrel.headers.trans (congrArg Transaction.headers hload)⟩

/-- A headers message that is not answered with a block. -/
theorem forwarded_headers_pass (hc : FailsClosed p) {attributes : List Bytes} {h : HttpHeaders}
    (hset : st.tx.requestSettled = false)
    (hrun : preludeOf pr w h (received attributes st) = (d, t)) (hp : t.tx.policy = some p)
    (hpass : (pr.handle w st (.requestHeaders attributes h)).1.any
      ProcessingResponse.isImmediate = false) :
    ∃ pp, pr.policyPipelines p = .ok pp ∧ RunPasses w (pp.header .request) t
      (pr.handle w st (.requestHeaders attributes h)).2.tick := by
  have hreply : (pr.onRequestHeaders w h (received attributes st)).1.isImmediate = false := hpass
  have hdir := (preludeOf_request pr w h attributes st).1
  rw [hrun] at hdir
  show ∃ pp, _ ∧ RunPasses w _ t (pr.onRequestHeaders w h (received attributes st)).2.tick
  obtain ⟨d', t', hrun', hcases⟩ := onRequestHeaders_cases pr w h
    (show (received attributes st).tx.requestSettled = false from hset)
  obtain ⟨rfl, rfl⟩ := Prod.mk.inj (hrun.symm.trans hrun')
  obtain ⟨hend, heq⟩ | ⟨q, -, hq, -, heq⟩ := hcases
  · rw [heq] at hreply
    rcases hend with hblock | hpassive
    · cases hblock.symm.trans (not_block_of_reply hreply)
    · simp [hp, CompiledPolicy.enforcing_of_blocking hc.blocking] at hpassive
  · obtain rfl := Option.some.inj (hq.symm.trans hp)
    obtain ⟨dh, u, hins, ⟨c, -, -, -, hhandle⟩ | ⟨hdh, -, -, v, hv, hhandle⟩⟩ :=
      inspectHeaders_cases pr w .request (Processor.requestReply t) h.endOfStream q t
    · rw [heq, hhandle] at hreply ⊢
      exact (hins.passes hc hp hdir (not_block_of_reply hreply)
        (finish_spec pr w (Audit.headersPhase .request) dh u).2.1).1
    · have hnoted := headerFindings_noted pr w (Audit.headersPhase .request) dh u
      rw [← hv] at hnoted
      rw [heq, hhandle]
      refine (hins.passes hc hp hdir hdh (hnoted.tick.trans ?_)).1
      split
      · exact inspectBufferedBody_tick_le pr w v
      · exact le_refl _

/-! ## What the engines say -/

/-- From the state `st` to the tick `stop` the engines of a policy have looked at the request or the
response of `st`, and at the same with a view of its body `raw`, and have nothing against them. -/
structure Cleared (detector : Option Detector) (p : CompiledPolicy) (st : Exec) (raw : Bytes)
    (stop : Nat) : Prop where
  headers : ∀ e ∈ p.engineSet.engines, e.requiresBody = false →
    Clears st.tick stop (engineRequest st.tx) e
  body : p.engineSet.requiresBody = true → ∃ tx, Seen detector p st.tx.headers raw tx ∧
    engineRequest tx = { engineRequest st.tx with body := tx.body } ∧
    ∀ e ∈ p.engineSet.engines, e.requiresBody = true → Clears st.tick stop (engineRequest tx) e

theorem RunPasses.cleared {pp : PolicyPipelines} {stop : Nat}
    (h : RunPasses w (pp.header dir) t stop) (hc : FailsClosed p)
    (hpp : pr.policyPipelines p = .ok pp) (hwaf : Config.stageWAFEngine ∈ effectiveOrder p dir)
    (hp : t.tx.policy = some p) :
    ∀ e ∈ p.engineSet.engines, e.requiresBody = false →
      Clears t.tick stop (engineRequest t.tx) e := by
  have hstages := (pipelines_list hpp (i := .engines) hwaf).1 wafHeaderEngine rfl
  intro e he hbody
  exact (headers_cleared hc (buildPolicyPipelines_spec hpp dir).1 hstages hp h.pass e he hbody).within
    (le_refl _) h.ends

theorem forwarded_headers_cleared (hc : FailsClosed p)
    (hwaf : Config.stageWAFEngine ∈ effectiveOrder p .request) {attributes : List Bytes}
    {h : HttpHeaders} (hset : st.tx.requestSettled = false)
    (hrun : preludeOf pr w h (received attributes st) = (d, t)) (hp : t.tx.policy = some p)
    (hpass : (pr.handle w st (.requestHeaders attributes h)).1.any
      ProcessingResponse.isImmediate = false) :
    ∀ e ∈ p.engineSet.engines, e.requiresBody = false →
      Clears t.tick (pr.handle w st (.requestHeaders attributes h)).2.tick (engineRequest t.tx) e := by
  obtain ⟨pp, hpp, hheaders⟩ := forwarded_headers_pass hc hset hrun hp hpass
  exact hheaders.cleared hc hpp hwaf hp

theorem Passes.cleared {raw : Bytes} {stop : Nat} (h : Passes pr w p dir t raw stop)
    (hc : FailsClosed p) (hp : t.tx.policy = some p)
    (hwaf : Config.stageWAFEngine ∈ effectiveOrder p dir) :
    Cleared pr.deps.detector p t raw stop := by
  constructor
  · obtain ⟨pp, hpp, hheaders⟩ := h.headers
    exact hheaders.cleared hc hpp hwaf hp
  · intro hbody
    have hinspects : inspectsBody p dir = true := by
      cases dir <;> simp [inspectsBody, hbody]
    obtain ⟨pp, v, hpp, hstart, hrun⟩ := h.body hinspects
    have hstages := (pipelines_list hpp (i := .engines) hwaf).2 wafEngine rfl
    obtain ⟨tx, hseen, hrequest, hcleared⟩ := body_cleared hc (buildPolicyPipelines_spec hpp dir).2
      hstages hstart.policy hstart.required (hstart.waf.trans hbody) hstart.whole hrun.pass
    rw [show v.tx.headers = t.tx.headers from congrArg Engine.Request.headers hstart.request] at hseen
    rw [hstart.request] at hrequest
    exact ⟨tx, hseen, hrequest, fun e he hneeds => (hcleared e he hneeds).within hstart.later hrun.ends⟩

end

end ElchiShield.Extproc
