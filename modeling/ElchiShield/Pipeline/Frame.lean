import ElchiShield.Pipeline.Pipeline

/-! # What a run leaves alone

A stage that keeps a relation between the states before and after it, and that continues,
denies, skips the rest or fails, makes for a run that keeps the relation too; a run ends in a
block only under a policy that blocks or fails closed. The stages of a policy's pipelines are
`Inspector`s: they write only the fields that belong to the inspection. -/
namespace ElchiShield.Pipeline
open ElchiShield.Go ElchiShield.Lib ElchiShield.Engine ElchiShield.Policy

/-! ## Frames -/

/-- A transaction with the fields of the inspection blanked. -/
def Transaction.pinned (tx : Transaction) : Transaction :=
  { tx with
    bodyRequired := false
    wafEnabled := false
    bodyMutated := false
    anomalyScore := 0
    anomalyDenied := false
    bodyReserved := 0
    body := []
    result := { action := .continue_ }
    findings := [] }

/-- The effects of the processor, as opposed to those of a stage or of the budget. -/
def Effect.outer : Effect → Bool
  | .started .. | .finished .. | .audited .. => true
  | .acquired _ | .released _ | .ran .. => false

def Exec.outer (st : Exec) : List Effect := st.log.filter Effect.outer

def Effect.ofBudget : Effect → Bool
  | .acquired _ | .released _ => true
  | _ => false

/-- The effects after `a` in `b` are those of the budget. -/
def OnlyBudget (a b : Exec) : Prop := ∃ es, b.log = a.log ++ es ∧ ∀ e ∈ es, e.ofBudget = true

theorem OnlyBudget.of_log {a b : Exec} (h : b.log = a.log) : OnlyBudget a b :=
  ⟨[], by simp [h], by simp⟩

theorem OnlyBudget.filter {a b : Exec} (h : OnlyBudget a b) {f : Effect → Bool}
    (hf : ∀ e, e.ofBudget = true → f e = false) : b.log.filter f = a.log.filter f := by
  obtain ⟨es, hlog, hes⟩ := h
  have hnone : es.filter f = [] := by
    rw [List.filter_eq_nil_iff]
    intro e he
    simp [hf e (hes e he)]
  rw [hlog, List.filter_append, hnone, List.append_nil]

/-- `b` comes after `a`, with nothing but the inspection in between. Only a blocking policy has
its body rewritten. -/
structure Frame (a b : Exec) : Prop where
  pinned : b.tx.pinned = a.tx.pinned
  outer : b.outer = a.outer
  mutated : a.tx.policy.any CompiledPolicy.blocking = false → b.tx.bodyMutated = a.tx.bodyMutated

namespace Frame
variable {a b c : Exec}

theorem policy (h : Frame a b) : b.tx.policy = a.tx.policy :=
  (congrArg Transaction.policy h.pinned :)

theorem direction (h : Frame a b) : b.tx.direction = a.tx.direction :=
  (congrArg Transaction.direction h.pinned :)

theorem headers (h : Frame a b) : b.tx.headers = a.tx.headers :=
  (congrArg Transaction.headers h.pinned :)

theorem bodyTruncated (h : Frame a b) : b.tx.bodyTruncated = a.tx.bodyTruncated :=
  (congrArg Transaction.bodyTruncated h.pinned :)

theorem bodyInspected (h : Frame a b) : b.tx.bodyInspected = a.tx.bodyInspected :=
  (congrArg Transaction.bodyInspected h.pinned :)

theorem requestSettled (h : Frame a b) : b.tx.requestSettled = a.tx.requestSettled :=
  (congrArg Transaction.requestSettled h.pinned :)

theorem refl (a : Exec) : Frame a a := ⟨rfl, rfl, fun _ => rfl⟩

theorem trans (hab : Frame a b) (hbc : Frame b c) : Frame a c := by
  refine ⟨hbc.pinned.trans hab.pinned, hbc.outer.trans hab.outer, ?_⟩
  intro hp
  rw [hbc.mutated (by rwa [hab.policy]), hab.mutated hp]

end Frame

/-- A relation between states that what the executor itself does is part of. -/
structure Executes (R : Exec → Exec → Prop) : Prop where
  refl : ∀ a, R a a
  trans : ∀ a b c, R a b → R b c → R a c
  next : ∀ st, R st st.next
  ran : ∀ st name tx, R st (st.emit (.ran name tx))
  record : ∀ st res mode, R st (st.setTx (record res mode st.tx))

theorem frame_executes : Executes Frame where
  refl := .refl
  trans _ _ _ := .trans
  next _ := ⟨rfl, rfl, fun _ => rfl⟩
  ran _ _ _ := ⟨rfl, by simp [Exec.outer, Effect.outer], fun _ => rfl⟩
  record _ _ _ := ⟨rfl, rfl, fun _ => rfl⟩

/-! ## Stages within a relation -/

/-- The results of the stages of the catalog. -/
inductive Plain : StageResult → Prop where
  | continue_ : Plain .continue_
  | deny (d : Decision) (h : d.action = .block) : Plain (.deny d)
  | skipRemaining : Plain .skipRemaining
  | fail : Plain .fail

/-- A stage that stays within a relation. The running decision and the findings are left to
the executor. -/
structure Within (R : Exec → Exec → Prop) (s : Stage) : Prop where
  rel : ∀ w ctx st, R st (s.process w ctx st).2
  plain : ∀ w ctx st res, (s.process w ctx st).1 = some res → Plain res
  result : ∀ w ctx st, (s.process w ctx st).2.tx.result = st.tx.result
  findings : ∀ w ctx st, (s.process w ctx st).2.tx.findings = st.tx.findings

abbrev Inspector := Within Frame

/-- A policy under which a run may end in a block. -/
def Strict (policy : Option CompiledPolicy) : Prop :=
  ∃ p, policy = some p ∧ (p.blocking = true ∨ p.failOpen = false)

theorem recordResult_action (final : Decision) (d : Option Decision) (mode : Action) :
    (recordResult final d mode).action = if final.action = .allow then mode else final.action := by
  unfold recordResult
  cases d <;> dsimp only <;> repeat' split
  all_goals rfl

theorem recordResult_isBlock {final : Decision} {d : Option Decision} {mode : Action}
    (hm : mode ≠ .block) (hf : final.isBlock = false) :
    (recordResult final d mode).isBlock = false := by
  unfold Decision.isBlock at hf ⊢
  rw [recordResult_action]
  split
  · simpa using hm
  · exact hf

theorem failPosture_isBlock {tx : Transaction} {timedOut : Bool} (hr : tx.result.isBlock = false)
    (h : (failPosture tx timedOut).isBlock = true) : Strict tx.policy := by
  unfold failPosture at h
  split at h
  · rw [hr] at h; cases h
  next hopen =>
    cases hp : tx.policy with
    | none => simp [hp] at hopen
    | some p => exact ⟨p, rfl, .inr (by simpa [hp] using hopen)⟩

section
variable {R : Exec → Exec → Prop} {a st : Exec} {w : World} {ctx : Ctx} {s : Stage}

/-- A run between two stages: the running decision is no block. -/
structure Running (R : Exec → Exec → Prop) (a b : Exec) : Prop where
  rel : R a b
  result : b.tx.result.isBlock = false

/-- A run that has ended with the decision `d`. -/
structure Ended (R : Exec → Exec → Prop) (a : Exec) (d : Decision) (b : Exec) : Prop where
  rel : R a b
  strict : d.isBlock = true → Strict b.tx.policy

theorem Running.ended (h : Running R a st) : Ended R a st.tx.result st :=
  ⟨h.rel, fun hb => by rw [h.result] at hb; cases hb⟩

/-- Inversion of one round of the loop. -/
theorem stageStep_cases (hs : Within R s) (w : World) (ctx : Ctx) (st : Exec) :
    (gated s.phase st.tx = true ∧ stageStep w ctx s st = (none, st)) ∨
      gated s.phase st.tx = false ∧
        (stageStep w ctx s st = (some (failPosture st.tx true), st.next) ∨
          ∃ r t, s.process w ctx (st.next.emit (.ran s.name st.tx)) = (r, t) ∧
            (r = some .continue_ ∧ stageStep w ctx s st = (none, t) ∨
              stageStep w ctx s st = (some t.tx.result, t) ∨
              stageStep w ctx s st = (some (failPosture t.tx false), t) ∨
              ∃ d, d.action = .block ∧ r = some (.deny d) ∧
                stageStep w ctx s st = applyDeny (.deny d) t)) := by
  cases hg : gated s.phase st.tx with
  | true => exact .inl ⟨rfl, by simp [stageStep, hg]⟩
  | false =>
    refine .inr ⟨rfl, ?_⟩
    cases hc : ctx st.tick with
    | true => exact .inl (stageStep_late st hg hc)
    | false =>
      have hplain := hs.plain w ctx (st.next.emit (.ran s.name st.tx))
      obtain ⟨⟨r, t⟩, hr⟩ : ∃ r, s.process w ctx (st.next.emit (.ran s.name st.tx)) = r := ⟨_, rfl⟩
      rw [hr] at hplain
      refine .inr ⟨r, t, hr, ?_⟩
      rw [stageStep_live st hg hc, runStage, Exec.next_tx, hr]
      cases r with
      | none => exact .inr (.inr (.inl rfl))
      | some res =>
        cases hplain res rfl with
        | continue_ => exact .inl ⟨rfl, rfl⟩
        | skipRemaining => exact .inr (.inl rfl)
        | fail => exact .inr (.inr (.inl rfl))
        | deny d hd => exact .inr (.inr (.inr ⟨d, hd, rfl, rfl⟩))

theorem stageStep_spec (hR : Executes R) (hs : Within R s) (h : Running R a st) :
    After (Running R a) (Ended R a) (stageStep w ctx s st) := by
  have hnext : Running R a st.next := ⟨hR.trans _ _ _ h.rel (hR.next st), h.result⟩
  obtain ⟨-, heq⟩ | ⟨-, heq | ⟨r, t, hr, hcases⟩⟩ := stageStep_cases hs w ctx st
  · rw [heq]
    exact h
  · rw [heq]
    exact ⟨hnext.rel, failPosture_isBlock h.result⟩
  · have hrel := hs.rel w ctx (st.next.emit (.ran s.name st.tx))
    have hresult := hs.result w ctx (st.next.emit (.ran s.name st.tx))
    rw [hr] at hrel hresult
    have hrun : Running R a t :=
      ⟨hR.trans _ _ _ hnext.rel (hR.trans _ _ _ (hR.ran _ _ _) hrel), by rw [hresult]; exact h.result⟩
    rcases hcases with ⟨-, heq⟩ | heq | heq | ⟨d, -, -, heq⟩ <;> rw [heq]
    · exact hrun
    · exact hrun.ended
    · exact ⟨hrun.rel, failPosture_isBlock hrun.result⟩
    · unfold applyDeny
      split
      next hblock =>
        obtain ⟨p, hp, hp'⟩ := (Option.any_eq_true _ _).mp hblock
        exact ⟨hrun.rel, fun _ => ⟨p, hp, .inl hp'⟩⟩
      next =>
        exact ⟨hR.trans _ _ _ hrun.rel (hR.record _ _ _),
          recordResult_isBlock (observed_ne_block _) hrun.result⟩

/-- What a pipeline of stages within `R` does, from the state `p.start st` on. -/
theorem run_spec (hR : Executes R) {p : Pipeline} (hp : ∀ s ∈ p.stages, Within R s) (w : World)
    (ctx : Ctx) (st : Exec) : Ended R (p.start st) (p.run w ctx st).1 (p.run w ctx st).2 :=
  chain_rule (fun s hs _ ht => stageStep_spec hR (hp s hs) ht) (fun _ ht => ht.ended)
    ⟨hR.refl _, rfl⟩

/-- Under a blocking policy a stage that is due passes on only by continuing. -/
theorem stageStep_blocking (hs : Inspector s) (hg : gated s.phase st.tx = false)
    (hb : st.tx.policy.any CompiledPolicy.blocking = true) :
    After (fun t => s.process w ctx (st.next.emit (.ran s.name st.tx)) = (some .continue_, t))
      (fun _ t => t = st.next ∨ t = (s.process w ctx (st.next.emit (.ran s.name st.tx))).2)
      (stageStep w ctx s st) := by
  obtain ⟨hgated, -⟩ | ⟨-, heq | ⟨r, t, hr, hcases⟩⟩ := stageStep_cases hs w ctx st
  · rw [hg] at hgated
    cases hgated
  · rw [heq]
    exact .inl rfl
  · have hpolicy := (hs.rel w ctx (st.next.emit (.ran s.name st.tx))).policy
    rw [hr] at hpolicy ⊢
    rcases hcases with ⟨rfl, heq⟩ | heq | heq | ⟨d, -, -, heq⟩ <;> rw [heq]
    · exact rfl
    · exact .inr rfl
    · exact .inr rfl
    · have hblock : t.tx.policy.any CompiledPolicy.blocking = true := hpolicy ▸ hb
      unfold applyDeny
      rw [if_pos hblock]
      exact .inr rfl

/-! ## Invariants of a run -/

/-- What holds after one round of the loop, for a property each of its parts keeps. -/
theorem stageStep_invariant {I : Exec → Prop} (hs : Within R s) (hnext : ∀ st, I st → I st.next)
    (hrecord : ∀ st res mode, I st → I (st.setTx (record res mode st.tx)))
    (hstage : ∀ st, I st → gated s.phase st.tx = false →
      I (s.process w ctx (st.emit (.ran s.name st.tx))).2)
    (h : I st) : I (stageStep w ctx s st).2 := by
  obtain ⟨-, heq⟩ | ⟨hg, heq | ⟨r, t, hr, hcases⟩⟩ := stageStep_cases hs w ctx st
  · rw [heq]
    exact h
  · rw [heq]
    exact hnext st h
  · have ht := hstage st.next (hnext st h) hg
    rw [Exec.next_tx, hr] at ht
    rcases hcases with ⟨-, heq⟩ | heq | heq | ⟨d, -, -, heq⟩ <;> rw [heq]
    · exact ht
    · exact ht
    · exact ht
    · unfold applyDeny
      split
      · exact ht
      · exact hrecord t _ _ ht

theorem stages_invariant {I : Exec → Prop} {stages : List Stage}
    (hp : ∀ s ∈ stages, Within R s) (hnext : ∀ st, I st → I st.next)
    (hrecord : ∀ st res mode, I st → I (st.setTx (record res mode st.tx)))
    (hstage : ∀ s ∈ stages, ∀ st, I st → gated s.phase st.tx = false →
      I (s.process w ctx (st.emit (.ran s.name st.tx))).2)
    (h : I st) : I (chain (stageStep w ctx) (fun st => st.tx.result) stages st).2 := by
  refine chain_rule (I := I) (Q := fun _ => I) ?_ (fun _ => id) h
  intro s hs t ht
  exact After.state (stageStep_invariant (hp s hs) hnext hrecord (hstage s hs) ht)

/-- What the stages of a pipeline keep, its run keeps. -/
theorem run_keeps {α : Type} {f : Transaction → α} {p : Pipeline}
    (hp : ∀ s ∈ p.stages, Within R s)
    (hf : ∀ tx result findings, f { tx with result, findings } = f tx)
    (hs : ∀ s ∈ p.stages, ∀ w ctx st, f (s.process w ctx st).2.tx = f st.tx)
    (w : World) (ctx : Ctx) (st : Exec) : f (p.run w ctx st).2.tx = f st.tx := by
  refine stages_invariant (I := fun t => f t.tx = f st.tx) hp (fun _ => id) ?_ ?_ (hf _ _ _)
  · intro t res mode ht
    exact (hf _ _ _).trans ht
  · intro s hmem t ht _
    exact (hs s hmem w ctx _).trans ht

/-- Effects that neither a stage emits nor the executor on its behalf. -/
theorem run_keeps_log {f : Effect → Bool} {p : Pipeline} (hp : ∀ s ∈ p.stages, Within R s)
    (hstart : ∀ tx, f (.started p.name tx) = false)
    (hran : ∀ s ∈ p.stages, ∀ tx, f (.ran s.name tx) = false)
    (hs : ∀ s ∈ p.stages, ∀ w ctx st,
      (s.process w ctx st).2.log.filter f = st.log.filter f)
    (w : World) (ctx : Ctx) (st : Exec) : (p.run w ctx st).2.log.filter f = st.log.filter f := by
  refine stages_invariant (I := fun t => t.log.filter f = st.log.filter f) hp (fun _ => id)
    (fun _ _ _ => id) ?_ ?_
  · intro s hmem t ht _
    rw [hs s hmem, Exec.emit_log, List.filter_append, ht]
    simp [hran s hmem]
  · show (st.log ++ [Effect.started p.name st.tx]).filter f = _
    simp [hstart]

end

end ElchiShield.Pipeline
