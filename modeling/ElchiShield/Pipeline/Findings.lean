import ElchiShield.Pipeline.Frame

/-! # The findings of a run

A deny that is not enforced is recorded: the transaction gets a finding and the running decision
takes its action. So the decision a run ends with says whether the run has findings, unless it is
a block. -/
namespace ElchiShield
open ElchiShield.Go ElchiShield.Lib ElchiShield.Engine ElchiShield.Policy

/-- The action of a deny that was recorded and not enforced. -/
def Decision.isFinding (d : Decision) : Bool := d.action = .detect ∨ d.action = .shadow

theorem Decision.isFinding_iff {d : Decision} :
    d.isFinding = true ↔ d.action = .detect ∨ d.action = .shadow := by
  simp [Decision.isFinding]

theorem Decision.isFinding_of_isBlock {d : Decision} (h : d.isBlock = true) : d.isFinding = false := by
  have haction : d.action = .block := by simpa [Decision.isBlock] using h
  simp [Decision.isFinding, haction]

namespace Pipeline

/-- The running decision of a transaction tells its findings. -/
structure Tallied (tx : Transaction) : Prop where
  findings : ∀ f ∈ tx.findings, f.isFinding = true
  result : (tx.findings = [] ∧ tx.result.action = .allow) ∨
    (tx.findings ≠ [] ∧ tx.result.isFinding = true)

/-- The decision `d` tells the findings of a transaction, or blocks. -/
structure Reported (d : Decision) (tx : Transaction) : Prop where
  findings : ∀ f ∈ tx.findings, f.isFinding = true
  none : tx.findings = [] → d.isFinding = false
  some : tx.findings ≠ [] → d.isBlock = true ∨ d.isFinding = true

theorem Tallied.reported {tx : Transaction} {d : Decision} (h : Tallied tx)
    (hd : d.isBlock = true ∨ d = tx.result) : Reported d tx := by
  rcases hd with hd | rfl
  · exact ⟨h.findings, fun _ => Decision.isFinding_of_isBlock hd, fun _ => .inl hd⟩
  · refine ⟨h.findings, fun hnone => ?_, fun hsome => .inr ?_⟩
    · rcases h.result with ⟨-, hallow⟩ | ⟨hne, -⟩
      · simp [Decision.isFinding, hallow]
      · exact absurd hnone hne
    · rcases h.result with ⟨hnone, -⟩ | ⟨-, hfinding⟩
      · exact absurd hnone hsome
      · exact hfinding

theorem failPosture_cases (tx : Transaction) (timedOut : Bool) :
    (failPosture tx timedOut).isBlock = true ∨ failPosture tx timedOut = tx.result := by
  unfold failPosture
  split
  · exact .inr rfl
  · exact .inl rfl

theorem observed_cases (tx : Transaction) : observed tx = .detect ∨ observed tx = .shadow := by
  unfold observed
  split
  · exact .inr rfl
  · exact .inl rfl

theorem Tallied.record {tx : Transaction} (h : Tallied tx) (d : Decision) :
    Tallied (record (.deny d) (observed tx) tx) := by
  refine ⟨?_, .inr ⟨by simp [Pipeline.record, StageResult.deny], ?_⟩⟩
  · intro f hf
    rcases List.mem_append.mp hf with hf | hf
    · exact h.findings f hf
    · obtain rfl : f = { d with action := observed tx } := by
        simpa [StageResult.deny] using hf
      exact Decision.isFinding_iff.mpr (observed_cases tx)
  · rw [Decision.isFinding_iff]
    simp only [Pipeline.record, recordResult_action]
    split
    · exact observed_cases tx
    next hallow =>
      rcases h.result with ⟨-, hact⟩ | ⟨-, hfinding⟩
      · exact absurd hact hallow
      · exact Decision.isFinding_iff.mp hfinding

section
variable {R : Exec → Exec → Prop} {s : Stage} {w : World} {ctx : Ctx} {st : Exec} {p : Pipeline}

theorem stageStep_tallied (hs : Within R s) (h : Tallied st.tx) :
    After (fun t => Tallied t.tx) (fun d t => Reported d t.tx) (stageStep w ctx s st) := by
  obtain ⟨-, heq⟩ | ⟨-, heq | ⟨r, t, hr, hcases⟩⟩ := stageStep_cases hs w ctx st
  · rw [heq]
    exact h
  · rw [heq]
    exact h.reported (failPosture_cases st.tx true)
  · have hresult := hs.result w ctx (st.next.emit (.ran s.name st.tx))
    have hfindings := hs.findings w ctx (st.next.emit (.ran s.name st.tx))
    rw [hr] at hresult hfindings
    have ht : Tallied t.tx := by
      refine ⟨?_, ?_⟩
      · rw [hfindings]
        exact h.findings
      · rw [hfindings, hresult]
        exact h.result
    rcases hcases with ⟨-, heq⟩ | heq | heq | ⟨d, hd, -, heq⟩ <;> rw [heq]
    · exact ht
    · exact ht.reported (.inr rfl)
    · exact ht.reported (failPosture_cases t.tx false)
    · unfold applyDeny
      split
      · refine ht.reported (.inl ?_)
        show (if d.statusCode = 0 then { d with statusCode := defaultBlockStatus } else d).isBlock = true
        split <;> simp [Decision.isBlock, hd]
      · exact ht.record d

/-- The decision of a run tells its findings. -/
theorem run_reported (hp : ∀ s ∈ p.stages, Within R s) (w : World) (ctx : Ctx) (st : Exec) :
    Reported (p.run w ctx st).1 (p.run w ctx st).2.tx :=
  chain_rule (I := fun t : Exec => Tallied t.tx) (fun s hs _ ht => stageStep_tallied (hp s hs) ht)
    (fun _ ht => ht.reported (.inr rfl)) ⟨by simp [start], .inl ⟨rfl, rfl⟩⟩

/-- From a state without findings, a stage leaves one only by a deny that its policy does not
enforce. -/
theorem stageStep_findings (hs : Within R s) (h : st.tx.findings = []) :
    After
      (fun t => t.tx.findings = [] ∨ t.tx.policy.any CompiledPolicy.blocking = false ∧
        ∃ d, (s.process w ctx (st.next.emit (.ran s.name st.tx))).1 = some (.deny d) ∧
          t.tx.policy = (s.process w ctx (st.next.emit (.ran s.name st.tx))).2.tx.policy)
      (fun _ t => t.tx.findings = []) (stageStep w ctx s st) := by
  obtain ⟨-, heq⟩ | ⟨-, heq | ⟨r, t, hr, hcases⟩⟩ := stageStep_cases hs w ctx st
  · rw [heq]
    exact .inl h
  · rw [heq]
    exact h
  · have hfindings := hs.findings w ctx (st.next.emit (.ran s.name st.tx))
    rw [hr] at hfindings ⊢
    have ht : t.tx.findings = [] := hfindings.trans h
    rcases hcases with ⟨-, heq⟩ | heq | heq | ⟨d, -, rfl, heq⟩ <;> rw [heq]
    · exact .inl ht
    · exact ht
    · exact ht
    · unfold applyDeny
      split
      · exact ht
      next hb => exact .inr ⟨Bool.not_eq_true _ ▸ hb, d, rfl, rfl⟩

/-- Under a blocking policy a run records nothing. -/
theorem run_findings_blocking (hp : ∀ s ∈ p.stages, Inspector s) (w : World) (ctx : Ctx) (st : Exec)
    (hb : st.tx.policy.any CompiledPolicy.blocking = true) :
    (p.run w ctx st).2.tx.findings = [] := by
  refine chain_rule (I := fun t : Exec => Running Frame (p.start st) t ∧ t.tx.findings = [])
    (Q := fun _ (t : Exec) => t.tx.findings = []) ?_ (fun _ => And.right) ⟨⟨.refl _, rfl⟩, rfl⟩
  rintro s hs t ⟨ht, hf⟩
  have hrun : After (Running Frame (p.start st)) (Ended Frame (p.start st)) (stageStep w ctx s t) :=
    stageStep_spec frame_executes (hp s hs) ht
  refine (hrun.and (stageStep_findings (hp s hs) hf)).imp ?_ (fun _ _ => And.right)
  rintro u ⟨hu, hempty | ⟨hpolicy, -⟩⟩
  · exact ⟨hu, hempty⟩
  · rw [hu.rel.policy] at hpolicy
    cases hb.symm.trans hpolicy

end

end Pipeline

end ElchiShield
