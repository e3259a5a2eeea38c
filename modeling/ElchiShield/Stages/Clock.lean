import ElchiShield.Stages.Inspectors

/-! # Stages take time

Whatever is asked of the surroundings of a stream is asked at a tick. No stage goes back to an
earlier one, so that what the engines answer in a run they answer between its start and its end. -/
namespace ElchiShield.Stages
open ElchiShield.Go ElchiShield.Lib ElchiShield.Engine ElchiShield.Policy ElchiShield.Pipeline

theorem inspectLoop_tick_le (ctx : Ctx) (req : Engine.Request) (want : SecurityEngine → Bool)
    (engines : List SecurityEngine) (acc : Engine.Inspected) (tick : Nat) :
    tick ≤ (inspectLoop ctx req want engines acc tick).2 := by
  fun_induction inspectLoop ctx req want engines acc tick <;> grind

theorem inspect_tick_le (s : EngineSet) (ctx : Ctx) (req : Engine.Request)
    (want : SecurityEngine → Bool) (tick : Nat) : tick ≤ (s.inspect ctx req want tick).2 := by
  have hloop := inspectLoop_tick_le ctx req want s.engines {} tick
  unfold EngineSet.inspect
  split
  next heq => rwa [heq] at hloop
  next heq => rwa [heq] at hloop

/-- A stage that does not go back in time. -/
def Onward (s : Stage) : Prop := ∀ w ctx st, st.tick ≤ (s.process w ctx st).2.tick

theorem stages_tick_le {stages : List Stage} (hs : ∀ s ∈ stages, Inspector s)
    (honward : ∀ s ∈ stages, Onward s) (w : World) (ctx : Ctx) (st : Exec) :
    st.tick ≤ (chain (stageStep w ctx) (fun st => st.tx.result) stages st).2.tick := by
  refine stages_invariant (I := fun t => st.tick ≤ t.tick) hs (fun t ht => Nat.le_succ_of_le ht)
    (fun _ _ _ => id) ?_ (le_refl _)
  intro s hmem t ht _
  exact ht.trans (honward s hmem w ctx (t.emit (.ran s.name t.tx)))

theorem runEngines_tick_le {inspect : EngineSet → Ctx → Engine.Request → Nat →
    Option (Verdict × List Bytes) × Nat} (h : ∀ s ctx req tick, tick ≤ (inspect s ctx req tick).2)
    (ctx : Ctx) (st : Exec) : st.tick ≤ (runEngines inspect ctx st).2.tick := by
  unfold runEngines
  split
  · exact le_refl _
  next p _ =>
    have hinspect := h p.engineSet ctx (engineRequest st.tx) st.tick
    split
    · exact le_refl _
    split
    next heq => rwa [heq] at hinspect
    next heq => rwa [heq] at hinspect

theorem wafHeaderEngine_onward : Onward wafHeaderEngine := fun _ =>
  runEngines_tick_le fun s ctx req => inspect_tick_le s ctx req _

theorem wafEngine_onward : Onward wafEngine := fun _ =>
  runEngines_tick_le fun s ctx req => inspect_tick_le s ctx req _

theorem bodyGate_onward : Onward bodyGate := by
  intro w ctx st
  obtain ⟨-, required, waf, heq⟩ := bodyGate_spec w ctx st
  rw [heq]
  exact le_refl _

theorem reserveBody_tick_le (w : World) (n : Nat) (st : Exec) :
    st.tick ≤ (reserveBody w n st).2.tick := by
  unfold reserveBody
  split
  · exact le_refl _
  · exact Nat.le_succ _

section
variable [Library] {deps : Deps} {dir : Direction} {q : Pipeline}

theorem decodeInto_tick_le (w : World) (enc : Bytes) (st : Exec) :
    st.tick ≤ (decodeInto w enc st).2.tick := by
  unfold decodeInto
  split
  · exact le_refl _
  next decoded _ =>
    have hreserve := reserveBody_tick_le w (decoded.length - st.tx.body.length) st
    split
    next heq => rwa [heq] at hreserve
    next heq => rwa [heq] at hreserve

theorem bodyContentDecode_onward : Onward bodyContentDecode := by
  intro w ctx st
  unfold bodyContentDecode
  dsimp only
  split
  · exact le_refl _
  split
  · exact le_refl _
  split
  · exact le_refl _
  split
  · exact le_refl _
  split
  · exact le_refl _
  split
  · exact le_refl _
  · exact decodeInto_tick_le w _ st

theorem bodyChecks_onward (detector : Option Detector) : Onward (bodyChecks detector) := by
  intro w ctx st
  obtain ⟨-, heq | ⟨p, body, -, -, -, heq⟩⟩ := bodyChecks_spec detector w ctx st
  · rw [heq]
  · rw [heq]
    exact le_refl _

theorem HeaderPipeline.onward (hq : HeaderPipeline dir q) : ∀ s ∈ q.stages, Onward s := by
  intro s hs
  rcases hq.mem hs with rfl | rfl | rfl
  · exact fun _ _ _ => le_refl _
  · exact wafHeaderEngine_onward
  · exact bodyGate_onward

theorem HeaderPipeline.tick_le (hq : HeaderPipeline dir q) (w : World) (ctx : Ctx) (st : Exec) :
    st.tick ≤ (q.run w ctx st).2.tick :=
  stages_tick_le hq.inspector hq.onward w ctx (q.start st)

theorem BodyPipeline.onward (hq : BodyPipeline deps dir q) : ∀ s ∈ q.stages, Onward s := by
  intro s hs
  rcases hq.mem hs with rfl | rfl | rfl | rfl
  · exact fun _ _ _ => le_refl _
  · exact bodyContentDecode_onward
  · exact bodyChecks_onward _
  · exact wafEngine_onward

theorem BodyPipeline.tick_le (hq : BodyPipeline deps dir q) (w : World) (ctx : Ctx) (st : Exec) :
    st.tick ≤ (q.run w ctx st).2.tick :=
  stages_tick_le hq.inspector hq.onward w ctx (q.start st)

end

end ElchiShield.Stages
