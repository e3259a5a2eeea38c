import ElchiShield.Engine.Coraza
import ElchiShield.Extproc.FailClosed

/-! # What passes was evaluated in full

A policy with a `coraza` engine, from the messages of the proxy to the calls of the WAF library. -/
namespace ElchiShield.Extproc
open ElchiShield.Go ElchiShield.Lib ElchiShield.Engine ElchiShield.Policy ElchiShield.Runtime
open ElchiShield.Pipeline ElchiShield.Stages

section
variable [Library]

/-- From the state `st` to the tick `stop` a transaction of the WAF was opened, has made every call of
its script on a view of the body `raw`, none was heeded, and it was torn down. -/
def Evaluated (detector : Option Detector) (p : CompiledPolicy) (waf : Nat → Coraza.Transaction)
    (st : Exec) (raw : Bytes) (stop : Nat) : Prop :=
  ∃ tick tx, st.tick ≤ tick ∧ tick < stop ∧ Seen detector p st.tx.headers raw tx ∧
    engineRequest tx = { engineRequest st.tx with body := tx.body } ∧
    (Coraza.inspect (some (waf tick)) (engineRequest tx)).2 =
      Coraza.script (engineRequest tx) ++ [.processLogging, .close] ∧
    Quiet (waf tick).panics (Coraza.heed (waf tick) st.tx.direction) []
      (Coraza.script (engineRequest tx))

theorem Cleared.evaluated {detector : Option Detector} {p : CompiledPolicy} {st : Exec}
    {raw : Bytes} {stop : Nat} (h : Cleared detector p st raw stop) {waf : Nat → Coraza.Transaction}
    (hmem : Coraza.securityEngine waf ∈ p.engineSet.engines) :
    Evaluated detector p waf st raw stop := by
  have hbody : p.engineSet.requiresBody = true := List.any_eq_true.mpr ⟨_, hmem, rfl⟩
  obtain ⟨tx, hseen, hrequest, hcleared⟩ := h.body hbody
  obtain ⟨tick, v, hfrom, huntil, hv, hblock⟩ := hcleared _ hmem rfl
  have hdirection : tx.direction = st.tx.direction := congrArg Engine.Request.direction hrequest
  rcases Coraza.verdict_cases hv with ⟨-, hquiet, htorn⟩ | ⟨it, rfl, -⟩
  · refine ⟨tick, tx, hfrom, huntil, hseen, hrequest, ?_, ?_⟩
    · rw [Coraza.inspect_of_quiet hquiet htorn]
    · rw [← hdirection]
      exact hquiet
  · exact absurd rfl hblock

end

end ElchiShield.Extproc
