import ElchiShield.Extproc.Phases

/-! # The rule of handlers

Every handler is made of the same parts: a prelude, the phases of an inspection, and the
recording of their decisions. What these parts keep, a message keeps; and an immediate response
comes from the decision of a run, recorded just before it. -/
namespace ElchiShield.Extproc
open ElchiShield.Go ElchiShield.Lib ElchiShield.Engine ElchiShield.Policy ElchiShield.Runtime
open ElchiShield.Pipeline ElchiShield.Stages

variable [Library]

/-- Obligations of the rule. `I` holds between the parts of a handler, `S` where a phase may
start, `R` where a run has ended with a decision that is not recorded yet, and `K` is what a
message leaves behind. The request headers are those of `C`. -/
structure Phased (pr : Processor) (w : World) (C : HttpHeaders → Prop) (I S K : Exec → Prop)
    (R : Decision → Exec → Prop) : Prop where
  received : ∀ st attributes, I st → I (received attributes st)
  request : ∀ st h, I st → st.tx.requestSettled = false → C h → ∀ d t,
    preludeOf pr w h st = (d, t) → R d t ∧ S t
  response : ∀ st h, I st → ∀ d t,
    (responsePrelude pr.deps).run w w.ctx (loadResponse h st) = (d, t) → R d t ∧ S t
  body : ∀ st p, I st → BodyDue p st → S (latched st)
  phase : ∀ p phase a d t, S a → a.tx.policy = some p → p.enforcing = true →
    Inspected pr w p phase a d t → R d t
  passed : ∀ phase d t, R d t → d.isBlock = false → I (headerFindings pr w phase d t)
  buffered : ∀ dir chunk st, I st → I (buffered pr w dir chunk st)
  finish : ∀ phase d t, R d t → K (pr.finish w phase d t)
  done : ∀ st, I st → K st

/-- An immediate response carries the reason of the decision that was recorded last. -/
def Answered (pr : Processor) (w : World) (R : Decision → Exec → Prop) (reply : ProcessingResponse)
    (st : Exec) : Prop :=
  ∀ r, reply = .immediate r → ∃ phase d t, R d t ∧ d.isBlock = true ∧ r.details = d.reason ∧
    st = pr.finish w phase d t

section
variable {pr : Processor} {w : World} {C : HttpHeaders → Prop} {I S K : Exec → Prop}
  {R : Decision → Exec → Prop} {reply c : ProcessingResponse} {st t : Exec} {d : Decision}

omit [Library] in
theorem Answered.of_continue (h : reply.isImmediate = false) : Answered pr w R reply st := by
  rintro r rfl
  cases h

omit [Library] in
theorem Answered.of_finish (hR : R d t) (hc : c.isImmediate = false) (phase : Audit.Phase) :
    Answered pr w R (Processor.replyTo (some d) c) (pr.finish w phase d t) := by
  intro r hr
  by_cases hb : d.isBlock = true
  · simp only [Processor.replyTo, hb, if_true, immediateResponse] at hr
    exact ⟨phase, d, t, hR, hb, by rw [← ProcessingResponse.immediate.inj hr], rfl⟩
  · simp only [Processor.replyTo, hb] at hr
    subst hr
    cases hc

namespace Phased
variable (h : Phased pr w C I S K R)
include h

theorem inspectBufferedBody (hI : I st) :
    K (pr.inspectBufferedBody w st).2 ∧ ∀ c : ProcessingResponse, c.isImmediate = false →
      Answered pr w R (Processor.replyTo (pr.inspectBufferedBody w st).1 c)
        (pr.inspectBufferedBody w st).2 := by
  obtain ⟨-, heq⟩ | ⟨p, d, t, hdue, hrun, heq⟩ := inspectBufferedBody_cases pr w st <;> rw [heq]
  · exact ⟨h.done _ hI, fun c hc => .of_continue hc⟩
  · have hR := h.phase p _ _ d t (h.body st p hI hdue) hdue.policy
      hdue.enforcing hrun
    exact ⟨h.finish _ d t hR, fun c hc => .of_finish hR hc _⟩

theorem inspectHeaders (hS : S st) {p : CompiledPolicy} (hp : st.tx.policy = some p)
    (henf : p.enforcing = true) (dir : Direction) {reply : Bool → ProcessingResponse}
    (hreply : ∀ b, (reply b).isImmediate = false) (endOfStream : Bool) :
    K (pr.inspectHeaders w dir reply endOfStream p st).2 ∧
      Answered pr w R (pr.inspectHeaders w dir reply endOfStream p st).1
        (pr.inspectHeaders w dir reply endOfStream p st).2 := by
  obtain ⟨d, t, hrun, hcases⟩ := inspectHeaders_cases pr w dir reply endOfStream p st
  have hR := h.phase p _ _ d t hS hp henf hrun
  obtain ⟨c, hc, -, -, heq⟩ | ⟨hpass, -, -, u, rfl, heq⟩ := hcases <;> rw [heq]
  · have hcont : c.isImmediate = false := by
      rcases hc with rfl | rfl
      · cases dir <;> rfl
      · exact hreply false
    exact ⟨h.finish _ d t hR, .of_finish hR hcont _⟩
  · have hI := h.passed (Audit.headersPhase dir) d t hR hpass
    split
    · obtain ⟨hK, hans⟩ := h.inspectBufferedBody hI
      exact ⟨hK, hans _ (hreply false)⟩
    · exact ⟨h.done _ hI, .of_continue (hreply true)⟩

theorem onRequestHeaders (hI : I st) {hs : HttpHeaders} (hC : C hs) :
    K (pr.onRequestHeaders w hs st).2 ∧
      Answered pr w R (pr.onRequestHeaders w hs st).1 (pr.onRequestHeaders w hs st).2 := by
  cases hset : st.tx.requestSettled with
  | true =>
    simp only [Processor.onRequestHeaders, hset, if_true]
    exact ⟨h.done st hI, .of_continue rfl⟩
  | false =>
    obtain ⟨d, t, hrun, hcases⟩ := onRequestHeaders_cases pr w hs hset
    obtain ⟨hR, hS⟩ := h.request st hs hI hset hC d t hrun
    obtain ⟨-, heq⟩ | ⟨p, -, hp, henf, heq⟩ := hcases <;> rw [heq]
    · exact ⟨h.finish _ d t hR, .of_finish hR rfl _⟩
    · exact h.inspectHeaders hS hp henf .request (fun _ => rfl) _

theorem onResponseHeaders (hI : I st) (hs : HttpHeaders) :
    K (pr.onResponseHeaders w hs st).2 ∧
      Answered pr w R (pr.onResponseHeaders w hs st).1 (pr.onResponseHeaders w hs st).2 := by
  obtain ⟨d, t, hrun, hcases⟩ := onResponseHeaders_cases pr w hs st
  obtain ⟨hR, hS⟩ := h.response st hs hI d t hrun
  obtain ⟨-, heq⟩ | ⟨p, hp, henf, heq⟩ := hcases <;> rw [heq]
  · exact ⟨h.finish _ d t hR, .of_continue rfl⟩
  · exact h.inspectHeaders hS hp henf .response (fun _ => rfl) _

theorem onBody (hI : I st) (dir : Direction) (b : HttpBody) :
    K (pr.onBody w dir b st).2 ∧ Answered pr w R (pr.onBody w dir b st).1 (pr.onBody w dir b st).2 := by
  obtain ⟨-, heq⟩ | ⟨p, u, -, rfl, ⟨-, heq⟩ | ⟨-, bd, v, hbody, heq⟩⟩ := onBody_cases pr w dir b st <;>
    rw [heq]
  · exact ⟨h.done st hI, .of_continue rfl⟩
  · exact ⟨h.done _ (h.buffered dir b.body st hI), .of_continue rfl⟩
  · obtain ⟨hK, hans⟩ := h.inspectBufferedBody (h.buffered dir b.body st hI)
    rw [hbody] at hK hans
    refine ⟨hK, hans _ ?_⟩
    split <;> rfl

theorem onTrailers (hI : I st) (dir : Direction) :
    K (pr.onTrailers w dir st).2 ∧
      Answered pr w R (pr.onTrailers w dir st).1 (pr.onTrailers w dir st).2 := by
  obtain ⟨hK, hans⟩ := h.inspectBufferedBody hI
  exact ⟨hK, hans _ rfl⟩

/-- The rule. -/
theorem handle (hI : I st) {msg : Message}
    (hC : ∀ attributes hs, msg = .requestHeaders attributes hs → C hs) :
    K (pr.handle w st msg).2 ∧ ∀ reply, (pr.handle w st msg).1 = some reply →
      Answered pr w R reply (pr.handle w st msg).2 := by
  have hsome : ∀ x : ProcessingResponse × Exec, K x.2 ∧ Answered pr w R x.1 x.2 →
      K (x.map some id).2 ∧ ∀ reply, (x.map some id).1 = some reply →
        Answered pr w R reply (x.map some id).2 := by
    rintro ⟨a, b⟩ ⟨hK, hans⟩
    exact ⟨hK, fun reply hr => Option.some.inj hr ▸ hans⟩
  cases msg with
  | requestHeaders attributes hs =>
    exact hsome _ (h.onRequestHeaders (h.received st attributes hI) (hC attributes hs rfl))
  | requestBody b => exact hsome _ (h.onBody hI .request b)
  | requestTrailers => exact hsome _ (h.onTrailers hI .request)
  | responseHeaders hs => exact hsome _ (h.onResponseHeaders hI hs)
  | responseBody b => exact hsome _ (h.onBody hI .response b)
  | responseTrailers => exact hsome _ (h.onTrailers hI .response)
  | other => exact ⟨h.done st hI, fun _ hr => (nomatch hr)⟩

end Phased

end

end ElchiShield.Extproc
