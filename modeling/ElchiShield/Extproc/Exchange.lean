import ElchiShield.Extproc.Phases
import ElchiShield.Lib.Runs
import Mathlib.Logic.Relation

/-! # The messages of one direction

A conforming peer sends one headers message for a direction and then, unless it ends the
stream, chunks of the body that a last chunk or trailers end. Whatever the policy, such an
exchange takes one of three courses: it ends with the prelude, it ends with the header phase,
or it enters the body phase once. -/
namespace ElchiShield.Extproc
open ElchiShield.Go ElchiShield.Lib ElchiShield.Engine ElchiShield.Policy ElchiShield.Runtime
open ElchiShield.Pipeline ElchiShield.Stages

/-! ## Conforming messages -/

def bodyMessage (dir : Direction) (chunk : Bytes) (endOfStream : Bool) : Message :=
  match dir with
  | .request => .requestBody ⟨chunk, endOfStream⟩
  | .response => .responseBody ⟨chunk, endOfStream⟩

def trailersMessage : Direction → Message
  | .request => .requestTrailers
  | .response => .responseTrailers

/-- The message that ends the stream. -/
def lastMessage (dir : Direction) : Option Bytes → Message
  | some chunk => bodyMessage dir chunk true
  | none => trailersMessage dir

/-- What follows headers that do not end the stream: chunks, and then a last chunk or
trailers. -/
structure Remainder where
  chunks : List Bytes := []
  last : Option Bytes := none

namespace Remainder

def messages (r : Remainder) (dir : Direction) : List Message :=
  r.chunks.map (bodyMessage dir · false) ++ [lastMessage dir r.last]

def parts (r : Remainder) : List Bytes := r.chunks ++ r.last.toList

end Remainder

/-- The messages of one direction. -/
structure Exchange where
  headers : HttpHeaders
  rest : Option Remainder
  ended : headers.endOfStream = rest.isNone

namespace Exchange

def following (x : Exchange) (dir : Direction) : List Message :=
  match x.rest with
  | none => []
  | some r => r.messages dir

def parts (x : Exchange) : List Bytes :=
  match x.rest with
  | none => []
  | some r => r.parts

end Exchange

section
variable [Library]

/-- The state after messages from a peer that sends nothing more once it gets an immediate
response. -/
def deliver (pr : Processor) (w : World) : Exec → List Message → Exec :=
  runUntil (fun r => r.any ProcessingResponse.isImmediate) (pr.handle w)

theorem handle_bodyMessage (pr : Processor) (w : World) (st : Exec) (dir : Direction)
    (chunk : Bytes) (endOfStream : Bool) : pr.handle w st (bodyMessage dir chunk endOfStream) =
      (pr.onBody w dir ⟨chunk, endOfStream⟩ st).map some id := by
  cases dir <;> rfl

theorem handle_trailersMessage (pr : Processor) (w : World) (st : Exec) (dir : Direction) :
    pr.handle w st (trailersMessage dir) = (pr.onTrailers w dir st).map some id := by
  cases dir <;> rfl

omit [Library] in
theorem buffered_trail (pr : Processor) (w : World) (dir : Direction) (chunk : Bytes) (st : Exec) :
    trail (buffered pr w dir chunk st) = trail st := by
  obtain ⟨_, _, _, _, log, heq, hlog, -⟩ := buffered_spec pr w dir chunk st
  rw [heq]
  exact trail_outer hlog

/-! ## Buffering -/

/-- Between the two states chunks came in and nothing else happened. -/
def Buffering (pr : Processor) (w : World) (dir : Direction) : Exec → Exec → Prop :=
  Relation.ReflTransGen fun a b => ∃ chunk, b = buffered pr w dir chunk a

section
variable {pr : Processor} {w : World} {st t : Exec} {dir : Direction}

omit [Library] in
theorem Buffering.single (pr : Processor) (w : World) (dir : Direction) (chunk : Bytes) (st : Exec) :
    Buffering pr w dir st (buffered pr w dir chunk st) :=
  Relation.ReflTransGen.single ⟨chunk, rfl⟩

omit [Library] in
/-- What a chunk keeps, chunks keep. -/
theorem Buffering.induct {I : Exec → Prop} (h : Buffering pr w dir st t)
    (hI : ∀ u chunk, I u → I (buffered pr w dir chunk u)) (hst : I st) : I t := by
  induction h with
  | refl => exact hst
  | tail _ hstep ih =>
    obtain ⟨chunk, rfl⟩ := hstep
    exact hI _ chunk ih

omit [Library] in
theorem Buffering.trail (h : Buffering pr w dir st t) : trail t = trail st :=
  h.induct (I := fun u => Extproc.trail u = Extproc.trail st)
    (fun u chunk hu => (buffered_trail pr w dir chunk u).trans hu) rfl

omit [Library] in
theorem Buffering.tick_le (h : Buffering pr w dir st t) : st.tick ≤ t.tick :=
  h.induct (I := fun u => st.tick ≤ u.tick)
    (fun u chunk hu => hu.trans (buffered_tick_le pr w dir chunk u)) (le_refl _)

/-! ## No body phase to come -/

/-- The headers asked for no body. -/
def Idle (st : Exec) : Prop :=
  ∀ p, st.tx.policy = some p → p.enforcing = true → (st.tx.bodyRequired || st.tx.wafEnabled) = false

theorem Idle.inspectBufferedBody (h : Idle st) : pr.inspectBufferedBody w st = (none, st) := by
  obtain ⟨-, heq⟩ | ⟨p, d, t, hdue, -⟩ := inspectBufferedBody_cases pr w st
  · exact heq
  · cases (h p hdue.policy hdue.enforcing).symm.trans hdue.asked

omit [Library] in
theorem Idle.buffered (h : Idle st) (chunk : Bytes) : Idle (buffered pr w dir chunk st) := by
  obtain ⟨_, _, _, _, _, heq, -⟩ := buffered_spec pr w dir chunk st
  rw [heq]
  exact h

theorem Idle.onBody (h : Idle st) (b : HttpBody) :
    Idle (pr.onBody w dir b st).2 ∧ Buffering pr w dir st (pr.onBody w dir b st).2 := by
  obtain ⟨-, heq⟩ | ⟨p, u, -, rfl, hrest⟩ := onBody_cases pr w dir b st
  · rw [heq]
    exact ⟨h, .refl⟩
  · have hu : Idle (Extproc.buffered pr w dir b.body st) := h.buffered b.body
    obtain ⟨-, heq⟩ | ⟨-, bd, v, hrun, heq⟩ := hrest
    · rw [heq]
      exact ⟨hu, .single ..⟩
    · obtain ⟨-, rfl⟩ := Prod.mk.inj (hrun.symm.trans hu.inspectBufferedBody)
      rw [heq]
      exact ⟨hu, .single ..⟩

theorem Idle.onTrailers (h : Idle st) (dir : Direction) : (pr.onTrailers w dir st).2 = st := by
  unfold Processor.onTrailers
  rw [h.inspectBufferedBody]

/-- The rest of the messages is buffered at most. -/
theorem Idle.deliver (h : Idle st) (r : Remainder) :
    Buffering pr w dir st (deliver pr w st (r.messages dir)) := by
  refine (runUntil_invariant (I := fun t => Idle t ∧ Buffering pr w dir st t) ?_ ⟨h, .refl⟩).2
  intro m hm t ht
  have hbody : ∀ b, Idle (pr.onBody w dir b t).2 ∧ Buffering pr w dir st (pr.onBody w dir b t).2 :=
    fun b => (ht.1.onBody b).imp_right ht.2.trans
  rcases List.mem_append.mp hm with hm | hm
  · obtain ⟨chunk, -, rfl⟩ := List.mem_map.mp hm
    rw [handle_bodyMessage]
    exact hbody _
  · obtain rfl := List.mem_singleton.mp hm
    cases r.last with
    | some chunk =>
      rw [lastMessage, handle_bodyMessage]
      exact hbody _
    | none =>
      rw [lastMessage, handle_trailersMessage]
      show Idle (pr.onTrailers w dir t).2 ∧ Buffering pr w dir st (pr.onTrailers w dir t).2
      rw [ht.1.onTrailers]
      exact ht

omit [Library] in
theorem Idle.finish (h : Idle st) (pr : Processor) (w : World) (phase : Audit.Phase) (d : Decision) :
    Idle (pr.finish w phase d st) := by
  intro p hp henf
  rw [finish_keeps Transaction.policy (fun _ => rfl)] at hp
  rw [finish_keeps Transaction.bodyRequired (fun _ => rfl),
    finish_keeps Transaction.wafEnabled (fun _ => rfl)]
  exact h p hp henf

omit [Library] in
theorem Opened.idle (h : Opened dir st) : Idle st := by
  intro p _ _
  rw [h.required, h.waf]
  rfl

/-! ## A body phase to come -/

/-- The headers asked for the body and `bytes` of it have come. -/
structure Pending (pr : Processor) (dir : Direction) (p : CompiledPolicy) (bytes : Bytes)
    (log : List Effect) (st : Exec) : Prop where
  due : BodyDue p st
  built : ∃ pp, pr.policyPipelines p = .ok pp
  direction : st.tx.direction = dir
  capped : (st.tx.body.length : Int) ≤ pr.bodyLimit st.tx dir
  whole : st.tx.bodyTruncated = false → st.tx.body = bytes
  trail : trail st = log

variable {p : CompiledPolicy} {bytes : Bytes} {log : List Effect}

theorem Pending.buffered (h : Pending pr dir p bytes log st) (w : World) (chunk : Bytes) :
    Pending pr dir p (bytes ++ chunk) log (buffered pr w dir chunk st) := by
  have htrail := (buffered_trail pr w dir chunk st).trans h.trail
  obtain ⟨body, truncated, _, _, _, heq, -, hwhole, hcap⟩ := buffered_spec pr w dir chunk st
  rw [heq] at htrail ⊢
  refine ⟨⟨h.due.policy, h.due.enforcing, ?_, h.due.asked⟩, h.built, h.direction,
    hcap h.capped, ?_, htrail⟩
  · show (st.tx.bodyInspected && decide (chunk = [])) = false
    rw [h.due.inspected]
    rfl
  · intro hfull
    obtain ⟨hold, hbody⟩ := hwhole hfull
    show body = bytes ++ chunk
    rw [hbody, h.whole hold]

/-- Inversion of the body phase where it is pending. -/
theorem Pending.inspected (h : Pending pr dir p bytes log st) (w : World) :
    ∃ d t, Inspected pr w p (Audit.bodyPhase dir) (latched st) d t ∧
      pr.inspectBufferedBody w st = (some d, pr.finish w (Audit.bodyPhase dir) d t) := by
  obtain ⟨hnot, -⟩ | ⟨q, d, t, hdue, hrun, heq⟩ := inspectBufferedBody_cases pr w st
  · exact absurd h.due (hnot p)
  · obtain rfl := Option.some.inj (hdue.policy.symm.trans h.due.policy)
    rw [h.direction] at hrun heq
    exact ⟨d, t, hrun, heq⟩

theorem Pending.latches (h : Pending pr dir p bytes log st) (w : World) :
    (pr.inspectBufferedBody w st).2.tx.bodyInspected = true := by
  obtain ⟨d, t, hrun, heq⟩ := h.inspected w
  rw [heq, finish_keeps Transaction.bodyInspected (fun _ => rfl)]
  exact (congrArg Transaction.bodyInspected hrun.inspection.pinned :)

/-- A body phase that was entered is not entered again by trailers. -/
theorem onTrailers_inspected (h : st.tx.bodyInspected = true) (dir : Direction) :
    (pr.onTrailers w dir st).2 = st := by
  unfold Processor.onTrailers
  obtain ⟨-, heq⟩ | ⟨q, d, t, hdue, -⟩ := inspectBufferedBody_cases pr w st
  · rw [heq]
  · cases h.symm.trans hdue.inspected

theorem onBody_more (hp : st.tx.policy = some p) {b : HttpBody}
    (hb : (b.endOfStream || p.mutatesBody dir) = false) :
    pr.onBody w dir b st = (bodyContinue dir, buffered pr w dir b.body st) := by
  obtain ⟨hnone, -⟩ | ⟨q, u, hq, rfl, ⟨-, heq⟩ | ⟨hlast, -⟩⟩ := onBody_cases pr w dir b st
  · cases hnone.symm.trans hp
  · exact heq
  · obtain rfl := Option.some.inj (hq.symm.trans hp)
    cases hlast.symm.trans hb

theorem onBody_last (hp : st.tx.policy = some p) {b : HttpBody}
    (hb : (b.endOfStream || p.mutatesBody dir) = true) : (pr.onBody w dir b st).2 =
      (pr.inspectBufferedBody w (buffered pr w dir b.body st)).2 := by
  obtain ⟨hnone, -⟩ | ⟨q, u, hq, rfl, ⟨hmore, -⟩ | ⟨-, bd, v, hrun, heq⟩⟩ := onBody_cases pr w dir b st
  · cases hnone.symm.trans hp
  · obtain rfl := Option.some.inj (hq.symm.trans hp)
    cases hmore.symm.trans hb
  · rw [heq, hrun]

/-- The messages that come while the body phase is pending have entered it once, with `bytes`,
and end in `st'`. -/
def Entered (pr : Processor) (w : World) (dir : Direction) (p : CompiledPolicy) (bytes : Bytes)
    (log : List Effect) (st st' : Exec) : Prop :=
  ∃ v, Buffering pr w dir st v ∧ Pending pr dir p bytes log v ∧
    st' = (pr.inspectBufferedBody w v).2

theorem Pending.last (h : Pending pr dir p bytes log st) (w : World) (last : Option Bytes) :
    Entered pr w dir p (bytes ++ last.toList.flatten) log st
      (pr.handle w st (lastMessage dir last)).2 := by
  cases last with
  | some chunk =>
    refine ⟨Extproc.buffered pr w dir chunk st, .single .., by simpa using h.buffered w chunk, ?_⟩
    rw [lastMessage, handle_bodyMessage]
    exact onBody_last (b := ⟨chunk, true⟩) h.due.policy rfl
  | none =>
    refine ⟨st, .refl, by simpa using h, ?_⟩
    rw [lastMessage, handle_trailersMessage]
    rfl

/-- A policy that rewrites the body enters its phase with the first chunk. -/
theorem Pending.only (h : Pending pr dir p bytes log st) (w : World)
    (hm : p.mutatesBody dir = true) (chunk : Bytes) :
    Entered pr w dir p (bytes ++ chunk) log st
      (deliver pr w st [bodyMessage dir chunk false, lastMessage dir none]) := by
  refine ⟨Extproc.buffered pr w dir chunk st, .single .., h.buffered w chunk, ?_⟩
  have hlatched := (h.buffered w chunk).latches w
  have hstate : (pr.handle w st (bodyMessage dir chunk false)).2 =
      (pr.inspectBufferedBody w (Extproc.buffered pr w dir chunk st)).2 := by
    rw [handle_bodyMessage]
    exact onBody_last (b := ⟨chunk, false⟩) h.due.policy hm
  rw [← hstate] at hlatched ⊢
  unfold Extproc.deliver
  cases hstop : (pr.handle w st (bodyMessage dir chunk false)).1.any ProcessingResponse.isImmediate with
  | true => rw [runUntil_cons_stop hstop]
  | false =>
    rw [runUntil_cons_pass hstop, runUntil_singleton, lastMessage, handle_trailersMessage]
    exact onTrailers_inspected hlatched dir

/-- The rest of the messages enters the body phase once, with all of the body. -/
theorem Pending.deliver (h : Pending pr dir p bytes log st) (w : World) (r : Remainder)
    (hone : p.mutatesBody dir = true → r.parts.length ≤ 1) :
    Entered pr w dir p (bytes ++ r.parts.flatten) log st (deliver pr w st (r.messages dir)) := by
  obtain ⟨chunks, last⟩ := r
  induction chunks generalizing bytes st with
  | nil =>
    show Entered _ _ _ _ _ _ _ (runUntil _ _ st [_])
    rw [runUntil_singleton]
    exact h.last w last
  | cons chunk chunks ih =>
    cases hm : p.mutatesBody dir with
    | false =>
      have hmore : pr.handle w st (bodyMessage dir chunk false) =
          (some (bodyContinue dir), Extproc.buffered pr w dir chunk st) := by
        rw [handle_bodyMessage, onBody_more (b := ⟨chunk, false⟩) h.due.policy hm]
        rfl
      show Entered _ _ _ _ _ _ _ (runUntil _ _ st (bodyMessage dir chunk false :: _))
      rw [runUntil_cons_pass (by rw [hmore]; rfl), hmore]
      obtain ⟨v, hbuf, hpending, heq⟩ :=
        ih (h.buffered w chunk) (fun h => nomatch hm.symm.trans h)
      rw [List.append_assoc] at hpending
      exact ⟨v, (Buffering.single ..).trans hbuf, hpending, heq⟩
    | true =>
      -- the chunk is the only one, so that trailers follow
      have hlen : (chunk :: chunks ++ last.toList).length ≤ 1 := hone hm
      obtain ⟨rfl, rfl⟩ : chunks = [] ∧ last = none := by
        simpa using hlen
      have hbytes : bytes ++ (Remainder.mk [chunk] none).parts.flatten = bytes ++ chunk := by
        simp [Remainder.parts]
      rw [hbytes]
      exact h.only w hm chunk

/-! ## Courses -/

/-- Headers that end the direction, or that leave nothing to come. -/
theorem deliver_settled {m : Message} (dir : Direction)
    (h : (pr.handle w st m).1.any ProcessingResponse.isImmediate = true ∨ Idle (pr.handle w st m).2)
    (x : Exchange) :
    Buffering pr w dir (pr.handle w st m).2 (deliver pr w st (m :: x.following dir)) := by
  unfold Extproc.deliver
  cases hstop : (pr.handle w st m).1.any ProcessingResponse.isImmediate with
  | true =>
    rw [runUntil_cons_stop hstop]
    exact .refl
  | false =>
    rw [runUntil_cons_pass hstop]
    have hidle : Idle (pr.handle w st m).2 := h.resolve_left (by simp [hstop])
    unfold Exchange.following
    split
    · exact .refl
    · exact hidle.deliver _

omit [Library] in
theorem bodyLimit_pos (pr : Processor) (tx : Transaction) (dir : Direction) :
    0 < pr.bodyLimit tx dir := by
  have := pr.maxBody_pos
  unfold Processor.bodyLimit
  dsimp only
  split
  · assumption
  all_goals split <;> assumption

/-- Headers that ask for the body leave it pending. -/
theorem pending_of_inspected (ho : Opened dir t) (hp : t.tx.policy = some p)
    (henf : p.enforcing = true) {d : Decision} {u v : Exec}
    (hrun : Inspected pr w p (Audit.headersPhase dir) t d u)
    (hasked : (u.tx.bodyRequired || u.tx.wafEnabled) = true)
    (hbuilt : ∃ pp, pr.policyPipelines p = .ok pp) (hv : Noted u v) :
    Pending pr dir p []
      (trail t ++ [.started (directionName dir ++ ascii "_header") t.tx]) v := by
  have hkeep := hrun.inspection
  have hbody : v.tx.body = [] := by rw [hv.tx, hrun.body, ho.body]
  obtain ⟨pp, hpp⟩ := hbuilt
  refine ⟨⟨?_, henf, ?_, by rw [hv.tx]; exact hasked⟩, ⟨pp, hpp⟩, ?_, ?_, fun _ => hbody, ?_⟩
  · rw [hv.tx, hkeep.policy, hp]
  · rw [hv.tx, ← ho.inspected]
    exact (congrArg Transaction.bodyInspected hkeep.pinned :)
  · rw [hv.tx, ← ho.direction]
    exact (congrArg Transaction.direction hkeep.pinned :)
  · rw [hbody]
    exact Int.le_of_lt (bodyLimit_pos ..)
  · rw [hv.trail, hrun.trail hpp, phasePipeline_headers, (buildPolicyPipelines_spec hpp dir).1.name]

/-- How an exchange goes on from the end of its prelude in `t`. The prelude's decision is `d`,
`asked` says whether the header pipeline asks for the body phase, and `bytes` are the body that
is sent. -/
inductive Course (pr : Processor) (w : World) (dir : Direction) (asked : Bool) (bytes : Bytes)
    (d : Decision) (t : Exec) : Exec → Prop where
  | passed {v : Exec} (asks : asked = false)
      (rest : Buffering pr w dir (pr.finish w (Audit.headersPhase dir) d t) v) :
      Course pr w dir asked bytes d t v
  | ended {p : CompiledPolicy} {dh : Decision} {u v : Exec} (policy : t.tx.policy = some p)
      (enforcing : p.enforcing = true) (run : Inspected pr w p (Audit.headersPhase dir) t dh u)
      (asks : asked = false)
      (rest : Buffering pr w dir (pr.finish w (Audit.headersPhase dir) dh u) v) :
      Course pr w dir asked bytes d t v
  | body {p : CompiledPolicy} {dh : Decision} {u v : Exec} (policy : t.tx.policy = some p)
      (enforcing : p.enforcing = true) (run : Inspected pr w p (Audit.headersPhase dir) t dh u)
      (pass : dh.isBlock = false) (due : (u.tx.bodyRequired || u.tx.wafEnabled) = true)
      (chunks : Buffering pr w dir (headerFindings pr w (Audit.headersPhase dir) dh u) v)
      (pending : Pending pr dir p bytes
        (trail t ++ [.started (directionName dir ++ ascii "_header") t.tx]) v) :
      Course pr w dir asked bytes d t (pr.inspectBufferedBody w v).2

/-- The header phase and what follows it. -/
theorem inspectHeaders_course (ho : Opened dir t) (hp : t.tx.policy = some p)
    (henf : p.enforcing = true) {reply : Bool → ProcessingResponse}
    (hreply : ∀ b, (reply b).isImmediate = false) {m : Message} {x : Exchange} (d : Decision)
    (hhandle : pr.handle w st m =
      (pr.inspectHeaders w dir reply x.headers.endOfStream p t).map some id)
    (hone : p.mutatesBody dir = true → x.parts.length ≤ 1) :
    Course pr w dir (asksBody pr w dir p t) x.parts.flatten d t
      (deliver pr w st (m :: x.following dir)) := by
  obtain ⟨dh, u, hrun, ⟨c, hc, hend, hasks, heq⟩ | ⟨hpass, hasked, hbuilt, v, hv, heq⟩⟩ :=
    inspectHeaders_cases pr w dir reply x.headers.endOfStream p t
  · rw [heq] at hhandle
    have hsettled : (pr.handle w st m).1.any ProcessingResponse.isImmediate = true ∨
        Idle (pr.handle w st m).2 := by
      rw [hhandle]
      rcases hend with hblock | hnone | rfl
      · refine .inl ?_
        simp [Processor.replyTo, hblock, immediateResponse, ProcessingResponse.isImmediate]
      · exact .inr (Idle.finish (fun _ _ _ => hnone) pr w _ dh)
      · exact .inr (ho.idle.finish pr w _ dh)
    have hrest := deliver_settled dir hsettled x
    rw [hhandle] at hrest
    exact .ended hp henf hrun hasks hrest
  · have hnoted := headerFindings_noted pr w (Audit.headersPhase dir) dh u
    rw [← hv] at hnoted
    have hpending := pending_of_inspected ho hp henf hrun hasked hbuilt hnoted
    rw [heq, x.ended] at hhandle
    unfold Exchange.following
    unfold Exchange.parts at hone ⊢
    cases hrest : x.rest with
    | none =>
      rw [hrest] at hhandle
      show Course _ _ _ _ _ _ _ (runUntil _ _ st [m])
      rw [runUntil_singleton, hhandle]
      exact .body hp henf hrun hpass hasked (hv ▸ .refl) hpending
    | some r =>
      rw [hrest] at hhandle hone
      show Course _ _ _ _ _ _ _ (runUntil _ _ st (m :: r.messages dir))
      rw [runUntil_cons_pass (by rw [hhandle]; exact hreply true), hhandle]
      obtain ⟨v', hbuf, hpending', hfinal⟩ := hpending.deliver w r hone
      show Course _ _ _ _ _ _ _ (Extproc.deliver pr w v (r.messages dir))
      rw [hfinal]
      exact .body hp henf hrun hpass hasked (hv ▸ hbuf) hpending'

/-- A policy that rewrites the bodies of a direction gets them in one chunk. -/
def OneChunk (pr : Processor) (w : World) (dir : Direction) (st : Exec) (m : Message)
    (x : Exchange) : Prop :=
  (pr.handle w st m).2.tx.policy.any (·.mutatesBody dir) = true → x.parts.length ≤ 1

/-- Headers as their two handlers treat them once the prelude has ended in `t`. -/
theorem headers_course (ho : Opened dir t) {asked : Bool} (reply : Bool → ProcessingResponse)
    (hreply : ∀ b, (reply b).isImmediate = false) {m : Message} {x : Exchange} {d : Decision}
    (hcases : asked = false ∧ (pr.handle w st m).2 = pr.finish w (Audit.headersPhase dir) d t ∨
      ∃ p, t.tx.policy = some p ∧ p.enforcing = true ∧ asked = asksBody pr w dir p t ∧
        pr.handle w st m =
          (pr.inspectHeaders w dir reply x.headers.endOfStream p t).map some id)
    (hone : OneChunk pr w dir st m x) :
    Course pr w dir asked x.parts.flatten d t (deliver pr w st (m :: x.following dir)) := by
  obtain ⟨hasked, heq⟩ | ⟨p, hp, henf, rfl, heq⟩ := hcases
  · have hidle : Idle (pr.handle w st m).2 := by
      rw [heq]
      exact ho.idle.finish pr w _ d
    have hrest := deliver_settled dir (.inr hidle) x
    rw [heq] at hrest
    exact .passed hasked hrest
  · refine inspectHeaders_course ho hp henf hreply d heq ?_
    intro hm
    refine hone ?_
    rw [heq]
    show (pr.inspectHeaders w dir reply x.headers.endOfStream p t).2.tx.policy.any _ = true
    rw [inspectHeaders_policy, hp]
    exact hm

omit [Library] in
theorem any_enforcing_eq_false {policy : Option CompiledPolicy} {f : CompiledPolicy → Bool}
    (h : policy.all (fun p => !p.enforcing) = true) :
    policy.any (fun p => p.enforcing && f p) = false := by
  cases policy with
  | none => rfl
  | some p => simp [show p.enforcing = false by simpa using h]

/-- Whether the header pipeline of a request, or of a response, asks for the body phase. -/
def requestAsksBody (pr : Processor) (w : World) (h : HttpHeaders) (st : Exec) : Bool :=
  let (d, t) := preludeOf pr w h st
  !d.isBlock && t.tx.policy.any fun p => p.enforcing && asksBody pr w .request p t

def responseAsksBody (pr : Processor) (w : World) (h : HttpHeaders) (st : Exec) : Bool :=
  let (_, t) := (responsePrelude pr.deps).run w w.ctx (loadResponse h st)
  t.tx.policy.any fun p => p.enforcing && asksBody pr w .response p t

theorem request_course (attributes : List Bytes) {x : Exchange}
    (ho : Opened .request (Processor.loadRequest w x.headers (received attributes st)))
    (hset : st.tx.requestSettled = false)
    (hone : OneChunk pr w .request st (.requestHeaders attributes x.headers) x) :
    ∃ d t, preludeOf pr w x.headers (received attributes st) = (d, t) ∧ Opened .request t ∧
      Course pr w .request (requestAsksBody pr w x.headers (received attributes st))
        x.parts.flatten d t
        (deliver pr w st (.requestHeaders attributes x.headers :: x.following .request)) := by
  have hrel := (requestPrelude_spec pr.deps w w.ctx
    (Processor.loadRequest w x.headers (received attributes st))).rel
  obtain ⟨d, t, hrun, hcases⟩ := onRequestHeaders_cases pr w x.headers
    (show (received attributes st).tx.requestSettled = false from hset)
  rw [← preludeOf, hrun] at hrel
  refine ⟨d, t, hrun, ho.resolving hrel, ?_⟩
  refine headers_course (ho.resolving hrel) (Processor.requestReply t) (fun _ => rfl) ?_ hone
  unfold requestAsksBody
  rw [hrun]
  obtain ⟨hend, heq⟩ | ⟨p, hpass, hp, henf, heq⟩ := hcases
  · refine .inl ⟨?_, congrArg Prod.snd heq⟩
    rcases hend with hblock | hpassive
    · simp [hblock]
    · simp [any_enforcing_eq_false hpassive]
  · refine .inr ⟨p, hp, henf, by simp [hpass, hp, henf], ?_⟩
    show (pr.onRequestHeaders w x.headers (received attributes st)).map some id = _
    rw [heq]

theorem response_course (st : Exec) {x : Exchange}
    (hone : OneChunk pr w .response st (.responseHeaders x.headers) x) :
    ∃ d t, (responsePrelude pr.deps).run w w.ctx (loadResponse x.headers st) = (d, t) ∧
      Opened .response t ∧
      Course pr w .response (responseAsksBody pr w x.headers st) x.parts.flatten d t
        (deliver pr w st (.responseHeaders x.headers :: x.following .response)) := by
  have hrel := (responsePrelude_spec pr.deps w w.ctx (loadResponse x.headers st)).rel
  obtain ⟨d, t, hrun, hcases⟩ := onResponseHeaders_cases pr w x.headers st
  rw [hrun] at hrel
  have ho := (loadResponse_opened x.headers st).resolving hrel
  refine ⟨d, t, hrun, ho, headers_course ho Processor.responseReply (fun _ => rfl) ?_ hone⟩
  unfold responseAsksBody
  rw [hrun]
  obtain ⟨hpassive, heq⟩ | ⟨p, hp, henf, heq⟩ := hcases
  · exact .inl ⟨any_enforcing_eq_false hpassive, congrArg Prod.snd heq⟩
  · refine .inr ⟨p, hp, henf, by simp [hp, henf], ?_⟩
    show (pr.onResponseHeaders w x.headers st).map some id = _
    rw [heq]

/-- A new stream is open for its request. -/
theorem newStream_opened (pr : Processor) (w : World) (snap : Snapshot) (attributes : List Bytes)
    (h : HttpHeaders) :
    Opened .request (Processor.loadRequest w h (received attributes (pr.newStream snap))) := by
  obtain ⟨requestID, hload⟩ := loadRequest_spec w h (received attributes (pr.newStream snap))
  refine ⟨?_, ?_, ?_, ?_, ?_, ?_, ?_⟩ <;> rw [hload] <;> rfl

end

end

end ElchiShield.Extproc
