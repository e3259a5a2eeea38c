import ElchiShield.Extproc.BodyPhase
import ElchiShield.Lib.Latched

/-! # What one direction leaves in the trail

Behind the headers of a direction every message adds its bytes to what is buffered, whichever
direction it is of, and some have what is there inspected. So the inspections of a direction are
the looks at what has come in since its headers. -/
namespace ElchiShield.Extproc
open ElchiShield.Go ElchiShield.Lib ElchiShield.Engine ElchiShield.Policy ElchiShield.Runtime
open ElchiShield.Pipeline ElchiShield.Stages

/-! ## Messages -/

/-- A body or trailers message. -/
def Message.follows : Message → Bool
  | .requestBody _ | .requestTrailers | .responseBody _ | .responseTrailers => true
  | _ => false

def Message.ofRequest : Message → Bool
  | .requestHeaders .. | .requestBody _ | .requestTrailers => true
  | _ => false

def Message.bytes : Message → Bytes
  | .requestBody b | .responseBody b => b.body
  | _ => []

/-- Under the policy, the message has what is buffered inspected: it ends its direction, or it is
a body that the policy rewrites. -/
def Message.asks (policy : Option CompiledPolicy) : Message → Bool
  | .requestHeaders _ h | .responseHeaders h => h.endOfStream
  | .requestBody b => b.endOfStream || policy.any (·.mutatesBody .request)
  | .responseBody b => b.endOfStream || policy.any (·.mutatesBody .response)
  | .requestTrailers | .responseTrailers => true
  | .other => false

theorem Exchange.following_mem {x : Exchange} {dir : Direction} {m : Message}
    (h : m ∈ x.following dir) : m.follows = true ∧ m.ofRequest = (dir = .request : Bool) := by
  have hbody : ∀ chunk endOfStream, (bodyMessage dir chunk endOfStream).follows = true ∧
      (bodyMessage dir chunk endOfStream).ofRequest = (dir = .request : Bool) := by
    intro chunk endOfStream
    cases dir <;> exact ⟨rfl, rfl⟩
  unfold Exchange.following at h
  split at h
  · cases h
  next r _ =>
    rcases List.mem_append.mp h with h | h
    · obtain ⟨chunk, -, rfl⟩ := List.mem_map.mp h
      exact hbody chunk false
    · obtain rfl := List.mem_singleton.mp h
      cases r.last with
      | some chunk => exact hbody chunk true
      | none => cases dir <;> exact ⟨rfl, rfl⟩

theorem Exchange.following_bytes (x : Exchange) (dir : Direction) :
    (x.following dir).flatMap Message.bytes = x.parts.flatten := by
  have hbody : ∀ chunk endOfStream, (bodyMessage dir chunk endOfStream).bytes = chunk := by
    intro chunk endOfStream
    cases dir <;> rfl
  have hlast : ∀ last, (lastMessage dir last).bytes = last.toList.flatten := by
    intro last
    cases last with
    | some chunk => simp [lastMessage, hbody]
    | none => cases dir <;> rfl
  unfold Exchange.following Exchange.parts
  cases x.rest with
  | none => rfl
  | some r =>
    simp [Remainder.messages, Remainder.parts, List.flatMap_def, Function.comp_def, hbody, hlast]

/-- The last message of an exchange asks for the inspection. -/
theorem Exchange.last_asks (x : Exchange) (dir : Direction) {m : Message}
    (hm : ∀ policy, m.asks policy = x.headers.endOfStream) (policy : Option CompiledPolicy) :
    ∃ last, (m :: x.following dir).getLast? = some last ∧ last.asks policy = true := by
  unfold Exchange.following
  cases hrest : x.rest with
  | none => exact ⟨m, rfl, by rw [hm, x.ended, hrest]; rfl⟩
  | some r =>
    refine ⟨lastMessage dir r.last, by simp [Remainder.messages, List.getLast?_cons], ?_⟩
    cases r.last with
    | some chunk => cases dir <;> rfl
    | none => cases dir <;> rfl

/-! ## What a direction leaves in the trail -/

def bodyOf (dir : Direction) : Effect → Option Bytes
  | .started name tx => if name = bodyPipelineName dir then some tx.body else none
  | _ => none

/-- The bodies the body pipeline of the direction was started on. -/
def bodies (dir : Direction) (es : List Effect) : List Bytes := es.filterMap (bodyOf dir)

/-- The direction was inspected and finished so often, and the other one not at all. -/
structure Segment (dir : Direction) (inspected finished : Nat) (es : List Effect) : Prop where
  inspected : (bodies dir es).length = inspected
  finished : es.countP (finishes dir) = finished
  others : ∀ dir', dir' ≠ dir → bodies dir' es = [] ∧ es.countP (finishes dir') = 0

section
variable {dir : Direction} {m n k l : Nat} {es fs : List Effect}

theorem bodies_append (dir : Direction) (es fs : List Effect) :
    bodies dir (es ++ fs) = bodies dir es ++ bodies dir fs :=
  List.filterMap_append

theorem Segment.nil (dir : Direction) : Segment dir 0 0 [] :=
  ⟨rfl, rfl, fun _ _ => ⟨rfl, rfl⟩⟩

theorem Segment.append (h : Segment dir m n es) (h' : Segment dir k l fs) :
    Segment dir (m + k) (n + l) (es ++ fs) := by
  refine ⟨?_, ?_, fun dir' hne => ⟨?_, ?_⟩⟩
  · rw [bodies_append, List.length_append, h.inspected, h'.inspected]
  · rw [List.countP_append, h.finished, h'.finished]
  · rw [bodies_append, (h.others dir' hne).1, (h'.others dir' hne).1]
    rfl
  · rw [List.countP_append, (h.others dir' hne).2, (h'.others dir' hne).2]

theorem outerName_ne_body (dir dir' : Direction) :
    directionName dir ++ ascii "_header" ≠ bodyPipelineName dir' ∧
      directionName dir ++ ascii "_prelude" ≠ bodyPipelineName dir' := by
  cases dir <;> cases dir' <;> decide

theorem segment_finished (phase : Audit.Phase) (hphase : phase.direction = dir) (d : Decision) :
    Segment dir 0 1 [.finished phase d] := by
  refine ⟨rfl, by simp [finishes, hphase], fun dir' hne => ⟨rfl, ?_⟩⟩
  simp [finishes, hphase, hne.symm]

theorem segment_started {name : Bytes} (hname : ∀ dir', name ≠ bodyPipelineName dir')
    (tx : Transaction) : Segment dir 0 0 [.started name tx] := by
  refine ⟨?_, rfl, fun dir' _ => ⟨?_, rfl⟩⟩ <;> simp [bodies, bodyOf, hname]

theorem bodyName_ne {dir' : Direction} (hne : dir' ≠ dir) :
    bodyPipelineName dir ≠ bodyPipelineName dir' := by
  cases dir <;> cases dir' <;> first | exact absurd rfl hne | decide

theorem bodies_started (dir : Direction) (tx : Transaction) (d : Decision) :
    bodies dir [.started (bodyPipelineName dir) tx, .finished (Audit.bodyPhase dir) d] = [tx.body] := by
  simp [bodies, bodyOf]

theorem segment_body (dir : Direction) (tx : Transaction) (d : Decision) : Segment dir 1 1
    [.started (bodyPipelineName dir) tx, .finished (Audit.bodyPhase dir) d] := by
  refine ⟨by rw [bodies_started]; rfl, ?_, fun dir' hne => ⟨?_, ?_⟩⟩
  · cases dir <;> rfl
  · simp [bodies, bodyOf, bodyName_ne hne]
  · cases dir <;> cases dir' <;> first | exact absurd rfl hne | rfl

end

/-! ## Messages behind headers that asked for the body -/

section
variable [Library] {pr : Processor} {w : World} {st t : Exec} {dir : Direction} {p : CompiledPolicy}
  {m : Message} {ms : List Message}

/-- The headers of the direction have asked for its body. -/
structure Asked (pr : Processor) (dir : Direction) (p : CompiledPolicy) (st : Exec) : Prop where
  policy : st.tx.policy = some p
  enforcing : p.enforcing = true
  flagged : flagged st.tx = true
  built : ∃ pp, pr.policyPipelines p = .ok pp
  direction : st.tx.direction = dir

/-- Behind a message that asks, the body pipeline has run if there was something new. -/
theorem Asked.inspectBufferedBody (h : Asked pr dir p st) (w : World)
    (hnew : st.tx.bodyInspected = false) :
    Asked pr dir p (pr.inspectBufferedBody w st).2 ∧
      (pr.inspectBufferedBody w st).2.tx.bodyInspected = true ∧
      (pr.inspectBufferedBody w st).2.tx.bodyTruncated = st.tx.bodyTruncated ∧
      ∃ d, trail (pr.inspectBufferedBody w st).2 = trail st ++
        [.started (bodyPipelineName dir) (latched st).tx, .finished (Audit.bodyPhase dir) d] := by
  have hflagged := inspectBufferedBody_flagged pr w st
  have hpolicy := inspectBufferedBody_policy pr w st
  obtain ⟨hnot, -⟩ | ⟨q, d, t, hdue, hrun, heq⟩ := inspectBufferedBody_cases pr w st
  · exact absurd ⟨h.policy, h.enforcing, hnew, h.flagged⟩ (hnot p)
  obtain rfl := Option.some.inj (hdue.policy.symm.trans h.policy)
  obtain ⟨pp, hpp⟩ := h.built
  rw [h.direction] at hrun heq
  have hpinned := hrun.inspection.pinned
  rw [heq] at hflagged hpolicy ⊢
  refine ⟨⟨hpolicy.trans h.policy, h.enforcing, hflagged.trans h.flagged, h.built, ?_⟩, ?_, ?_, d, ?_⟩
  · rw [finish_keeps Transaction.direction (fun _ => rfl), ← h.direction]
    exact (congrArg Transaction.direction hpinned :)
  · rw [finish_keeps Transaction.bodyInspected (fun _ => rfl)]
    exact (congrArg Transaction.bodyInspected hpinned :)
  · rw [finish_keeps Transaction.bodyTruncated (fun _ => rfl)]
    exact (congrArg Transaction.bodyTruncated hpinned :)
  · rw [(finish_spec pr w (Audit.bodyPhase dir) d t).2.2, hrun.trail hpp, phasePipeline_body,
      (buildPolicyPipelines_spec hpp dir).2.name, List.append_assoc]
    rfl

/-- What was inspected is not inspected again. -/
theorem inspectBufferedBody_seen (h : st.tx.bodyInspected = true) :
    pr.inspectBufferedBody w st = (none, st) := by
  obtain ⟨-, heq⟩ | ⟨q, d, t, hdue, -⟩ := inspectBufferedBody_cases pr w st
  · exact heq
  · cases h.symm.trans hdue.inspected

/-- The bytes of a message are buffered, which opens the inspection again; and then inspected, if
the message asks for it. -/
theorem Asked.handle_follows (h : Asked pr dir p st) (w : World) (hm : m.follows = true) :
    ∃ u, Asked pr dir p u ∧ trail u = trail st ∧
      u.tx.bodyInspected = (st.tx.bodyInspected && m.bytes.isEmpty) ∧
      (u.tx.bodyTruncated = false → u.tx.body = st.tx.body ++ m.bytes) ∧
      (pr.handle w st m).2 =
        if m.asks (some p) then (pr.inspectBufferedBody w u).2 else u := by
  have hbody : ∀ (d : Direction) (b : HttpBody), ∃ u, Asked pr dir p u ∧ trail u = trail st ∧
      u.tx.bodyInspected = (st.tx.bodyInspected && b.body.isEmpty) ∧
      (u.tx.bodyTruncated = false → u.tx.body = st.tx.body ++ b.body) ∧
      (pr.onBody w d b st).2 =
        if b.endOfStream || p.mutatesBody d then (pr.inspectBufferedBody w u).2 else u := by
    intro d b
    have htrail := buffered_trail pr w d b.body st
    obtain ⟨_, _, _, _, _, hbuf, -, hwhole, -⟩ := buffered_spec pr w d b.body st
    rw [hbuf] at htrail
    refine ⟨buffered pr w d b.body st, ?_, ?_, ?_, ?_, ?_⟩
    · rw [hbuf]
      exact ⟨h.policy, h.enforcing, h.flagged, h.built, h.direction⟩
    · rw [hbuf, htrail]
    · rw [hbuf]
      cases b.body <;> simp
    · rw [hbuf]
      exact fun hfull => (hwhole hfull).2
    · cases hlast : b.endOfStream || p.mutatesBody d with
      | true => exact onBody_last h.policy hlast
      | false =>
        rw [onBody_more h.policy hlast]
        rfl
  have htrailers : ∃ u, Asked pr dir p u ∧ trail u = trail st ∧
      u.tx.bodyInspected = (st.tx.bodyInspected && List.isEmpty ([] : Bytes)) ∧
      (u.tx.bodyTruncated = false → u.tx.body = st.tx.body ++ []) ∧
      (pr.inspectBufferedBody w st).2 =
        if true then (pr.inspectBufferedBody w u).2 else u :=
    ⟨st, h, rfl, by simp, by simp, rfl⟩
  cases m with
  | requestBody b => exact hbody .request b
  | responseBody b => exact hbody .response b
  | requestTrailers => exact htrailers
  | responseTrailers => exact htrailers
  | _ => cases hm

/-- Nothing is blocked, and no cap and no grant cuts a chunk short. -/
def Untroubled (pr : Processor) (w : World) (st : Exec) (ms : List Message) : Prop :=
  ∀ e ∈ trace (pr.handle w) st ms,
    e.output.any ProcessingResponse.isImmediate = false ∧ e.after.tx.bodyTruncated = false

theorem Untroubled.cons (h : Untroubled pr w st (m :: ms)) :
    (pr.handle w st m).1.any ProcessingResponse.isImmediate = false ∧
      (pr.handle w st m).2.tx.bodyTruncated = false ∧ Untroubled pr w (pr.handle w st m).2 ms := by
  obtain ⟨⟨hpass, hwhole⟩, hrest⟩ := List.forall_mem_cons.mp h
  exact ⟨hpass, hwhole, hrest⟩

theorem Untroubled.append {l r : List Message} (h : Untroubled pr w st (l ++ r)) :
    Untroubled pr w st l ∧ Untroubled pr w (runFrom (pr.handle w) st l) r := by
  unfold Untroubled at h
  rw [trace_append] at h
  exact List.forall_mem_append.mp h

/-- Messages behind headers that asked for the body: the direction is inspected as often as they
have what is there looked at, and first on what has come in until then. -/
theorem Asked.run (h : Asked pr dir p st) (hms : ∀ m ∈ ms, m.follows = true)
    (hun : Untroubled pr w st ms) :
    let n := looks Message.bytes (Message.asks (some p)) st.tx.bodyInspected ms
    ∃ es, trail (runFrom (pr.handle w) st ms) = trail st ++ es ∧ Segment dir n n es ∧
      (st.tx.bodyInspected = false → ∀ b, (bodies dir es).head? = some b →
        b = st.tx.body ++ firstLook Message.bytes (Message.asks (some p)) ms) := by
  induction ms generalizing st with
  | nil => exact ⟨[], by simp [runFrom], .nil dir, by simp [bodies]⟩
  | cons m ms ih =>
    obtain ⟨hm, hrest⟩ := List.forall_mem_cons.mp hms
    obtain ⟨-, hwhole, hun⟩ := hun.cons
    obtain ⟨u, hu, htrail, hseen, hbytes, heq⟩ := h.handle_follows w hm
    show ∃ es, trail (runFrom (pr.handle w) (pr.handle w st m).2 ms) = _ ∧ _
    rw [looks, firstLook, ← hseen]
    cases hasks : m.asks (some p) with
    | false =>
      rw [if_neg (by simp [hasks])] at heq
      rw [heq] at hun hwhole ⊢
      obtain ⟨es, hes, hsegment, hfirst⟩ := ih hu hrest hun
      refine ⟨es, by rw [hes, htrail], by simpa using hsegment, fun hnew b hb => ?_⟩
      rw [hfirst (by rw [hseen, hnew]; rfl) b hb, hbytes hwhole, List.append_assoc]
      simp
    | true =>
      rw [if_pos hasks] at heq
      cases hnew : u.tx.bodyInspected with
      | true =>
        rw [inspectBufferedBody_seen hnew] at heq
        rw [heq] at hun hwhole ⊢
        obtain ⟨es, hes, hsegment, -⟩ := ih hu hrest hun
        rw [hnew] at hsegment
        refine ⟨es, by rw [hes, htrail], by simpa using hsegment, fun hseen' => ?_⟩
        rw [hnew, hseen'] at hseen
        cases hseen
      | false =>
        obtain ⟨hv, hlatched, htruncated, d, hrun⟩ := hu.inspectBufferedBody w hnew
        rw [heq] at hun hwhole ⊢
        obtain ⟨es, hes, hsegment, -⟩ := ih hv hrest hun
        rw [hlatched] at hsegment
        refine ⟨_, by rw [hes, hrun, htrail, List.append_assoc], ?_, fun _ b hb => ?_⟩
        · simpa [Nat.add_comm] using (segment_body dir (latched u).tx d).append hsegment
        · rw [bodies_append, bodies_started] at hb
          obtain rfl : u.tx.body = b := by simpa using hb
          exact hbytes (htruncated ▸ hwhole)

/-! ## Messages behind headers that asked for nothing -/

theorem Idle.handle_follows (h : Idle st) (pr : Processor) (w : World) (hm : m.follows = true) :
    Idle (pr.handle w st m).2 ∧ trail (pr.handle w st m).2 = trail st := by
  have hbody : ∀ dir b, Idle (pr.onBody w dir b st).2 ∧ trail (pr.onBody w dir b st).2 = trail st :=
    fun dir b => (h.onBody b).imp_right Buffering.trail
  have htrailers : ∀ dir, Idle (pr.onTrailers w dir st).2 ∧
      trail (pr.onTrailers w dir st).2 = trail st := by
    intro dir
    rw [h.onTrailers]
    exact ⟨h, rfl⟩
  cases m with
  | requestBody b => exact hbody .request b
  | responseBody b => exact hbody .response b
  | requestTrailers => exact htrailers .request
  | responseTrailers => exact htrailers .response
  | _ => cases hm

theorem Idle.run (h : Idle st) (hms : ∀ m ∈ ms, m.follows = true) :
    trail (runFrom (pr.handle w) st ms) = trail st := by
  refine (runFrom_invariant (I := fun t => Idle t ∧ trail t = trail st) ?_ ⟨h, rfl⟩).2
  intro m hm t ht
  exact (ht.1.handle_follows pr w (hms m hm)).imp_right (·.trans ht.2)

/-! ## Headers -/

/-- What headers leave: a direction that is finished, or one that waits for its body, which is
inspected already if the headers end the stream. -/
inductive Opens (pr : Processor) (dir : Direction) (asked endOfStream : Bool) (st u : Exec) : Prop where
  | ended {es : List Effect} (asks : asked = false) (trail : trail u = trail st ++ es)
      (effects : Segment dir 0 1 es) (idle : Idle u)
  | waits {p : CompiledPolicy} {es : List Effect} (asks : asked = true) (state : Asked pr dir p u)
      (inspected : u.tx.bodyInspected = endOfStream) (trail : trail u = trail st ++ es)
      (effects : Segment dir endOfStream.toNat endOfStream.toNat es)
      (first : endOfStream = true → bodies dir es = [[]])
      (fresh : endOfStream = false → u.tx.body = [])

variable {asked endOfStream : Bool} {d : Decision} {u : Exec}

theorem inspected_segment (h : Inspected pr w p (Audit.headersPhase dir) st d t) :
    ∃ es, trail (pr.finish w (Audit.headersPhase dir) d t) = trail st ++ es ∧ Segment dir 0 1 es := by
  have hfinished : Segment dir 0 1 [.finished (Audit.headersPhase dir) d] :=
    segment_finished _ (by cases dir <;> rfl) d
  rw [(finish_spec pr w (Audit.headersPhase dir) d t).2.2]
  cases h with
  | unbuilt e build decision state =>
    rw [state]
    exact ⟨_, rfl, hfinished⟩
  | ran pp build run =>
    rw [(Inspected.ran pp build run).trail build, List.append_assoc, phasePipeline_headers,
      (buildPolicyPipelines_spec build dir).1.name]
    exact ⟨_, rfl, (segment_started (fun dir' => (outerName_ne_body dir dir').1) _).append hfinished⟩

theorem Inspected.asksBody (h : Inspected pr w p (Audit.headersPhase dir) st d t) {pp : PolicyPipelines}
    (hpp : pr.policyPipelines p = .ok pp) :
    asksBody pr w dir p st = (!d.isBlock && flagged t.tx) := by
  cases h with
  | unbuilt e build => cases hpp.symm.trans build
  | ran pp' build run =>
    rw [phasePipeline_headers] at run
    simp [Extproc.asksBody, build, run, flagged]

/-- Headers once the prelude has ended in `t`. -/
theorem headers_open (ho : Opened dir t)
    (hcases : (asked = false ∧ ∃ d, u = pr.finish w (Audit.headersPhase dir) d t) ∨
      ∃ p reply, t.tx.policy = some p ∧ p.enforcing = true ∧ asked = asksBody pr w dir p t ∧
        (pr.inspectHeaders w dir reply endOfStream p t).1.isImmediate = false ∧
        u = (pr.inspectHeaders w dir reply endOfStream p t).2) :
    Opens pr dir asked endOfStream t u := by
  obtain ⟨hasked, d, rfl⟩ | ⟨p, reply, hp, henf, rfl, hpass, rfl⟩ := hcases
  · exact .ended hasked (finish_spec pr w _ d t).2.2
      (segment_finished _ (by cases dir <;> rfl) d) (ho.idle.finish pr w _ d)
  obtain ⟨d, v, hrun, ⟨c, -, hend, hasks, heq⟩ | ⟨hd, hasked, ⟨pp, hpp⟩, f, rfl, heq⟩⟩ :=
    inspectHeaders_cases pr w dir reply endOfStream p t
  · rw [heq] at hpass ⊢
    obtain ⟨es, hes, hsegment⟩ := inspected_segment hrun
    refine .ended hasks hes hsegment ?_
    rcases hend with hblock | hnone | rfl
    · cases hblock.symm.trans (not_block_of_reply hpass)
    · exact Idle.finish (fun _ _ _ => hnone) pr w _ d
    · exact ho.idle.finish pr w _ d
  · have hasks : asksBody pr w dir p t = true := by
      rw [hrun.asksBody hpp, hd, flagged, hasked]
      rfl
    have hnoted := headerFindings_noted pr w (Audit.headersPhase dir) d v
    have hpending := pending_of_inspected ho hp henf hrun hasked ⟨pp, hpp⟩ hnoted
    have hbody : (headerFindings pr w (Audit.headersPhase dir) d v).tx.body = [] := by
      rw [hnoted.tx, hrun.body, ho.body]
    have hstate : Asked pr dir p (headerFindings pr w (Audit.headersPhase dir) d v) :=
      ⟨hpending.due.policy, henf, hpending.due.asked, ⟨pp, hpp⟩, hpending.direction⟩
    have hstarted : Segment dir 0 0 [.started (directionName dir ++ ascii "_header") t.tx] :=
      segment_started (fun dir' => (outerName_ne_body dir dir').1) _
    rw [heq]
    cases endOfStream with
    | false =>
      exact .waits hasks hstate hpending.due.inspected hpending.trail hstarted (by simp) fun _ => hbody
    | true =>
      obtain ⟨hstate', hlatched, -, db, htrail⟩ :=
        hstate.inspectBufferedBody w hpending.due.inspected
      refine .waits hasks hstate' hlatched (by rw [if_pos rfl, htrail, hpending.trail, List.append_assoc])
        (hstarted.append (segment_body dir _ db)) (fun _ => ?_) (by simp)
      rw [bodies_append, bodies_started, List.length_eq_zero_iff.mp hstarted.inspected]
      simp [hbody]

/-- The prelude before. -/
theorem Opens.after_prelude {q : Pipeline} {a : Exec} (h : Opens pr dir asked endOfStream t u)
    (hrel : Resolving (q.start a) t) (ha : trail a = trail st)
    (hname : q.name = directionName dir ++ ascii "_prelude") :
    Opens pr dir asked endOfStream st u := by
  have hstarted : Segment dir 0 0 [.started q.name a.tx] :=
    segment_started (fun dir' => hname ▸ (outerName_ne_body dir dir').2) _
  have hprelude : trail t = trail st ++ [.started q.name a.tx] := by
    rw [trail_outer hrel.outer, trail_start, ha]
  cases h with
  | ended asks htrail effects idle =>
    exact .ended asks (by rw [htrail, hprelude, List.append_assoc]) (hstarted.append effects) idle
  | waits asks state inspected htrail effects first fresh =>
    refine .waits asks state inspected (by rw [htrail, hprelude, List.append_assoc])
      (by simpa using hstarted.append effects) (fun heos => ?_) fresh
    rw [bodies_append, first heos, List.length_eq_zero_iff.mp hstarted.inspected, List.nil_append]

theorem requestHeaders_opens {attributes : List Bytes} {h : HttpHeaders}
    (ho : Opened .request (Processor.loadRequest w h (received attributes st)))
    (hset : st.tx.requestSettled = false)
    (hpass : (pr.handle w st (.requestHeaders attributes h)).1.any
      ProcessingResponse.isImmediate = false) :
    Opens pr .request (requestAsksBody pr w h (received attributes st)) h.endOfStream st
      (pr.handle w st (.requestHeaders attributes h)).2 := by
  have hpass : (pr.onRequestHeaders w h (received attributes st)).1.isImmediate = false := hpass
  show Opens pr .request _ _ st (pr.onRequestHeaders w h (received attributes st)).2
  obtain ⟨d, t, hrun, hcases⟩ := onRequestHeaders_cases pr w h
    (show (received attributes st).tx.requestSettled = false from hset)
  have hrel := (requestPrelude_spec pr.deps w w.ctx
    (Processor.loadRequest w h (received attributes st))).rel
  rw [← preludeOf, hrun] at hrel
  refine (headers_open (w := w) (ho.resolving hrel) ?_).after_prelude hrel
    (loadRequest_trail w h _) rfl
  unfold requestAsksBody
  rw [hrun]
  obtain ⟨hend, heq⟩ | ⟨p, hd, hp, henf, heq⟩ := hcases
  · refine .inl ⟨?_, d, congrArg Prod.snd heq⟩
    rcases hend with hblock | hpassive
    · simp [hblock]
    · simp [any_enforcing_eq_false hpassive]
  · rw [heq] at hpass ⊢
    exact .inr ⟨p, _, hp, henf, by simp [hd, hp, henf], hpass, rfl⟩

theorem responseHeaders_opens {h : HttpHeaders}
    (hpass : (pr.handle w st (.responseHeaders h)).1.any ProcessingResponse.isImmediate = false) :
    Opens pr .response (responseAsksBody pr w h st) h.endOfStream st
      (pr.handle w st (.responseHeaders h)).2 := by
  have hpass : (pr.onResponseHeaders w h st).1.isImmediate = false := hpass
  show Opens pr .response _ _ st (pr.onResponseHeaders w h st).2
  obtain ⟨d, t, hrun, hcases⟩ := onResponseHeaders_cases pr w h st
  have hrel := (responsePrelude_spec pr.deps w w.ctx (loadResponse h st)).rel
  rw [hrun] at hrel
  refine (headers_open (w := w) ((loadResponse_opened h st).resolving hrel) ?_).after_prelude hrel
    (loadResponse_trail h st) rfl
  unfold responseAsksBody
  rw [hrun]
  obtain ⟨hpassive, heq⟩ | ⟨p, hp, henf, heq⟩ := hcases
  · exact .inl ⟨any_enforcing_eq_false hpassive, d, congrArg Prod.snd heq⟩
  · rw [heq] at hpass ⊢
    exact .inr ⟨p, _, hp, henf, by simp [hp, henf], hpass, rfl⟩

/-! ## One direction -/

/-- The effects of a direction whose headers asked for the body, or did not, and whose messages are
those of the list, with whatever else came in between. -/
structure Inspects (dir : Direction) (asked : Bool) (policy : Option CompiledPolicy)
    (ms : List Message) (es : List Effect) : Prop where
  ended : asked = false → Segment dir 0 1 es
  looked : asked = true → Segment dir (looks Message.bytes (Message.asks policy) false ms)
    (looks Message.bytes (Message.asks policy) false ms) es
  first : asked = true → ∀ b, (bodies dir es).head? = some b →
    b = firstLook Message.bytes (Message.asks policy) ms

theorem Opens.run (h : Opens pr dir asked endOfStream st u) (hms : ∀ m ∈ ms, m.follows = true)
    (hun : Untroubled pr w u ms) (hasks : ∀ policy, m.asks policy = endOfStream) (hbytes : m.bytes = []) :
    ∃ es, trail (runFrom (pr.handle w) u ms) = trail st ++ es ∧
      Inspects dir asked u.tx.policy (m :: ms) es := by
  cases h with
  | @ended es asks htrail effects idle =>
    refine ⟨es, by rw [idle.run hms, htrail], fun _ => effects, ?_, ?_⟩ <;> intro hasked <;>
      cases asks.symm.trans hasked
  | @waits p es asks state inspected htrail effects first fresh =>
    obtain ⟨fs, hfs, hsegment, hfirst⟩ := state.run hms hun
    rw [state.policy]
    refine ⟨es ++ fs, by rw [hfs, htrail, List.append_assoc], fun hno => ?_, fun _ => ?_, fun _ b hb => ?_⟩
    · cases hno.symm.trans asks
    · have hall := effects.append hsegment
      rw [inspected] at hall
      rw [looks, hasks, hbytes]
      cases endOfStream with
      | false => simpa using hall
      | true => simpa [Nat.add_comm] using hall
    · rw [bodies_append] at hb
      rw [firstLook, hasks, hbytes]
      cases endOfStream with
      | false =>
        rw [List.length_eq_zero_iff.mp effects.inspected, List.nil_append] at hb
        rw [hfirst inspected b hb, fresh rfl]
        simp
      | true =>
        rw [first rfl] at hb
        simpa using hb.symm

end

end ElchiShield.Extproc
