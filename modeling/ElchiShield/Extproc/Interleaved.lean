import ElchiShield.Extproc.Directions
import ElchiShield.Extproc.FailClosed
import ElchiShield.Lib.Interleaving

/-! # The two directions of a stream

Both directions share one transaction: the response headers clear the buffer and the flags of the
request, and what the request sends after them goes to the response. Here are the orders of
messages in which each direction is inspected as if it were alone. -/
namespace ElchiShield.Extproc
open ElchiShield.Go ElchiShield.Lib ElchiShield.Engine ElchiShield.Policy ElchiShield.Runtime
open ElchiShield.Pipeline ElchiShield.Stages

/-! ## Early and late messages -/

def Message.opensResponse : Message → Bool
  | .responseHeaders _ => true
  | _ => false

/-- The messages before the response headers, and those after them. -/
def early (ms : List Message) : List Message := ms.takeWhile fun m => !m.opensResponse

def late (ms : List Message) : List Message := (ms.dropWhile fun m => !m.opensResponse).tail

theorem early_late {pre : List Message} (hpre : ∀ m ∈ pre, m.follows = true) (h : HttpHeaders)
    (post : List Message) :
    early (pre ++ .responseHeaders h :: post) = pre ∧
      late (pre ++ .responseHeaders h :: post) = post := by
  have hnot : ∀ m ∈ pre, (!m.opensResponse) = true := by
    intro m hm
    have hfollows := hpre m hm
    cases m <;> first | rfl | cases hfollows
  unfold early late
  rw [List.takeWhile_append_of_pos hnot, List.dropWhile_append_of_pos hnot]
  simp [Message.opensResponse]

section
variable [Library] {pr : Processor} {w : World} {st t : Exec} {dir : Direction} {p : CompiledPolicy}
  {m : Message} {ms : List Message} {asked endOfStream : Bool}

/-! ## Interleaved directions -/

theorem onBody_policy (pr : Processor) (w : World) (dir : Direction) (b : HttpBody) (st : Exec) :
    (pr.onBody w dir b st).2.tx.policy = st.tx.policy := by
  obtain ⟨_, _, _, _, _, hbuf, -⟩ := buffered_spec pr w dir b.body st
  obtain ⟨-, heq⟩ | ⟨p, u, -, rfl, ⟨-, heq⟩ | ⟨-, bd, v, hrun, heq⟩⟩ := onBody_cases pr w dir b st
  · rw [heq]
  · rw [heq, hbuf]
  · have hpolicy := inspectBufferedBody_policy pr w (buffered pr w dir b.body st)
    rw [hrun, hbuf] at hpolicy
    rw [heq]
    exact hpolicy

theorem follows_policy (hms : ∀ m ∈ ms, m.follows = true) (st : Exec) :
    (runFrom (pr.handle w) st ms).tx.policy = st.tx.policy := by
  refine runFrom_invariant (I := fun t : Exec => t.tx.policy = st.tx.policy) ?_ rfl
  intro m hm t ht
  refine Eq.trans ?_ ht
  have hfollows := hms m hm
  cases m with
  | requestBody b => exact onBody_policy pr w .request b t
  | responseBody b => exact onBody_policy pr w .response b t
  | requestTrailers => exact inspectBufferedBody_policy pr w t
  | responseTrailers => exact inspectBufferedBody_policy pr w t
  | _ => cases hfollows

theorem responseHeaders_policy (pr : Processor) (w : World) (h : HttpHeaders) (st : Exec) :
    (pr.handle w st (.responseHeaders h)).2.tx.policy = st.tx.policy := by
  obtain ⟨⟨d, t⟩, hrun⟩ : ∃ r, (responsePrelude pr.deps).run w w.ctx (loadResponse h st) = r :=
    ⟨_, rfl⟩
  have hpolicy := responsePrelude_policy pr.deps w w.ctx (loadResponse h st)
  obtain ⟨reserved, log, hbegin, -⟩ := beginResponse_spec st
  rw [hrun, loadResponse, hbegin] at hpolicy
  exact (onResponseHeaders_policy hrun).trans hpolicy

/-- The policy a stream is governed by after its request headers. -/
def streamPolicy (pr : Processor) (w : World) (snap : Snapshot) (attributes : List Bytes)
    (h : HttpHeaders) : Option CompiledPolicy :=
  (pr.handle w (pr.newStream snap) (.requestHeaders attributes h)).2.tx.policy

/-- The effects of a stream that gets the messages `ms`. -/
def effects (pr : Processor) (w : World) (snap : Snapshot) (ms : List Message) : List Effect :=
  trail (runFrom (pr.handle w) (pr.newStream snap) ms)

/-- The effects of the messages up to the response headers are those of the request, and the
others those of the response. -/
theorem effects_split {snap : Snapshot} {attributes : List Bytes} {h h' : HttpHeaders}
    {pre post : List Message} (hpre : ∀ m ∈ pre, m.follows = true)
    (hpost : ∀ m ∈ post, m.follows = true)
    (hun : Untroubled pr w (pr.newStream snap)
      (.requestHeaders attributes h :: (pre ++ .responseHeaders h' :: post))) :
    ∃ es fs, effects pr w snap (.requestHeaders attributes h :: (pre ++ .responseHeaders h' :: post)) =
        es ++ fs ∧
      Inspects .request (requestAsksBody pr w h (received attributes (pr.newStream snap)))
        (streamPolicy pr w snap attributes h) (.requestHeaders attributes h :: pre) es ∧
      Inspects .response (responseAsksBody pr w h'
          (runFrom (pr.handle w) (pr.newStream snap) (.requestHeaders attributes h :: pre)))
        (streamPolicy pr w snap attributes h) (.responseHeaders h' :: post) fs := by
  obtain ⟨hpass, -, hun⟩ := hun.cons
  obtain ⟨hun, hrest⟩ := hun.append
  obtain ⟨hpass', -, hrest⟩ := hrest.cons
  obtain ⟨es, hes, hrequest⟩ := (requestHeaders_opens (newStream_opened pr w snap attributes h) rfl
    hpass).run (m := .requestHeaders attributes h) hpre hun (fun _ => rfl) rfl
  obtain ⟨fs, hfs, hresponse⟩ := (responseHeaders_opens hpass').run (m := .responseHeaders h') hpost
    hrest (fun _ => rfl) rfl
  rw [responseHeaders_policy, follows_policy hpre] at hresponse
  refine ⟨es, fs, ?_, hrequest, hresponse⟩
  show trail (runFrom (pr.handle w) (pr.handle w (pr.newStream snap) _).2 (pre ++ _ :: post)) = _
  rw [runFrom_append]
  show trail (runFrom (pr.handle w) (pr.handle w _ _).2 post) = _
  rw [hfs, hes]
  rfl

/-- The messages of a request and then those of a response. -/
def inSequence (attributes : List Bytes) (x y : Exchange) : List Message :=
  .requestHeaders attributes x.headers ::
    (x.following .request ++ .responseHeaders y.headers :: y.following .response)

/-- The body pipeline of the direction runs on the body that was sent, if it runs; and the
direction is inspected and finished as often as in sequence. -/
structure Alone (dir : Direction) (body : Bytes) (es seq : List Effect) : Prop where
  bodies : bodies dir es = [] ∨ bodies dir es = [body]
  inspected : (Extproc.bodies dir es).length = (Extproc.bodies dir seq).length
  finished : es.countP (finishes dir) = seq.countP (finishes dir)

/-- The messages `ms` of the request `x` and the response `y` have each direction inspected as if
the other were not there. -/
structure Independent (pr : Processor) (w : World) (snap : Snapshot) (attributes : List Bytes)
    (x y : Exchange) (ms : List Message) : Prop where
  request : Alone .request x.parts.flatten (effects pr w snap ms)
    (effects pr w snap (inSequence attributes x y))
  response : Alone .response y.parts.flatten (effects pr w snap ms)
    (effects pr w snap (inSequence attributes x y))

/-- A request whose body is asked for has it inspected before the response headers, and sends
nothing more once it is. Where the body of the response is asked for, the request sends no bytes
after the response headers, and no bytes come once what is buffered was inspected. -/
structure KeptApart (policy : Option CompiledPolicy) (asksRequest asksResponse : Bool)
    (attributes : List Bytes) (x y : Exchange) (ms : List Message) : Prop where
  request : asksRequest = true →
    (∃ m ∈ .requestHeaders attributes x.headers :: early ms, m.asks policy = true) ∧
      Closing Message.bytes (Message.asks policy)
        (.requestHeaders attributes x.headers :: x.following .request)
  response : asksResponse = true → (∀ m ∈ late ms, m.ofRequest = true → m.bytes = []) ∧
    Closing Message.bytes (Message.asks policy) (.responseHeaders y.headers :: late ms)

omit [Library] in
theorem Inspects.others {policy : Option CompiledPolicy} {es : List Effect}
    (h : Inspects dir asked policy ms es) (dir' : Direction) (hne : dir' ≠ dir) :
    bodies dir' es = [] ∧ es.countP (finishes dir') = 0 := by
  cases hasked : asked with
  | false => exact (h.ended hasked).others dir' hne
  | true => exact (h.looked hasked).others dir' hne

omit [Library] in
theorem alone_congr {body : Bytes} {a b c d : List Effect} (hbodies : bodies dir a = bodies dir b)
    (hbodies' : bodies dir c = bodies dir d)
    (hfinished : a.countP (finishes dir) = b.countP (finishes dir))
    (hfinished' : c.countP (finishes dir) = d.countP (finishes dir)) :
    Alone dir body a c ↔ Alone dir body b d := by
  constructor
  · rintro ⟨h, hinspected, hfinish⟩
    exact ⟨hbodies ▸ h, by rw [← hbodies, ← hbodies', hinspected],
      by rw [← hfinished, ← hfinished', hfinish]⟩
  · rintro ⟨h, hinspected, hfinish⟩
    exact ⟨hbodies ▸ h, by rw [hbodies, hbodies', hinspected],
      by rw [hfinished, hfinished', hfinish]⟩

omit [Library] in
/-- Effects behind that are not of the direction do not count. -/
theorem alone_append_left {body : Bytes} {es fs es' fs' : List Effect}
    (h : bodies dir fs = [] ∧ fs.countP (finishes dir) = 0)
    (h' : bodies dir fs' = [] ∧ fs'.countP (finishes dir) = 0) :
    Alone dir body (es ++ fs) (es' ++ fs') ↔ Alone dir body es es' := by
  apply alone_congr
  · rw [bodies_append, h.1, List.append_nil]
  · rw [bodies_append, h'.1, List.append_nil]
  · rw [List.countP_append, h.2, Nat.add_zero]
  · rw [List.countP_append, h'.2, Nat.add_zero]

omit [Library] in
/-- Neither do effects before. -/
theorem alone_append_right {body : Bytes} {es fs es' fs' : List Effect}
    (h : bodies dir es = [] ∧ es.countP (finishes dir) = 0)
    (h' : bodies dir es' = [] ∧ es'.countP (finishes dir) = 0) :
    Alone dir body (es ++ fs) (es' ++ fs') ↔ Alone dir body fs fs' := by
  apply alone_congr
  · rw [bodies_append, h.1, List.nil_append]
  · rw [bodies_append, h'.1, List.nil_append]
  · rw [List.countP_append, h.2, Nat.zero_add]
  · rw [List.countP_append, h'.2, Nat.zero_add]

omit [Library] in
/-- A direction that is inspected as often as in sequence was asked for as in sequence. -/
theorem Inspects.asked_eq {policy : Option CompiledPolicy} {asked' : Bool} {ms' : List Message}
    {es es' : List Effect} {body : Bytes} (h : Inspects dir asked policy ms es)
    (h' : Inspects dir asked' policy ms' es')
    (hpos : 0 < looks Message.bytes (Message.asks policy) false ms')
    (halone : Alone dir body es es') : asked = asked' := by
  have hinspected := halone.inspected
  have hfinished := halone.finished
  cases asked with
  | false =>
    cases asked' with
    | false => rfl
    | true =>
      rw [(h.ended rfl).inspected, (h'.looked rfl).inspected] at hinspected
      omega
  | true =>
    cases asked' with
    | true => rfl
    | false =>
      rw [(h.looked rfl).inspected, (h'.ended rfl).inspected] at hinspected
      rw [(h.looked rfl).finished, (h'.ended rfl).finished] at hfinished
      omega

omit [Library] in
/-- A direction is inspected as in sequence, on its body, exactly where the headers asked alike and
the messages have the body looked at once. -/
theorem Inspects.alone_iff {policy : Option CompiledPolicy} {asked' : Bool} {ms' : List Message}
    {es es' : List Effect} {body : Bytes} (h : Inspects dir asked policy ms es)
    (h' : Inspects dir asked' policy ms' es')
    (hms : ∃ last, ms'.getLast? = some last ∧ last.asks policy = true) :
    Alone dir body es es' ↔ asked = asked' ∧ (asked = true →
      looks Message.bytes (Message.asks policy) false ms = 1 ∧
      firstLook Message.bytes (Message.asks policy) ms = body ∧
      Closing Message.bytes (Message.asks policy) ms') := by
  obtain ⟨last, hlast, hasks⟩ := hms
  have hpos : 0 < looks Message.bytes (Message.asks policy) false ms' :=
    looks_pos ⟨last, List.mem_of_getLast? hlast, hasks⟩
  constructor
  · intro halone
    obtain rfl := h.asked_eq h' hpos halone
    refine ⟨rfl, ?_⟩
    rintro rfl
    have hlooked := h.looked rfl
    obtain ⟨hbodies, hinspected, -⟩ := halone
    rw [(h'.looked rfl).inspected] at hinspected
    have hone : bodies dir es = [body] := by
      refine hbodies.resolve_left fun hnil => ?_
      rw [hnil, List.length_nil] at hinspected
      omega
    have hfirst := h.first rfl body (by rw [hone]; rfl)
    rw [hone] at hinspected
    refine ⟨?_, hfirst.symm, (looks_eq_one_iff hlast hasks).mp hinspected.symm⟩
    rw [← hlooked.inspected, hone]
    rfl
  · rintro ⟨rfl, hlooks⟩
    cases asked with
    | false =>
      have hended := h.ended rfl
      have hended' := h'.ended rfl
      exact ⟨.inl (List.length_eq_zero_iff.mp hended.inspected),
        hended.inspected.trans hended'.inspected.symm, hended.finished.trans hended'.finished.symm⟩
    | true =>
      obtain ⟨hone, hfirst, hclosing⟩ := hlooks rfl
      have hlooked := h.looked rfl
      have hlooked' := h'.looked rfl
      rw [hone] at hlooked
      rw [(looks_eq_one_iff hlast hasks).mpr hclosing] at hlooked'
      obtain ⟨b, hb⟩ := List.length_eq_one_iff.mp hlooked.inspected
      have hbody := h.first rfl b (by rw [hb]; rfl)
      refine ⟨.inr ?_, hlooked.inspected.trans hlooked'.inspected.symm,
        hlooked.finished.trans hlooked'.finished.symm⟩
      rw [hb, hbody, hfirst]

omit [Library] in
/-- A request is looked at once, and whole. -/
theorem request_looks_iff {policy : Option CompiledPolicy} {attributes : List Bytes} {x : Exchange}
    {pre rest : List Message} (hx : x.following .request = pre ++ rest) :
    (looks Message.bytes (Message.asks policy) false (.requestHeaders attributes x.headers :: pre) = 1 ∧
      firstLook Message.bytes (Message.asks policy) (.requestHeaders attributes x.headers :: pre) =
        x.parts.flatten ∧
      Closing Message.bytes (Message.asks policy)
        (.requestHeaders attributes x.headers :: x.following .request)) ↔
    (∃ m ∈ .requestHeaders attributes x.headers :: pre, m.asks policy = true) ∧
      Closing Message.bytes (Message.asks policy)
        (.requestHeaders attributes x.headers :: x.following .request) := by
  constructor
  · rintro ⟨hone, -, hclosing⟩
    refine ⟨?_, hclosing⟩
    by_contra hnone
    rw [looks_quiet (by simpa using hnone)] at hone
    cases hone
  · rintro ⟨hasks, hclosing⟩
    have hall : .requestHeaders attributes x.headers :: x.following .request =
      (.requestHeaders attributes x.headers :: pre) ++ rest := by rw [hx, List.cons_append]
    have hbytes : (.requestHeaders attributes x.headers :: x.following .request).flatMap
      Message.bytes = x.parts.flatten := x.following_bytes .request
    obtain ⟨hone, hfirst⟩ := Closing.looks (hall ▸ hclosing) hasks
    exact ⟨hone, by rw [hfirst, ← hall, hbytes], hclosing⟩

omit [Library] in
/-- Whichever direction the last message is of, it is the last one of that direction. -/
theorem late_last_asks (policy : Option CompiledPolicy) {x y : Exchange}
    {pre rest post : List Message} (hx : x.following .request = pre ++ rest)
    (hpost : Interleaving rest (.responseHeaders y.headers :: y.following .response)
      (.responseHeaders y.headers :: post)) :
    ∃ last, (.responseHeaders y.headers :: post).getLast? = some last ∧
      last.asks policy = true := by
  rcases hpost.getLast?_eq with heq | heq
  · obtain ⟨last, hlast, hasks⟩ := x.last_asks .request
      (m := .requestHeaders [] x.headers) (fun _ => rfl) policy
    refine ⟨last, ?_, hasks⟩
    rw [hx] at hlast
    rw [heq]
    cases rest with
    | nil => simp [List.getLast?_cons] at heq
    | cons m rest => simpa [List.getLast?_cons, List.getLast?_append] using hlast
  · obtain ⟨last, hlast, hasks⟩ := y.last_asks .response
      (m := .responseHeaders y.headers) (fun _ => rfl) policy
    exact ⟨last, heq.trans hlast, hasks⟩

omit [Library] in
/-- The bytes behind the response headers are those of the response where the request has none
left. -/
theorem late_bytes_iff {x y : Exchange} {pre rest post : List Message}
    (hx : x.following .request = pre ++ rest)
    (hpost : Interleaving rest (y.following .response) post) :
    post.flatMap Message.bytes = y.parts.flatten ↔
      ∀ m ∈ post, m.ofRequest = true → m.bytes = [] := by
  rw [← y.following_bytes .response]
  refine hpost.flatMap_eq_right_iff.trans ⟨fun h m hm hreq => ?_, fun h m hm => ?_⟩
  · rcases List.mem_append.mp (hpost.perm.mem_iff.mp hm) with hm | hm
    · exact h m hm
    · cases (y.following_mem hm).2.symm.trans hreq
  · have hmem : m ∈ x.following .request := hx ▸ List.mem_append_right pre hm
    exact h m (hpost.left_sublist.mem hm) (x.following_mem hmem).2

omit [Library] in
/-- A response is looked at once, and alone. -/
theorem response_looks_iff {policy : Option CompiledPolicy} {x y : Exchange}
    {pre rest post : List Message} (hx : x.following .request = pre ++ rest)
    (hpost : Interleaving rest (y.following .response) post) :
    (looks Message.bytes (Message.asks policy) false (.responseHeaders y.headers :: post) = 1 ∧
      firstLook Message.bytes (Message.asks policy) (.responseHeaders y.headers :: post) =
        y.parts.flatten ∧
      Closing Message.bytes (Message.asks policy)
        (.responseHeaders y.headers :: y.following .response)) ↔
    (∀ m ∈ post, m.ofRequest = true → m.bytes = []) ∧
      Closing Message.bytes (Message.asks policy) (.responseHeaders y.headers :: post) := by
  have hordered : Interleaving rest (.responseHeaders y.headers :: y.following .response)
    (.responseHeaders y.headers :: post) := hpost.right _
  obtain ⟨last, hlast, hasks⟩ := late_last_asks policy hx hordered
  rw [looks_eq_one_iff hlast hasks]
  have hwhole : Closing Message.bytes (Message.asks policy) (.responseHeaders y.headers :: post) →
      firstLook Message.bytes (Message.asks policy) (.responseHeaders y.headers :: post) =
        post.flatMap Message.bytes := by
    intro hclosing
    have hlooks := Closing.looks (r := []) (by simpa using hclosing)
      ⟨last, List.mem_of_getLast? hlast, hasks⟩
    rw [hlooks.2, List.append_nil]
    rfl
  constructor
  · rintro ⟨hclosing, hfirst, -⟩
    exact ⟨(late_bytes_iff hx hpost).mp ((hwhole hclosing).symm.trans hfirst), hclosing⟩
  · rintro ⟨hempty, hclosing⟩
    exact ⟨hclosing, (hwhole hclosing).trans ((late_bytes_iff hx hpost).mpr hempty),
      List.Pairwise.sublist hordered.right_sublist hclosing⟩

/-! ## Policies that fail closed -/

/-- Headers that pass such a policy ask for what its settings say. -/
theorem asksBody_closed {reply : Bool → ProcessingResponse} (hc : FailsClosed p)
    (hp : st.tx.policy = some p) (hdir : st.tx.direction = dir)
    (hpass : (pr.inspectHeaders w dir reply endOfStream p st).1.isImmediate = false) :
    asksBody pr w dir p st = inspectsBody p dir := by
  obtain ⟨d, t, hrun, hcases⟩ := inspectHeaders_cases pr w dir reply endOfStream p st
  have hd : d.isBlock = false := by
    obtain ⟨c, -, -, -, heq⟩ | ⟨hd, -⟩ := hcases
    · rw [heq] at hpass
      exact not_block_of_reply hpass
    · exact hd
  obtain ⟨⟨pp, hpp, -⟩, hrequired, hwaf⟩ := hrun.passes hc hp hdir hd (le_refl _)
  rw [hrun.asksBody hpp, hd, flagged, hrequired, hwaf]
  cases dir <;> simp [inspectsBody]

theorem requestAsksBody_closed {attributes : List Bytes} {h : HttpHeaders} (hc : FailsClosed p)
    (hset : st.tx.requestSettled = false)
    (hp : (pr.handle w st (.requestHeaders attributes h)).2.tx.policy = some p)
    (hpass : (pr.handle w st (.requestHeaders attributes h)).1.any
      ProcessingResponse.isImmediate = false) :
    requestAsksBody pr w h (received attributes st) = inspectsBody p .request := by
  have henf := CompiledPolicy.enforcing_of_blocking hc.blocking
  obtain ⟨d, t, hrun, hcases⟩ := onRequestHeaders_cases pr w h
    (show (received attributes st).tx.requestSettled = false from hset)
  have hpolicy : t.tx.policy = some p := by
    rw [← onRequestHeaders_policy (show (received attributes st).tx.requestSettled = false from hset) hrun]
    exact hp
  have hpass : (pr.onRequestHeaders w h (received attributes st)).1.isImmediate = false := hpass
  have hdir : t.tx.direction = .request := by
    rw [← (preludeOf_request pr w h attributes st).1, hrun]
  unfold requestAsksBody
  rw [hrun]
  obtain ⟨hend, heq⟩ | ⟨q, hd, hq, -, heq⟩ := hcases
  · rw [heq] at hpass
    simp [hpolicy, henf, not_block_of_reply hpass] at hend
  · rw [heq] at hpass
    cases hq.symm.trans hpolicy
    simp [hd, hpolicy, henf, asksBody_closed hc hpolicy hdir hpass]

theorem responseAsksBody_closed {h : HttpHeaders} (hc : FailsClosed p) (hp : st.tx.policy = some p)
    (hpass : (pr.handle w st (.responseHeaders h)).1.any ProcessingResponse.isImmediate = false) :
    responseAsksBody pr w h st = inspectsBody p .response := by
  have henf := CompiledPolicy.enforcing_of_blocking hc.blocking
  have hpolicy' := responseHeaders_policy pr w h st
  obtain ⟨d, t, hrun, hcases⟩ := onResponseHeaders_cases pr w h st
  have hpolicy : t.tx.policy = some p := by
    rw [← onResponseHeaders_policy hrun, ← hp]
    exact hpolicy'
  have hpass : (pr.onResponseHeaders w h st).1.isImmediate = false := hpass
  have hrel := (responsePrelude_spec pr.deps w w.ctx (loadResponse h st)).rel
  rw [hrun] at hrel
  have hdir := ((loadResponse_opened h st).resolving hrel).direction
  unfold responseAsksBody
  rw [hrun]
  obtain ⟨hend, heq⟩ | ⟨q, hq, -, heq⟩ := hcases
  · simp [hpolicy, henf] at hend
  · rw [heq] at hpass
    cases hq.symm.trans hpolicy
    simp [hpolicy, henf, asksBody_closed hc hpolicy hdir hpass]

/-! ## When directions are independent -/

/-- Whether the response headers ask for the body when they come behind the messages `pre`. -/
def asksResponse (pr : Processor) (w : World) (snap : Snapshot) (y : Exchange) (pre : List Message) :
    Bool :=
  responseAsksBody pr w y.headers (runFrom (pr.handle w) (pr.newStream snap) pre)

theorem asksResponse_closed {snap : Snapshot} {attributes : List Bytes} {h : HttpHeaders} {y : Exchange}
    {pre post : List Message} (hc : FailsClosed p)
    (hp : streamPolicy pr w snap attributes h = some p) (hpre : ∀ m ∈ pre, m.follows = true)
    (hun : Untroubled pr w (pr.newStream snap)
      (.requestHeaders attributes h :: (pre ++ .responseHeaders y.headers :: post))) :
    asksResponse pr w snap y (.requestHeaders attributes h :: pre) = inspectsBody p .response := by
  have hpolicy : (runFrom (pr.handle w) (pr.newStream snap)
      (.requestHeaders attributes h :: pre)).tx.policy = some p := by
    rw [← hp]
    exact follows_policy hpre _
  exact responseAsksBody_closed hc hpolicy hun.cons.2.2.append.2.cons.1

theorem independent_iff {snap : Snapshot} {attributes : List Bytes} {x y : Exchange}
    (hms : Interleaving (x.following .request)
      (.responseHeaders y.headers :: y.following .response) ms)
    (hun : Untroubled pr w (pr.newStream snap) (.requestHeaders attributes x.headers :: ms))
    (hseq : Untroubled pr w (pr.newStream snap) (inSequence attributes x y)) :
    Independent pr w snap attributes x y (.requestHeaders attributes x.headers :: ms) ↔
      asksResponse pr w snap y (.requestHeaders attributes x.headers :: early ms) =
          asksResponse pr w snap y (.requestHeaders attributes x.headers :: x.following .request) ∧
        KeptApart (streamPolicy pr w snap attributes x.headers)
          (requestAsksBody pr w x.headers (received attributes (pr.newStream snap)))
          (asksResponse pr w snap y (.requestHeaders attributes x.headers :: early ms))
          attributes x y ms := by
  obtain ⟨pre, rest, post, hx, rfl, hpost⟩ := hms.split
  have hrequest : ∀ m ∈ x.following .request, m.follows = true := fun m hm => (x.following_mem hm).1
  have hresponse : ∀ m ∈ y.following .response, m.follows = true := fun m hm => (y.following_mem hm).1
  have hpre : ∀ m ∈ pre, m.follows = true := fun m hm => hrequest m (hx ▸ List.mem_append_left _ hm)
  have hafter : ∀ m ∈ post, m.follows = true := by
    intro m hm
    rcases List.mem_append.mp (hpost.perm.mem_iff.mp hm) with hm | hm
    · exact hrequest m (hx ▸ List.mem_append_right _ hm)
    · exact hresponse m hm
  obtain ⟨hearly, hlate⟩ := early_late hpre y.headers post
  obtain ⟨es, fs, heffects, hes, hfs⟩ := effects_split hpre hafter hun
  obtain ⟨es', fs', heffects', hes', hfs'⟩ := effects_split hrequest hresponse hseq
  rw [hearly]
  have hfirst : Alone .request x.parts.flatten (es ++ fs) (es' ++ fs') ↔
      Alone .request x.parts.flatten es es' :=
    alone_append_left (hfs.others .request (by decide)) (hfs'.others .request (by decide))
  have hsecond : Alone .response y.parts.flatten (es ++ fs) (es' ++ fs') ↔
      Alone .response y.parts.flatten fs fs' :=
    alone_append_right (hes.others .response (by decide)) (hes'.others .response (by decide))
  have hboth : Independent pr w snap attributes x y
      (.requestHeaders attributes x.headers :: (pre ++ .responseHeaders y.headers :: post)) ↔
      Alone .request x.parts.flatten es es' ∧ Alone .response y.parts.flatten fs fs' := by
    rw [← hfirst, ← hsecond, ← heffects, ← heffects']
    exact ⟨fun h => ⟨h.request, h.response⟩, fun h => ⟨h.1, h.2⟩⟩
  rw [hboth, hes.alone_iff hes' (x.last_asks .request (fun _ => rfl) _),
    hfs.alone_iff hfs' (y.last_asks .response (fun _ => rfl) _), request_looks_iff hx,
    response_looks_iff hx hpost]
  constructor
  · rintro ⟨⟨-, hrequest⟩, halike, hresponse⟩
    refine ⟨halike, ⟨?_, ?_⟩⟩
    · rw [hearly]
      exact hrequest
    · rw [hlate]
      exact hresponse
  · rintro ⟨halike, ⟨hrequest, hresponse⟩⟩
    rw [hearly] at hrequest
    rw [hlate] at hresponse
    exact ⟨⟨rfl, hrequest⟩, halike, hresponse⟩

/-- **Directions are independent** exactly where their messages are kept apart, and the response
headers ask for the body alike. Under a policy that fails closed they do, and what they ask for is
what its settings say. -/
theorem directions_independent_iff (pr : Processor) (w : World) (snap : Snapshot)
    (attributes : List Bytes) (x y : Exchange) {ms : List Message}
    (hms : Interleaving (x.following .request)
      (.responseHeaders y.headers :: y.following .response) ms)
    (hun : Untroubled pr w (pr.newStream snap) (.requestHeaders attributes x.headers :: ms))
    (hseq : Untroubled pr w (pr.newStream snap) (inSequence attributes x y)) :
    (Independent pr w snap attributes x y (.requestHeaders attributes x.headers :: ms) ↔
      asksResponse pr w snap y (.requestHeaders attributes x.headers :: early ms) =
          asksResponse pr w snap y (.requestHeaders attributes x.headers :: x.following .request) ∧
        KeptApart (streamPolicy pr w snap attributes x.headers)
          (requestAsksBody pr w x.headers (received attributes (pr.newStream snap)))
          (asksResponse pr w snap y (.requestHeaders attributes x.headers :: early ms))
          attributes x y ms) ∧
    ∀ p, streamPolicy pr w snap attributes x.headers = some p → FailsClosed p →
      (Independent pr w snap attributes x y (.requestHeaders attributes x.headers :: ms) ↔
        KeptApart (some p) (inspectsBody p .request) (inspectsBody p .response) attributes x y ms) := by
  have hiff := independent_iff hms hun hseq
  refine ⟨hiff, fun p hp hc => hiff.trans ?_⟩
  obtain ⟨pre, rest, post, hx, rfl, -⟩ := hms.split
  have hrequest : ∀ m ∈ x.following .request, m.follows = true := fun m hm => (x.following_mem hm).1
  have hpre : ∀ m ∈ pre, m.follows = true := fun m hm => hrequest m (hx ▸ List.mem_append_left _ hm)
  rw [(early_late hpre y.headers post).1, asksResponse_closed hc hp hpre hun,
    asksResponse_closed hc hp hrequest hseq, requestAsksBody_closed hc rfl hp hun.cons.1, hp]
  exact and_iff_right rfl

end

/-! ## A late request and a redacted one -/

theorem untroubled_of_all [Library] {pr : Processor} {w : World} {st : Exec} {ms : List Message}
    (h : (trace (pr.handle w) st ms).all (fun e =>
      !e.output.any ProcessingResponse.isImmediate && !e.after.tx.bodyTruncated) = true) :
    Untroubled pr w st ms := by
  intro e he
  simpa using List.all_eq_true.mp h e he

/-- Headers and a body whose last chunk ends it. -/
def sent (headers : List HeaderValue) (chunks : List Bytes) (last : Bytes) : Exchange where
  headers := { headers }
  rest := some { chunks, last := some last }
  ended := rfl

/-- Headers and chunks that trailers end. -/
def trailed (headers : List HeaderValue) (chunks : List Bytes) : Exchange where
  headers := { headers }
  rest := some { chunks }
  ended := rfl

/-- A response without a body. -/
def emptyResponse : Exchange where
  headers := { endOfStream := true }
  rest := none
  ended := rfl

/-- A request body that comes after the response headers is not inspected; and a request that a
redacting policy gets in two chunks is inspected with the first of them. -/
theorem late_and_redacted_requests_are_not_independent :
    let _ := Library.nothing
    let late := [.responseHeaders emptyResponse.headers, .requestBody ⟨ascii "a", true⟩]
    let snap := catchAllSnapshot { plainPolicy with inspectRequestBody := true }
    let x := sent (getRequest []).headers [] (ascii "a")
    let z := sent (getRequest []).headers [ascii "z"] (ascii "z")
    (Interleaving (x.following .request)
        (.responseHeaders emptyResponse.headers :: emptyResponse.following .response) late ∧
      Untroubled (plainProcessor true) World.quiet ((plainProcessor true).newStream snap)
        (.requestHeaders [] x.headers :: late) ∧
      ¬ Independent (plainProcessor true) World.quiet snap [] x emptyResponse
        (.requestHeaders [] x.headers :: late)) ∧
    Untroubled redactingProcessor World.quiet redactingStream (inSequence [] z emptyResponse) ∧
      ¬ Independent redactingProcessor World.quiet (catchAllSnapshot redactingPolicy) [] z
        emptyResponse (inSequence [] z emptyResponse) := by
  intro lib late snap x z
  refine ⟨⟨.right _ (.left _ .nil), untroubled_of_all (by decide +kernel), ?_⟩,
    untroubled_of_all (by decide +kernel), ?_⟩
  · intro h
    exact absurd h.request.inspected (by decide +kernel)
  · intro h
    exact absurd h.request.bodies (by decide +kernel)

/-- The trailers of a request come last. -/
theorem late_trailers_are_independent :
    let _ := Library.nothing
    let pr := plainProcessor true
    let snap := catchAllSnapshot { plainPolicy with inspectResponseBody := true }
    let x := trailed (getRequest []).headers [ascii "a"]
    let y := sent [] [] (ascii "c")
    Independent pr World.quiet snap [] x y
      [.requestHeaders [] x.headers, .requestBody ⟨ascii "a", false⟩, .responseHeaders y.headers,
        .responseBody ⟨ascii "c", true⟩, .requestTrailers] := by
  intro lib pr snap x y
  have hasks : asksResponse pr World.quiet snap y
        (.requestHeaders [] x.headers :: early [.requestBody ⟨ascii "a", false⟩,
          .responseHeaders y.headers, .responseBody ⟨ascii "c", true⟩, .requestTrailers]) =
      asksResponse pr World.quiet snap y (.requestHeaders [] x.headers :: x.following .request) := by
    decide +kernel
  refine (directions_independent_iff pr World.quiet snap [] x y
    (.left _ (.right _ (.right _ (.left _ .nil)))) (untroubled_of_all (by decide +kernel))
    (untroubled_of_all (by decide +kernel))).1.mpr ⟨hasks, ⟨?_, ?_⟩⟩
  · exact fun hasks => absurd hasks (by decide +kernel)
  · exact fun _ => ⟨by decide, by decide +kernel⟩

end ElchiShield.Extproc
