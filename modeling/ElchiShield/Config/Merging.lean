import ElchiShield.Config.Policy
import ElchiShield.Lib.LastWins

/-! # Merged defaults and folded defaults

The `defaults` blocks of several files are merged by `overlaySpec` before the merged block is
resolved; the documented resolution folds them one by one. The two agree on every field but
the stage orders: `overlaySpec` replaces a `pipeline` block as a whole, `Resolve` each of its
directions. -/
namespace ElchiShield.Config
open ElchiShield.Go ElchiShield.Lib

/-! ## Stage orders -/

/-- The order a block writes for a direction. -/
def PolicySpec.order (sel : PipelineSpec → Option (List Bytes)) (s : PolicySpec) :
    Option (List Bytes) :=
  s.pipeline.bind sel

/-- The derived flags are all that follows the fold. -/
theorem resolve_spec (base : ResolvedPolicy) (specs : List PolicySpec) :
    ∃ inspectRequestBody inspectResponseBody, resolve base specs =
      { specs.foldl applySpec base with inspectRequestBody, inspectResponseBody } := by
  have hdlp : ∀ out, ∃ rq rs, inspectForDLP out =
      { out with inspectRequestBody := rq, inspectResponseBody := rs } := by
    intro out
    unfold inspectForDLP
    split
    · exact ⟨_, _, rfl⟩
    · split
      · exact ⟨_, _, rfl⟩
      · split <;> exact ⟨_, _, rfl⟩
  obtain ⟨rq, rs, heq⟩ := hdlp (specs.foldl applySpec base)
  unfold resolve inspectForChecks
  rw [heq]
  split
  · exact ⟨_, _, rfl⟩
  · split <;> exact ⟨_, _, rfl⟩

/-- A field that the specs override ends up as the last of them sets it. -/
theorem foldl_applySpec_field {γ : Type} {g : ResolvedPolicy → Option γ}
    {f : PolicySpec → Option γ} (h : ∀ out s, g (applySpec out s) = (f s).or (g out))
    (base : ResolvedPolicy) (specs : List PolicySpec) :
    g (specs.foldl applySpec base) = lastWins f (g base) specs := by
  induction specs generalizing base with
  | nil => rfl
  | cons s specs ih => rw [List.foldl_cons, ih, h, lastWins_cons]

theorem resolve_requestOrder (base : ResolvedPolicy) (specs : List PolicySpec) :
    (resolve base specs).requestOrder =
      lastWins (PolicySpec.order PipelineSpec.request) base.requestOrder specs := by
  obtain ⟨_, _, heq⟩ := resolve_spec base specs
  rw [heq]
  exact foldl_applySpec_field (g := ResolvedPolicy.requestOrder) (fun _ _ => rfl) base specs

theorem resolve_responseOrder (base : ResolvedPolicy) (specs : List PolicySpec) :
    (resolve base specs).responseOrder =
      lastWins (PolicySpec.order PipelineSpec.response) base.responseOrder specs := by
  obtain ⟨_, _, heq⟩ := resolve_spec base specs
  rw [heq]
  exact foldl_applySpec_field (g := ResolvedPolicy.responseOrder) (fun _ _ => rfl) base specs

/-- The merged block loses the order `a` writes: the `pipeline` block of `b` leaves the
direction out, and nothing else gives it the same order. -/
def Drops (sel : PipelineSpec → Option (List Bytes)) (inherited : Option (List Bytes))
    (a b : PolicySpec) (rest : List PolicySpec) : Prop :=
  (b.pipeline.isSome = true ∧ b.order sel = none) ∧
    (a.order sel ≠ none ∧ a.order sel ≠ inherited) ∧ ∀ s ∈ rest, s.order sel = none

theorem overlaySpec_order (sel : PipelineSpec → Option (List Bytes)) (a b : PolicySpec) :
    (overlaySpec a b).order sel = if b.pipeline.isSome then b.order sel else a.order sel := by
  show (b.pipeline.or a.pipeline).bind sel = _
  cases hb : b.pipeline with
  | none => rfl
  | some pb => simp [PolicySpec.order, hb]

theorem overlaySpec_order_iff (sel : PipelineSpec → Option (List Bytes))
    (inherited : Option (List Bytes)) (a b : PolicySpec) (rest : List PolicySpec) :
    lastWins (PolicySpec.order sel) inherited (overlaySpec a b :: rest) =
        lastWins (PolicySpec.order sel) inherited (a :: b :: rest) ↔
      ¬ Drops sel inherited a b rest := by
  simp only [lastWins_cons, overlaySpec_order, Drops]
  rcases unset_or_lastSets (PolicySpec.order sel) rest with hunset | ⟨s, hlast⟩
  · rw [lastWins_unset hunset, lastWins_unset hunset]
    cases hb : b.pipeline with
    | none => simp [PolicySpec.order, hb]
    | some pb =>
      cases hsel : b.order sel with
      | some order => simp
      | none =>
        -- only what `a` makes of the inherited order is left
        cases ha : a.order sel with
        | none => simp
        | some order =>
          have hiff : (inherited = some order) ↔ ¬ (some order ≠ inherited) := by
            rw [ne_eq, not_not, eq_comm]
          simpa [and_iff_left hunset] using hiff
  · have hset : ¬ ∀ t ∈ rest, t.order sel = none := by
      intro h
      obtain ⟨-, -, -, hs, -⟩ := id hlast
      rw [h s hlast.mem] at hs
      cases hs
    rw [hlast.lastWins_eq, hlast.lastWins_eq]
    exact iff_of_true rfl fun h => hset h.2.2

/-! ## Everything else -/

/-- A policy without the fields that the two ways treat differently. -/
def ResolvedPolicy.stripped (r : ResolvedPolicy) : ResolvedPolicy :=
  { r with skipChecks := [], requestOrder := none, responseOrder := none }

theorem applySpec_overlaySpec (base : ResolvedPolicy) (a b : PolicySpec) :
    (applySpec base (overlaySpec a b)).stripped = (applySpec (applySpec base a) b).stripped := by
  simp only [ResolvedPolicy.stripped, applySpec, overlaySpec, Option.getD_or, Option.or_assoc]

theorem foldl_applySpec_stripped {r r' : ResolvedPolicy} (h : r.stripped = r'.stripped)
    (specs : List PolicySpec) :
    (specs.foldl applySpec r).stripped = (specs.foldl applySpec r').stripped := by
  have hstep : ∀ out s, (applySpec out s).stripped = (applySpec out.stripped s).stripped :=
    fun _ _ => rfl
  induction specs generalizing r r' with
  | nil => exact h
  | cons s specs ih => exact ih (by rw [hstep, h, ← hstep])

theorem inspectForDLP_stripped (r : ResolvedPolicy) :
    (inspectForDLP r).stripped = inspectForDLP r.stripped := by
  have hchecks : r.stripped.checks = r.checks := rfl
  unfold inspectForDLP
  rw [hchecks]
  cases r.checks.body.bind BodyChecks.dlp with
  | none => rfl
  | some d =>
    simp only [apply_ite ResolvedPolicy.stripped]
    rfl

theorem inspectForChecks_stripped (r : ResolvedPolicy) :
    (inspectForChecks r).stripped = inspectForChecks r.stripped := by
  have hchecks : r.stripped.checks = r.checks := rfl
  unfold inspectForChecks
  rw [hchecks]
  cases r.checks.body with
  | none => rfl
  | some b =>
    simp only [apply_ite ResolvedPolicy.stripped]
    rfl

theorem resolve_overlaySpec_stripped (base : ResolvedPolicy) (a b : PolicySpec)
    (rest : List PolicySpec) :
    (resolve base (overlaySpec a b :: rest)).stripped =
      (resolve base (a :: b :: rest)).stripped := by
  have hfold := foldl_applySpec_stripped (applySpec_overlaySpec base a b) rest
  simp only [resolve, inspectForChecks_stripped, inspectForDLP_stripped, List.foldl_cons, hfold]

theorem mem_unionStrings {a b : List Bytes} {x : Bytes} : x ∈ unionStrings a b ↔ x ∈ a ∨ x ∈ b := by
  have hfold : ∀ xs out : List Bytes,
      x ∈ xs.foldl (fun out s => if out.contains s then out else out ++ [s]) out ↔
        x ∈ out ∨ x ∈ xs := by
    intro xs
    induction xs with
    | nil => simp
    | cons y xs ih =>
      intro out
      rw [List.foldl_cons, ih]
      by_cases hy : out.contains y = true
      · have hmem : y ∈ out := by simpa using hy
        rw [if_pos hy, List.mem_cons]
        constructor
        · rintro (h | h)
          · exact .inl h
          · exact .inr (.inr h)
        · rintro (h | rfl | h)
          · exact .inl h
          · exact .inl hmem
          · exact .inr h
      · rw [if_neg hy]
        simp [or_assoc]
  rw [unionStrings, hfold]
  simp

theorem mem_resolve_skipChecks {base : ResolvedPolicy} {specs : List PolicySpec} {c : Bytes} :
    c ∈ (resolve base specs).skipChecks ↔
      c ∈ base.skipChecks ∨ ∃ s ∈ specs, c ∈ s.skipChecks := by
  have hfold : ∀ base : ResolvedPolicy, c ∈ (specs.foldl applySpec base).skipChecks ↔
      c ∈ base.skipChecks ∨ ∃ s ∈ specs, c ∈ s.skipChecks := by
    induction specs with
    | nil => simp
    | cons s specs ih =>
      intro base
      rw [List.foldl_cons, ih]
      show c ∈ unionStrings base.skipChecks s.skipChecks ∨ _ ↔ _
      simp [mem_unionStrings, or_assoc]
  obtain ⟨_, _, heq⟩ := resolve_spec base specs
  rw [heq]
  exact hfold base

theorem mem_overlaySpec_skipChecks {a b : PolicySpec} {c : Bytes} :
    c ∈ (overlaySpec a b).skipChecks ↔ c ∈ a.skipChecks ∨ c ∈ b.skipChecks := by
  show c ∈ (if b.skipChecks = [] then a.skipChecks else unionStrings a.skipChecks b.skipChecks) ↔ _
  by_cases hb : b.skipChecks = []
  · simp [hb]
  · rw [if_neg hb, mem_unionStrings]

/-! ## Agreement -/

/-- Two policies that are the same, with the skipped checks compared as sets. -/
structure SamePolicy (r s : ResolvedPolicy) : Prop where
  fields : { r with skipChecks := [] } = { s with skipChecks := [] }
  skipChecks : ∀ c, c ∈ r.skipChecks ↔ c ∈ s.skipChecks

theorem samePolicy_iff {r s : ResolvedPolicy} (hstripped : r.stripped = s.stripped)
    (hskip : ∀ c, c ∈ r.skipChecks ↔ c ∈ s.skipChecks) :
    SamePolicy r s ↔ r.requestOrder = s.requestOrder ∧ r.responseOrder = s.responseOrder := by
  constructor
  · intro h
    exact ⟨(congrArg ResolvedPolicy.requestOrder h.fields :),
      (congrArg ResolvedPolicy.responseOrder h.fields :)⟩
  · rintro ⟨hreq, hresp⟩
    refine ⟨?_, hskip⟩
    show { r.stripped with requestOrder := r.requestOrder, responseOrder := r.responseOrder } =
      { s.stripped with requestOrder := s.requestOrder, responseOrder := s.responseOrder }
    rw [hstripped, hreq, hresp]

/-- **Merging defaults agrees with folding them unless an order is dropped.** -/
theorem overlaySpec_agrees_iff (base : ResolvedPolicy) (a b : PolicySpec)
    (rest : List PolicySpec) :
    SamePolicy (resolve base (overlaySpec a b :: rest)) (resolve base (a :: b :: rest)) ↔
      ¬ Drops PipelineSpec.request base.requestOrder a b rest ∧
        ¬ Drops PipelineSpec.response base.responseOrder a b rest := by
  have hskip : ∀ c, c ∈ (resolve base (overlaySpec a b :: rest)).skipChecks ↔
      c ∈ (resolve base (a :: b :: rest)).skipChecks := by
    intro c
    simp [mem_resolve_skipChecks, mem_overlaySpec_skipChecks, or_assoc]
  rw [samePolicy_iff (resolve_overlaySpec_stripped base a b rest) hskip, resolve_requestOrder,
    resolve_requestOrder, resolve_responseOrder, resolve_responseOrder, overlaySpec_order_iff,
    overlaySpec_order_iff]

/-- The second file sets the response order and loses the request order of the first. -/
theorem overlaySpec_drops_request_order :
    let a : PolicySpec := { pipeline := some { request := some [stageWAFEngine] } }
    let b : PolicySpec := { pipeline := some { response := some [stageBodyChecks] } }
    (resolve defaultPolicy [a, b]).requestOrder = some [stageWAFEngine] ∧
      (resolve defaultPolicy [overlaySpec a b]).requestOrder = none ∧
      ¬ SamePolicy (resolve defaultPolicy [overlaySpec a b]) (resolve defaultPolicy [a, b]) := by
  intro a b
  refine ⟨rfl, rfl, ?_⟩
  intro h
  have hreq : (none : Option (List Bytes)) = some [stageWAFEngine] :=
    (congrArg ResolvedPolicy.requestOrder h.fields :)
  cases hreq

end ElchiShield.Config
