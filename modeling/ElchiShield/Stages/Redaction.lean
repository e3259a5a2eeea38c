import ElchiShield.Lib.Spans
import ElchiShield.Stages.Body

/-! # What redaction leaves of a body

`redactBody` sweeps the matches of the redact set from the left. What it writes is described
once for bytes that remember which position they were copied from, and the bytes themselves are
read off that. -/
namespace ElchiShield.Stages
open ElchiShield.Go ElchiShield.Lib

variable {body : Bytes} {redact : List Bytes} {ms : List Match} {m : Match} {p : Nat}

/-! ## The matches as spans -/

def Match.span (m : Match) : Span Bytes := ⟨m.start, m.stop, m.kind⟩

def Match.Over (m : Match) (p : Nat) : Prop := m.start ≤ p ∧ p < m.stop

instance (m : Match) (p : Nat) : Decidable (m.Over p) := inferInstanceAs (Decidable (_ ∧ _))

/-- The match lies in the body and is not empty. -/
def Match.InBounds (body : Bytes) (m : Match) : Prop := m.start < m.stop ∧ m.stop ≤ body.length

instance (body : Bytes) (m : Match) : Decidable (m.InBounds body) :=
  inferInstanceAs (Decidable (_ ∧ _))

/-- The matches of a redact-set kind. -/
def toRedact (redact : List Bytes) (ms : List Match) : List Match :=
  ms.filter fun m => redact.contains m.kind

def spans (redact : List Bytes) (ms : List Match) : List (Span Bytes) :=
  (toRedact redact ms).map Match.span

theorem spans_cons_of_mem (h : redact.contains m.kind = true) :
    spans redact (m :: ms) = m.span :: spans redact ms := by
  rw [spans, toRedact, List.filter_cons, if_pos h]
  rfl

theorem spans_cons_of_not_mem (h : redact.contains m.kind = false) :
    spans redact (m :: ms) = spans redact ms := by
  rw [spans, toRedact, List.filter_cons, if_neg (by rw [h]; exact Bool.false_ne_true)]
  rfl

theorem spans_nonempty (hin : ∀ m ∈ ms, m.InBounds body) :
    ∀ s ∈ spans redact ms, s.start < s.stop := by
  intro s hs
  obtain ⟨m, hm, rfl⟩ := List.mem_map.mp hs
  exact (hin m (List.mem_filter.mp hm).1).1

def between (body : Bytes) (a b : Nat) : Bytes := (body.take b).drop a

def maskOf (body : Bytes) (s : Span Bytes) : Bytes := mask (between body s.start s.stop) s.label

theorem slice_eq_between {a b : Nat} (hab : a ≤ b) (hb : b ≤ body.length) :
    slice body a b = some (between body a b) := if_pos ⟨hab, hb⟩

/-- The loop of `redactBody` is a sweep, and its slices are in range. -/
theorem redactLoop_eq_sweep (hin : ∀ m ∈ ms, m.InBounds body) {out : Bytes} {last : Nat}
    {changed : Bool} (hchanged : 0 < last → changed = true) :
    redactLoop body redact ms (out, last, changed) =
      some ((Span.sweep (between body) (maskOf body) (spans redact ms) (out, last)).1,
        (Span.sweep (between body) (maskOf body) (spans redact ms) (out, last)).2,
        changed || ms.any fun m => redact.contains m.kind) := by
  induction ms generalizing out last changed with
  | nil => simp [redactLoop, spans, toRedact, Span.sweep]
  | cons m ms ih =>
    obtain ⟨hne, hstop⟩ := hin m List.mem_cons_self
    have ih := fun out last changed => @ih (fun m' hm' => hin m' (List.mem_cons_of_mem _ hm'))
      out last changed
    unfold redactLoop
    cases hm : redact.contains m.kind with
    | false =>
      simp only [Bool.not_false, if_true, List.any_cons, hm, Bool.false_or,
        spans_cons_of_not_mem hm]
      exact ih out last changed hchanged
    | true =>
      simp only [Bool.not_true, Bool.false_eq_true, if_false, List.any_cons, hm, Bool.true_or,
        Bool.or_true, spans_cons_of_mem hm, Span.sweep, Match.span]
      split
      next hstart =>
        split
        next hlast =>
          rw [slice_eq_between (Nat.le_of_lt hlast) hstop, Option.bind_eq_bind, Option.bind_some,
            ih _ _ _ fun _ => rfl]
          rfl
        next =>
          -- inside what is masked already, so something was masked
          have htrue : changed = true := hchanged (by omega)
          rw [ih out last changed hchanged, htrue]
          rfl
      next hstart =>
        rw [slice_eq_between (Nat.not_lt.mp hstart) (by omega),
          slice_eq_between (Nat.le_of_lt hne) hstop, Option.bind_eq_bind, Option.bind_some,
          Option.bind_some, ih _ _ _ fun _ => rfl]
        rfl

theorem between_self (a : Nat) : between body a a = [] := by simp [between]

theorem sweep_le (hin : ∀ m ∈ ms, m.InBounds body) {out : Bytes} {last : Nat}
    (hlast : last ≤ body.length) :
    (Span.sweep (between body) (maskOf body) (spans redact ms) (out, last)).2 ≤ body.length := by
  refine Span.sweep_stop_le hlast fun s hs => ?_
  obtain ⟨m, hm, rfl⟩ := List.mem_map.mp hs
  exact (hin m (List.mem_filter.mp hm).1).2

/-- The stretches of the body that are covered, each with the kind it is masked as. -/
def stretches (redact : List Bytes) (ms : List Match) : List (Span Bytes) :=
  Span.clip 0 (spans redact ms)

/-- `redactBody` as one expression: the masks of the covered stretches, and the rest of the
body between them. -/
theorem redactBody_eq_weave (hin : ∀ m ∈ ms, m.InBounds body) :
    redactBody body ms redact =
      some (Span.weave (between body) (maskOf body) body.length 0 (stretches redact ms),
        ms.any fun m => redact.contains m.kind) := by
  have hweave := @Span.sweep_eq_weave _ _ (spans redact ms) 0 body.length (between body)
    (maskOf body) between_self (spans_nonempty hin) []
  rw [redactBody, redactLoop_eq_sweep hin (by simp), Option.bind_eq_bind, Option.bind_some]
  dsimp only
  cases hany : ms.any fun m => redact.contains m.kind with
  | false =>
    have hnil : spans redact ms = [] := by
      rw [spans, toRedact, List.map_eq_nil_iff, List.filter_eq_nil_iff]
      simpa using hany
    simp [stretches, hnil, Span.clip, Span.weave, between]
  | true =>
    rw [stretches, ← List.nil_append (Span.weave _ _ _ _ _), ← hweave,
      slice_eq_between (sweep_le hin (Nat.zero_le _)) (Nat.le_refl _)]
    rfl

/-! ## Where the bytes come from -/

/-- A byte of the output and the position of the body it is copied from, if it is. -/
abbrev Placed := UInt8 × Option Nat

def placed (x : UInt8 × Nat) : Placed := (x.1, some x.2)

def written (b : UInt8) : Placed := (b, none)

def betweenPlaced (body : Bytes) (a b : Nat) : List Placed :=
  ((between body a b).zipIdx a).map placed

def maskDigitsPlaced (digits : Int) : Nat → List (UInt8 × Nat) → List Placed
  | _, [] => []
  | seen, x :: xs =>
    if isDigit x.1 then
      (if (seen + 1 : Int) > digits - 4 then placed x else written (ch '*')) ::
        maskDigitsPlaced digits (seen + 1) xs
    else placed x :: maskDigitsPlaced digits seen xs

def maskPlaced (orig kind : Bytes) (start : Nat) : List Placed :=
  if kind = ascii "credit_card" then
    maskDigitsPlaced (orig.countP isDigit) 0 (orig.zipIdx start)
  else (mask orig kind).map written

def maskOfPlaced (body : Bytes) (s : Span Bytes) : List Placed :=
  maskPlaced (between body s.start s.stop) s.label s.start

/-- The pass of `redactBody` over bytes that remember their position. -/
def redactPlaced (body : Bytes) (ms : List Match) (redact : List Bytes) : List Placed :=
  let pass := Span.sweep (betweenPlaced body) (maskOfPlaced body) (spans redact ms) ([], 0)
  pass.1 ++ betweenPlaced body pass.2 body.length

theorem betweenPlaced_self (a : Nat) : betweenPlaced body a a = [] := by
  rw [betweenPlaced, between_self]
  rfl

@[simp] theorem map_fst_betweenPlaced (a b : Nat) :
    (betweenPlaced body a b).map Prod.fst = between body a b := by
  rw [betweenPlaced, List.map_map]
  exact List.zipIdx_map_fst a _

theorem map_fst_maskDigitsPlaced (digits : Int) (seen : Nat) (xs : List (UInt8 × Nat)) :
    (maskDigitsPlaced digits seen xs).map Prod.fst = maskDigits digits seen (xs.map Prod.fst) := by
  induction xs generalizing seen with
  | nil => rfl
  | cons x xs ih =>
    simp only [maskDigitsPlaced, List.map_cons, maskDigits]
    split
    · rw [List.map_cons, ih]
      split <;> rfl
    · rw [List.map_cons, ih]
      rfl

@[simp] theorem map_fst_maskOfPlaced (s : Span Bytes) :
    (maskOfPlaced body s).map Prod.fst = maskOf body s := by
  rw [maskOfPlaced, maskPlaced, maskOf]
  split
  next hcard => rw [map_fst_maskDigitsPlaced, List.zipIdx_map_fst, mask, if_pos hcard]
  next => simp [Function.comp_def, written]

theorem redactPlaced_eq_weave (hin : ∀ m ∈ ms, m.InBounds body) :
    redactPlaced body ms redact =
      Span.weave (betweenPlaced body) (maskOfPlaced body) body.length 0 (stretches redact ms) :=
  Span.sweep_eq_weave betweenPlaced_self (spans_nonempty hin) []

/-- The bytes of the placed pass are what `redactBody` returns. -/
theorem redactBody_eq_placed (hin : ∀ m ∈ ms, m.InBounds body) :
    redactBody body ms redact =
      some ((redactPlaced body ms redact).map Prod.fst,
        ms.any fun m => redact.contains m.kind) := by
  rw [redactBody_eq_weave hin, redactPlaced_eq_weave hin, Span.map_weave]
  simp only [map_fst_betweenPlaced, map_fst_maskOfPlaced]

/-! ## Which positions are copied -/

/-- The output has a byte copied from position `p` of the body. -/
def Copies (body : Bytes) (ms : List Match) (redact : List Bytes) (p : Nat) : Prop :=
  ∃ x ∈ redactPlaced body ms redact, x.2 = some p

def digitAt (body : Bytes) (p : Nat) : Bool := body[p]?.any isDigit

/-- At most three digits follow before the end. -/
def amongLastFour (body : Bytes) (stop p : Nat) : Prop :=
  (between body (p + 1) stop).countP isDigit < 4

instance (body : Bytes) (stop p : Nat) : Decidable (amongLastFour body stop p) :=
  inferInstanceAs (Decidable (_ < _))

/-- What the mask of a card number leaves: its last four digits and what is no digit. -/
def shown (body : Bytes) (stop p : Nat) : Prop :=
  digitAt body p = true → amongLastFour body stop p

instance (body : Bytes) (stop p : Nat) : Decidable (shown body stop p) :=
  inferInstanceAs (Decidable (_ → _))

/-- The match of a redact-set kind that covers the position first. -/
def firstOver (redact : List Bytes) (ms : List Match) (p : Nat) : Option Match :=
  (toRedact redact ms).find? (·.Over p)

theorem exists_placed_zipIdx {a : Nat} {orig : Bytes} :
    (∃ x ∈ (orig.zipIdx a).map placed, x.2 = some p) ↔ a ≤ p ∧ p < a + orig.length := by
  constructor
  · rintro ⟨x, hx, hp⟩
    obtain ⟨y, hy, rfl⟩ := List.mem_map.mp hx
    obtain rfl : y.2 = p := Option.some.inj hp
    exact ⟨List.le_snd_of_mem_zipIdx hy, List.snd_lt_add_of_mem_zipIdx hy⟩
  · rintro ⟨hle, hlt⟩
    have hget : orig[p - a]? = some (orig[p - a]) := List.getElem?_eq_getElem (by omega)
    refine ⟨placed (orig[p - a], p), List.mem_map_of_mem ?_, rfl⟩
    exact List.mk_mem_zipIdx_iff_le_and_getElem?_sub.mpr ⟨hle, hget⟩

theorem exists_betweenPlaced {a b : Nat} (hb : b ≤ body.length) :
    (∃ x ∈ betweenPlaced body a b, x.2 = some p) ↔ a ≤ p ∧ p < b := by
  rw [betweenPlaced, exists_placed_zipIdx, between, List.length_drop, List.length_take]
  omega

theorem maskDigitsPlaced_cons (digits : Int) (seen : Nat) (x : UInt8 × Nat)
    (xs : List (UInt8 × Nat)) :
    maskDigitsPlaced digits seen (x :: xs) =
      (if isDigit x.1 = true ∧ (seen + 1 : Int) ≤ digits - 4 then written (ch '*') else placed x) ::
        maskDigitsPlaced digits (seen + [x.1].countP isDigit) xs := by
  rw [maskDigitsPlaced]
  cases hx : isDigit x.1 with
  | false => simp [hx]
  | true =>
    by_cases hseen : (seen + 1 : Int) ≤ digits - 4
    · simp [hx, hseen, not_lt.mpr hseen]
    · simp [hx, hseen, not_le.mp hseen]

theorem exists_maskDigitsPlaced {digits : Int} {seen start : Nat} {orig : Bytes} :
    (∃ x ∈ maskDigitsPlaced digits seen (orig.zipIdx start), x.2 = some p) ↔
      start ≤ p ∧ p < start + orig.length ∧ (digitAt orig (p - start) = true →
        digits < seen + (orig.take (p - start)).countP isDigit + 5) := by
  induction orig generalizing seen start with
  | nil =>
    simp only [List.zipIdx_nil, maskDigitsPlaced, List.not_mem_nil, false_and, exists_false,
      List.length_nil, false_iff]
    omega
  | cons b orig ih =>
    rw [List.zipIdx_cons, maskDigitsPlaced_cons, List.exists_mem_cons_iff, ih]
    have hhead : (if isDigit b = true ∧ (seen + 1 : Int) ≤ digits - 4 then written (ch '*')
        else placed (b, start)).2 = some p ↔
        start = p ∧ (isDigit b = true → digits < seen + 5) := by
      split
      next h =>
        have hnot : ¬ digits < seen + 5 := by omega
        simp [written, h.1, hnot]
      next h =>
        have himp : isDigit b = true → digits < seen + 5 := fun hb => by
          have := not_and.mp h hb
          omega
        exact ⟨fun h => ⟨Option.some.inj h, himp⟩, fun h => congrArg some h.1⟩
    rw [hhead]
    rcases Nat.lt_trichotomy p start with hlt | rfl | hgt
    · omega
    · simp [digitAt]
    · obtain ⟨k, rfl⟩ : ∃ k, p = start + 1 + k := ⟨p - (start + 1), by omega⟩
      have hk : start + 1 + k - start = k + 1 := by omega
      have hk' : start + 1 + k - (start + 1) = k := by omega
      have hcount : (seen + [b].countP isDigit : Nat) + ((orig.take k).countP isDigit : Int) =
          seen + ((b :: orig.take k).countP isDigit : Nat) := by
        simp only [List.countP_cons, List.countP_nil]
        omega
      have hdigit : digitAt (b :: orig) (k + 1) = digitAt orig k := rfl
      rw [hk, hk', List.take_succ_cons, hdigit, hcount, List.length_cons]
      constructor
      · rintro (⟨h, -⟩ | ⟨-, hlt, h⟩)
        · omega
        · exact ⟨by omega, by omega, h⟩
      · rintro ⟨-, hlt, h⟩
        exact .inr ⟨by omega, by omega, h⟩

theorem digitAt_between {a b : Nat} (ha : a ≤ p) (hb : p < b) :
    digitAt (between body a b) (p - a) = digitAt body p := by
  rw [digitAt, digitAt, between, List.getElem?_drop, Nat.add_sub_cancel' ha,
    List.getElem?_take_of_lt hb]

/-- The digits of a stretch are those up to a position, the one there, and those behind it. -/
theorem countP_between {a b : Nat} (ha : a ≤ p) (hb : p < b) (hlen : b ≤ body.length)
    (hdigit : digitAt body p = true) :
    (between body a b).countP isDigit =
      ((between body a b).take (p - a)).countP isDigit + 1 +
        (between body (p + 1) b).countP isDigit := by
  have hlt : p - a < (between body a b).length := by
    rw [between, List.length_drop, List.length_take]
    omega
  have hdrop : (between body a b).drop (p - a + 1) = between body (p + 1) b := by
    rw [between, between, List.drop_drop]
    congr 1
    omega
  have hget : isDigit ((between body a b)[p - a]) = true := by
    rw [← digitAt_between ha hb, digitAt, List.getElem?_eq_getElem hlt] at hdigit
    exact hdigit
  conv_lhs => rw [← List.take_append_drop (p - a) (between body a b), List.countP_append,
    List.drop_eq_getElem_cons hlt, List.countP_cons_of_pos hget, hdrop]
  omega

theorem exists_maskOfPlaced {s : Span Bytes} (hs : s.stop ≤ body.length) :
    (∃ x ∈ maskOfPlaced body s, x.2 = some p) ↔
      s.Over p ∧ s.label = ascii "credit_card" ∧ shown body s.stop p := by
  rw [maskOfPlaced, maskPlaced]
  split
  next hcard =>
    have hlen : (between body s.start s.stop).length = s.stop - s.start := by
      rw [between, List.length_drop, List.length_take]
      omega
    rw [exists_maskDigitsPlaced, hlen]
    constructor
    · rintro ⟨hstart, hstop, h⟩
      have hp : p < s.stop := by omega
      refine ⟨⟨hstart, hp⟩, hcard, fun hdigit => ?_⟩
      have hseen := h (by rwa [digitAt_between hstart hp])
      have hcount := countP_between hstart hp hs hdigit
      unfold amongLastFour
      omega
    · rintro ⟨⟨hstart, hstop⟩, -, h⟩
      refine ⟨hstart, by omega, fun hdigit => ?_⟩
      rw [digitAt_between hstart hstop] at hdigit
      have hfour : (between body (p + 1) s.stop).countP isDigit < 4 := h hdigit
      have hcount := countP_between hstart hstop hs hdigit
      omega
  next hcard =>
    simp [hcard, written]

theorem find?_spans : (spans redact ms).find? (·.Over p) = (firstOver redact ms p).map Match.span := by
  rw [spans, List.find?_map]
  rfl

theorem spans_sorted (h : ms.Pairwise (·.start ≤ ·.start)) :
    (spans redact ms).Pairwise (·.start ≤ ·.start) := by
  rw [spans, List.pairwise_map]
  exact h.filter _

theorem stretches_apart (hin : ∀ m ∈ ms, m.InBounds body) :
    Span.Apart 0 (stretches redact ms) := Span.clip_apart (spans_nonempty hin)

/-- A stretch is the end of the match that comes first over its positions. -/
theorem first_of_mem_stretches {t : Span Bytes} (ht : t ∈ stretches redact ms) (hover : t.Over p) :
    ∃ m, firstOver redact ms p = some m ∧ t.stop = m.stop ∧ t.label = m.kind := by
  obtain ⟨s, hs, -, heq⟩ := Span.first_of_mem_clip ht hover
  rw [find?_spans, Option.map_eq_some_iff] at hs
  obtain ⟨m, hm, rfl⟩ := hs
  rw [heq]
  exact ⟨m, hm, rfl, rfl⟩

theorem mem_of_firstOver (h : firstOver redact ms p = some m) :
    m ∈ ms ∧ m.kind ∈ redact ∧ m.Over p := by
  have hmem := List.mem_of_find?_eq_some h
  have hover := List.find?_some h
  rw [toRedact, List.mem_filter, List.contains_iff_mem] at hmem
  exact ⟨hmem.1, hmem.2, of_decide_eq_true hover⟩

theorem exists_firstOver (hm : m ∈ ms) (hkind : m.kind ∈ redact) (hover : m.Over p) :
    ∃ c, firstOver redact ms p = some c := by
  have hmem : m ∈ toRedact redact ms :=
    List.mem_filter.mpr ⟨hm, List.contains_iff_mem.mpr hkind⟩
  exact Option.isSome_iff_exists.mp
    (List.find?_isSome.mpr ⟨m, hmem, decide_eq_true hover⟩)

theorem stop_le_of_mem_stretches (hin : ∀ m ∈ ms, m.InBounds body) {t : Span Bytes}
    (ht : t ∈ stretches redact ms) : t.stop ≤ body.length := by
  have hlt := (stretches_apart hin).nonempty ht
  obtain ⟨m, hm, hstop, -⟩ := first_of_mem_stretches ht ⟨Nat.le_refl _, hlt⟩
  exact hstop ▸ (hin m (mem_of_firstOver hm).1).2

theorem exists_stretch (hsorted : ms.Pairwise (·.start ≤ ·.start))
    (h : firstOver redact ms p = some m) : ∃ t ∈ stretches redact ms, t.Over p := by
  have hmem := List.mem_map_of_mem (f := Match.span) (List.mem_of_find?_eq_some h)
  exact Span.exists_mem_clip (spans_sorted hsorted) (Nat.zero_le p) hmem (mem_of_firstOver h).2.2

/-- A position is copied unless the match that covers it first masks it. -/
theorem copies_iff (hin : ∀ m ∈ ms, m.InBounds body) (hsorted : ms.Pairwise (·.start ≤ ·.start)) :
    Copies body ms redact p ↔ p < body.length ∧ ∀ m, firstOver redact ms p = some m →
      m.kind = ascii "credit_card" ∧ shown body m.stop p := by
  have hkeep : ∀ a b, b ≤ body.length →
      ((∃ x ∈ betweenPlaced body a b, x.2 = some p) ↔ a ≤ p ∧ p < b) :=
    fun a b hb => exists_betweenPlaced hb
  rw [Copies, redactPlaced_eq_weave hin, Span.exists_mem_weave hkeep (stretches_apart hin)
    fun t ht => stop_le_of_mem_stretches hin ht]
  constructor
  · rintro (⟨t, ht, hpaint⟩ | ⟨-, hlen, hnone⟩)
    · have hstop := stop_le_of_mem_stretches hin ht
      obtain ⟨hover, hcard, hshown⟩ := (exists_maskOfPlaced hstop).mp hpaint
      obtain ⟨m, hm, hstop', hkind⟩ := first_of_mem_stretches ht hover
      refine ⟨hover.2.trans_le hstop, fun m' hm' => ?_⟩
      obtain rfl : m = m' := Option.some.inj (hm.symm.trans hm')
      exact ⟨hkind ▸ hcard, hstop' ▸ hshown⟩
    · refine ⟨hlen, fun m hm => ?_⟩
      obtain ⟨t, ht, hover⟩ := exists_stretch hsorted hm
      exact absurd hover (hnone t ht)
  · rintro ⟨hlen, hfirst⟩
    by_cases hcovered : ∃ t ∈ stretches redact ms, t.Over p
    · obtain ⟨t, ht, hover⟩ := hcovered
      obtain ⟨m, hm, hstop, hkind⟩ := first_of_mem_stretches ht hover
      obtain ⟨hcard, hshown⟩ := hfirst m hm
      refine .inl ⟨t, ht, (exists_maskOfPlaced (stop_le_of_mem_stretches hin ht)).mpr ?_⟩
      exact ⟨hover, hkind.trans hcard, hstop.symm ▸ hshown⟩
    · exact .inr ⟨Nat.zero_le p, hlen, fun t ht hover => hcovered ⟨t, ht, hover⟩⟩

/-! ## What redaction does to a body -/

/-- `redactBody` does not slice out of range. Its output is the body with each covered stretch
replaced by its mask; the stretches lie one after the other over exactly the bytes of the matches
to redact, each masked as the match that covers it first. -/
theorem redactBody_touches_only_matches (hin : ∀ m ∈ ms, m.InBounds body)
    (hsorted : ms.Pairwise (·.start ≤ ·.start)) :
    ∃ out changed, redactBody body ms redact = some (out, changed) ∧
      out = Span.weave (between body) (maskOf body) body.length 0 (stretches redact ms) ∧
      Span.Apart 0 (stretches redact ms) ∧
      (∀ t ∈ stretches redact ms, t.stop ≤ body.length ∧ ∀ p, t.Over p →
        ∃ m, firstOver redact ms p = some m ∧ t.stop = m.stop ∧ t.label = m.kind) ∧
      (∀ p, (∃ t ∈ stretches redact ms, t.Over p) ↔
        ∃ m ∈ ms, m.kind ∈ redact ∧ m.Over p) ∧
      (changed = true ↔ ∃ m ∈ ms, m.kind ∈ redact) := by
  refine ⟨_, _, redactBody_eq_weave hin, rfl, stretches_apart hin, fun t ht => ?_, fun p => ?_, ?_⟩
  · exact ⟨stop_le_of_mem_stretches hin ht, fun p hover => first_of_mem_stretches ht hover⟩
  · constructor
    · rintro ⟨t, ht, hover⟩
      obtain ⟨m, hm, -⟩ := first_of_mem_stretches ht hover
      exact ⟨m, mem_of_firstOver hm⟩
    · rintro ⟨m, hm, hkind, hover⟩
      obtain ⟨c, hc⟩ := exists_firstOver hm hkind hover
      exact exists_stretch hsorted hc
  · simp [List.any_eq_true]

/-- An e-mail address that a card number runs into. -/
theorem redactBody_touches_only_matches_overlap :
    redactBody (ascii "AAAAAAAAAAAAAxxxxxxx")
        [⟨0, 13, ascii "credit_card"⟩, ⟨2, 20, ascii "email"⟩]
        [ascii "credit_card", ascii "email"] =
      some (ascii "AAAAAAAAAAAAA[REDACTED:email]", true) ∧
    ∃ out changed, redactBody (ascii "AAAAAAAAAAAAAxxxxxxx")
        [⟨0, 13, ascii "credit_card"⟩, ⟨2, 20, ascii "email"⟩]
        [ascii "credit_card", ascii "email"] = some (out, changed) ∧ changed = true := by
  refine ⟨by decide +kernel, ?_⟩
  obtain ⟨out, changed, hredact, -, -, -, -, hchanged⟩ :=
    @redactBody_touches_only_matches (ascii "AAAAAAAAAAAAAxxxxxxx")
      [ascii "credit_card", ascii "email"]
      [⟨0, 13, ascii "credit_card"⟩, ⟨2, 20, ascii "email"⟩] (by decide +kernel) (by decide +kernel)
  exact ⟨out, changed, hredact, hchanged.mpr (by decide +kernel)⟩

end ElchiShield.Stages
