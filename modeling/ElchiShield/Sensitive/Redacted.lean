import ElchiShield.Sensitive
import ElchiShield.Stages.Redaction

/-! # Redaction of what the detector finds

The matches of the detector lie in the body, sorted by where they start, and card numbers do not
overlap one another. What redaction then copies of a match is decided by the first match over
each byte. -/
namespace ElchiShield.Sensitive
open ElchiShield.Go ElchiShield.Lib ElchiShield.Stages

variable {sorter : SortSlice} {body : Bytes} {redact : List Bytes} {m c : Match} {p : Nat}

/-! ## The matches of the detector -/

theorem mem_matches : m ∈ «matches» sorter body ↔
    body ≠ [] ∧ ((∃ q ∈ patterns, m ∈ q.matches body) ∨ m ∈ cards body) := by
  unfold «matches»
  split
  next hempty => simp [hempty]
  next hne =>
    dsimp only
    split
    next => simp [hne]
    next => simp [hne, (sorter.perm _).mem_iff]

theorem start_le_of_less {a b : Match} (h : less b a = false) : a.start ≤ b.start := by
  unfold less at h
  grind

theorem matches_sorted : («matches» sorter body).Pairwise (·.start ≤ ·.start) := by
  unfold «matches»
  split
  next => exact .nil
  next =>
    dsimp only
    split
    next hlen =>
      rw [List.pairwise_iff_getElem]
      intro i j hi hj hij
      omega
    next => exact (sorter.sorted _).imp start_le_of_less

theorem patterns_consume : ∀ q ∈ patterns, q.re.consumes = true := by decide +kernel

theorem luhn_consumes : luhn.consumes = true := by decide +kernel

theorem patterns_kind : ∀ q ∈ patterns, q.kind ≠ creditCard := by decide +kernel

theorem mem_cards : m ∈ cards body ↔ m.kind = creditCard ∧
    (m.start, m.stop) ∈ luhn.findAll body ∧ luhnValid (within body (m.start, m.stop)) = true := by
  simp only [cards, List.mem_map, List.mem_filter]
  constructor
  · rintro ⟨loc, ⟨hloc, hvalid⟩, rfl⟩
    exact ⟨rfl, hloc, hvalid⟩
  · rintro ⟨hkind, hloc, hvalid⟩
    exact ⟨_, ⟨hloc, hvalid⟩, by rw [← hkind]⟩

theorem matches_inBounds (hm : m ∈ «matches» sorter body) : m.InBounds body := by
  obtain ⟨-, ⟨q, hq, hm⟩ | hm⟩ := mem_matches.mp hm
  · obtain ⟨loc, hloc, rfl⟩ := List.mem_map.mp hm
    exact Regex.bounds_of_mem_findAll (patterns_consume q hq) hloc
  · exact Regex.bounds_of_mem_findAll luhn_consumes (mem_cards.mp hm).2.1

/-- A match of the kind of card numbers comes from their expression. -/
theorem mem_cards_of_kind (hm : m ∈ «matches» sorter body) (hkind : m.kind = creditCard) :
    m ∈ cards body := by
  obtain ⟨-, ⟨q, hq, hm⟩ | hm⟩ := mem_matches.mp hm
  · obtain ⟨loc, hloc, rfl⟩ := List.mem_map.mp hm
    exact absurd hkind (patterns_kind q hq)
  · exact hm

/-- Two card numbers over one byte are the same. -/
theorem card_eq_of_over (hm : m ∈ cards body) (hc : c ∈ cards body) (hmp : m.Over p)
    (hcp : c.Over p) : m = c := by
  obtain ⟨hmk, hmem, -⟩ := mem_cards.mp hm
  obtain ⟨hck, hcem, -⟩ := mem_cards.mp hc
  have hloc := Regex.eq_of_overlap hmem hcem hmp hcp
  obtain ⟨hstart, hstop⟩ := Prod.mk.inj hloc
  cases m
  cases c
  simp_all

/-! ## What is left of them -/

/-- No byte of a match to redact is copied, a card number's last four digits apart, and what is
no digit in it. -/
def LeavesNone (body : Bytes) (redact : List Bytes) (ms : List Match) : Prop :=
  ∀ m ∈ ms, m.kind ∈ redact → ∀ p, m.Over p → Copies body ms redact p →
    m.kind = creditCard ∧ shown body m.stop p

/-- Where a card number comes first over a byte of another match to redact, the byte is one that
the mask of card numbers hides. -/
def CardsHide (body : Bytes) (redact : List Bytes) (ms : List Match) : Prop :=
  ∀ m ∈ ms, m.kind ∈ redact → m.kind ≠ creditCard → ∀ p, m.Over p →
    ∀ c, firstOver redact ms p = some c → c.kind = creditCard → ¬ shown body c.stop p

theorem copies_matches_iff : Copies body («matches» sorter body) redact p ↔
    p < body.length ∧ ∀ c, firstOver redact («matches» sorter body) p = some c →
      c.kind = creditCard ∧ shown body c.stop p :=
  copies_iff (fun _ => matches_inBounds) matches_sorted

/-- A match of another kind leaks where a card number that comes before it shows its digits or
separators. -/
theorem redaction_leaves_none_iff :
    (∃ changed, redactBody body («matches» sorter body) redact =
      some ((redactPlaced body («matches» sorter body) redact).map Prod.fst, changed)) ∧
    (LeavesNone body redact («matches» sorter body) ↔
      CardsHide body redact («matches» sorter body)) := by
  refine ⟨⟨_, redactBody_eq_placed fun _ => matches_inBounds⟩, ?_, ?_⟩
  · intro hleaves m hm hmem hkind p hover c hc hcard hshown
    have hlt : p < body.length := hover.2.trans_le (matches_inBounds hm).2
    refine hkind (hleaves m hm hmem p hover (copies_matches_iff.mpr ⟨hlt, fun c' hc' => ?_⟩)).1
    obtain rfl : c = c' := Option.some.inj (hc.symm.trans hc')
    exact ⟨hcard, hshown⟩
  · intro hhide m hm hmem p hover hcopied
    obtain ⟨c, hc⟩ := exists_firstOver hm hmem hover
    obtain ⟨hcard, hshown⟩ := (copies_matches_iff.mp hcopied).2 c hc
    have hkind : m.kind = creditCard := by
      by_contra hkind
      exact hhide m hm hmem hkind p hover c hc hcard hshown
    -- of card numbers only one is over `p`
    obtain ⟨hcm, -, hcover⟩ := mem_of_firstOver hc
    have heq := card_eq_of_over (mem_cards_of_kind hm hkind) (mem_cards_of_kind hcm hcard) hover
      hcover
    exact ⟨hkind, heq ▸ hshown⟩

/-- The last four digits of a card number that an address starts with. -/
theorem redaction_shows_start_of_email :
    redactBody (ascii "4111 1111 1111 1111@example.com")
        («matches» insertionSort (ascii "4111 1111 1111 1111@example.com"))
        [creditCard, ascii "email"] =
      some (ascii "**** **** **** 1111[REDACTED:email]", true) ∧
    ¬ LeavesNone (ascii "4111 1111 1111 1111@example.com") [creditCard, ascii "email"]
      («matches» insertionSort (ascii "4111 1111 1111 1111@example.com")) := by
  refine ⟨by decide +kernel, fun h => ?_⟩
  have hkind := (h ⟨15, 31, ascii "email"⟩ (by decide +kernel) (by decide +kernel) 15
    (by decide +kernel) (show ∃ x ∈ _, _ by decide +kernel)).1
  exact absurd hkind (by decide +kernel)

end ElchiShield.Sensitive
