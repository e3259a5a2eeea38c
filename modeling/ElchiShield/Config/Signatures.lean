import ElchiShield.Config.Accepted
import ElchiShield.Lib.Joined

/-! # Signatures of routes

The signature of a match joins the texts of its fields by separators, without escaping them. It
determines the match where the texts keep clear of the separators. -/
namespace ElchiShield.Config
open ElchiShield.Go ElchiShield.Lib

def unit : UInt8 := 0x1f
def bar : UInt8 := ch '|'
def comma : UInt8 := ch ','
def semicolon : UInt8 := ch ';'

/-! ## Headers -/

/-- What a header is matched by, in the order of `CompileHeader`. -/
inductive HeaderForm where
  | exact (value : Bytes)
  | contains (value : Bytes)
  | regex (value : Bytes)
  | presence (wanted : Option Bool)
  deriving DecidableEq

def HeaderMatch.form (h : HeaderMatch) : HeaderForm :=
  if h.exact ≠ [] then .exact h.exact
  else if h.contains ≠ [] then .contains h.contains
  else if h.regex ≠ [] then .regex h.regex
  else .presence h.present

def presentText (wanted : Option Bool) : Bytes :=
  (wanted.map fun b => ascii (if b then "true" else "false")).getD []

namespace HeaderForm

/-- What the signature of a header has behind the first bar. -/
def text : HeaderForm → Bytes
  | exact value => value ++ [bar, bar, bar]
  | regex value => bar :: (value ++ [bar, bar])
  | contains value => bar :: bar :: (value ++ [bar])
  | presence wanted => bar :: bar :: bar :: presentText wanted

/-- The value can be told from the separators around it. -/
def Clear : HeaderForm → Prop
  | exact value => value ≠ [] ∧ value.head? ≠ some bar ∧ (bar ∉ value ∨ semicolon ∉ value)
  | contains value => value ≠ [] ∧ value.getLast? ≠ some bar ∧ (bar ∉ value ∨ semicolon ∉ value)
  | regex value => value ≠ [] ∧ (bar ∉ value ∨ semicolon ∉ value)
  | presence _ => True

theorem presentText_injective : Function.Injective presentText := by
  intro v w h
  rcases v with _ | _ | _ <;> rcases w with _ | _ | _ <;> first | rfl | exact absurd h (by decide)

theorem presentText_clear (wanted : Option Bool) :
    semicolon ∉ presentText wanted ∧ bar ∉ presentText wanted := by
  rcases wanted with _ | _ | _ <;> decide

theorem exact_text_head {value : Bytes} (h : (exact value).Clear) :
    (exact value).text.head? ≠ some bar := by
  obtain ⟨b, t, rfl⟩ := List.exists_cons_of_ne_nil h.1
  exact h.2.1

theorem contains_ne_regex {v w : Bytes} (hv : (contains v).Clear) :
    (contains v).text ≠ (regex w).text := by
  intro h
  have hlast : (bar :: v) ++ [bar] = (w ++ [bar]) ++ [bar] := by simpa [text] using h
  have hend := congrArg List.getLast? (List.append_cancel_right hlast)
  obtain ⟨b, t, rfl⟩ := List.exists_cons_of_ne_nil hv.1
  rw [List.getLast?_cons_cons, List.getLast?_append] at hend
  exact hv.2.1 (by simpa using hend)

/-- The word behind the bars of a presence is no bar, or there is none. -/
theorem append_bars_ne {v : Bytes} (hv : v ≠ []) {bars : Bytes} (hbars : bars.getLast? = some bar)
    (wanted : Option Bool) : v ++ bars ≠ bars ++ presentText wanted := by
  intro h
  have hend := congrArg List.getLast? h
  rw [List.getLast?_append, hbars, List.getLast?_append] at hend
  cases hp : (presentText wanted).getLast? with
  | none =>
    rw [List.getLast?_eq_none_iff.mp hp, List.append_nil] at h
    exact hv (by simpa using h)
  | some b =>
    rw [hp] at hend
    obtain rfl : bar = b := by simpa using hend
    exact (presentText_clear wanted).2 (List.mem_of_getLast? hp)

theorem text_ne_presence {f : HeaderForm} (hf : f.Clear) {wanted : Option Bool}
    (hother : ∀ w, f ≠ presence w) : f.text ≠ (presence wanted).text := by
  intro h
  cases f with
  | exact v => exact exact_text_head hf (h ▸ rfl)
  | contains v =>
    have hbars : v ++ [bar] = [bar] ++ presentText wanted := by simpa [text] using h
    exact append_bars_ne hf.1 rfl wanted hbars
  | regex v =>
    have hbars : v ++ [bar, bar] = [bar, bar] ++ presentText wanted := by simpa [text] using h
    exact append_bars_ne hf.1 rfl wanted hbars
  | presence w => exact hother w rfl

/-- Different forms have different texts. -/
theorem text_inj {f g : HeaderForm} (hf : f.Clear) (hg : g.Clear) (h : f.text = g.text) :
    f = g := by
  cases f with
  | exact v =>
    cases g with
    | exact w => simpa [text] using h
    | contains w => exact absurd (h ▸ rfl) (exact_text_head hf)
    | regex w => exact absurd (h ▸ rfl) (exact_text_head hf)
    | presence w => exact absurd h (text_ne_presence hf (by simp))
  | contains v =>
    cases g with
    | exact w => exact absurd (h ▸ rfl) (exact_text_head hg)
    | contains w => simpa [text] using h
    | regex w => exact absurd h (contains_ne_regex hf)
    | presence w => exact absurd h (text_ne_presence hf (by simp))
  | regex v =>
    cases g with
    | exact w => exact absurd (h ▸ rfl) (exact_text_head hg)
    | contains w => exact absurd h.symm (contains_ne_regex hg)
    | regex w => simpa [text] using h
    | presence w => exact absurd h (text_ne_presence hf (by simp))
  | presence v =>
    cases g with
    | presence w => exact congrArg presence (presentText_injective (by simpa [text] using h))
    | exact w => exact absurd h.symm (text_ne_presence hg (by simp))
    | contains w => exact absurd h.symm (text_ne_presence hg (by simp))
    | regex w => exact absurd h.symm (text_ne_presence hg (by simp))

/-- A text whose value holds a semicolon has fields without bars. -/
theorem fields_of_semicolon {f : HeaderForm} (hf : f.Clear) (h : semicolon ∈ f.text) :
    ∃ x y z, f.text = x ++ bar :: (y ++ bar :: (z ++ [bar])) ∧ bar ∉ x ∧ bar ∉ y ∧ bar ∉ z := by
  have hsemi : semicolon ≠ bar := by decide
  cases f with
  | exact v =>
    have hv : semicolon ∈ v := by simpa [text, hsemi] using h
    exact ⟨v, [], [], rfl, hf.2.2.resolve_right (not_not.mpr hv), by simp, by simp⟩
  | contains v =>
    have hv : semicolon ∈ v := by simpa [text, hsemi] using h
    exact ⟨[], [], v, rfl, by simp, by simp, hf.2.2.resolve_right (not_not.mpr hv)⟩
  | regex v =>
    have hv : semicolon ∈ v := by simpa [text, hsemi] using h
    exact ⟨[], v, [], rfl, by simp, hf.2.resolve_right (not_not.mpr hv), by simp⟩
  | presence w => simp [text, hsemi, (presentText_clear w).1] at h

theorem three_bars (f : HeaderForm) : 3 ≤ f.text.count bar := by
  cases f <;> simp [text]

/-- What stands before a semicolon of a text has not all of its bars. -/
theorem ne_before_semicolon {f : HeaderForm} (hf : f.Clear) (g : HeaderForm) (b : Bytes) :
    f.text ≠ g.text ++ semicolon :: b := by
  intro h
  have hsemi : semicolon ≠ bar := by decide
  obtain ⟨x, y, z, hfields, hx, hy, hz⟩ := fields_of_semicolon hf (by simp [h])
  have hcount : f.text.count bar = 3 := by
    simp [hfields, List.count_append, List.count_eq_zero_of_not_mem, hx, hy, hz]
  have hlast : f.text.getLast? = some bar := by
    simp [hfields, List.getLast?_append, List.getLast?_cons]
  have hb : bar ∈ b := by
    rw [h, List.getLast?_append] at hlast
    cases b with
    | nil => exact absurd (by simpa using hlast) hsemi
    | cons c b => exact List.mem_of_getLast? (by simpa [List.getLast?_cons_cons] using hlast)
  rw [h, List.count_append, List.count_cons_of_ne hsemi] at hcount
  have hpos := List.count_pos_iff.mpr hb
  have hthree := three_bars g
  omega

/-- The end of a text can be told from what stands behind it. -/
theorem text_readsBack {f g : HeaderForm} (hf : f.Clear) (hg : g.Clear) {r s : Bytes}
    (hr : Tail semicolon r) (hs : Tail semicolon s) (h : f.text ++ r = g.text ++ s) :
    f.text = g.text := by
  -- a text that stops at its first semicolon would be too short, so both or neither hold one
  have hboth : ∀ {f g : HeaderForm} {r s : Bytes}, f.Clear → Tail semicolon s →
      f.text ++ r = g.text ++ s → semicolon ∈ f.text → semicolon ∈ g.text := by
    intro f g r s hf hs h hfs
    by_contra hgs
    obtain ⟨a, b, hab, ha⟩ := List.eq_append_cons_of_mem hfs
    rw [hab, List.append_assoc] at h
    obtain rfl := readsBack_of_notMem semicolon ha hgs (.inr ⟨_, rfl⟩) hs h
    exact ne_before_semicolon hf g b hab
  by_cases hfs : semicolon ∈ f.text
  · obtain ⟨x, y, z, hfields, hx, hy, hz⟩ := fields_of_semicolon hf hfs
    obtain ⟨x', y', z', hfields', hx', hy', hz'⟩ := fields_of_semicolon hg (hboth hf hs h hfs)
    rw [hfields, hfields'] at h ⊢
    simp only [List.append_assoc, List.cons_append, List.nil_append] at h
    obtain ⟨rfl, hrest⟩ := append_sep_inj hx hx' h
    obtain ⟨rfl, hlast⟩ := append_sep_inj hy hy' hrest
    rw [(append_sep_inj hz hz' hlast).1]
  · have hgs : semicolon ∉ g.text := fun hgs => hfs (hboth hg hr h.symm hgs)
    exact readsBack_of_notMem semicolon hfs hgs hr hs h

end HeaderForm

section
variable [Library]

theorem headerSignature_eq {h : HeaderMatch} (hforms : h.forms ≤ 1) :
    headerSignature h = toLower h.name ++ bar :: h.form.text := by
  have hbar : ascii "|" = [bar] := rfl
  unfold headerSignature HeaderMatch.form HeaderForm.text
  rw [hbar]
  by_cases he : h.exact = [] <;> by_cases hc : h.contains = [] <;> by_cases hr : h.regex = [] <;>
    cases hp : h.present <;>
    simp [HeaderMatch.forms, he, hc, hr, hp, join, List.intercalate, presentText] at hforms ⊢

/-! ## Matches -/

/-- What a match that passes validation is known for. -/
structure ValidMatch (m : Match) : Prop where
  pathRegex : m.pathRegex ≠ [] → ∃ re, Library.regexp m.pathRegex = .ok re
  methods : ∀ meth ∈ m.methods, toUpper meth ∈ knownMethods
  forms : ∀ h ∈ m.headers, h.forms ≤ 1
  headerRegex : ∀ h ∈ m.headers, h.regex ≠ [] → ∃ re, Library.regexp h.regex = .ok re

theorem checkRegexp_eq_nil {field re : Bytes} (h : checkRegexp field re = []) :
    ∃ f, Library.regexp re = .ok f := by
  unfold checkRegexp at h
  split at h
  next => cases h
  next f hf => exact ⟨f, hf⟩

theorem validMatch_of_nil {file pre : Bytes} {m : Match} (h : validateMatch file pre m = []) :
    ValidMatch m := by
  simp only [validateMatch, located_eq_nil, List.append_eq_nil_iff] at h
  obtain ⟨⟨⟨-, hpath⟩, hmethods⟩, hheaders⟩ := h
  have hheader : ∀ hm ∈ m.headers, hm.forms ≤ 1 ∧
      (hm.regex ≠ [] → ∃ re, Library.regexp hm.regex = .ok re) := by
    intro hm hmem
    obtain ⟨p, hp⟩ := checkEach_eq_nil hheaders hmem
    simp only [List.append_eq_nil_iff, check_eq_nil, decide_eq_false_iff_not] at hp
    refine ⟨Nat.le_of_not_lt hp.1.2, fun hre => ?_⟩
    exact checkRegexp_eq_nil (by simpa [hre] using hp.2)
  refine ⟨fun hre => checkRegexp_eq_nil (by simpa [hre] using hpath), ?_,
    fun hm hmem => (hheader hm hmem).1, fun hm hmem => (hheader hm hmem).2⟩
  intro meth hmeth
  obtain ⟨p, hp⟩ := checkEach_eq_nil hmethods hmeth
  simpa using hp

/-- The texts of a match keep clear of the separators of its signature. -/
structure Plain (m : Match) : Prop where
  paths : unit ∉ m.pathExact ∧ unit ∉ m.pathPrefix ∧ unit ∉ m.pathRegex
  methods : ∀ meth ∈ m.methods, trimSpace meth = meth
  types : ∀ c ∈ m.contentType, unit ∉ c ∧ comma ∉ c
  types_ne : m.contentType ≠ [[]]
  names : ∀ h ∈ m.headers, bar ∉ toLower h.name
  exacts : ∀ h ∈ m.headers, h.exact.head? ≠ some bar
  contents : ∀ h ∈ m.headers, h.contains.getLast? ≠ some bar
  values : ∀ h ∈ m.headers, ∀ v ∈ [h.exact, h.contains, h.regex], bar ∉ v ∨ semicolon ∉ v

/-- Header names that are lower-cased alike are also looked up alike. -/
def FoldAlike (m₁ m₂ : Match) : Prop :=
  ∀ h₁ ∈ m₁.headers, ∀ h₂ ∈ m₂.headers, toLower h₁.name = toLower h₂.name →
    equalFold h₁.name h₂.name = true

/-- The headers are matched by the same value, under names that fold alike. -/
def SameHeader (h₁ h₂ : HeaderMatch) : Prop :=
  equalFold h₁.name h₂.name = true ∧ h₁.form = h₂.form

/-- The same match, up to the order and repetition of entries and the case of names. -/
structure Same (m₁ m₂ : Match) : Prop where
  pathExact : m₁.pathExact = m₂.pathExact
  pathPrefix : m₁.pathPrefix = m₂.pathPrefix
  pathRegex : m₁.pathRegex = m₂.pathRegex
  methods : ∀ u, u ∈ m₁.methods.map (toUpper <| trimSpace ·) ↔
    u ∈ m₂.methods.map (toUpper <| trimSpace ·)
  types : ∀ c, c ∈ m₁.contentType ↔ c ∈ m₂.contentType
  headers : (∀ h₁ ∈ m₁.headers, ∃ h₂ ∈ m₂.headers, SameHeader h₁ h₂) ∧
    ∀ h₂ ∈ m₂.headers, ∃ h₁ ∈ m₁.headers, SameHeader h₁ h₂

/-! ## Reading a signature back -/

omit [Library] in
theorem sortStrings_perm (xs : List Bytes) : (sortStrings xs).Perm xs := List.perm_insertionSort _ xs

omit [Library] in
theorem sortStrings_ne {xs : List Bytes} (h : xs ≠ [[]]) : sortStrings xs ≠ [[]] := by
  intro hs
  exact h (List.perm_singleton.mp (hs ▸ (sortStrings_perm xs).symm))

omit [Library] in
/-- Sorted words that can be told apart are joined to the same text only by the same words. -/
theorem perm_of_join {sep : UInt8} {P : Bytes → Prop} (h : ReadsBack sep P) {xs ys : List Bytes}
    (hx : ∀ x ∈ xs, P x) (hy : ∀ y ∈ ys, P y) (hxne : xs ≠ [[]]) (hyne : ys ≠ [[]])
    (heq : join [sep] (sortStrings xs) = join [sep] (sortStrings ys)) : xs.Perm ys := by
  have hsorted : sortStrings xs = sortStrings ys :=
    h.intercalate_inj (fun x hmem => hx x ((sortStrings_perm xs).mem_iff.mp hmem))
      (fun y hmem => hy y ((sortStrings_perm ys).mem_iff.mp hmem)) (sortStrings_ne hxne)
      (sortStrings_ne hyne) heq
  exact (sortStrings_perm xs).symm.trans (hsorted ▸ sortStrings_perm ys)

omit [Library] in
theorem notMem_join {sep b : UInt8} (hb : b ≠ sep) {xs : List Bytes} (h : ∀ x ∈ xs, b ∉ x) :
    b ∉ join [sep] (sortStrings xs) := by
  intro hmem
  rcases mem_of_mem_intercalate hmem with heq | ⟨x, hx, hbx⟩
  · exact hb heq
  · exact h x ((sortStrings_perm xs).mem_iff.mp hx) hbx

def methodsText (m : Match) : Bytes := join [comma] (sortStrings (m.methods.map toUpper))
def typesText (m : Match) : Bytes := join [comma] (sortStrings m.contentType)
def headersText (m : Match) : Bytes := join [semicolon] (sortStrings (m.headers.map headerSignature))

theorem routeSignature_eq (m : Match) : routeSignature m =
    (ascii "e:" ++ m.pathExact) ++ unit :: ((ascii "p:" ++ m.pathPrefix) ++
      unit :: ((ascii "r:" ++ m.pathRegex) ++ unit :: ((ascii "m:" ++ methodsText m) ++
        unit :: ((ascii "c:" ++ typesText m) ++ unit :: (ascii "h:" ++ headersText m))))) := by
  have hsections : ∀ e p r m c h : Bytes, join [0x1f] [e, p, r, m, c, h] =
      e ++ unit :: (p ++ unit :: (r ++ unit :: (m ++ unit :: (c ++ unit :: h)))) := by
    intro e p r m c h
    simp [join, List.intercalate, unit]
  exact hsections _ _ _ _ _ _

omit [Library] in
theorem knownMethods_clear : ∀ u ∈ knownMethods, unit ∉ u ∧ comma ∉ u ∧ u ≠ [] := by decide

theorem ValidMatch.method_clear {m : Match} (h : ValidMatch m) {u : Bytes}
    (hu : u ∈ m.methods.map toUpper) : unit ∉ u ∧ comma ∉ u ∧ u ≠ [] := by
  obtain ⟨meth, hmeth, rfl⟩ := List.mem_map.mp hu
  exact knownMethods_clear _ (h.methods meth hmeth)

/-- Six sections with five separators between them. -/
theorem sections_eq {m₁ m₂ : Match} (v₁ : ValidMatch m₁) (v₂ : ValidMatch m₂) (p₁ : Plain m₁)
    (p₂ : Plain m₂) (h : routeSignature m₁ = routeSignature m₂) :
    m₁.pathExact = m₂.pathExact ∧ m₁.pathPrefix = m₂.pathPrefix ∧ m₁.pathRegex = m₂.pathRegex ∧
      methodsText m₁ = methodsText m₂ ∧ typesText m₁ = typesText m₂ ∧
      headersText m₁ = headersText m₂ := by
  have hlabel : ∀ l ∈ ["e:", "p:", "r:", "m:", "c:"], unit ∉ ascii l := by decide
  have hsection : ∀ {l : String} {x : Bytes}, l ∈ ["e:", "p:", "r:", "m:", "c:"] → unit ∉ x →
      unit ∉ ascii l ++ x := by
    intro l x hl hx hmem
    rcases List.mem_append.mp hmem with hmem | hmem
    · exact hlabel l hl hmem
    · exact hx hmem
  have hmethods : ∀ {m}, ValidMatch m → unit ∉ methodsText m := fun v =>
    notMem_join (by decide) fun u hu => (v.method_clear hu).1
  have htypes : ∀ {m}, Plain m → unit ∉ typesText m := fun p =>
    notMem_join (by decide) fun c hc => (p.types c hc).1
  rw [routeSignature_eq, routeSignature_eq] at h
  obtain ⟨he, h⟩ := append_sep_inj (hsection (by simp) p₁.paths.1) (hsection (by simp) p₂.paths.1) h
  obtain ⟨hp, h⟩ :=
    append_sep_inj (hsection (by simp) p₁.paths.2.1) (hsection (by simp) p₂.paths.2.1) h
  obtain ⟨hr, h⟩ :=
    append_sep_inj (hsection (by simp) p₁.paths.2.2) (hsection (by simp) p₂.paths.2.2) h
  obtain ⟨hm, h⟩ :=
    append_sep_inj (hsection (by simp) (hmethods v₁)) (hsection (by simp) (hmethods v₂)) h
  obtain ⟨hc, h⟩ := append_sep_inj (hsection (by simp) (htypes p₁)) (hsection (by simp) (htypes p₂)) h
  exact ⟨List.append_cancel_left he, List.append_cancel_left hp, List.append_cancel_left hr,
    List.append_cancel_left hm, List.append_cancel_left hc, List.append_cancel_left h⟩

/-- The signature of a header that can be told from what stands behind it. -/
def HeaderText (word : Bytes) : Prop :=
  ∃ (name : Bytes) (f : HeaderForm), word = name ++ bar :: f.text ∧ bar ∉ name ∧ f.Clear

omit [Library] in
theorem headerText_readsBack : ReadsBack semicolon HeaderText := by
  rintro v w r s ⟨name, f, rfl, hname, hf⟩ ⟨name', g, rfl, hname', hg⟩ hr hs h
  rw [List.append_assoc, List.append_assoc] at h
  obtain ⟨rfl, htext⟩ := append_sep_inj hname hname' h
  rw [HeaderForm.text_readsBack hf hg hr hs htext]

theorem Plain.form_clear {m : Match} (p : Plain m) {h : HeaderMatch} (hmem : h ∈ m.headers) :
    h.form.Clear := by
  have hvalues := p.values h hmem
  unfold HeaderMatch.form
  split
  next he => exact ⟨he, p.exacts h hmem, hvalues _ (by simp)⟩
  next =>
    split
    next hc => exact ⟨hc, p.contents h hmem, hvalues _ (by simp)⟩
    next =>
      split
      next hr => exact ⟨hr, hvalues _ (by simp)⟩
      next => trivial

/-- Two headers of plain matches with the same signature. -/
theorem sameHeader_of_signature {m₁ m₂ : Match} (v₁ : ValidMatch m₁) (v₂ : ValidMatch m₂)
    (p₁ : Plain m₁) (p₂ : Plain m₂) (hfold : FoldAlike m₁ m₂) {h₁ h₂ : HeaderMatch}
    (hm₁ : h₁ ∈ m₁.headers) (hm₂ : h₂ ∈ m₂.headers)
    (h : headerSignature h₁ = headerSignature h₂) : SameHeader h₁ h₂ := by
  rw [headerSignature_eq (v₁.forms h₁ hm₁), headerSignature_eq (v₂.forms h₂ hm₂)] at h
  obtain ⟨hname, htext⟩ := append_sep_inj (p₁.names h₁ hm₁) (p₂.names h₂ hm₂) h
  exact ⟨hfold h₁ hm₁ h₂ hm₂ hname,
    HeaderForm.text_inj (p₁.form_clear hm₁) (p₂.form_clear hm₂) htext⟩

theorem headers_perm {m₁ m₂ : Match} (v₁ : ValidMatch m₁) (v₂ : ValidMatch m₂) (p₁ : Plain m₁)
    (p₂ : Plain m₂) (h : headersText m₁ = headersText m₂) :
    (m₁.headers.map headerSignature).Perm (m₂.headers.map headerSignature) := by
  have hwords : ∀ {m}, ValidMatch m → Plain m → ∀ w ∈ m.headers.map headerSignature,
      HeaderText w := by
    intro m v p w hw
    obtain ⟨hm, hmem, rfl⟩ := List.mem_map.mp hw
    exact ⟨_, _, headerSignature_eq (v.forms hm hmem), p.names hm hmem, p.form_clear hmem⟩
  have hne : ∀ {m}, ValidMatch m → Plain m → m.headers.map headerSignature ≠ [[]] := by
    intro m v p heq
    obtain ⟨name, f, hw, -⟩ := hwords v p [] (heq ▸ List.mem_singleton_self _)
    simp at hw
  exact perm_of_join headerText_readsBack (hwords v₁ p₁) (hwords v₂ p₂) (hne v₁ p₁) (hne v₂ p₂) h

/-- A signature determines the plain match it was made from. -/
theorem same_of_signature {m₁ m₂ : Match} (v₁ : ValidMatch m₁) (v₂ : ValidMatch m₂)
    (p₁ : Plain m₁) (p₂ : Plain m₂) (hfold : FoldAlike m₁ m₂)
    (h : routeSignature m₁ = routeSignature m₂) : Same m₁ m₂ := by
  obtain ⟨hexact, hprefix, hregex, hmethods, htypes, hheaders⟩ := sections_eq v₁ v₂ p₁ p₂ h
  have hupper : ∀ {m}, Plain m → m.methods.map (toUpper <| trimSpace ·) = m.methods.map toUpper :=
    fun p => List.map_congr_left fun meth hmeth => by rw [p.methods meth hmeth]
  have hmethodsPerm : (m₁.methods.map toUpper).Perm (m₂.methods.map toUpper) := by
    refine perm_of_join (readsBack_of_notMem comma) (fun u hu => (v₁.method_clear hu).2.1)
      (fun u hu => (v₂.method_clear hu).2.1) ?_ ?_ hmethods
    · exact fun heq => (v₁.method_clear (heq ▸ List.mem_singleton_self _)).2.2 rfl
    · exact fun heq => (v₂.method_clear (heq ▸ List.mem_singleton_self _)).2.2 rfl
  have htypesPerm : m₁.contentType.Perm m₂.contentType :=
    perm_of_join (readsBack_of_notMem comma) (fun c hc => (p₁.types c hc).2)
      (fun c hc => (p₂.types c hc).2) p₁.types_ne p₂.types_ne htypes
  have hheadersPerm := headers_perm v₁ v₂ p₁ p₂ hheaders
  refine ⟨hexact, hprefix, hregex, fun u => ?_, fun c => htypesPerm.mem_iff, ?_, ?_⟩
  · rw [hupper p₁, hupper p₂]
    exact hmethodsPerm.mem_iff
  · intro h₁ hm₁
    obtain ⟨h₂, hm₂, heq⟩ :=
      List.mem_map.mp (hheadersPerm.mem_iff.mp (List.mem_map_of_mem hm₁))
    exact ⟨h₂, hm₂, sameHeader_of_signature v₁ v₂ p₁ p₂ hfold hm₁ hm₂ heq.symm⟩
  · intro h₂ hm₂
    obtain ⟨h₁, hm₁, heq⟩ :=
      List.mem_map.mp (hheadersPerm.mem_iff.mpr (List.mem_map_of_mem hm₂))
    exact ⟨h₁, hm₁, sameHeader_of_signature v₁ v₂ p₁ p₂ hfold hm₁ hm₂ heq⟩

end

end ElchiShield.Config
