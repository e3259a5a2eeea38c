import ElchiShield.Config.Load

/-! # Excerpts in parse errors

A decoder quotes the start of a value it cannot use between backquotes, and the value may hold
backquotes itself. What is redacted runs from one backquote to the next, whichever of them the
decoder has written. -/
namespace ElchiShield.Config
open ElchiShield.Go

/-- A message: each excerpt stands between backquotes, in front of the text that follows it. -/
def message (first : Bytes) : List Bytes → List Bytes → Bytes
  | text :: texts, excerpt :: excerpts =>
    first ++ backquote :: (excerpt ++ backquote :: message text texts excerpts)
  | _, _ => first

@[simp] theorem message_nil (first : Bytes) (es : List Bytes) : message first [] es = first := by
  rw [message]
  simp

@[simp] theorem message_nil_excerpts (first : Bytes) (texts : List Bytes) :
    message first texts [] = first := by
  cases texts <;> rfl

def redacted : Bytes := ascii "<redacted>"

/-! ## What the scanner does -/

/-- A text without backquotes is copied. -/
theorem redactLoop_text {text : Bytes} (h : backquote ∉ text) (s : Bytes) :
    redactLoop none (text ++ s) = text ++ redactLoop none s := by
  induction text with
  | nil => rfl
  | cons b text ih =>
    have hb : b ≠ backquote := (List.ne_of_not_mem_cons h).symm
    rw [List.cons_append, redactLoop, if_neg hb, ih (List.not_mem_of_not_mem_cons h)]
    rfl

/-- An excerpt without backquotes is replaced. -/
theorem redactLoop_excerpt {excerpt : Bytes} (h : backquote ∉ excerpt) (pending s : Bytes) :
    redactLoop (some pending) (excerpt ++ backquote :: s) =
      backquote :: (redacted ++ backquote :: redactLoop none s) := by
  induction excerpt generalizing pending with
  | nil =>
    rw [List.nil_append, redactLoop, if_pos rfl]
    rfl
  | cons b excerpt ih =>
    have hb : b ≠ backquote := (List.ne_of_not_mem_cons h).symm
    rw [List.cons_append, redactLoop, if_neg hb, ih (List.not_mem_of_not_mem_cons h)]

/-- The scanner writes as many backquotes as it has read. -/
theorem count_redactLoop_none (s : Bytes) :
    (redactLoop none s).count backquote = s.count backquote ∧
      ∀ pending, backquote ∉ pending →
        (redactLoop (some pending) s).count backquote = s.count backquote + 1 := by
  induction s with
  | nil =>
    refine ⟨rfl, fun pending h => ?_⟩
    rw [redactLoop, List.count_cons_self, List.count_eq_zero.mpr h]
    rfl
  | cons b s ih =>
    obtain ⟨hnone, hsome⟩ := ih
    by_cases hb : b = backquote
    · subst hb
      have hmark : (ascii "`<redacted>`").count backquote = 2 := by decide
      refine ⟨?_, fun pending _ => ?_⟩
      · rw [redactLoop, if_pos rfl, hsome [] List.not_mem_nil, List.count_cons_self]
      · rw [redactLoop, if_pos rfl, List.count_append, hmark, hnone, List.count_cons_self]
        omega
    · refine ⟨?_, fun pending hpending => ?_⟩
      · rw [redactLoop, if_neg hb, List.count_cons_of_ne hb, hnone, List.count_cons_of_ne hb]
      · have hmore : backquote ∉ pending ++ [b] := by
          simp [hpending, Ne.symm hb]
        rw [redactLoop, if_neg hb, hsome _ hmore, List.count_cons_of_ne hb]

/-! ## Messages -/

section
variable {first : Bytes} {texts es : List Bytes}

/-- Excerpts without backquotes are replaced, and nothing else is. -/
theorem redactValueSnippets_message (hfirst : backquote ∉ first)
    (htexts : ∀ t ∈ texts, backquote ∉ t) (hes : ∀ e ∈ es, backquote ∉ e) :
    redactValueSnippets (message first texts es) =
      message first texts (es.map fun _ => redacted) := by
  unfold redactValueSnippets
  induction es generalizing first texts with
  | nil => simpa [redactLoop] using redactLoop_text hfirst []
  | cons e es ih =>
    obtain ⟨he, hes⟩ := List.forall_mem_cons.mp hes
    cases texts with
    | nil => simpa [redactLoop] using redactLoop_text hfirst []
    | cons text texts =>
      obtain ⟨htext, htexts⟩ := List.forall_mem_cons.mp htexts
      rw [message, redactLoop_text hfirst, redactLoop, if_pos rfl, redactLoop_excerpt he,
        ih htext htexts hes]
      rfl

/-- Two backquotes for each excerpt, and those of the excerpts. -/
theorem count_message (hfirst : backquote ∉ first) (htexts : ∀ t ∈ texts, backquote ∉ t)
    (hlength : es.length = texts.length) :
    (message first texts es).count backquote =
      2 * texts.length + es.flatten.count backquote := by
  induction es generalizing first texts with
  | nil =>
    obtain rfl : texts = [] := List.length_eq_zero_iff.mp hlength.symm
    exact List.count_eq_zero.mpr hfirst
  | cons e es ih =>
    obtain ⟨text, texts, rfl⟩ := List.exists_cons_of_length_eq_add_one hlength.symm
    obtain ⟨htext, htexts⟩ := List.forall_mem_cons.mp htexts
    rw [message, List.count_append, List.count_eq_zero.mpr hfirst, List.count_cons_self,
      List.count_append, List.count_cons_self, ih htext htexts (Nat.succ.inj hlength),
      List.flatten_cons, List.count_append, List.length_cons]
    omega

end

/-- Two messages of one decoder error with different excerpts, one of them without backquotes in
its excerpts: they are redacted to the same text exactly if the other has none either. -/
theorem redacted_alike_iff (first : Bytes) (texts es es' : List Bytes) (hfirst : backquote ∉ first)
    (htexts : ∀ t ∈ texts, backquote ∉ t) (hlength : es.length = texts.length)
    (hlength' : es'.length = texts.length) (hes' : ∀ e ∈ es', backquote ∉ e) :
    redactValueSnippets (message first texts es) = redactValueSnippets (message first texts es') ↔
      ∀ e ∈ es, backquote ∉ e := by
  have hcount : ∀ s, (redactValueSnippets s).count backquote = s.count backquote :=
    fun s => (count_redactLoop_none s).1
  constructor
  · intro h
    have hsame := congrArg (List.count backquote) h
    rw [hcount, hcount, count_message hfirst htexts hlength,
      count_message hfirst htexts hlength'] at hsame
    have hclean : es'.flatten.count backquote = 0 := by
      rw [List.count_eq_zero, List.mem_flatten]
      exact fun ⟨e, he, hmem⟩ => hes' e he hmem
    have hzero : es.flatten.count backquote = 0 := by omega
    intro e he hmem
    exact List.count_eq_zero.mp hzero (List.mem_flatten.mpr ⟨e, he, hmem⟩)
  · intro hes
    rw [redactValueSnippets_message hfirst htexts hes, redactValueSnippets_message hfirst htexts hes',
      List.map_const', List.map_const', hlength, hlength']

/-- An excerpt that ends at ten bytes, as the decoder cuts it. -/
theorem excerpts_read_alike :
    redactValueSnippets (message (ascii "line 3: cannot unmarshal !!str ") [ascii " into int"]
        [ascii "SuperSe..."]) =
      redactValueSnippets (message (ascii "line 3: cannot unmarshal !!str ") [ascii " into int"]
        [ascii "x"]) :=
  (redacted_alike_iff _ [ascii " into int"] [ascii "SuperSe..."] [ascii "x"] (by decide) (by decide)
    rfl rfl (by decide)).mpr (by decide)

/-- A value with a backquote in it: what follows the backquote is shown. -/
theorem excerpt_behind_backquote_shown :
    let shown := fun excerpt => redactValueSnippets
      (message (ascii "line 3: cannot unmarshal !!str ") [ascii " into int"] [excerpt])
    shown (ascii "pa`s3cret") =
        ascii "line 3: cannot unmarshal !!str `<redacted>`s3cret` into int" ∧
      shown (ascii "pa`s3cret") ≠ shown (ascii "pa`hidden") := by
  decide

end ElchiShield.Config
