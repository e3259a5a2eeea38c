import ElchiShield.Lib.Segments
import ElchiShield.Matcher
import Mathlib.Data.List.TakeWhile

/-! # The canonical form of a path

A rooted path is its segments. `normalizePath` decodes them, lets the dot segments walk the
tree from the root, and writes what is left. -/
namespace ElchiShield.Matcher
open ElchiShield.Go ElchiShield.Lib

/-! ## What is decoded -/

/-- The part of a request path before its query and fragment. -/
def pathPart (raw : Bytes) : Bytes := raw.takeWhile fun b => b != ch '?' && b != ch '#'

theorem before_before (raw : Bytes) : before (ch '#') (before (ch '?') raw) = pathPart raw := by
  unfold before pathPart
  rw [List.takeWhile_takeWhile]
  congr 1
  funext b
  rw [Bool.eq_iff_iff]
  simp [and_comm]

theorem pathPart_rooted {t : Bytes} : pathPart (slash :: t) = slash :: pathPart t := by
  rw [pathPart, List.takeWhile_cons_of_pos (by decide)]
  rfl

theorem pathPart_eq_self {s : Bytes} (h : ∀ b ∈ s, b ≠ ch '?' ∧ b ≠ ch '#') : pathPart s = s := by
  refine List.takeWhile_eq_self_iff.mpr ?_
  intro b hb
  simpa using h b hb

theorem pathUnescape_rooted (t : Bytes) :
    pathUnescape (slash :: t) = (pathUnescape t).map (slash :: ·) := by
  rw [pathUnescape.eq_def]
  exact if_neg (by decide)

theorem pathUnescape_eq_self {s : Bytes} (h : ch '%' ∉ s) : pathUnescape s = some s := by
  induction s with
  | nil => rfl
  | cons b s ih =>
    obtain ⟨hb, hs⟩ : ch '%' ≠ b ∧ ch '%' ∉ s := by simpa using h
    rw [pathUnescape.eq_def]
    dsimp only
    rw [if_neg (Ne.symm hb), ih hs]
    rfl

/-- The path as it is after one decoding, or as it was sent where it cannot be decoded. -/
def decodedPath (raw : Bytes) : Bytes := (pathUnescape (pathPart raw)).getD (pathPart raw)

theorem decodedPath_rooted {raw : Bytes} (h : raw.head? = some slash) :
    ∃ rest, decodedPath raw = slash :: rest := by
  obtain ⟨t, rfl⟩ := List.head?_eq_some_iff.mp h
  unfold decodedPath
  rw [pathPart_rooted, pathUnescape_rooted]
  cases pathUnescape (pathPart t) with
  | none => exact ⟨_, rfl⟩
  | some d => exact ⟨d, rfl⟩

/-! ## Dot segments -/

/-- A segment that names something. -/
structure ProperSegment (seg : Bytes) : Prop where
  ne_nil : seg ≠ []
  ne_dot : seg ≠ [dot]
  ne_dots : seg ≠ [dot, dot]

theorem cleanSegment_skip {seg : Bytes} (h : seg = [] ∨ seg = [dot]) (stack : List Bytes) :
    cleanSegment true stack seg = stack := by
  unfold cleanSegment
  rw [if_pos h]

theorem cleanSegment_proper {seg : Bytes} (h : ProperSegment seg) (stack : List Bytes) :
    cleanSegment true stack seg = seg :: stack := by
  unfold cleanSegment
  rw [if_neg (not_or.mpr ⟨h.ne_nil, h.ne_dot⟩), if_neg h.ne_dots]

/-- On a stack of proper segments a pair of dots takes the top one. -/
theorem cleanSegment_dots {stack : List Bytes} (h : ∀ seg ∈ stack, ProperSegment seg) :
    cleanSegment true stack [dot, dot] = stack.tail := by
  cases stack with
  | nil => rfl
  | cons top rest =>
    unfold cleanSegment
    rw [if_neg (by decide), if_pos rfl]
    exact if_neg (h top List.mem_cons_self).ne_dots

theorem cleanSegment_keeps {stack : List Bytes} (h : ∀ seg ∈ stack, ProperSegment seg) (seg : Bytes) :
    ∀ s ∈ cleanSegment true stack seg, ProperSegment s ∧ (s = seg ∨ s ∈ stack) := by
  by_cases hskip : seg = [] ∨ seg = [dot]
  · intro s hs
    rw [cleanSegment_skip hskip] at hs
    exact ⟨h s hs, .inr hs⟩
  · by_cases hdots : seg = [dot, dot]
    · subst hdots
      intro s hs
      rw [cleanSegment_dots h] at hs
      exact ⟨h s (List.mem_of_mem_tail hs), .inr (List.mem_of_mem_tail hs)⟩
    · have hproper : ProperSegment seg := ⟨fun hn => hskip (.inl hn), fun hd => hskip (.inr hd), hdots⟩
      intro s hs
      rw [cleanSegment_proper hproper] at hs
      rcases List.mem_cons.mp hs with rfl | hs
      · exact ⟨hproper, .inl rfl⟩
      · exact ⟨h s hs, .inr hs⟩

/-- What the dot segments leave of the segments of a rooted path. -/
def resolved (segs : List Bytes) : List Bytes := (segs.foldl (cleanSegment true) []).reverse

theorem resolved_append (segs : List Bytes) (seg : Bytes) :
    resolved (segs ++ [seg]) = (cleanSegment true (resolved segs).reverse seg).reverse := by
  simp [resolved]

theorem resolved_mem (segs : List Bytes) : ∀ s ∈ resolved segs, ProperSegment s ∧ s ∈ segs := by
  induction segs using List.reverseRecOn with
  | nil => simp [resolved]
  | append_singleton segs seg ih =>
    intro s hs
    rw [resolved_append, List.mem_reverse] at hs
    have hstack : ∀ t ∈ (resolved segs).reverse, ProperSegment t := fun t ht =>
      (ih t (List.mem_reverse.mp ht)).1
    obtain ⟨hproper, rfl | hmem⟩ := cleanSegment_keeps hstack seg s hs
    · exact ⟨hproper, by simp⟩
    · exact ⟨hproper, by simp [(ih s (List.mem_reverse.mp hmem)).2]⟩

theorem resolved_of_proper {segs : List Bytes} (h : ∀ seg ∈ segs, ProperSegment seg) :
    resolved segs = segs := by
  induction segs using List.reverseRecOn with
  | nil => rfl
  | append_singleton segs seg ih =>
    have hseg : ProperSegment seg := h seg (by simp)
    rw [resolved_append, ih fun s hs => h s (List.mem_append_left _ hs), cleanSegment_proper hseg]
    simp

theorem resolved_append_nil (segs : List Bytes) : resolved (segs ++ [[]]) = resolved segs := by
  rw [resolved_append, cleanSegment_skip (.inl rfl), List.reverse_reverse]

/-! ## The path that is matched -/

/-- The empty segment behind a closing slash. -/
def closing (closed : Bool) : List Bytes := if closed then [[]] else []

/-- A slash at the end is kept, and the root has one. -/
def keepsSlash (segs : List Bytes) : Bool := segs.getLast? = some [] || resolved segs = []

theorem resolved_segments {segs : List Bytes} (h : Segments slash segs) :
    Segments slash (resolved segs) :=
  fun seg hseg => h seg (resolved_mem segs seg hseg).2

theorem cleanPath_rooted (rest : Bytes) :
    cleanPath (slash :: rest) = slash :: join [slash] (resolved (rest.splitOn slash)) := by
  have hsplit : (slash :: rest).splitOn slash = [] :: rest.splitOn slash := by
    rw [List.splitOn_cons_eq_if_modifyHead, if_pos (beq_self_eq_true _)]
  simp [cleanPath, hsplit, resolved, cleanSegment]

theorem normalizePath_eq {raw rest : Bytes} (h : decodedPath raw = slash :: rest) :
    normalizePath raw = rootedText slash (resolved (rest.splitOn slash) ++
      closing (keepsSlash (rest.splitOn slash))) := by
  have hsegs := Segments.splitOn slash rest
  have hslash : (slash :: rest).getLast? = some slash ↔ (rest.splitOn slash).getLast? = some [] := by
    rw [← hsegs.getLast?_text, rootedText_splitOn]
  have hdecoded : (pathUnescape (pathPart raw)).getD (pathPart raw) = slash :: rest := h
  unfold normalizePath
  simp only [before_before, hdecoded, cleanPath_rooted, if_neg (List.cons_ne_nil slash rest)]
  by_cases hnone : resolved (rest.splitOn slash) = []
  · simp [hnone, keepsSlash, closing, join, List.intercalate]
  · have htext : slash :: join [slash] (resolved (rest.splitOn slash)) =
        rootedText slash (resolved (rest.splitOn slash)) := cons_intercalate hnone
    have hopen : (rootedText slash (resolved (rest.splitOn slash))).getLast? ≠ some slash := by
      rw [Ne, (resolved_segments hsegs).getLast?_text]
      intro hlast
      exact (resolved_mem _ _ (List.mem_of_getLast? hlast)).1.ne_nil rfl
    have hroot : slash :: join [slash] (resolved (rest.splitOn slash)) ≠ [dot] := by
      intro heq
      exact absurd (List.cons.inj heq).1 (by decide)
    rw [if_neg hroot, htext, rootedText_append]
    by_cases hlast : (rest.splitOn slash).getLast? = some []
    · rw [if_pos ⟨hslash.mpr hlast, hopen⟩]
      simp [keepsSlash, closing, hlast]
    · rw [if_neg fun hboth => hlast (hslash.mp hboth.1)]
      simp [keepsSlash, closing, hlast, hnone]

/-! ## Canonical paths -/

/-- Rooted, with proper segments only, but for an empty one behind a closing slash. -/
structure Canonical (path : Bytes) : Prop where
  rooted : path.head? = some slash
  inner : ∀ seg ∈ (path.splitOn slash).tail.dropLast, ProperSegment seg
  last : ∀ seg, (path.splitOn slash).getLast? = some seg → seg = [] ∨ ProperSegment seg

theorem canonical_text {segs : List Bytes} {closed : Bool} (hsegs : Segments slash segs)
    (hproper : ∀ seg ∈ segs, ProperSegment seg) (hclosed : segs = [] → closed = true) :
    Canonical (rootedText slash (segs ++ closing closed)) := by
  cases closed with
  | true =>
    have hall : Segments slash (segs ++ [[]]) := by
      intro seg hseg
      rcases List.mem_append.mp hseg with hseg | hseg
      · exact hsegs seg hseg
      · simp [List.mem_singleton.mp hseg]
    have hsplit : (rootedText slash (segs ++ closing true)).splitOn slash = [] :: (segs ++ [[]]) :=
      splitOn_rootedText hall
    refine ⟨?_, ?_, ?_⟩
    · cases segs <;> rfl
    · rw [hsplit, List.tail_cons, List.dropLast_concat]
      exact hproper
    · intro seg hseg
      rw [hsplit, ← List.cons_append, List.getLast?_concat] at hseg
      exact .inl (Option.some.inj hseg).symm
  | false =>
    obtain ⟨first, rest, rfl⟩ : ∃ first rest, segs = first :: rest := by
      cases segs with
      | nil => exact absurd (hclosed rfl) (by decide)
      | cons first rest => exact ⟨first, rest, rfl⟩
    have hsplit : (rootedText slash (first :: rest ++ closing false)).splitOn slash =
        [] :: first :: rest := by
      simpa [closing] using splitOn_rootedText hsegs
    refine ⟨rfl, ?_, ?_⟩
    · intro seg hseg
      rw [hsplit] at hseg
      exact hproper seg (List.dropLast_subset _ hseg)
    · intro seg hseg
      rw [hsplit, List.getLast?_cons_cons] at hseg
      exact .inr (hproper seg (List.mem_of_getLast? hseg))

theorem normalizePath_canonical {raw : Bytes} (h : raw.head? = some slash) :
    Canonical (normalizePath raw) := by
  obtain ⟨rest, hrest⟩ := decodedPath_rooted h
  rw [normalizePath_eq hrest]
  refine canonical_text (resolved_segments (Segments.splitOn slash rest)) ?_ ?_
  · intro seg hseg
    exact (resolved_mem _ seg hseg).1
  · intro hnone
    simp [keepsSlash, hnone]

/-- The path part decides. -/
theorem normalizePath_congr {raw raw' : Bytes} (h : raw.head? = some slash)
    (hpart : pathPart raw' = pathPart raw) : normalizePath raw' = normalizePath raw := by
  obtain ⟨rest, hrest⟩ := decodedPath_rooted h
  have hrest' : decodedPath raw' = slash :: rest := by
    rw [← hrest, decodedPath, decodedPath, hpart]
  rw [normalizePath_eq hrest, normalizePath_eq hrest']

/-- The segments of a canonical path are those the dot segments leave. -/
theorem Canonical.text_eq {rest : Bytes} (h : Canonical (slash :: rest)) :
    rootedText slash (resolved (rest.splitOn slash) ++ closing (keepsSlash (rest.splitOn slash))) =
      slash :: rest := by
  have hsplit : (slash :: rest).splitOn slash = [] :: rest.splitOn slash := by
    rw [List.splitOn_cons_eq_if_modifyHead, if_pos (beq_self_eq_true _)]
  have hinner := h.inner
  have hlast := h.last
  rw [hsplit, List.tail_cons] at hinner
  rw [← rootedText_splitOn rest]
  congr 1
  obtain hnil | ⟨init, last, hsegs⟩ := (rest.splitOn slash).eq_nil_or_concat
  · exact absurd hnil (List.splitOn_ne_nil slash rest)
  · rw [List.concat_eq_append] at hsegs
    rw [hsegs, List.dropLast_concat] at hinner
    rw [hsplit, hsegs, ← List.cons_append, List.getLast?_concat] at hlast
    rw [hsegs]
    rcases hlast last rfl with rfl | hproper
    · rw [resolved_append_nil, resolved_of_proper hinner]
      simp [keepsSlash, closing]
    · have hall : ∀ seg ∈ init ++ [last], ProperSegment seg := by
        intro seg hseg
        rcases List.mem_append.mp hseg with hseg | hseg
        · exact hinner seg hseg
        · rw [List.mem_singleton.mp hseg]
          exact hproper
      have hopen : keepsSlash (init ++ [last]) = false := by
        simp [keepsSlash, resolved_of_proper hall, hproper.ne_nil]
      rw [resolved_of_proper hall, hopen]
      exact List.append_nil _

theorem Canonical.normalizePath_eq_self {path : Bytes} (h : Canonical path)
    (hplain : ∀ b ∈ path, b ≠ ch '%' ∧ b ≠ ch '?' ∧ b ≠ ch '#') : normalizePath path = path := by
  obtain ⟨rest, rfl⟩ := List.head?_eq_some_iff.mp h.rooted
  have hpart : pathPart (slash :: rest) = slash :: rest :=
    pathPart_eq_self fun b hb => (hplain b hb).2
  have hdecoded : decodedPath (slash :: rest) = slash :: rest := by
    rw [decodedPath, hpart, pathUnescape_eq_self fun hmem => (hplain _ hmem).1 rfl]
    rfl
  rw [normalizePath_eq hdecoded, h.text_eq]

end ElchiShield.Matcher
