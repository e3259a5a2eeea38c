import Mathlib.Data.List.Infix

/-! # Segments behind separators

A text that starts with a separator is a list of segments, each behind its separator. The
segments hold no separator, and are read off the text. -/
namespace ElchiShield.Lib

variable {α : Type} [DecidableEq α] {sep : α}

/-- No segment holds the separator. -/
def Segments (sep : α) (segs : List (List α)) : Prop := ∀ seg ∈ segs, sep ∉ seg

theorem Segments.splitOn (sep : α) (s : List α) : Segments sep (s.splitOn sep) := by
  induction s with
  | nil => simp [Segments]
  | cons a s ih =>
    rw [List.splitOn_cons_eq_if_modifyHead]
    split
    next =>
      intro seg hseg
      rcases List.mem_cons.mp hseg with rfl | hseg
      · exact List.not_mem_nil
      · exact ih seg hseg
    next hne =>
      cases hs : s.splitOn sep with
      | nil => exact absurd hs (List.splitOn_ne_nil sep s)
      | cons first rest =>
        rw [hs] at ih
        intro seg hseg
        rcases List.mem_cons.mp hseg with rfl | hseg
        · intro hmem
          rcases List.mem_cons.mp hmem with rfl | hmem
          · exact hne (beq_self_eq_true _)
          · exact ih first List.mem_cons_self hmem
        · exact ih seg (List.mem_cons_of_mem _ hseg)

/-- Each segment behind a separator. -/
def rootedText (sep : α) (segs : List (List α)) : List α := segs.flatMap (sep :: ·)

omit [DecidableEq α] in
@[simp] theorem rootedText_nil : rootedText sep [] = [] := rfl

omit [DecidableEq α] in
@[simp] theorem rootedText_cons (seg : List α) (segs : List (List α)) :
    rootedText sep (seg :: segs) = sep :: seg ++ rootedText sep segs := List.flatMap_cons

omit [DecidableEq α] in
@[simp] theorem rootedText_append (segs more : List (List α)) :
    rootedText sep (segs ++ more) = rootedText sep segs ++ rootedText sep more :=
  List.flatMap_append

omit [DecidableEq α] in
/-- Joined by separators, and one in front. -/
theorem cons_intercalate {segs : List (List α)} (h : segs ≠ []) :
    sep :: [sep].intercalate segs = rootedText sep segs := by
  induction segs with
  | nil => exact absurd rfl h
  | cons seg segs ih =>
    cases segs with
    | nil => simp [List.intercalate]
    | cons next rest =>
      rw [rootedText_cons, ← ih (by simp)]
      simp [List.intercalate]

theorem rootedText_splitOn (s : List α) : rootedText sep (s.splitOn sep) = sep :: s := by
  rw [← cons_intercalate (List.splitOn_ne_nil sep s), List.intercalate_splitOn]

/-- The segments are read off the text. -/
theorem splitOn_rootedText {segs : List (List α)} (h : Segments sep segs) :
    (rootedText sep segs).splitOn sep = [] :: segs := by
  cases segs with
  | nil => simp
  | cons seg segs =>
    have hne : seg :: segs ≠ [] := List.cons_ne_nil _ _
    rw [← cons_intercalate hne, List.splitOn_cons_eq_if_modifyHead, if_pos (beq_self_eq_true _),
      List.splitOn_intercalate sep h hne]

theorem Segments.text_inj {segs more : List (List α)} (h : Segments sep segs)
    (hmore : Segments sep more) (heq : rootedText sep segs = rootedText sep more) :
    segs = more := by
  have hsplit := congrArg (List.splitOn sep) heq
  rw [splitOn_rootedText h, splitOn_rootedText hmore] at hsplit
  exact (List.cons.inj hsplit).2

/-- The first segment, and nothing after it. -/
theorem Segments.text_eq_iff {seg x : List α} {segs : List (List α)}
    (h : Segments sep (seg :: segs)) (hx : sep ∉ x) :
    rootedText sep (seg :: segs) = sep :: x ↔ seg = x ∧ segs = [] := by
  constructor
  · intro heq
    have hsame : seg :: segs = [x] := by
      refine h.text_inj (by simpa [Segments] using hx) ?_
      rw [heq]
      simp
    exact ⟨(List.cons.inj hsame).1, (List.cons.inj hsame).2⟩
  · rintro ⟨rfl, rfl⟩
    simp

/-- The first segment, and another one after it. -/
theorem Segments.prefix_iff {seg x : List α} {segs : List (List α)}
    (h : Segments sep (seg :: segs)) (hx : sep ∉ x) :
    sep :: x ++ [sep] <+: rootedText sep (seg :: segs) ↔ seg = x ∧ segs ≠ [] := by
  constructor
  · rintro ⟨t, ht⟩
    have hsplit : (x ++ sep :: t).splitOn sep = x :: t.splitOn sep :=
      List.splitOn_append_cons_self_of_not_mem hx t
    have hsame : seg :: segs = x :: t.splitOn sep := by
      refine h.text_inj (hsplit ▸ Segments.splitOn sep _) ?_
      rw [← ht, ← hsplit, rootedText_splitOn]
      simp
    obtain ⟨rfl, rfl⟩ := List.cons.inj hsame
    exact ⟨rfl, List.splitOn_ne_nil sep t⟩
  · rintro ⟨rfl, hne⟩
    cases segs with
    | nil => exact absurd rfl hne
    | cons next rest => exact ⟨next ++ rootedText sep rest, by simp⟩

/-- The first segment runs up to the next separator. -/
theorem Segments.takeWhile_text {seg : List α} (h : sep ∉ seg) (segs : List (List α)) :
    (seg ++ rootedText sep segs).takeWhile (· ≠ sep) = seg := by
  have hother : ∀ a ∈ seg, decide (a ≠ sep) = true := by
    intro a ha
    exact decide_eq_true fun heq => h (heq ▸ ha)
  rw [List.takeWhile_append_of_pos hother]
  cases segs <;> simp

theorem Segments.dropWhile_text {seg : List α} (h : sep ∉ seg) (segs : List (List α)) :
    (seg ++ rootedText sep segs).dropWhile (· ≠ sep) = rootedText sep segs := by
  have hother : ∀ a ∈ seg, decide (a ≠ sep) = true := by
    intro a ha
    exact decide_eq_true fun heq => h (heq ▸ ha)
  rw [List.dropWhile_append_of_pos hother]
  cases segs <;> simp

omit [DecidableEq α] in
/-- The text ends with a separator where its last segment is empty. -/
theorem Segments.getLast?_text {segs : List (List α)} (h : Segments sep segs) :
    (rootedText sep segs).getLast? = some sep ↔ segs.getLast? = some [] := by
  cases segs using List.reverseRecOn with
  | nil => simp
  | append_singleton init last =>
    have hlast : sep ∉ last := h last (by simp)
    rw [List.getLast?_concat]
    cases last using List.reverseRecOn with
    | nil => simp
    | append_singleton t a =>
      simp only [List.mem_append, List.mem_singleton, not_or] at hlast
      have hend : rootedText sep (init ++ [t ++ [a]]) = (rootedText sep init ++ sep :: t) ++ [a] := by
        simp
      rw [hend, List.getLast?_concat]
      simp [Ne.symm hlast.2]

end ElchiShield.Lib
