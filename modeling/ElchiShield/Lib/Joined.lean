import ElchiShield.Lib.Segments

/-! # Joined texts that read back

Words joined by a separator give the words back where the end of a word can be told: from the
word itself, or since no word holds the separator. -/
namespace ElchiShield.Lib

variable {α : Type} {sep : α}

/-- What may stand behind a word. -/
def Tail (sep : α) (rest : List α) : Prop := rest = [] ∨ ∃ more, rest = sep :: more

/-- Two words with this property that start the same text are the same. -/
def ReadsBack (sep : α) (P : List α → Prop) : Prop :=
  ∀ ⦃v w r s : List α⦄, P v → P w → Tail sep r → Tail sep s → v ++ r = w ++ s → v = w

theorem Tail.rootedText (sep : α) (words : List (List α)) : Tail sep (rootedText sep words) := by
  cases words with
  | nil => exact .inl rfl
  | cons word words => exact .inr ⟨_, rfl⟩

theorem Tail.not_append {r : List α} (h : Tail sep r) {t u : List α} (ht : t ≠ []) (hsep : sep ∉ t)
    (heq : r = t ++ u) : False := by
  obtain ⟨a, t, rfl⟩ := List.exists_cons_of_ne_nil ht
  rcases h with rfl | ⟨more, rfl⟩
  · cases heq
  · exact hsep ((List.cons.inj heq).1 ▸ List.mem_cons_self)

theorem readsBack_of_notMem (sep : α) : ReadsBack sep (fun word => sep ∉ word) := by
  intro v w r s hv hw hr hs heq
  rcases List.append_eq_append_iff.mp heq with ⟨t, rfl, hrt⟩ | ⟨t, rfl, hst⟩
  · by_contra hne
    refine hr.not_append (fun ht => hne ?_) (fun h => hw (List.mem_append_right v h)) hrt
    rw [ht, List.append_nil]
  · by_contra hne
    refine hs.not_append (fun ht => hne ?_) (fun h => hv (List.mem_append_right w h)) hst
    rw [ht, List.append_nil]

/-- A text is cut at its first separator in one way. -/
theorem append_sep_inj {v w r s : List α} (hv : sep ∉ v) (hw : sep ∉ w)
    (h : v ++ sep :: r = w ++ sep :: s) : v = w ∧ r = s := by
  obtain rfl := readsBack_of_notMem sep hv hw (.inr ⟨r, rfl⟩) (.inr ⟨s, rfl⟩) h
  exact ⟨rfl, (List.cons.inj (List.append_cancel_left h)).2⟩

variable {P : List α → Prop}

/-- Words behind separators are read off the text one by one. -/
theorem ReadsBack.rootedText_inj (h : ReadsBack sep P) {xs ys : List (List α)}
    (hx : ∀ x ∈ xs, P x) (hy : ∀ y ∈ ys, P y) (heq : rootedText sep xs = rootedText sep ys) :
    xs = ys := by
  induction xs generalizing ys with
  | nil =>
    cases ys with
    | nil => rfl
    | cons y ys => simp at heq
  | cons x xs ih =>
    cases ys with
    | nil => simp at heq
    | cons y ys =>
      obtain ⟨hx, hxs⟩ := List.forall_mem_cons.mp hx
      obtain ⟨hy, hys⟩ := List.forall_mem_cons.mp hy
      have htext : x ++ rootedText sep xs = y ++ rootedText sep ys := by simpa using heq
      obtain rfl := h hx hy (.rootedText sep xs) (.rootedText sep ys) htext
      rw [ih hxs hys (List.append_cancel_left htext)]

/-- Only one empty word is joined to the same text as no word. -/
theorem eq_nil_of_intercalate {xs : List (List α)} (hne : xs ≠ [[]])
    (h : [sep].intercalate xs = []) : xs = [] := by
  by_contra hxs
  have htext := @cons_intercalate α sep xs hxs
  obtain ⟨x, xs, rfl⟩ := List.exists_cons_of_ne_nil hxs
  rw [h, rootedText_cons, List.cons_append, List.cons.injEq] at htext
  obtain ⟨rfl, hrest⟩ := List.append_eq_nil_iff.mp htext.2.symm
  cases xs with
  | nil => exact hne rfl
  | cons y ys => cases hrest

theorem ReadsBack.intercalate_inj (h : ReadsBack sep P) {xs ys : List (List α)}
    (hx : ∀ x ∈ xs, P x) (hy : ∀ y ∈ ys, P y) (hxne : xs ≠ [[]]) (hyne : ys ≠ [[]])
    (heq : [sep].intercalate xs = [sep].intercalate ys) : xs = ys := by
  by_cases hxs : xs = []
  · rw [hxs, List.intercalate_nil] at heq
    rw [hxs, eq_nil_of_intercalate hyne heq.symm]
  by_cases hys : ys = []
  · rw [hys, List.intercalate_nil] at heq
    exact absurd (eq_nil_of_intercalate hxne heq) hxs
  refine h.rootedText_inj hx hy ?_
  rw [← cons_intercalate hxs, ← cons_intercalate hys, heq]

theorem mem_of_mem_intercalate {xs : List (List α)} {a : α} (h : a ∈ [sep].intercalate xs) :
    a = sep ∨ ∃ x ∈ xs, a ∈ x := by
  by_cases hxs : xs = []
  · simp [hxs] at h
  have htext : a ∈ rootedText sep xs := cons_intercalate hxs ▸ List.mem_cons_of_mem sep h
  obtain ⟨x, hx, ha⟩ := List.mem_flatMap.mp htext
  rcases List.mem_cons.mp ha with rfl | ha
  · exact .inl rfl
  · exact .inr ⟨x, hx, ha⟩

end ElchiShield.Lib
