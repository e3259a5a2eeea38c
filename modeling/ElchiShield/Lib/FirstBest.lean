import Mathlib.Data.List.Induction

/-! # The first of the best

Scanning a list for an element of highest rank, where a later element has to be strictly better
than the one that is held. A held element that is blank gives way to any other, whatever its
rank: that is right at the start of the scan and wrong once a blank element of the list is held. -/
namespace ElchiShield.Lib

variable {α : Type} {blank : α → Bool} {rank : α → Nat} {a held : α} {xs : List α}

/-- The elements before it are worse, and those after it no better. -/
def FirstBest (rank : α → Nat) (xs : List α) (a : α) : Prop :=
  ∃ before after, xs = before ++ a :: after ∧
    (∀ b ∈ before, rank b < rank a) ∧ ∀ b ∈ after, rank b ≤ rank a

theorem exists_firstBest (rank : α → Nat) (h : xs ≠ []) : ∃ a, FirstBest rank xs a := by
  induction xs with
  | nil => exact absurd rfl h
  | cons x xs ih =>
    by_cases hxs : xs = []
    · exact ⟨x, [], [], by rw [hxs]; rfl, by simp, by simp⟩
    · obtain ⟨a, before, after, rfl, hbefore, hafter⟩ := ih hxs
      by_cases hx : rank x < rank a
      · exact ⟨a, x :: before, after, rfl, List.forall_mem_cons.mpr ⟨hx, hbefore⟩, hafter⟩
      · refine ⟨x, [], before ++ a :: after, rfl, by simp, fun b hb => ?_⟩
        rcases List.mem_append.mp hb with hb | hb
        · have := hbefore b hb
          omega
        rcases List.mem_cons.mp hb with rfl | hb
        · omega
        · have := hafter b hb
          omega

/-- What is held after one more element. -/
def takeBetter (blank : α → Bool) (rank : α → Nat) (held a : α) : α :=
  if blank held = true ∨ rank held < rank a then a else held

/-- What is not blank and of highest rank is held to the end. -/
theorem foldl_takeBetter_best (hblank : blank held = false) (h : ∀ b ∈ xs, rank b ≤ rank held) :
    xs.foldl (takeBetter blank rank) held = held := by
  induction xs with
  | nil => rfl
  | cons x xs ih =>
    have hx := h x List.mem_cons_self
    rw [List.foldl_cons, takeBetter, if_neg (by simp [hblank, hx])]
    exact ih fun b hb => h b (List.mem_cons_of_mem _ hb)

/-- From something blank, worse elements leave it or one of them held. -/
theorem foldl_takeBetter_worse {n : Nat} (hheld : blank held = true ∨ rank held < n)
    (h : ∀ b ∈ xs, rank b < n) :
    blank (xs.foldl (takeBetter blank rank) held) = true ∨
      rank (xs.foldl (takeBetter blank rank) held) < n := by
  induction xs generalizing held with
  | nil => exact hheld
  | cons x xs ih =>
    rw [List.foldl_cons]
    refine ih ?_ fun b hb => h b (List.mem_cons_of_mem _ hb)
    unfold takeBetter
    split
    · exact .inr (h x List.mem_cons_self)
    · exact hheld

/-- Held at the end of elements that are no better than rank `n` is one of that rank that is not
blank, if there is one. -/
theorem foldl_takeBetter_settled {n : Nat} (hheld : blank held = true)
    (h : ∀ b ∈ xs, rank b ≤ n) (hrank : rank held ≤ n) :
    rank (xs.foldl (takeBetter blank rank) held) ≤ n ∧
    ((blank (xs.foldl (takeBetter blank rank) held) = false ∧
      rank (xs.foldl (takeBetter blank rank) held) = n) ↔
      ∃ b ∈ xs, blank b = false ∧ rank b = n) := by
  induction xs using List.reverseRecOn with
  | nil => simp [hheld, hrank]
  | append_singleton xs x ih =>
    obtain ⟨hle, hiff⟩ := ih fun b hb => h b (List.mem_append_left _ hb)
    have hx := h x (by simp)
    rw [List.foldl_append, List.foldl_cons, List.foldl_nil]
    generalize xs.foldl (takeBetter blank rank) held = cur at hle hiff
    have hsplit : (∃ b ∈ xs ++ [x], blank b = false ∧ rank b = n) ↔
        (blank cur = false ∧ rank cur = n) ∨ (blank x = false ∧ rank x = n) := by
      rw [hiff]
      simp only [List.mem_append, List.mem_singleton, or_and_right, exists_or, exists_eq_left]
    rw [hsplit, takeBetter]
    split
    next htake =>
      refine ⟨hx, fun hbest => .inr hbest, ?_⟩
      rintro (⟨hblank, hcur⟩ | hbest)
      · rcases htake with htake | htake
        · rw [hblank] at htake
          cases htake
        · omega
      · exact hbest
    next htake =>
      obtain ⟨hblank, hlt⟩ := not_or.mp htake
      refine ⟨hle, fun hbest => .inl hbest, ?_⟩
      rintro (hbest | ⟨-, hxn⟩)
      · exact hbest
      · exact ⟨by simpa using hblank, by omega⟩

/-- The scan ends with the first of the best, unless that is blank: then all of the best have to
be blank and the last element has to be like it. -/
theorem foldl_takeBetter_iff (hheld : blank held = true) (h : FirstBest rank xs a) :
    xs.foldl (takeBetter blank rank) held = a ↔
      blank a = false ∨ (∀ b ∈ xs, rank b = rank a → blank b = true) ∧ xs.getLast? = some a := by
  obtain ⟨before, after, rfl, hbefore, hafter⟩ := h
  -- whatever is held when `a` comes gives way to it
  have hfirst : takeBetter blank rank (before.foldl (takeBetter blank rank) held) a = a :=
    if_pos (foldl_takeBetter_worse (.inl hheld) hbefore)
  rw [List.foldl_append, List.foldl_cons, hfirst]
  cases hblank : blank a with
  | false => simp [foldl_takeBetter_best hblank hafter]
  | true =>
    simp only [Bool.true_eq_false, false_or]
    have hworse : (∀ b ∈ before ++ a :: after, rank b = rank a → blank b = true) ↔
        ∀ b ∈ after, rank b = rank a → blank b = true := by
      constructor
      · exact fun h b hb => h b (List.mem_append_right _ (List.mem_cons_of_mem _ hb))
      · intro h b hb heq
        rcases List.mem_append.mp hb with hb | hb
        · exact absurd heq (Nat.ne_of_lt (hbefore b hb))
        · rcases List.mem_cons.mp hb with rfl | hb
          · exact hblank
          · exact h b hb heq
    rw [hworse]
    cases after using List.reverseRecOn with
    | nil => simp
    | append_singleton rest x =>
      have hrest : ∀ b ∈ rest, rank b ≤ rank a := fun b hb => hafter b (List.mem_append_left _ hb)
      obtain ⟨hle, hsettled⟩ := foldl_takeBetter_settled hblank hrest (Nat.le_refl _)
      rw [List.foldl_append, List.foldl_cons, List.foldl_nil]
      generalize rest.foldl (takeBetter blank rank) a = cur at hle hsettled
      have hlast : (before ++ a :: (rest ++ [x])).getLast? = some x := by
        rw [← List.cons_append, ← List.append_assoc, List.getLast?_concat]
      rw [hlast, Option.some.injEq, takeBetter]
      constructor
      · intro heq
        split at heq
        next htake =>
          subst heq
          refine ⟨fun b hb hrank => ?_, rfl⟩
          rcases List.mem_append.mp hb with hb | hb
          · by_contra hb'
            obtain ⟨hcur, hrankcur⟩ := hsettled.mpr ⟨b, hb, by simpa using hb', hrank⟩
            rcases htake with htake | htake
            · rw [hcur] at htake
              cases htake
            · omega
          · rw [List.mem_singleton.mp hb]
            exact hblank
        next htake =>
          subst heq
          exact absurd (.inl hblank) htake
      · rintro ⟨hall, rfl⟩
        refine if_pos ?_
        by_contra hnot
        obtain ⟨hcur, hlt⟩ := not_or.mp hnot
        obtain ⟨b, hb, hbblank, hbrank⟩ := hsettled.mp ⟨by simpa using hcur, by omega⟩
        rw [hall b (List.mem_append_left _ hb) hbrank] at hbblank
        cases hbblank

end ElchiShield.Lib
