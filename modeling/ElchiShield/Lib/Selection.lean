import Mathlib.Data.List.MinMax
import Mathlib.Data.List.Sort

/-! # Selecting a best element

Three ways to select an element of highest rank: scanning for a strictly better one,
taking the first hit of a stably sorted list, and `List.argmax`. They agree where the
best element is unique, or where ties go to the earliest one. -/
namespace ElchiShield.Lib

variable {α β : Type}

/-! ## Scanning -/

/-- Keep the best element so far with its score; a later one has to be strictly better. -/
def scan (score : α → Int) (best : Option α × Int) (a : α) : Option α × Int :=
  if score a > best.2 then (some a, score a) else best

/-- What a scan that started below `floor` has found. -/
structure Scanned (score : α → Int) (floor : Int) (xs : List α) (best : Option α × Int) : Prop where
  le_score : ∀ a ∈ xs, score a ≤ best.2
  found : ∀ a, best.1 = some a → a ∈ xs ∧ floor < score a ∧ best.2 = score a
  missed : best.1 = none → best.2 = floor

theorem scan_step {score : α → Int} {floor : Int} {xs : List α} {best : Option α × Int}
    (h : Scanned score floor xs best) (hfloor : floor ≤ best.2) (a : α) :
    Scanned score floor (xs ++ [a]) (scan score best a) ∧ floor ≤ (scan score best a).2 := by
  unfold scan
  split
  next hbetter =>
    refine ⟨⟨?_, ?_, ?_⟩, by show floor ≤ score a; omega⟩
    · intro b hb
      rcases List.mem_append.mp hb with hb | hb
      · have := h.le_score b hb
        show score b ≤ score a
        omega
      · rw [List.mem_singleton.mp hb]
    · intro b hb
      obtain rfl := Option.some.inj hb
      exact ⟨by simp, by omega, rfl⟩
    · intro hb
      cases hb
  next hworse =>
    refine ⟨⟨?_, ?_, h.missed⟩, hfloor⟩
    · intro b hb
      rcases List.mem_append.mp hb with hb | hb
      · exact h.le_score b hb
      · rw [List.mem_singleton.mp hb]
        omega
    · intro b hb
      obtain ⟨hmem, hlt, heq⟩ := h.found b hb
      exact ⟨List.mem_append_left _ hmem, hlt, heq⟩

theorem foldl_scan_from {score : α → Int} {floor : Int} (ys : List α) {xs : List α}
    {best : Option α × Int} (h : Scanned score floor xs best) (hfloor : floor ≤ best.2) :
    Scanned score floor (xs ++ ys) (ys.foldl (scan score) best) := by
  induction ys generalizing xs best with
  | nil => simpa using h
  | cons a ys ih =>
    obtain ⟨hs, hf⟩ := scan_step h hfloor a
    simpa using ih hs hf

theorem foldl_scan (score : α → Int) (floor : Int) (xs : List α) :
    Scanned score floor xs (xs.foldl (scan score) (none, floor)) := by
  have hnil : Scanned score floor ([] : List α) (none, floor) :=
    ⟨by simp, by simp, fun _ => rfl⟩
  simpa using foldl_scan_from xs hnil le_rfl

/-! ## Stable sorting -/

section
variable [LinearOrder β] {rank : α → β} {r : α → α → Prop} [DecidableRel r]

/-- The first hit after inserting `a` into a list sorted by falling rank. -/
theorem find?_orderedInsert (hr : ∀ a b, r a b ↔ rank b ≤ rank a) (p : α → Bool) (a : α)
    {xs : List α} (hs : xs.Pairwise r) :
    (xs.orderedInsert r a).find? p =
      if p a then
        match xs.find? p with
        | none => some a
        | some b => if rank a < rank b then some b else some a
      else xs.find? p := by
  induction xs with
  | nil => cases h : p a <;> simp [h]
  | cons x xs ih =>
    obtain ⟨hx, hxs⟩ := List.pairwise_cons.mp hs
    rw [List.orderedInsert_cons]
    split
    next hax =>
      -- everything from `x` on is at most as good as `a`
      cases hpa : p a with
      | false => simp [hpa]
      | true =>
        have hle : ∀ b ∈ x :: xs, rank b ≤ rank a := by
          intro b hb
          rcases List.mem_cons.mp hb with rfl | hb
          · exact (hr a b).mp hax
          · exact le_trans ((hr x b).mp (hx b hb)) ((hr a x).mp hax)
        cases hf : (x :: xs).find? p with
        | none => simp [hpa]
        | some b =>
          have hb := hle b (List.mem_of_find?_eq_some hf)
          simp [hpa, not_lt.mpr hb]
    next hax =>
      have hlt : rank a < rank x := not_le.mp fun h => hax ((hr a x).mpr h)
      rw [List.find?_cons, List.find?_cons, ih hxs]
      cases hpx : p x with
      | true => simp [hlt]
      | false => rfl

/-- The first hit of a stable sort is the earliest hit of highest rank. -/
theorem find?_insertionSort (hr : ∀ a b, r a b ↔ rank b ≤ rank a) (p : α → Bool) (xs : List α) :
    (xs.insertionSort r).find? p = (xs.filter p).argmax rank := by
  have htotal : Std.Total r := ⟨fun a b => by rw [hr, hr]; exact le_total _ _⟩
  have htrans : IsTrans α r := ⟨fun a b c hab hbc => by
    rw [hr] at hab hbc ⊢
    exact le_trans hbc hab⟩
  induction xs with
  | nil => rfl
  | cons a xs ih =>
    rw [List.insertionSort_cons, find?_orderedInsert hr p a (List.pairwise_insertionSort r xs), ih,
      List.filter_cons]
    cases p a with
    | false => rfl
    | true =>
      rw [if_pos rfl, if_pos rfl, List.argmax_cons]
      cases List.argmax rank (xs.filter p) <;> rfl

end

/-! ## Unique keys -/

/-- Where keys are not repeated, a key belongs to one element. -/
theorem eq_of_mem_keys {keys : α → List β} {xs : List α} (h : (xs.flatMap keys).Nodup) {a b : α}
    (ha : a ∈ xs) (hb : b ∈ xs) {k : β} (hka : k ∈ keys a) (hkb : k ∈ keys b) : a = b := by
  induction xs with
  | nil => cases ha
  | cons x xs ih =>
    rw [List.flatMap_cons, List.nodup_append'] at h
    obtain ⟨-, hxs, hdisj⟩ := h
    rcases List.mem_cons.mp ha with rfl | ha'
    · rcases List.mem_cons.mp hb with rfl | hb'
      · rfl
      · exact absurd (List.mem_flatMap.mpr ⟨b, hb', hkb⟩) (hdisj hka)
    · rcases List.mem_cons.mp hb with rfl | hb'
      · exact absurd (List.mem_flatMap.mpr ⟨a, ha', hka⟩) (hdisj hkb)
      · exact ih hxs ha' hb'

/-! ## Related lists -/

/-- Related lists of equal ranks have related best elements. -/
theorem argmax_related {γ : Type} [LinearOrder β] {f : α → β} {g : γ → β} {R : α → γ → Prop}
    (hR : ∀ a c, R a c → f a = g c) {xs : List α} {ys : List γ} (h : List.Forall₂ R xs ys) :
    Option.Rel R (xs.argmax f) (ys.argmax g) := by
  induction h with
  | nil => exact .none
  | @cons a c xs ys hac _ ih =>
    rw [List.argmax_cons, List.argmax_cons]
    generalize xs.argmax f = best, ys.argmax g = best' at ih ⊢
    cases ih with
    | none => exact .some hac
    | @some b d hbd =>
      dsimp only
      rw [hR a c hac, hR b d hbd]
      split
      · exact .some hbd
      · exact .some hac

end ElchiShield.Lib
