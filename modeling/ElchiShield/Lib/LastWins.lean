import Mathlib.Data.List.Basic

/-! # Settings the last writer wins

Layers may set a value or leave it alone. Folding them, a later layer wins over an earlier one
and over what is inherited. -/
namespace ElchiShield.Lib

variable {α β : Type} {f : α → Option β} {inherited : Option β} {xs : List α}

def lastWins (f : α → Option β) (inherited : Option β) (xs : List α) : Option β :=
  xs.foldl (fun acc x => (f x).or acc) inherited

theorem lastWins_cons (x : α) (xs : List α) :
    lastWins f inherited (x :: xs) = lastWins f ((f x).or inherited) xs := rfl

theorem lastWins_append (xs ys : List α) :
    lastWins f inherited (xs ++ ys) = lastWins f (lastWins f inherited xs) ys := by
  simp [lastWins]

/-- `x` is the last layer that sets the value. -/
def LastSets (f : α → Option β) (xs : List α) (x : α) : Prop :=
  ∃ before after, xs = before ++ x :: after ∧ (f x).isSome = true ∧ ∀ y ∈ after, f y = none

theorem lastWins_unset (h : ∀ x ∈ xs, f x = none) : lastWins f inherited xs = inherited := by
  induction xs with
  | nil => rfl
  | cons x xs ih =>
    rw [lastWins_cons, h x List.mem_cons_self, Option.none_or]
    exact ih fun y hy => h y (List.mem_cons_of_mem _ hy)

theorem LastSets.lastWins_eq {x : α} (h : LastSets f xs x) : lastWins f inherited xs = f x := by
  obtain ⟨before, after, rfl, hx, hafter⟩ := h
  rw [lastWins_append, lastWins_cons, lastWins_unset hafter]
  exact Option.or_of_isSome hx

theorem LastSets.mem {x : α} (h : LastSets f xs x) : x ∈ xs := by
  obtain ⟨before, after, rfl, -⟩ := h
  simp

/-- No layer sets the value, or one is the last to set it. -/
theorem unset_or_lastSets (f : α → Option β) (xs : List α) :
    (∀ x ∈ xs, f x = none) ∨ ∃ x, LastSets f xs x := by
  induction xs with
  | nil => exact .inl (by simp)
  | cons y xs ih =>
    obtain hunset | ⟨x, before, after, rfl, hx, hafter⟩ := ih
    · cases hy : f y with
      | none => exact .inl (List.forall_mem_cons.mpr ⟨hy, hunset⟩)
      | some b => exact .inr ⟨y, [], xs, rfl, by simp [hy], hunset⟩
    · exact .inr ⟨x, y :: before, after, rfl, hx, hafter⟩

end ElchiShield.Lib
