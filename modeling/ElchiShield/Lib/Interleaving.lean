import Mathlib.Data.List.Perm.Basic

/-! # Interleavings

Two sequences are interleaved where each is kept in its own order. -/
namespace ElchiShield.Lib

/-- The list `zs` is made of the elements of `xs` and `ys`, each in their order. -/
inductive Interleaving {α : Type} : List α → List α → List α → Prop where
  | nil : Interleaving [] [] []
  | left (a : α) {xs ys zs : List α} (h : Interleaving xs ys zs) :
      Interleaving (a :: xs) ys (a :: zs)
  | right (b : α) {xs ys zs : List α} (h : Interleaving xs ys zs) :
      Interleaving xs (b :: ys) (b :: zs)

namespace Interleaving
variable {α : Type} {xs ys zs : List α}

theorem perm (h : Interleaving xs ys zs) : zs.Perm (xs ++ ys) := by
  induction h with
  | nil => exact .refl _
  | left a _ ih => exact ih.cons a
  | right b _ ih => exact (ih.cons b).trans List.perm_middle.symm

/-- The part of the left sequence that comes before the first element of the right one, and the
part that comes after it. -/
theorem split {y : α} (h : Interleaving xs (y :: ys) zs) : ∃ before after rest,
    xs = before ++ after ∧ zs = before ++ y :: rest ∧ Interleaving after ys rest := by
  induction xs generalizing zs with
  | nil =>
    cases h with
    | right _ h => exact ⟨[], [], _, rfl, rfl, h⟩
  | cons x xs ih =>
    cases h with
    | left _ h =>
      obtain ⟨before, after, rest, rfl, rfl, hrest⟩ := ih h
      exact ⟨x :: before, after, rest, rfl, rfl, hrest⟩
    | right _ h => exact ⟨[], x :: xs, _, rfl, rfl, h⟩

theorem left_sublist (h : Interleaving xs ys zs) : xs.Sublist zs := by
  induction h with
  | nil => exact .slnil
  | left a _ ih => exact ih.cons_cons a
  | right b _ ih => exact ih.cons b

theorem right_sublist (h : Interleaving xs ys zs) : ys.Sublist zs := by
  induction h with
  | nil => exact .slnil
  | left a _ ih => exact ih.cons a
  | right b _ ih => exact ih.cons_cons b

/-- The last element is the last one of a sequence. -/
theorem getLast?_eq (h : Interleaving xs ys zs) : zs.getLast? = xs.getLast? ∨ zs.getLast? = ys.getLast? := by
  induction h with
  | nil => exact .inl rfl
  | @left a xs ys zs h ih =>
    cases zs with
    | nil =>
      obtain rfl : xs = [] := List.sublist_nil.mp h.left_sublist
      exact .inl rfl
    | cons z zs =>
      rcases ih with ih | ih
      · left
        rw [List.getLast?_cons_cons, ih]
        cases xs with
        | nil => simp at ih
        | cons x xs => rw [List.getLast?_cons_cons]
      · right
        rw [List.getLast?_cons_cons, ih]
  | @right b xs ys zs h ih =>
    cases zs with
    | nil =>
      obtain rfl : ys = [] := List.sublist_nil.mp h.right_sublist
      exact .inr rfl
    | cons z zs =>
      rcases ih with ih | ih
      · left
        rw [List.getLast?_cons_cons, ih]
      · right
        rw [List.getLast?_cons_cons, ih]
        cases ys with
        | nil => simp at ih
        | cons y ys => rw [List.getLast?_cons_cons]

/-- What the elements hold, one after the other, is what the right sequence holds exactly where the
elements of the left one hold nothing. -/
theorem flatMap_eq_right_iff {β : Type} {f : α → List β} (h : Interleaving xs ys zs) :
    zs.flatMap f = ys.flatMap f ↔ ∀ x ∈ xs, f x = [] := by
  constructor
  · intro heq
    have hlength := congrArg List.length heq
    have hperm := (h.perm.flatMap_right f).length_eq
    rw [List.flatMap_append, List.length_append] at hperm
    have hnil : xs.flatMap f = [] := List.eq_nil_of_length_eq_zero (by omega)
    exact List.flatMap_eq_nil_iff.mp hnil
  · intro hempty
    induction h with
    | nil => rfl
    | left a _ ih =>
      obtain ⟨ha, hxs⟩ := List.forall_mem_cons.mp hempty
      rw [List.flatMap_cons, ha, List.nil_append, ih hxs]
    | right b _ ih => rw [List.flatMap_cons, List.flatMap_cons, ih hempty]

end Interleaving

end ElchiShield.Lib
