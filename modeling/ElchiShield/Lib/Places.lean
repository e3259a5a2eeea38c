import Mathlib.Algebra.BigOperators.Group.List.Basic
import Mathlib.Algebra.GroupWithZero.Nat
import Mathlib.Data.List.Perm.Basic
import Mathlib.Data.List.Perm.Subperm

/-! # Things in places

A list has one entry for each of a number of processes, or for each thing on its way. What the
entries hold together changes by what the one entry holds that is changed or taken out, and there
are at least as many entries as there are things with an entry of their own. -/
namespace ElchiShield.Lib

variable {α : Type} {f : α → Nat} {l : List α} {i : Nat} {a : α}

theorem sum_map_eraseIdx (f : α → Nat) (h : l[i]? = some a) :
    (l.map f).sum = f a + ((l.eraseIdx i).map f).sum := by
  obtain ⟨hi, rfl⟩ := List.getElem?_eq_some_iff.mp h
  have hperm := (List.getElem_cons_eraseIdx_perm hi).map f
  rw [← hperm.sum_eq, List.map_cons, List.sum_cons]

theorem sum_map_set (f : α → Nat) (h : l[i]? = some a) (b : α) :
    ((l.set i b).map f).sum + f a = (l.map f).sum + f b := by
  have hi : i < l.length := (List.getElem?_eq_some_iff.mp h).1
  have hperm := (List.set_perm_cons_eraseIdx hi b).map f
  rw [hperm.sum_eq, sum_map_eraseIdx f h, List.map_cons, List.sum_cons]
  omega

theorem count_eraseIdx [DecidableEq α] (h : l[i]? = some a) (b : α) :
    l.count b = (l.eraseIdx i).count b + if a = b then 1 else 0 := by
  obtain ⟨hi, rfl⟩ := List.getElem?_eq_some_iff.mp h
  rw [← (List.getElem_cons_eraseIdx_perm hi).count_eq b, List.count_cons]
  simp

theorem countP_eq_range (p : α → Bool) (l : List α) :
    l.countP p = (List.range l.length).countP fun i => l[i]?.any p := by
  have hsome : l.map some = (List.range l.length).map (l[·]?) := by
    refine List.ext_getElem (by simp) fun i hi _ => ?_
    have hlt : i < l.length := by simpa using hi
    simp [hlt]
  have hcount := congrArg (List.countP (Option.any p)) hsome
  rw [List.countP_map, List.countP_map] at hcount
  exact hcount

/-- Those that each have a place of their own, where the list has an entry that counts. -/
theorem length_le_countP {β : Type} {p : α → Bool} {owns : β → Nat → Prop} {bs : List β}
    (howns : ∀ b ∈ bs, ∃ i, owns b i ∧ l[i]?.any p = true)
    (happart : bs.Pairwise fun b c => ∀ i, owns b i → ¬ owns c i) : bs.length ≤ l.countP p := by
  have hplaces : ∃ is : List Nat, is.length = bs.length ∧ is.Nodup ∧
      ∀ i ∈ is, (∃ b ∈ bs, owns b i) ∧ l[i]?.any p = true := by
    induction bs with
    | nil => exact ⟨[], rfl, List.nodup_nil, by simp⟩
    | cons b bs ih =>
      obtain ⟨hb, hbs⟩ := List.forall_mem_cons.mp howns
      obtain ⟨hfirst, hrest⟩ := List.pairwise_cons.mp happart
      obtain ⟨i, hown, hcounts⟩ := hb
      obtain ⟨is, hlength, hnodup, his⟩ := ih hbs hrest
      refine ⟨i :: is, by simp [hlength], List.nodup_cons.mpr ⟨fun hi => ?_, hnodup⟩, ?_⟩
      · obtain ⟨⟨c, hc, hown'⟩, -⟩ := his i hi
        exact hfirst c hc i hown hown'
      · refine List.forall_mem_cons.mpr ⟨⟨⟨b, List.mem_cons_self, hown⟩, hcounts⟩, ?_⟩
        intro j hj
        obtain ⟨⟨c, hc, hown'⟩, hcounts'⟩ := his j hj
        exact ⟨⟨c, List.mem_cons_of_mem _ hc, hown'⟩, hcounts'⟩
  obtain ⟨is, hlength, hnodup, his⟩ := hplaces
  rw [← hlength, countP_eq_range, List.countP_eq_length_filter]
  refine (List.subperm_of_subset hnodup fun i hi => ?_).length_le
  obtain ⟨-, hcounts⟩ := his i hi
  refine List.mem_filter.mpr ⟨List.mem_range.mpr ?_, hcounts⟩
  by_contra hge
  rw [List.getElem?_eq_none (Nat.le_of_not_lt hge)] at hcounts
  cases hcounts

end ElchiShield.Lib
