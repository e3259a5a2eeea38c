import Mathlib.Data.List.AList

/-! # Sizes of finite maps

How many keys a map has after one of them is written, and as many keys as one wants. -/
namespace ElchiShield.Lib

variable {α : Type} {β : α → Type} [DecidableEq α] {m : AList β} {a : α} {b : β a}

theorem length_insert_of_mem (h : a ∈ m) : (m.insert a b).keys.length = m.keys.length := by
  have hpos : 0 < m.keys.length := List.length_pos_of_mem h
  rw [AList.keys_insert, List.length_cons, List.length_erase_of_mem h]
  omega

theorem length_insert_of_notMem (h : a ∉ m) :
    (m.insert a b).keys.length = m.keys.length + 1 := by
  rw [AList.keys_insert, List.length_cons, List.erase_of_not_mem h]

theorem length_insert_le (m : AList β) (a : α) (b : β a) :
    (m.insert a b).keys.length ≤ m.keys.length + 1 := by
  by_cases h : a ∈ m
  · rw [length_insert_of_mem h]
    omega
  · rw [length_insert_of_notMem h]

omit [DecidableEq α] in
/-- Runs of one letter are different keys, and different from one that starts with another. -/
theorem nodup_cons_runs {x : List α} (hx : x.head? ≠ some a) (n : Nat) :
    (x :: (List.range n).map fun i => List.replicate (i + 1) a).Nodup := by
  rw [List.nodup_cons]
  refine ⟨?_, ?_⟩
  · intro hmem
    obtain ⟨i, -, rfl⟩ := List.mem_map.mp hmem
    exact hx rfl
  · refine List.Nodup.map ?_ List.nodup_range
    intro i j h
    have hlength := congrArg List.length h
    simp only [List.length_replicate] at hlength
    omega

end ElchiShield.Lib
