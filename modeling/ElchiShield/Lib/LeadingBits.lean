import Mathlib.Data.BitVec

/-! # Leading bits

Two bit vectors agree on their first `n` bits, and a vector is cleared behind them. -/
namespace ElchiShield.Lib

variable {w : Nat}

/-- The first `n` bits of `x`, shifted to the end. -/
def leading (n : Nat) (x : BitVec w) : BitVec w := x >>> (w - n)

/-- `x` with the bits behind the first `n` cleared. -/
def clearAfter (n : Nat) (x : BitVec w) : BitVec w := leading n x <<< (w - n)

theorem leading_eq_iff {n : Nat} {x y : BitVec w} :
    leading n x = leading n y ↔ ∀ i, w - n ≤ i → x.getLsbD i = y.getLsbD i := by
  constructor
  · intro h i hi
    have hbit := congrArg (fun z => z.getLsbD (i - (w - n))) h
    simpa [leading, Nat.add_sub_cancel' hi] using hbit
  · intro h
    refine BitVec.eq_of_getLsbD_eq fun i _ => ?_
    simpa [leading] using h (w - n + i) (Nat.le_add_right _ _)

theorem leading_mono {m n : Nat} (hmn : m ≤ n) {x y : BitVec w} (h : leading n x = leading n y) :
    leading m x = leading m y :=
  leading_eq_iff.mpr fun i hi => leading_eq_iff.mp h i (by omega)

@[simp] theorem leading_clearAfter (n : Nat) (x : BitVec w) :
    leading n (clearAfter n x) = leading n x := by
  rw [leading_eq_iff]
  intro i hi
  by_cases hw : i < w
  · simp [clearAfter, leading, hw, Nat.not_lt.mpr hi, Nat.add_sub_cancel' hi]
  · simp [BitVec.getLsbD_of_ge _ _ (Nat.le_of_not_lt hw)]

/-- Two vectors that agree past their first parts have the same first part. -/
theorem leading_append_iff {m k n : Nat} {a b : BitVec m} {x y : BitVec k} :
    leading (m + n) (a ++ x) = leading (m + n) (b ++ y) ↔ a = b ∧ leading n x = leading n y := by
  simp only [leading_eq_iff, BitVec.getLsbD_append, Nat.add_sub_add_left]
  constructor
  · intro h
    refine ⟨BitVec.eq_of_getLsbD_eq fun i _ => ?_, fun i hi => ?_⟩
    · simpa [Nat.not_lt.mpr (Nat.le_add_right k i)] using h (k + i) (by omega)
    · by_cases hk : i < k
      · simpa [hk] using h i hi
      · simp [BitVec.getLsbD_of_ge _ _ (Nat.le_of_not_lt hk)]
  · rintro ⟨rfl, h⟩ i hi
    rw [h i hi]

end ElchiShield.Lib
