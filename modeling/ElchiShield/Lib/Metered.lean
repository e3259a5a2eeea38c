import ElchiShield.Lib.Runs
import Mathlib.Algebra.Order.Field.Basic
import Mathlib.Tactic.Linarith
import Mathlib.Tactic.Ring

/-! # Metered runs

A level that fills at a rate up to a burst, and from which every counted event takes one,
bounds the counted events of a run in any window of time. -/
namespace ElchiShield.Lib

/-- What makes a function of state and time such a level. `Inv t s` says that `s` is a state
reached by the time `t`. -/
structure Meter {σ ι ο K : Type} [Field K] [LinearOrder K] [IsStrictOrderedRing K]
    (step : σ → ι → ο × σ) (time : ι → K) (counted : Event σ ι ο → Bool) (burst rate : K) where
  Inv : K → σ → Prop
  level : σ → K → K
  rate_nonneg : 0 ≤ rate
  later : ∀ {t t' s}, t ≤ t' → Inv t s → Inv t' s
  nonneg : ∀ {t s}, Inv t s → 0 ≤ level s t
  le_burst : ∀ {t s}, Inv t s → level s t ≤ burst
  fills : ∀ {t t' s}, t ≤ t' → Inv t s → level s t' ≤ level s t + rate * (t' - t)
  step_inv : ∀ {s i}, Inv (time i) s → Inv (time i) (step s i).2
  takes : ∀ {s i}, Inv (time i) s →
    level (step s i).2 (time i) + (if counted (event step s i) then 1 else 0) ≤ level s (time i)

namespace Meter
variable {σ ι ο K : Type} [Field K] [LinearOrder K] [IsStrictOrderedRing K]
  {step : σ → ι → ο × σ} {time : ι → K} {counted : Event σ ι ο → Bool} {burst rate : K}

omit [Field K] [IsStrictOrderedRing K] in
/-- No event is counted up to a time after which all inputs come. -/
theorem count_after (counted : Event σ ι ο → Bool) {deadline : K} {s : σ} {is : List ι}
    (h : ∀ i ∈ is, deadline < time i) :
    (trace step s is).countP (fun e => counted e && decide (time e.input ≤ deadline)) = 0 := by
  rw [List.countP_eq_zero]
  intro e he hcounted
  have hlate := h e.input (trace_input_mem he)
  simp only [Bool.and_eq_true, decide_eq_true_eq] at hcounted
  exact absurd hcounted.2 (not_le.mpr hlate)

/-- The counted events up to a time take no more than there is at the start and what comes in
until then. -/
theorem count_until_le (m : Meter step time counted burst rate) {deadline : K} {is : List ι}
    (hsorted : is.Pairwise fun i j => time i ≤ time j) {t : K} {s : σ} (ht : t ≤ deadline)
    (hs : m.Inv t s) (hfrom : ∀ i ∈ is, t ≤ time i) :
    ((trace step s is).countP fun e => counted e && decide (time e.input ≤ deadline) : K) ≤
      m.level s t + rate * (deadline - t) := by
  induction is generalizing s t with
  | nil =>
    have hnonneg := m.nonneg hs
    have hin : 0 ≤ rate * (deadline - t) := mul_nonneg m.rate_nonneg (sub_nonneg.mpr ht)
    simp only [trace, List.countP_nil, Nat.cast_zero]
    linarith
  | cons i is ih =>
    obtain ⟨hhead, htail⟩ := List.pairwise_cons.mp hsorted
    have hi : t ≤ time i := hfrom i List.mem_cons_self
    have hnow : m.Inv (time i) s := m.later hi hs
    by_cases htime : time i ≤ deadline
    · have hrest := ih htail htime (m.step_inv hnow) hhead
      have htakes := m.takes hnow
      have hfills := m.fills hi hs
      have hsplit : rate * (deadline - t) = rate * (deadline - time i) + rate * (time i - t) := by
        ring
      rw [trace, List.countP_cons]
      by_cases hcounted : counted (event step s i) = true
      · have hevent : (counted (event step s i) && decide (time i ≤ deadline)) = true := by
          simp [hcounted, htime]
        rw [if_pos hcounted] at htakes
        rw [show (event step s i).input = i from rfl, if_pos hevent, Nat.cast_add, Nat.cast_one]
        linarith
      · have hevent : ¬ (counted (event step s i) && decide (time i ≤ deadline)) = true := by
          simp [hcounted]
        rw [if_neg hcounted] at htakes
        rw [show (event step s i).input = i from rfl, if_neg hevent, Nat.add_zero]
        linarith
    · have hlate : ∀ j ∈ i :: is, deadline < time j := by
        intro j hj
        rcases List.mem_cons.mp hj with rfl | hj
        · exact not_le.mp htime
        · exact lt_of_lt_of_le (not_le.mp htime) (hhead j hj)
      have hnonneg := m.nonneg hs
      have hin : 0 ≤ rate * (deadline - t) := mul_nonneg m.rate_nonneg (sub_nonneg.mpr ht)
      rw [count_after counted hlate, Nat.cast_zero]
      linarith

/-- In no window are there more counted events than the burst and what comes in during it. -/
theorem count_window_le (m : Meter step time counted burst rate) {is : List ι}
    (hsorted : is.Pairwise fun i j => time i ≤ time j) {start : K} {s : σ} (hs : m.Inv start s)
    (hfrom : ∀ i ∈ is, start ≤ time i) (t : K) {d : K} (hd : 0 ≤ d) :
    ((trace step s is).countP fun e =>
      counted e && (decide (t ≤ time e.input) && decide (time e.input ≤ t + d)) : K) ≤
      burst + rate * d := by
  induction is generalizing s start with
  | nil =>
    have hnonneg := m.nonneg hs
    have hburst := m.le_burst hs
    have hin : 0 ≤ rate * d := mul_nonneg m.rate_nonneg hd
    simp only [trace, List.countP_nil, Nat.cast_zero]
    linarith
  | cons i is ih =>
    obtain ⟨hhead, htail⟩ := List.pairwise_cons.mp hsorted
    have hnow : m.Inv (time i) s := m.later (hfrom i List.mem_cons_self) hs
    by_cases hbefore : t ≤ time i
    · have hwindow : (trace step s (i :: is)).countP (fun e =>
          counted e && (decide (t ≤ time e.input) && decide (time e.input ≤ t + d))) ≤
          (trace step s (i :: is)).countP fun e =>
            counted e && decide (time e.input ≤ t + d) := by
        refine List.countP_mono_left fun e _ he => ?_
        simp only [Bool.and_eq_true] at he ⊢
        exact ⟨he.1, he.2.2⟩
      refine le_trans (Nat.cast_le.mpr hwindow) ?_
      have hfirst : ∀ j ∈ i :: is, time i ≤ time j := by
        intro j hj
        rcases List.mem_cons.mp hj with rfl | hj
        · exact le_refl _
        · exact hhead j hj
      have hburst := m.le_burst hnow
      by_cases hend : time i ≤ t + d
      · have huntil := m.count_until_le hsorted hend hnow hfirst
        have hshort : rate * (t + d - time i) ≤ rate * d :=
          mul_le_mul_of_nonneg_left (by linarith) m.rate_nonneg
        linarith
      · have hnonneg := m.nonneg hnow
        have hin : 0 ≤ rate * d := mul_nonneg m.rate_nonneg hd
        rw [count_after counted fun j hj => lt_of_lt_of_le (not_le.mp hend) (hfirst j hj),
          Nat.cast_zero]
        linarith
    · -- the window has not begun
      have hevent : ¬ (counted (event step s i) && (decide (t ≤ time i) &&
          decide (time i ≤ t + d))) = true := by
        simp [hbefore]
      rw [trace, List.countP_cons, show (event step s i).input = i from rfl, if_neg hevent,
        Nat.add_zero]
      exact ih htail (m.step_inv hnow) hhead

end Meter

end ElchiShield.Lib
