import ElchiShield.Lib.Runs
import Mathlib.Algebra.BigOperators.Group.Finset.Piecewise
import Mathlib.Algebra.Order.BigOperators.Group.Finset
import Mathlib.Data.Int.Order.Basic
import Mathlib.Data.Fintype.Defs

/-! # Clients of a shared counter

Clients take turns in any order. In its turn a client makes one atomic step, which may read and
write the counter all of them share. What each client holds of the counter is a function of its
own state, and the counter is the sum of what the clients hold. -/
namespace ElchiShield.Lib

structure Shared (ι σ : Type) where
  counter : Int
  clients : ι → σ

namespace Shared
variable {ι σ κ ο : Type} [DecidableEq ι]

/-- The turn of the client `m.1`, whose step is chosen by `m.2`. -/
def turn (act : Int → σ → κ → List ο × Int × σ) (s : Shared ι σ) (m : ι × κ) :
    (ι × List ο) × Shared ι σ :=
  let r := act s.counter (s.clients m.1) m.2
  ((m.1, r.1), ⟨r.2.1, Function.update s.clients m.1 r.2.2⟩)

variable {act : Int → σ → κ → List ο × Int × σ}

theorem turn_self (s : Shared ι σ) (i : ι) (k : κ) :
    (turn act s (i, k)).2.clients i = (act s.counter (s.clients i) k).2.2 :=
  Function.update_self ..

theorem turn_other (s : Shared ι σ) {i j : ι} (h : j ≠ i) (k : κ) :
    (turn act s (i, k)).2.clients j = s.clients j :=
  Function.update_of_ne h ..

variable [Fintype ι] {holds : σ → Int}

theorem sum_turn (holds : σ → Int) (s : Shared ι σ) (i : ι) (k : κ) :
    ∑ j, holds ((turn act s (i, k)).2.clients j) =
      ∑ j, holds (s.clients j) + (holds (act s.counter (s.clients i) k).2.2 - holds (s.clients i)) := by
  have hrest : ∑ j ∈ Finset.univ.erase i, holds ((turn act s (i, k)).2.clients j) =
      ∑ j ∈ Finset.univ.erase i, holds (s.clients j) := by
    refine Finset.sum_congr rfl ?_
    intro j hj
    rw [turn_other s (Finset.ne_of_mem_erase hj)]
  rw [← Finset.add_sum_erase _ _ (Finset.mem_univ i), hrest, turn_self,
    ← Finset.add_sum_erase _ (fun j => holds (s.clients j)) (Finset.mem_univ i)]
  omega

/-- The counter is the sum of what the clients hold. -/
def Balanced (holds : σ → Int) (s : Shared ι σ) : Prop := s.counter = ∑ i, holds (s.clients i)

/-- The rule of conservation: a step moves the counter by what its client comes to hold. -/
theorem Balanced.run (hact : ∀ u c k, (act u c k).2.1 - u = holds (act u c k).2.2 - holds c)
    (ms : List (ι × κ)) {s : Shared ι σ} (h : Balanced holds s) :
    Balanced holds (runFrom (turn act) s ms) := by
  refine runFrom_invariant (I := Balanced holds) ?_ h
  rintro ⟨i, k⟩ _ t ht
  have hstep := hact t.counter (t.clients i) k
  unfold Balanced at ht ⊢
  rw [sum_turn, ← ht, ← hstep]
  show (act t.counter (t.clients i) k).2.1 = _
  omega

end Shared

end ElchiShield.Lib
