import ElchiShield.Lib.Runs

/-! # Steps with a guard

A step that cannot be taken leaves the state as it is, so that every list of steps is a run. The
output says whether the step was taken. -/
namespace ElchiShield.Lib

variable {σ ι : Type} {next : σ → ι → Option σ}

def guarded (next : σ → ι → Option σ) (s : σ) (i : ι) : Bool × σ :=
  match next s i with
  | some s' => (true, s')
  | none => (false, s)

theorem guarded_some {s s' : σ} {i : ι} (h : next s i = some s') :
    guarded next s i = (true, s') := by
  rw [guarded, h]

theorem guarded_none {s : σ} {i : ι} (h : next s i = none) : guarded next s i = (false, s) := by
  rw [guarded, h]

/-- What every step keeps that can be taken, every step keeps. -/
theorem guarded_keeps {I : σ → Prop} {s : σ} (hs : I s) {i : ι}
    (h : ∀ s', next s i = some s' → I s') : I (guarded next s i).2 := by
  cases hnext : next s i with
  | some s' =>
    rw [guarded_some hnext]
    exact h s' hnext
  | none =>
    rw [guarded_none hnext]
    exact hs

/-- The rule of invariants: what the steps that meet a condition keep, a run of such steps
keeps. -/
theorem guarded_run {C : Event σ ι Bool → Prop} {I : σ → Prop}
    (hstep : ∀ s i s', I s → C (event (guarded next) s i) → next s i = some s' → I s') {s : σ}
    {is : List ι} (hs : I s) (hC : ∀ e ∈ trace (guarded next) s is, C e) :
    I (runFrom (guarded next) s is) := by
  induction is generalizing s with
  | nil => exact hs
  | cons i is ih =>
    obtain ⟨hi, his⟩ := List.forall_mem_cons.mp hC
    exact ih (guarded_keeps hs fun s' hnext => hstep s i s' hs hi hnext) his

end ElchiShield.Lib
