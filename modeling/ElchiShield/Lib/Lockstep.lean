import ElchiShield.Lib.Chain
import ElchiShield.Lib.Runs

/-! # Two runs in lockstep

Two runs of the same steps from related states: every step gives both the same output and
leaves them related. -/
namespace ElchiShield.Lib

variable {α δ σ ι ο ο' : Type}

/-- The same output, in related states. -/
def Agree (R : σ → σ → Prop) (x y : ο × σ) : Prop := x.1 = y.1 ∧ R x.2 y.2

section
variable {R S : σ → σ → Prop} {x y : ο × σ}

theorem Agree.imp (h : Agree R x y) (hRS : ∀ s t, R s t → S s t) : Agree S x y :=
  ⟨h.1, hRS _ _ h.2⟩

theorem Agree.cases (h : Agree R x y) : ∃ o s t, x = (o, s) ∧ y = (o, t) ∧ R s t := by
  obtain ⟨o, s⟩ := x
  obtain ⟨o', t⟩ := y
  obtain ⟨rfl, hst⟩ : o = o' ∧ R s t := h
  exact ⟨o, s, t, rfl, rfl, hst⟩

/-- What follows depends on the output and on the related states only. -/
theorem Agree.bind {k : ο → σ → ο' × σ} (h : Agree R x y)
    (hk : ∀ o s t, R s t → Agree S (k o s) (k o t)) : Agree S (k x.1 x.2) (k y.1 y.2) := by
  obtain ⟨o, s, t, rfl, rfl, hst⟩ := h.cases
  exact hk o s t hst

theorem chain_agree {link : α → σ → Option δ × σ} {done : σ → δ} {as : List α} {s t : σ}
    (hlink : ∀ a ∈ as, ∀ s t, R s t → Agree R (link a s) (link a t))
    (hdone : ∀ s t, R s t → done s = done t) (hst : R s t) :
    Agree R (chain link done as s) (chain link done as t) := by
  induction as generalizing s t with
  | nil => exact ⟨hdone s t hst, hst⟩
  | cons a as ih =>
    obtain ⟨o, u, v, hu, hv, huv⟩ := (hlink a List.mem_cons_self s t hst).cases
    cases o with
    | some d =>
      rw [chain_cons_stop hu, chain_cons_stop hv]
      exact ⟨rfl, huv⟩
    | none =>
      rw [chain_cons_pass hu, chain_cons_pass hv]
      exact ih (fun b hb => hlink b (List.mem_cons_of_mem _ hb)) huv

theorem trace_agree {step : σ → ι → ο × σ} (hstep : ∀ s t i, R s t → Agree R (step s i) (step t i))
    {s t : σ} (is : List ι) (hst : R s t) :
    (trace step s is).map Event.output = (trace step t is).map Event.output ∧
      R (runFrom step s is) (runFrom step t is) := by
  induction is generalizing s t with
  | nil => exact ⟨rfl, hst⟩
  | cons i is ih =>
    obtain ⟨houtput, hstate⟩ := hstep s t i hst
    obtain ⟨houtputs, hend⟩ := ih hstate
    refine ⟨?_, hend⟩
    show (step s i).1 :: (trace step (step s i).2 is).map Event.output = _
    rw [houtput, houtputs]
    rfl

end

/-- Two machines on the same inputs, as far as those meet a condition. What relates their states
may depend on the inputs that are still to come. -/
theorem trace_simulates {τ : Type} {step : σ → ι → ο × σ} {step' : τ → ι → ο × τ}
    {C : Event σ ι ο → Prop} {R : List ι → σ → τ → Prop}
    (hstep : ∀ i is s t, R (i :: is) s t → C (event step s i) →
      (step s i).1 = (step' t i).1 ∧ R is (step s i).2 (step' t i).2)
    {is : List ι} {s : σ} {t : τ} (hst : R is s t) (hC : ∀ e ∈ trace step s is, C e) :
    (trace step s is).map Event.output = (trace step' t is).map Event.output := by
  induction is generalizing s t with
  | nil => rfl
  | cons i is ih =>
    rw [trace] at hC
    obtain ⟨hi, his⟩ := List.forall_mem_cons.mp hC
    obtain ⟨houtput, hnext⟩ := hstep i is s t hst hi
    show (step s i).1 :: (trace step (step s i).2 is).map Event.output = _
    rw [houtput, ih hnext his]
    rfl

end ElchiShield.Lib
