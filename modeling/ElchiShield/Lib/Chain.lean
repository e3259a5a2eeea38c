import Mathlib.Data.List.Basic

/-! # Chains with an early exit

A chain takes a state through a list of links. A link either stops the chain with a result or
passes the state on; a chain no link stops ends with a result read off its state. -/
namespace ElchiShield.Lib

variable {α σ δ : Type}

def chain (link : α → σ → Option δ × σ) (done : σ → δ) : List α → σ → δ × σ
  | [], s => (done s, s)
  | a :: as, s => match link a s with
    | (some d, s) => (d, s)
    | (none, s) => chain link done as s

/-- What holds after a link: `Q` where it stops the chain, `I` where it passes on. -/
def After (I : σ → Prop) (Q : δ → σ → Prop) : Option δ × σ → Prop
  | (some d, s) => Q d s
  | (none, s) => I s

section
variable {link : α → σ → Option δ × σ} {done : σ → δ} {I J : σ → Prop} {Q R : δ → σ → Prop}

theorem After.imp {r : Option δ × σ} (h : After I Q r) (hI : ∀ s, I s → J s)
    (hQ : ∀ d s, Q d s → R d s) : After J R r := by
  obtain ⟨_ | d, s⟩ := r
  · exact hI s h
  · exact hQ d s h

theorem After.and {r : Option δ × σ} (h : After I Q r) (h' : After J R r) :
    After (fun s => I s ∧ J s) (fun d s => Q d s ∧ R d s) r := by
  obtain ⟨_ | d, s⟩ := r <;> exact ⟨h, h'⟩

/-- A property of the state alone holds after a link either way. -/
theorem After.state {r : Option δ × σ} (h : I r.2) : After I (fun _ => I) r := by
  obtain ⟨_ | d, s⟩ := r <;> exact h

theorem chain_cons_stop {a : α} {as : List α} {s t : σ} {d : δ} (h : link a s = (some d, t)) :
    chain link done (a :: as) s = (d, t) := by
  simp [chain, h]

theorem chain_cons_pass {a : α} {as : List α} {s t : σ} (h : link a s = (none, t)) :
    chain link done (a :: as) s = chain link done as t := by
  simp [chain, h]

/-- The rule of chains: an invariant the links pass on, and what they and the end of the chain
establish from it. -/
theorem chain_rule {as : List α} {s : σ} (hlink : ∀ a ∈ as, ∀ s, I s → After I Q (link a s))
    (hdone : ∀ s, I s → Q (done s) s) (hs : I s) :
    Q (chain link done as s).1 (chain link done as s).2 := by
  induction as generalizing s with
  | nil => exact hdone s hs
  | cons a as ih =>
    have ha := hlink a List.mem_cons_self s hs
    obtain ⟨r, hr⟩ : ∃ r, link a s = r := ⟨_, rfl⟩
    rw [hr] at ha
    obtain ⟨_ | d, t⟩ := r
    · rw [chain_cons_pass hr]
      exact ih (fun b hb => hlink b (List.mem_cons_of_mem _ hb)) ha
    · rw [chain_cons_stop hr]
      exact ha

/-- The rule for the first link of a chain, which may establish more than it is given. -/
theorem chain_cons_rule {a : α} {as : List α} {s : σ} (ha : After I Q (link a s))
    (has : ∀ t, I t → Q (chain link done as t).1 (chain link done as t).2) :
    Q (chain link done (a :: as) s).1 (chain link done (a :: as) s).2 := by
  obtain ⟨r, hr⟩ : ∃ r, link a s = r := ⟨_, rfl⟩
  rw [hr] at ha
  obtain ⟨_ | d, t⟩ := r
  · rw [chain_cons_pass hr]
    exact has t ha
  · rw [chain_cons_stop hr]
    exact ha

/-- The rule for a chain in two parts. -/
theorem chain_append_rule {as bs : List α} {s : σ}
    (has : ∀ a ∈ as, ∀ s, I s → After I Q (link a s))
    (hbs : ∀ t, I t → Q (chain link done bs t).1 (chain link done bs t).2) (hs : I s) :
    Q (chain link done (as ++ bs) s).1 (chain link done (as ++ bs) s).2 := by
  induction as generalizing s with
  | nil => exact hbs s hs
  | cons a as ih =>
    refine chain_cons_rule (has a List.mem_cons_self s hs) ?_
    intro t ht
    exact ih (fun b hb => has b (List.mem_cons_of_mem _ hb)) ht

end

end ElchiShield.Lib
