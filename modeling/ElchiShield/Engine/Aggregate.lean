import ElchiShield.Engine
import Mathlib.Data.List.Perm.Basic
import Mathlib.Order.Nat

/-! # What a set of engines makes of their verdicts

`Set.inspect` folds the verdicts of the engines it evaluates, with three cases for the worst of
them and one for the score. What comes out is a matter of the verdicts alone, in whatever order
they were returned. -/
namespace ElchiShield.Engine
open ElchiShield.Go

variable {v : Verdict} {vs ws : List Verdict}

theorem rank_injective : Function.Injective Severity.rank := by
  intro a b h
  cases a <;> cases b <;> first | rfl | cases h

/-! ## Folding verdicts -/

def blocks (v : Verdict) : Bool := v.action = .block

/-- The verdicts the severity is taken from: the blocks, if there are any. -/
def considered (vs : List Verdict) : List Verdict :=
  if vs.any blocks then vs.filter blocks else vs

/-- The highest severity, the lowest one there is for no verdict. -/
def maxRank (vs : List Verdict) : Nat := vs.foldr (fun v n => max v.severity.rank n) 0

/-- The sum of the positive scores. -/
def positiveScore (vs : List Verdict) : Int := vs.foldr (fun v n => max v.score 0 + n) 0

def aggregate (vs : List Verdict) : Verdict :=
  { vs.foldl worse {} with score := positiveScore vs }

theorem maxRank_append : maxRank (vs ++ ws) = max (maxRank vs) (maxRank ws) := by
  induction vs with
  | nil => simp [maxRank]
  | cons v vs ih =>
    show max v.severity.rank (maxRank (vs ++ ws)) = max (max v.severity.rank (maxRank vs)) _
    rw [ih, max_assoc]

@[simp] theorem maxRank_singleton : maxRank [v] = v.severity.rank := Nat.max_zero _

theorem positiveScore_append :
    positiveScore (vs ++ ws) = positiveScore vs + positiveScore ws := by
  induction vs with
  | nil => simp [positiveScore]
  | cons v vs ih =>
    show max v.score 0 + positiveScore (vs ++ ws) = max v.score 0 + positiveScore vs + _
    rw [ih, Int.add_assoc]

@[simp] theorem positiveScore_singleton : positiveScore [v] = max v.score 0 := Int.add_zero _

theorem positiveScore_nonneg : 0 ≤ positiveScore vs := by
  induction vs with
  | nil => exact Int.le_refl 0
  | cons v vs ih =>
    show 0 ≤ max v.score 0 + positiveScore vs
    omega

theorem considered_append_singleton : considered (vs ++ [v]) =
    if blocks v then (if vs.any blocks then considered vs ++ [v] else [v])
    else if vs.any blocks then considered vs else vs ++ [v] := by
  cases hv : blocks v <;> cases hvs : vs.any blocks
  all_goals simp [considered, hv, hvs]
  simpa using hvs

/-- The four cases of an update. -/
theorem worse_eq (worst v : Verdict) : worse worst v =
    if blocks v then
      (if blocks worst then (if worst.severity.rank ≤ v.severity.rank then v else worst) else v)
    else if blocks worst then worst
    else if worst.severity.rank < v.severity.rank then v else worst := by
  unfold worse
  by_cases hv : v.action = .block <;> by_cases hw : worst.action = .block <;> simp [blocks, hv, hw]

/-- The worst verdict blocks if one does, and has the highest severity of those considered. -/
theorem foldl_worse_spec (vs : List Verdict) :
    blocks (vs.foldl worse {}) = vs.any blocks ∧
    (vs.foldl worse {}).severity.rank = maxRank (considered vs) := by
  induction vs using List.reverseRecOn with
  | nil => exact ⟨rfl, rfl⟩
  | append_singleton vs v ih =>
    obtain ⟨hblocks, hrank⟩ := ih
    rw [List.foldl_append, List.foldl_cons, List.foldl_nil, worse_eq, considered_append_singleton,
      List.any_append, List.any_cons, List.any_nil, hblocks]
    have hnone : vs.any blocks = false → considered vs = vs := fun h => by simp [considered, h]
    cases hv : blocks v <;> cases hvs : vs.any blocks
    · rw [hnone hvs] at hrank
      simp only [Bool.false_eq_true, if_false, Bool.or_false, maxRank_append, maxRank_singleton]
      split
      · exact ⟨hv, by omega⟩
      · exact ⟨hblocks.trans hvs, by omega⟩
    · simp only [Bool.false_eq_true, if_false, if_true, Bool.or_false]
      exact ⟨hblocks.trans hvs, hrank⟩
    · simp only [Bool.false_eq_true, if_false, if_true, Bool.or_false, maxRank_singleton]
      exact ⟨hv, trivial⟩
    · simp only [if_true, Bool.or_false, maxRank_append, maxRank_singleton]
      split
      · exact ⟨hv, by omega⟩
      · exact ⟨hblocks.trans hvs, by omega⟩

theorem aggregate_blocks : (aggregate vs).action = .block ↔ ∃ v ∈ vs, v.action = .block := by
  have h := (foldl_worse_spec vs).1
  rw [Bool.eq_iff_iff, List.any_eq_true] at h
  simp only [blocks, decide_eq_true_eq] at h
  exact h

theorem aggregate_rank : (aggregate vs).severity.rank = maxRank (considered vs) :=
  (foldl_worse_spec vs).2

/-! ## The order of the verdicts -/

theorem maxRank_perm (h : vs.Perm ws) : maxRank vs = maxRank ws :=
  h.foldr_eq' (fun _ _ _ _ _ => by omega) 0

theorem positiveScore_perm (h : vs.Perm ws) : positiveScore vs = positiveScore ws :=
  h.foldr_eq' (fun _ _ _ _ _ => by omega) 0

theorem considered_perm (h : vs.Perm ws) : (considered vs).Perm (considered ws) := by
  unfold considered
  rw [h.any_eq]
  split
  · exact h.filter _
  · exact h

/-! ## The engines that are evaluated -/

/-- The engines an inspection evaluates, each with the verdict it returns. -/
def evaluated (req : Request) (want : SecurityEngine → Bool) :
    List SecurityEngine → Nat → List (SecurityEngine × Verdict)
  | [], _ => []
  | e :: es, tick =>
    if want e then
      match e.inspect (tick + 1) req with
      | .verdict v => (e, v) :: evaluated req want es (tick + 2)
      | _ => evaluated req want es (tick + 2)
    else evaluated req want es tick

def verdicts (req : Request) (want : SecurityEngine → Bool) (es : List SecurityEngine)
    (tick : Nat) : List Verdict := (evaluated req want es tick).map Prod.snd

/-- The engine answers the request with a verdict, whenever it is asked. -/
def Answers (req : Request) (e : SecurityEngine) : Prop :=
  ∀ tick, ∃ v, e.inspect tick req = .verdict v

section
variable {ctx : Ctx} {req : Request} {want : SecurityEngine → Bool} {es : List SecurityEngine}
  {tick : Nat}

theorem evaluated_fst (h : ∀ e ∈ es, Answers req e) :
    (evaluated req want es tick).map Prod.fst = es.filter want := by
  induction es generalizing tick with
  | nil => rfl
  | cons e es ih =>
    have ih := fun tick => @ih tick fun e' he' => h e' (List.mem_cons_of_mem _ he')
    rw [evaluated, List.filter_cons]
    split
    next =>
      obtain ⟨v, hv⟩ := h e List.mem_cons_self (tick + 1)
      rw [hv, List.map_cons, ih]
    next => exact ih tick

/-- With no failure and no timeout the loop folds the verdicts of what it evaluates. -/
theorem inspectLoop_eq (hctx : ∀ t, ctx t = false) (h : ∀ e ∈ es, Answers req e)
    (acc : Inspected) :
    inspectLoop ctx req want es acc tick =
      (some { worst := (verdicts req want es tick).foldl worse acc.worst
              totalScore := acc.totalScore + positiveScore (verdicts req want es tick)
              errs := acc.errs },
        tick + 2 * (es.filter want).length) := by
  induction es generalizing tick acc with
  | nil => simp [inspectLoop, verdicts, evaluated, positiveScore]
  | cons e es ih =>
    have ih := fun tick acc => @ih tick (fun e' he' => h e' (List.mem_cons_of_mem _ he')) acc
    rw [inspectLoop, verdicts, evaluated, List.filter_cons]
    cases hwant : want e with
    | false => exact ih tick acc
    | true =>
      obtain ⟨v, hv⟩ := h e List.mem_cons_self (tick + 1)
      simp only [Bool.not_true, Bool.false_eq_true, if_false, hctx tick, hv, if_true]
      have hscore : (if v.score > 0 then acc.totalScore + v.score else acc.totalScore) =
          acc.totalScore + max v.score 0 := by
        split <;> omega
      rw [ih, hscore, Int.add_assoc, Nat.add_assoc]
      refine Prod.ext rfl ?_
      show tick + (2 + 2 * _) = tick + 2 * (_ + 1)
      omega

theorem inspect_eq {s : EngineSet} (hctx : ∀ t, ctx t = false)
    (h : ∀ e ∈ s.engines, Answers req e) :
    s.inspect ctx req want tick =
      (some (aggregate (verdicts req want s.engines tick), []),
        tick + 2 * (s.engines.filter want).length) := by
  rw [EngineSet.inspect, inspectLoop_eq hctx h]
  simp [aggregate]

end

end ElchiShield.Engine
