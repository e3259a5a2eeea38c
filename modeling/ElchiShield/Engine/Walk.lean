import ElchiShield.Engine.GraphQL

/-! # The calls of the GraphQL walk

`walk` calls itself for every selection set it meets and counts the open calls of each fragment in
a map that all calls share. Here the map is part of the state, and a call needs a frame of the
stack: without one there is no result. A call is made for a selection that was counted before, so
the budget of selections bounds the stack as well. -/
namespace ElchiShield.GraphQL
open ElchiShield.Go ElchiShield.Engine

/-- What the calls share: the open calls of each fragment, and the measures. -/
structure Walker where
  visited : Bytes → Nat
  stats : Stats

section
variable (e : Engine) (frags : List (Bytes × List Selection))

/-- One round of the loop, which makes its calls through `call`. -/
def round (call : List Selection → Nat → Walker → Option Walker) (depth : Nat) (s : Walker)
    (x : Selection) : Option Walker :=
  if s.stats.aborted then some s
  else
    let st := { s.stats with nodes := s.stats.nodes + 1 }
    if e.maxNodes < st.nodes then some { s with stats := { st with aborted := true } }
    else match x with
      | .field alias_ name sel =>
        let st := countField depth alias_ name st
        if sel.isEmpty then some { s with stats := st }
        else call sel (depth + 1) { s with stats := st }
      | .inlineFragment sel => call sel depth { s with stats := st }
      | .fragmentSpread name =>
        if e.maxFragDepth ≤ s.visited name then some { s with stats := st }
        else match frags.reverse.lookup name with
          | none => some { s with stats := st }
          | some sel => do
            let visited := Function.update s.visited name (s.visited name + 1)
            let t ← call sel depth ⟨visited, st⟩
            return { t with visited := Function.update t.visited name (t.visited name - 1) }

/-- `walk` on a stack of so many frames. -/
def calls : Nat → List Selection → Nat → Walker → Option Walker
  | 0, _, _, _ => none
  | frames + 1, sel, depth, s =>
    if s.stats.aborted then some s
    else sel.foldlM (round e frags (calls frames) depth)
      { s with stats := { s.stats with depth := max s.stats.depth depth } }

/-! ## The budget of selections -/

/-- The walk is aborted exactly by the selection that exceeds the budget. -/
structure InBudget (st : Stats) : Prop where
  nodes : st.nodes ≤ e.maxNodes + 1
  aborted : st.aborted = true ↔ st.nodes = e.maxNodes + 1

variable {e frags}

theorem InBudget.le {st : Stats} (h : InBudget e st) (ha : st.aborted = false) :
    st.nodes ≤ e.maxNodes := by
  have hnodes := h.nodes
  have hne : st.nodes ≠ e.maxNodes + 1 := fun heq => by
    rw [h.aborted.mpr heq] at ha
    cases ha
  omega

theorem inBudget_of_le {st : Stats} (ha : st.aborted = false) (h : st.nodes ≤ e.maxNodes) :
    InBudget e st := by
  refine ⟨by omega, ?_⟩
  rw [ha]
  exact ⟨fun h => (nomatch h), fun heq => by omega⟩

theorem visit_inBudget {walk : List Selection → Nat → (Bytes → Nat) → Stats → Stats}
    (hwalk : ∀ sel depth visited st, InBudget e st → InBudget e (walk sel depth visited st))
    (depth : Nat) (visited : Bytes → Nat) {st : Stats} (h : InBudget e st) (s : Selection) :
    InBudget e (visit e frags walk depth visited st s) := by
  obtain ⟨-, heq⟩ | ⟨hrun, hover, heq⟩ | ⟨-, hroom, st', hnodes, hst', heq | ⟨_, _, _, heq⟩⟩ :=
    visit_cases e frags walk depth visited st s <;> rw [heq]
  · exact h
  · have hle := h.le hrun
    exact ⟨by dsimp only; omega, ⟨fun _ => by dsimp only; omega, fun _ => rfl⟩⟩
  · exact inBudget_of_le hst' (by omega)
  · exact hwalk _ _ _ _ (inBudget_of_le hst' (by omega))

theorem walk_inBudget (n : Nat) (sel : List Selection) (depth : Nat) (visited : Bytes → Nat)
    {st : Stats} (h : InBudget e st) : InBudget e (walk e frags n sel depth visited st) := by
  induction n generalizing sel depth visited st with
  | zero => exact h
  | succ n ih =>
    unfold walk
    split
    · exact h
    · have hstart : InBudget e { st with depth := max st.depth depth } := ⟨h.nodes, h.aborted⟩
      exact List.foldlRecOn sel _ hstart fun t ht s _ =>
        visit_inBudget (fun sel depth visited st => ih sel depth visited) depth visited ht s

/-! ## A call is the walk -/

/-- A round with enough frames for its calls: the counts of the fragments are what they were. -/
theorem round_eq {frames m : Nat}
    (hcall : ∀ sel depth visited st, m < st.nodes → st.nodes ≤ e.maxNodes →
      calls e frags frames sel depth ⟨visited, st⟩ =
        some ⟨visited, walk e frags frames sel depth visited st⟩)
    (depth : Nat) (visited : Bytes → Nat) {st : Stats} (hst : m ≤ st.nodes) (x : Selection) :
    round e frags (calls e frags frames) depth ⟨visited, st⟩ x =
      some ⟨visited, visit e frags (walk e frags frames) depth visited st x⟩ := by
  unfold round visit
  dsimp only
  split
  · rfl
  split
  · rfl
  next hroom =>
    have hnext : ∀ sel depth visited (st' : Stats), st'.nodes = st.nodes + 1 →
        calls e frags frames sel depth ⟨visited, st'⟩ =
          some ⟨visited, walk e frags frames sel depth visited st'⟩ :=
      fun sel depth visited st' heq => hcall sel depth visited st' (by omega) (by omega)
    cases x with
    | field alias_ name sel =>
      dsimp only
      split
      · rfl
      · exact hnext _ _ _ _ rfl
    | inlineFragment sel => exact hnext _ _ _ _ rfl
    | fragmentSpread name =>
      dsimp only
      split
      · rfl
      cases hbody : frags.reverse.lookup name with
      | none => rfl
      | some sel =>
        dsimp only
        rw [hnext _ _ _ _ rfl]
        simp [Function.update_idem, Function.update_eq_self]

theorem calls_eq (frames : Nat) (sel : List Selection) (depth : Nat) (visited : Bytes → Nat)
    {st : Stats} (hframes : e.maxNodes < frames + st.nodes) (hst : st.nodes ≤ e.maxNodes) :
    calls e frags frames sel depth ⟨visited, st⟩ =
      some ⟨visited, walk e frags frames sel depth visited st⟩ := by
  induction frames generalizing sel depth visited st with
  | zero => omega
  | succ frames ih =>
    unfold calls walk
    split
    · rfl
    -- the rounds of the loop, from a state that has counted no fewer selections than `st`
    have hloop : ∀ (sel : List Selection) (st' : Stats), st.nodes ≤ st'.nodes →
        sel.foldlM (round e frags (calls e frags frames) depth) ⟨visited, st'⟩ =
          some ⟨visited, sel.foldl (visit e frags (walk e frags frames) depth visited) st'⟩ := by
      intro sel
      induction sel with
      | nil => exact fun _ _ => rfl
      | cons x sel ihsel =>
        intro st' hle
        have hround := round_eq (m := st.nodes)
          (fun sel depth visited st' hlt hmax => ih sel depth visited (by omega) hmax) depth visited
          hle x
        rw [List.foldlM_cons, hround]
        exact ihsel _ (le_trans hle
          (visit_nodes_le e frags (walk_nodes_le e frags frames) depth visited st' x))
    exact hloop sel _ (le_refl _)

end

/-! ## Any call that returns -/

section
variable {e : Engine} {frags : List (Bytes × List Selection)}

theorem round_visited {call : List Selection → Nat → Walker → Option Walker}
    (hcall : ∀ sel depth s t, call sel depth s = some t → t.visited = s.visited) {depth : Nat}
    {s t : Walker} {x : Selection} (h : round e frags call depth s x = some t) :
    t.visited = s.visited := by
  have hsame : ∀ st : Stats, some { s with stats := st } = some t → t.visited = s.visited := by
    intro st heq
    rw [← Option.some.inj heq]
  unfold round at h
  dsimp only at h
  split at h
  · exact hsame s.stats h
  split at h
  · exact hsame _ h
  cases x with
  | field alias_ name sel =>
    dsimp only at h
    split at h
    · exact hsame _ h
    · have hkept := hcall _ _ _ _ h
      exact hkept
  | inlineFragment sel =>
    have hkept := hcall _ _ _ _ h
    exact hkept
  | fragmentSpread name =>
    dsimp only at h
    split at h
    · exact hsame _ h
    split at h
    · exact hsame _ h
    · obtain ⟨u, hu, hret⟩ := Option.bind_eq_some_iff.mp h
      have hraised := hcall _ _ _ _ hu
      rw [← Option.some.inj hret]
      dsimp only
      rw [hraised]
      simp [Function.update_idem, Function.update_eq_self]

/-- Whatever the budget and the stack, a call that returns has taken its counts back. -/
theorem calls_visited (frames : Nat) (sel : List Selection) (depth : Nat) (s t : Walker)
    (h : calls e frags frames sel depth s = some t) : t.visited = s.visited := by
  induction frames generalizing sel depth s t with
  | zero => cases h
  | succ frames ih =>
    unfold calls at h
    split at h
    · rw [← Option.some.inj h]
    · have hloop : ∀ (sel : List Selection) (s : Walker),
          sel.foldlM (round e frags (calls e frags frames) depth) s = some t →
          t.visited = s.visited := by
        intro sel
        induction sel with
        | nil =>
          intro s hs
          rw [← Option.some.inj hs]
        | cons x sel ihsel =>
          intro s hs
          rw [List.foldlM_cons] at hs
          obtain ⟨u, hu, hrest⟩ := Option.bind_eq_some_iff.mp hs
          exact (ihsel u hrest).trans (round_visited ih hu)
      have hkept := hloop sel _ h
      exact hkept

/-- **The walk ends within its budget.** On a stack of `maxNodes + 1` frames or more the walk
returns, it has counted at most `maxNodes + 1` selections, and the counts of the fragments are
those it was called with; so are those of every call that returns. -/
theorem walk_returns (e : Engine) (frags : List (Bytes × List Selection)) (sel : List Selection)
    (depth : Nat) (visited : Bytes → Nat) :
    (∃ st : Stats, st.nodes ≤ e.maxNodes + 1 ∧ ∀ k,
      calls e frags (e.maxNodes + 1 + k) sel depth ⟨visited, {}⟩ = some ⟨visited, st⟩) ∧
    ∀ frames sel' depth' s t, calls e frags frames sel' depth' s = some t →
      t.visited = s.visited := by
  have hstart : InBudget e {} := inBudget_of_le rfl (Nat.zero_le e.maxNodes)
  have hend : InBudget e (walk e frags (e.maxNodes + 1) sel depth visited {}) :=
    walk_inBudget _ sel depth visited hstart
  refine ⟨⟨_, hend.nodes, fun k => ?_⟩, calls_visited⟩
  have hroom : e.maxNodes < e.maxNodes + 1 + k + ({} : Stats).nodes := by
    show e.maxNodes < e.maxNodes + 1 + k + 0
    omega
  rw [calls_eq _ sel depth visited hroom (Nat.zero_le _), walk_enough e frags k]

end

/-- Two fragments that spread each other, one of them twice. -/
def mutualFragments : List (Bytes × List Selection) :=
  [(ascii "A", [.fragmentSpread (ascii "B"), .fragmentSpread (ascii "B")]),
    (ascii "B", [.fragmentSpread (ascii "A")])]

theorem mutual_fragments_return :
    let _ := Unicode.asciiOnly
    let e := new { maxComplexity := 9 }
    ∃ st : Stats, st.nodes ≤ 10 ∧
      calls e mutualFragments 10 [.fragmentSpread (ascii "A")] 1 ⟨fun _ => 0, {}⟩ =
        some ⟨fun _ => 0, st⟩ := by
  intro _ e
  obtain ⟨⟨st, hnodes, hcalls⟩, -⟩ :=
    walk_returns e mutualFragments [.fragmentSpread (ascii "A")] 1 fun _ => 0
  exact ⟨st, hnodes, hcalls 0⟩

end ElchiShield.GraphQL
