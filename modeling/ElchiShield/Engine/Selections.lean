import ElchiShield.Engine.GraphQL

/-! # Measures of GraphQL selections

The depth, the fields and the other measures of an operation are measures of its selections, each
with one value for a selection set in front of another. The walk over selections without spreads
adds them up, and is aborted where there are more selections than it may visit. -/
namespace ElchiShield.GraphQL
open ElchiShield.Go ElchiShield.Engine

/-! ## Selections of every level -/

mutual

def Selection.within : Selection → List Selection
  | .field alias_ name sel => .field alias_ name sel :: within sel
  | .inlineFragment sel => .inlineFragment sel :: within sel
  | .fragmentSpread name => [.fragmentSpread name]

/-- All selections of a selection set and of the sets in it. -/
def within : List Selection → List Selection
  | [] => []
  | s :: sel => s.within ++ within sel

end

/-- Alias and name of a field. -/
def Selection.field? : Selection → Option (Bytes × Bytes)
  | .field alias_ name _ => some (alias_, name)
  | _ => none

def Selection.spread? : Selection → Option Bytes
  | .fragmentSpread name => some name
  | _ => none

def fieldsOf (sel : List Selection) : List (Bytes × Bytes) :=
  (within sel).filterMap Selection.field?

def spreadsOf (sel : List Selection) : List Bytes := (within sel).filterMap Selection.spread?

mutual

def Selection.levels : Selection → Nat
  | .field _ _ sel => if sel.isEmpty then 1 else 1 + levels sel
  | .inlineFragment sel => levels sel
  | .fragmentSpread _ => 1

/-- The levels of a selection set: a field with selections starts a new one. -/
def levels : List Selection → Nat
  | [] => 1
  | s :: sel => max s.levels (levels sel)

end

mutual

def Selection.inPlace : Selection → List Selection
  | .field alias_ name sel => [.field alias_ name (inPlace sel)]
  | .inlineFragment sel => inPlace sel
  | .fragmentSpread _ => []

/-- The selections with every inline fragment replaced by what is in it. -/
def inPlace : List Selection → List Selection
  | [] => []
  | s :: sel => s.inPlace ++ inPlace sel

end

/-- Induction over selection sets, by the first selection. -/
theorem selections_induction {P : List Selection → Prop} (nil : P [])
    (field : ∀ alias_ name sel rest, P sel → P rest → P (.field alias_ name sel :: rest))
    (inlineFragment : ∀ sel rest, P sel → P rest → P (.inlineFragment sel :: rest))
    (fragmentSpread : ∀ name rest, P rest → P (.fragmentSpread name :: rest))
    (sel : List Selection) : P sel :=
  @Selection.rec_1 (fun s => ∀ rest, P rest → P (s :: rest)) P
    (fun alias_ name sel hsel rest => field alias_ name sel rest hsel)
    (fun sel hsel rest => inlineFragment sel rest hsel) (fun name rest => fragmentSpread name rest)
    nil (fun _ rest hs => hs rest) sel

@[simp] theorem within_nil : within [] = [] := rfl

@[simp] theorem within_field (alias_ name : Bytes) (sel rest : List Selection) :
    within (.field alias_ name sel :: rest) =
      .field alias_ name sel :: (within sel ++ within rest) := rfl

@[simp] theorem within_inlineFragment (sel rest : List Selection) :
    within (.inlineFragment sel :: rest) =
      .inlineFragment sel :: (within sel ++ within rest) := rfl

@[simp] theorem within_fragmentSpread (name : Bytes) (rest : List Selection) :
    within (.fragmentSpread name :: rest) = .fragmentSpread name :: within rest := rfl

theorem within_append (sel sel' : List Selection) :
    within (sel ++ sel') = within sel ++ within sel' := by
  induction sel with
  | nil => rfl
  | cons s sel ih => simp [within, ih]

theorem inPlace_append (sel sel' : List Selection) :
    inPlace (sel ++ sel') = inPlace sel ++ inPlace sel' := by
  induction sel with
  | nil => rfl
  | cons s sel ih => simp [inPlace, ih]

@[simp] theorem fieldsOf_nil : fieldsOf [] = [] := rfl

@[simp] theorem fieldsOf_field (alias_ name : Bytes) (sel rest : List Selection) :
    fieldsOf (.field alias_ name sel :: rest) =
      (alias_, name) :: (fieldsOf sel ++ fieldsOf rest) := by
  rw [fieldsOf, within_field, List.filterMap_cons, List.filterMap_append]
  rfl

@[simp] theorem fieldsOf_inlineFragment (sel rest : List Selection) :
    fieldsOf (.inlineFragment sel :: rest) = fieldsOf sel ++ fieldsOf rest := by
  rw [fieldsOf, within_inlineFragment, List.filterMap_cons, List.filterMap_append]
  rfl

@[simp] theorem fieldsOf_fragmentSpread (name : Bytes) (rest : List Selection) :
    fieldsOf (.fragmentSpread name :: rest) = fieldsOf rest := by
  rw [fieldsOf, within_fragmentSpread, List.filterMap_cons]
  rfl

@[simp] theorem spreadsOf_field (alias_ name : Bytes) (sel rest : List Selection) :
    spreadsOf (.field alias_ name sel :: rest) = spreadsOf sel ++ spreadsOf rest := by
  rw [spreadsOf, within_field, List.filterMap_cons, List.filterMap_append]
  rfl

@[simp] theorem spreadsOf_inlineFragment (sel rest : List Selection) :
    spreadsOf (.inlineFragment sel :: rest) = spreadsOf sel ++ spreadsOf rest := by
  rw [spreadsOf, within_inlineFragment, List.filterMap_cons, List.filterMap_append]
  rfl

@[simp] theorem spreadsOf_fragmentSpread (name : Bytes) (rest : List Selection) :
    spreadsOf (.fragmentSpread name :: rest) = name :: spreadsOf rest := by
  rw [spreadsOf, within_fragmentSpread, List.filterMap_cons]
  rfl

theorem fieldsOf_append (sel sel' : List Selection) :
    fieldsOf (sel ++ sel') = fieldsOf sel ++ fieldsOf sel' := by
  simp [fieldsOf, within_append]

theorem one_le_levels (sel : List Selection) : 1 ≤ levels sel := by
  induction sel with
  | nil => exact le_refl _
  | cons s sel ih => exact le_trans ih (le_max_right _ _)

theorem levels_append (sel sel' : List Selection) :
    levels (sel ++ sel') = max (levels sel) (levels sel') := by
  induction sel with
  | nil => exact (max_eq_right (one_le_levels sel')).symm
  | cons s sel ih => simp [levels, ih, max_assoc]

/-- Replacing fragments in place loses no field. -/
theorem fieldsOf_inPlace (sel : List Selection) : fieldsOf (inPlace sel) = fieldsOf sel := by
  induction sel using selections_induction with
  | nil => rfl
  | field alias_ name sel rest hsel hrest =>
    rw [inPlace, fieldsOf_append, hrest, Selection.inPlace, fieldsOf_field, fieldsOf_field, hsel]
    simp
  | inlineFragment sel rest hsel hrest =>
    rw [inPlace, fieldsOf_append, hrest, Selection.inPlace, hsel, fieldsOf_inlineFragment]
  | fragmentSpread name rest hrest =>
    rw [inPlace, fieldsOf_append, hrest, Selection.inPlace, fieldsOf_fragmentSpread]
    rfl

/-! ### Written-out selections -/

/-- A selection set without spreads and without empty inline fragments. -/
def Solid (sel : List Selection) : Prop :=
  ∀ s ∈ within sel, s.spread? = none ∧ s ≠ .inlineFragment []

theorem solid_field {alias_ name : Bytes} {sel rest : List Selection} :
    Solid (.field alias_ name sel :: rest) ↔ Solid sel ∧ Solid rest := by
  unfold Solid
  rw [within_field, List.forall_mem_cons, List.forall_mem_append]
  exact ⟨fun h => h.2, fun h => ⟨⟨rfl, fun heq => (nomatch heq)⟩, h⟩⟩

theorem solid_inlineFragment {sel rest : List Selection} :
    Solid (.inlineFragment sel :: rest) ↔ sel ≠ [] ∧ Solid sel ∧ Solid rest := by
  unfold Solid
  rw [within_inlineFragment, List.forall_mem_cons, List.forall_mem_append]
  refine ⟨fun h => ⟨fun heq => h.1.2 (by rw [heq]), h.2⟩, fun h => ⟨⟨rfl, fun heq => ?_⟩, h.2⟩⟩
  exact h.1 (Selection.inlineFragment.inj heq)

theorem not_solid_fragmentSpread (name : Bytes) (rest : List Selection) :
    ¬ Solid (.fragmentSpread name :: rest) :=
  fun h => nomatch (h (.fragmentSpread name) (List.mem_append_left _ List.mem_cons_self)).1

theorem Solid.inPlace_ne_nil {sel : List Selection} (h : Solid sel) (hne : sel ≠ []) :
    inPlace sel ≠ [] := by
  induction sel using selections_induction with
  | nil => exact absurd rfl hne
  | field alias_ name sel rest => simp [inPlace, Selection.inPlace]
  | inlineFragment sel rest hsel =>
    obtain ⟨hfull, hin, -⟩ := solid_inlineFragment.mp h
    simp [inPlace, Selection.inPlace, hsel hin hfull]
  | fragmentSpread name rest => exact absurd h (not_solid_fragmentSpread name rest)

theorem Solid.levels_inPlace {sel : List Selection} (h : Solid sel) :
    levels (inPlace sel) = levels sel := by
  induction sel using selections_induction with
  | nil => rfl
  | field alias_ name sel rest hsel hrest =>
    obtain ⟨hin, htail⟩ := solid_field.mp h
    have hempty : (inPlace sel).isEmpty = sel.isEmpty := by
      cases sel with
      | nil => rfl
      | cons s sel => simp [hin.inPlace_ne_nil (List.cons_ne_nil s sel)]
    have hhead : (Selection.field alias_ name (inPlace sel)).levels =
        (Selection.field alias_ name sel).levels := by
      rw [Selection.levels, Selection.levels, hempty, hsel hin]
    rw [inPlace, levels_append, hrest htail, Selection.inPlace, levels, hhead, levels, levels]
    have hone := one_le_levels rest
    omega
  | inlineFragment sel rest hsel hrest =>
    obtain ⟨-, hin, htail⟩ := solid_inlineFragment.mp h
    rw [inPlace, levels_append, hrest htail, Selection.inPlace, hsel hin, levels, Selection.levels]
  | fragmentSpread name rest => exact absurd h (not_solid_fragmentSpread name rest)

/-! ## The walk over selections without fragments -/

attribute [ext] Stats

/-- A field that counts as an alias. -/
def renamed (f : Bytes × Bytes) : Bool := f.1 ≠ [] ∧ f.1 ≠ f.2

def introspective (f : Bytes × Bytes) : Bool := f.2 = ascii "__schema" || f.2 = ascii "__type"

/-- The measures with those of a selection set below `l` levels. -/
def Stats.add (st : Stats) (l : Nat) (sel : List Selection) : Stats :=
  { st with
    depth := max st.depth (l + levels sel)
    fields := st.fields + (fieldsOf sel).length
    rootFields := st.rootFields +
      if l = 0 then ((inPlace sel).filterMap Selection.field?).length else 0
    aliases := st.aliases + (fieldsOf sel).countP renamed
    introspection := st.introspection || (fieldsOf sel).any introspective
    nodes := st.nodes + (within sel).length }

theorem Stats.add_append (st : Stats) (l : Nat) (sel sel' : List Selection) :
    st.add l (sel ++ sel') = (st.add l sel).add l sel' := by
  have hdepth : max st.depth (l + levels (sel ++ sel')) =
      max (max st.depth (l + levels sel)) (l + levels sel') := by
    rw [levels_append]
    omega
  simp only [Stats.add, hdepth, fieldsOf_append, inPlace_append, within_append, List.length_append,
    List.filterMap_append, List.countP_append, List.any_append, Bool.or_assoc, Nat.add_assoc]
  split <;> rfl

/-- The measures with one node more. -/
def Stats.count (st : Stats) : Stats := { st with nodes := st.nodes + 1 }

theorem one_le_field_levels (alias_ name : Bytes) (sel : List Selection) :
    1 ≤ (Selection.field alias_ name sel).levels := by
  unfold Selection.levels
  split <;> omega

/-- A field is counted, and its selections are those of the next level. -/
theorem Stats.add_field (st : Stats) (l : Nat) (alias_ name : Bytes) (sel : List Selection) :
    st.add l [.field alias_ name sel] =
      { (countField (l + 1) alias_ name st.count).add (l + 1) sel with
        depth := max st.depth (l + (Selection.field alias_ name sel).levels) } := by
  ext1
  case depth =>
    simp only [Stats.add, levels]
    rw [max_eq_left (one_le_field_levels alias_ name sel)]
  case fields =>
    simp only [Stats.add, Stats.count, countField, fieldsOf_field, fieldsOf_nil, List.append_nil,
      List.length_cons]
    omega
  case rootFields =>
    simp only [Stats.add, Stats.count, countField, inPlace, Selection.inPlace]
    by_cases h : l = 0 <;> simp [h, Selection.field?]
  case aliases =>
    simp only [Stats.add, Stats.count, countField, fieldsOf_field, fieldsOf_nil, List.append_nil,
      List.countP_cons]
    by_cases h : alias_ ≠ [] ∧ alias_ ≠ name <;> simp [h, renamed, Nat.add_assoc, Nat.add_comm]
  case introspection => simp [Stats.add, Stats.count, countField, introspective, Bool.or_assoc]
  case nodes =>
    simp only [Stats.add, Stats.count, countField, within_field, within_nil, List.append_nil,
      List.length_cons]
    omega
  case aborted => rfl

theorem Stats.add_branch (st : Stats) (l : Nat) (alias_ name : Bytes) {sel : List Selection}
    (hsel : sel.isEmpty = false) : st.add l [.field alias_ name sel] =
      (countField (l + 1) alias_ name st.count).add (l + 1) sel := by
  rw [Stats.add_field, Selection.levels, if_neg (by simp [hsel]), ← Nat.add_assoc]
  rfl

section
variable {st : Stats} {l : Nat} (hl : l + 1 ≤ st.depth)

include hl

theorem Stats.add_nil : st.add l [] = st := by
  ext1
  case depth => exact max_eq_left hl
  case rootFields => simp [Stats.add, inPlace]
  case introspection => exact Bool.or_false _
  all_goals rfl

theorem Stats.add_leaf (alias_ name : Bytes) :
    st.add l [.field alias_ name []] = countField (l + 1) alias_ name st.count := by
  rw [Stats.add_field]
  ext1
  case depth => exact max_eq_left hl
  case introspection => exact Bool.or_false _
  all_goals rfl

theorem Stats.add_fragmentSpread (name : Bytes) : st.add l [.fragmentSpread name] = st.count := by
  ext1
  case depth => exact max_eq_left hl
  case rootFields => simp [Stats.add, Stats.count, inPlace, Selection.inPlace]
  case introspection => exact Bool.or_false _
  all_goals rfl

end

theorem Stats.add_inlineFragment (st : Stats) (l : Nat) (sel : List Selection) :
    st.add l [.inlineFragment sel] = st.count.add l sel := by
  ext1
  case depth =>
    simp only [Stats.add, Stats.count, levels, Selection.levels]
    rw [max_eq_left (one_le_levels sel)]
  case fields => simp [Stats.add, Stats.count]
  case rootFields => simp [Stats.add, Stats.count, inPlace, Selection.inPlace]
  case aliases => simp [Stats.add, Stats.count]
  case introspection => simp [Stats.add, Stats.count]
  case nodes =>
    simp only [Stats.add, Stats.count, within_inlineFragment, within_nil, List.append_nil,
      List.length_cons]
    omega
  case aborted => rfl

/-- Selections that cost `cost` nodes: within the budget they lead to `goal`, over it they abort
the walk. -/
def Costs (e : Engine) (st : Stats) (cost : Nat) (goal r : Stats) : Prop :=
  if st.nodes + cost ≤ e.maxNodes then r = goal else r.aborted = true

section
variable {e : Engine} {frags : List (Bytes × List Selection)}

theorem Costs.trans {st mid goal r r' : Stats} {c c' : Nat} (h : Costs e st c mid r)
    (hmid : mid.nodes = st.nodes + c)
    (hnext : mid.nodes ≤ e.maxNodes → r = mid → Costs e mid c' goal r')
    (habort : r.aborted = true → r'.aborted = true) : Costs e st (c + c') goal r' := by
  unfold Costs at h hnext ⊢
  split at h
  next hfits =>
    have hrest := hnext (by omega) h
    rw [hmid, Nat.add_assoc] at hrest
    exact hrest
  next hfull =>
    rw [if_neg (by omega)]
    exact habort h

theorem visit_aborted {walk : List Selection → Nat → (Bytes → Nat) → Stats → Stats} (depth : Nat)
    (visited : Bytes → Nat) {st : Stats} (h : st.aborted = true) (s : Selection) :
    visit e frags walk depth visited st s = st := by
  rw [visit, if_pos h]

theorem foldl_visit_aborted {walk : List Selection → Nat → (Bytes → Nat) → Stats → Stats}
    (depth : Nat) (visited : Bytes → Nat) {st : Stats} (h : st.aborted = true)
    (sel : List Selection) : sel.foldl (visit e frags walk depth visited) st = st := by
  induction sel with
  | nil => rfl
  | cons s sel ih => rw [List.foldl_cons, visit_aborted depth visited h, ih]

/-- The loop over a selection set that has calls left for all of it. -/
def LoopCosts (e : Engine) (sel : List Selection) : Prop :=
  ∀ n l visited (st : Stats), st.aborted = false → st.nodes ≤ e.maxNodes → l + 1 ≤ st.depth →
    (within sel).length ≤ n → Costs e st (within sel).length (st.add l sel)
      (sel.foldl (visit e [] (walk e [] n) (l + 1) visited) st)

theorem LoopCosts.walk {sel : List Selection} (h : LoopCosts e sel) {n l : Nat}
    (visited : Bytes → Nat) {st : Stats} (hst : st.aborted = false) (hnodes : st.nodes ≤ e.maxNodes)
    (hn : (within sel).length < n) :
    Costs e st (within sel).length (st.add l sel) (walk e [] n sel (l + 1) visited st) := by
  obtain ⟨n, rfl⟩ : ∃ m, n = m + 1 := ⟨n - 1, by omega⟩
  have hloop := h n l visited { st with depth := max st.depth (l + 1) } hst hnodes
    (le_max_right _ _) (by omega)
  have hadd : Stats.add { st with depth := max st.depth (l + 1) } l sel = st.add l sel := by
    have hone := one_le_levels sel
    ext1
    case depth =>
      simp only [Stats.add]
      omega
    all_goals rfl
  rw [hadd] at hloop
  rw [GraphQL.walk, if_neg (by simp [hst])]
  exact hloop

theorem LoopCosts.cons {s : Selection} {rest : List Selection}
    (hs : ∀ n l visited (st : Stats), st.aborted = false → l + 1 ≤ st.depth →
      (within [s]).length ≤ n → st.nodes + 1 ≤ e.maxNodes →
      Costs e st (within [s]).length (st.add l [s])
        (visit e [] (GraphQL.walk e [] n) (l + 1) visited st s))
    (hpos : 0 < (within [s]).length) (hrest : LoopCosts e rest) : LoopCosts e (s :: rest) := by
  intro n l visited st hst hnodes hl hn
  have hlength : (within (s :: rest)).length = (within [s]).length + (within rest).length := by
    rw [← List.length_append, ← within_append]
    rfl
  have hadd : st.add l (s :: rest) = (st.add l [s]).add l rest := st.add_append l [s] rest
  rw [hlength, hadd, List.foldl_cons]
  rw [hlength] at hn
  have hhead : Costs e st (within [s]).length (st.add l [s])
      (visit e [] (GraphQL.walk e [] n) (l + 1) visited st s) := by
    by_cases hroom : st.nodes + 1 ≤ e.maxNodes
    · exact hs n l visited st hst hl (by omega) hroom
    · rw [Costs, if_neg (by omega), visit, if_neg (by simp [hst]), if_pos (by omega)]
  refine hhead.trans rfl ?_ ?_
  · intro hle heq
    rw [heq]
    exact hrest n l visited _ hst hle (le_trans hl (le_max_left _ _)) (by omega)
  · intro habort
    rw [foldl_visit_aborted _ _ habort]
    exact habort

/-- What follows a counted selection. -/
theorem Costs.count {st goal r : Stats} {c : Nat} (h : Costs e st.count c goal r) :
    Costs e st (c + 1) goal r := by
  unfold Costs at h ⊢
  rwa [show st.nodes + (c + 1) = st.count.nodes + c by simp only [Stats.count]; omega]

theorem costs_one {st goal r : Stats} (hroom : st.nodes + 1 ≤ e.maxNodes) (h : r = goal) :
    Costs e st 1 goal r := by
  rwa [Costs, if_pos hroom]

theorem loopCosts (e : Engine) (sel : List Selection) : LoopCosts e sel := by
  induction sel using selections_induction with
  | nil =>
    intro n l visited st hst hnodes hl _
    rw [Stats.add_nil hl, Costs, if_pos (by simpa [within] using hnodes)]
    rfl
  | field alias_ name sel rest hsel hrest =>
    refine LoopCosts.cons ?_ (by simp) hrest
    intro n l visited st hst hl hn hroom
    rw [visit, if_neg (by simp [hst]), if_neg (by omega)]
    cases hempty : sel.isEmpty with
    | true =>
      obtain rfl := List.isEmpty_iff.mp hempty
      exact costs_one hroom (Stats.add_leaf hl alias_ name).symm
    | false =>
      rw [Stats.add_branch st l alias_ name hempty]
      simp only [within_field, within_nil, List.append_nil, List.length_cons] at hn ⊢
      rw [if_neg (by simp [hempty])]
      have hwalk : Costs e (countField (l + 1) alias_ name st.count) _ _
          (walk e [] n sel (l + 1 + 1) visited _) := hsel.walk visited hst hroom (by omega)
      exact Costs.count hwalk
  | inlineFragment sel rest hsel hrest =>
    refine LoopCosts.cons ?_ (by simp) hrest
    intro n l visited st hst hl hn hroom
    rw [visit, if_neg (by simp [hst]), if_neg (by omega), Stats.add_inlineFragment]
    simp only [within_inlineFragment, within_nil, List.append_nil, List.length_cons] at hn ⊢
    have hwalk : Costs e st.count _ _ (walk e [] n sel (l + 1) visited _) :=
      hsel.walk visited hst hroom (by omega)
    exact hwalk.count
  | fragmentSpread name rest hrest =>
    refine LoopCosts.cons ?_ (by simp) hrest
    intro n l visited st hst hl hn hroom
    rw [visit, if_neg (by simp [hst]), if_neg (by omega)]
    refine costs_one hroom ((Stats.add_fragmentSpread hl name).symm ▸ ?_)
    dsimp only
    split <;> rfl

end

end ElchiShield.GraphQL
