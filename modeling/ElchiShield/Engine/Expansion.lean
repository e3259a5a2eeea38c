import ElchiShield.Engine.Selections
import Mathlib.Logic.Relation
import Mathlib.Order.WellFoundedSet

/-! # What the GraphQL walk measures

The walk follows the spreads of an operation without writing the operation out. Written out, a
spread is an inline fragment with the selections of its fragment. The measures of the walk are
those of the operation written out, with its fragments replaced in place by their selections; and
the walk is aborted where the operation written out has more selections than it may visit. -/
namespace ElchiShield.GraphQL
open ElchiShield.Go ElchiShield.Config ElchiShield.Engine

/-! ## Writing an operation out -/

section
variable {frags : List (Bytes × List Selection)}

/-- A selection set written out: each spread is an inline fragment with the selections of its
fragment, written out in turn. -/
inductive Expands (frags : List (Bytes × List Selection)) : List Selection → List Selection → Prop
  | nil : Expands frags [] []
  | field {alias_ name : Bytes} {sel full rest restFull : List Selection} :
      Expands frags sel full → Expands frags rest restFull →
      Expands frags (.field alias_ name sel :: rest) (.field alias_ name full :: restFull)
  | inlineFragment {sel full rest restFull : List Selection} :
      Expands frags sel full → Expands frags rest restFull →
      Expands frags (.inlineFragment sel :: rest) (.inlineFragment full :: restFull)
  | fragmentSpread {name : Bytes} {sel full rest restFull : List Selection} :
      frags.reverse.lookup name = some sel → Expands frags sel full → Expands frags rest restFull →
      Expands frags (.fragmentSpread name :: rest) (.inlineFragment full :: restFull)

/-- The fragment `a` spreads the fragment `b`. -/
def Uses (frags : List (Bytes × List Selection)) (a b : Bytes) : Prop :=
  ∃ sel, frags.reverse.lookup a = some sel ∧ b ∈ spreadsOf sel

def Acyclic (frags : List (Bytes × List Selection)) : Prop :=
  ∀ a, ¬ Relation.TransGen (Uses frags) a a

/-- No inline fragment is empty, and every spread names a fragment that is not empty. -/
structure Complete (frags : List (Bytes × List Selection)) (sel : List Selection) : Prop where
  inline : .inlineFragment [] ∉ within sel
  spread : ∀ name ∈ spreadsOf sel, ∃ body, frags.reverse.lookup name = some body ∧ body ≠ []

theorem Complete.field {alias_ name : Bytes} {sel rest : List Selection}
    (h : Complete frags (.field alias_ name sel :: rest)) :
    Complete frags sel ∧ Complete frags rest := by
  obtain ⟨hinline, hspread⟩ := h
  rw [spreadsOf_field, List.forall_mem_append] at hspread
  simp only [within_field, List.mem_cons, List.mem_append, not_or] at hinline
  exact ⟨⟨hinline.2.1, hspread.1⟩, ⟨hinline.2.2, hspread.2⟩⟩

theorem Complete.inlineFragment {sel rest : List Selection}
    (h : Complete frags (.inlineFragment sel :: rest)) :
    sel ≠ [] ∧ Complete frags sel ∧ Complete frags rest := by
  obtain ⟨hinline, hspread⟩ := h
  rw [spreadsOf_inlineFragment, List.forall_mem_append] at hspread
  simp only [within_inlineFragment, List.mem_cons, List.mem_append, not_or] at hinline
  exact ⟨fun heq => hinline.1 (by rw [heq]), ⟨hinline.2.1, hspread.1⟩, ⟨hinline.2.2, hspread.2⟩⟩

theorem Complete.fragmentSpread {name : Bytes} {rest : List Selection}
    (h : Complete frags (.fragmentSpread name :: rest)) :
    (∃ body, frags.reverse.lookup name = some body ∧ body ≠ []) ∧ Complete frags rest := by
  obtain ⟨hinline, hspread⟩ := h
  rw [spreadsOf_fragmentSpread, List.forall_mem_cons] at hspread
  exact ⟨hspread.1, ⟨fun hmem => hinline (List.mem_append_right _ hmem), hspread.2⟩⟩

/-! ### Every acyclic operation can be written out -/

theorem expands_of_spreads {sel : List Selection}
    (h : ∀ name ∈ spreadsOf sel, ∃ body full, frags.reverse.lookup name = some body ∧
      Expands frags body full) : ∃ full, Expands frags sel full := by
  induction sel using selections_induction with
  | nil => exact ⟨[], .nil⟩
  | field alias_ name sel rest hsel hrest =>
    rw [spreadsOf_field] at h
    obtain ⟨full, hfull⟩ := hsel fun b hb => h b (List.mem_append_left _ hb)
    obtain ⟨restFull, hrestFull⟩ := hrest fun b hb => h b (List.mem_append_right _ hb)
    exact ⟨_, .field hfull hrestFull⟩
  | inlineFragment sel rest hsel hrest =>
    rw [spreadsOf_inlineFragment] at h
    obtain ⟨full, hfull⟩ := hsel fun b hb => h b (List.mem_append_left _ hb)
    obtain ⟨restFull, hrestFull⟩ := hrest fun b hb => h b (List.mem_append_right _ hb)
    exact ⟨_, .inlineFragment hfull hrestFull⟩
  | fragmentSpread name rest hrest =>
    rw [spreadsOf_fragmentSpread] at h
    obtain ⟨body, full, hbody, hfull⟩ := h name List.mem_cons_self
    obtain ⟨restFull, hrestFull⟩ := hrest fun b hb => h b (List.mem_cons_of_mem _ hb)
    exact ⟨_, .fragmentSpread hbody hfull hrestFull⟩

theorem mem_of_lookup {name : Bytes} {body : List Selection}
    (h : frags.reverse.lookup name = some body) : (name, body) ∈ frags := by
  obtain ⟨before, after, hsplit, -⟩ := List.lookup_eq_some_iff.mp h
  rw [← List.mem_reverse, hsplit]
  simp

/-- Induction over the fragments: one comes after those it spreads. -/
theorem Acyclic.induction (ha : Acyclic frags) {P : Bytes → Prop}
    (hstep : ∀ a, (∀ b, Uses frags a b → b ∈ frags.map Prod.fst → P b) → P a) {a : Bytes}
    (hmem : a ∈ frags.map Prod.fst) : P a := by
  let r (b a : Bytes) : Prop := Relation.TransGen (Uses frags) a b
  have hstrict : IsStrictOrder Bytes r :=
    { irrefl := ha, trans := fun _ _ _ hab hbc => hbc.trans hab }
  have hfinite : {a | a ∈ frags.map Prod.fst}.Finite := List.finite_toSet _
  refine (hfinite.wellFoundedOn (r := r)).induction hmem ?_
  intro a _ ih
  exact hstep a fun b hab hb => ih b hb (.single hab)

theorem Complete.expands (ha : Acyclic frags) (hfrags : ∀ f ∈ frags, Complete frags f.2)
    {sel : List Selection} (hsel : Complete frags sel) : ∃ full, Expands frags sel full := by
  have hfragment : ∀ name ∈ frags.map Prod.fst, ∀ body, frags.reverse.lookup name = some body →
      ∃ full, Expands frags body full := by
    intro name hname
    refine ha.induction (P := fun name => ∀ body, frags.reverse.lookup name = some body →
      ∃ full, Expands frags body full) ?_ hname
    intro a ih body hbody
    refine expands_of_spreads fun b hb => ?_
    obtain ⟨inner, hinner, -⟩ := (hfrags _ (mem_of_lookup hbody)).spread b hb
    obtain ⟨full, hfull⟩ := ih b ⟨body, hbody, hb⟩
      (List.mem_map.mpr ⟨_, mem_of_lookup hinner, rfl⟩) inner hinner
    exact ⟨inner, full, hinner, hfull⟩
  refine expands_of_spreads fun b hb => ?_
  obtain ⟨body, hbody, -⟩ := hsel.spread b hb
  obtain ⟨full, hfull⟩ := hfragment b (List.mem_map.mpr ⟨_, mem_of_lookup hbody, rfl⟩) body hbody
  exact ⟨body, full, hbody, hfull⟩

/-! ### The walk follows what is written out -/

theorem Expands.isEmpty {sel full : List Selection} (h : Expands frags sel full) :
    full.isEmpty = sel.isEmpty := by
  cases h <;> rfl

/-- No fragment that can be reached from the selections is open. -/
def Unopened (frags : List (Bytes × List Selection)) (visited : Bytes → Nat)
    (sel : List Selection) : Prop :=
  ∀ b ∈ spreadsOf sel, ∀ c, Relation.ReflTransGen (Uses frags) b c → visited c = 0

theorem Unopened.open (ha : Acyclic frags) {visited : Bytes → Nat} {name : Bytes}
    {rest body : List Selection} (h : Unopened frags visited (.fragmentSpread name :: rest))
    (hbody : frags.reverse.lookup name = some body) :
    Unopened frags (Function.update visited name (visited name + 1)) body := by
  intro b hb c hbc
  have huses : Uses frags name b := ⟨body, hbody, hb⟩
  have hreach : Relation.TransGen (Uses frags) name c := Relation.TransGen.head' huses hbc
  have hne : c ≠ name := by
    rintro rfl
    exact ha c hreach
  rw [Function.update_of_ne hne]
  exact h name (by rw [spreadsOf_fragmentSpread]; exact List.mem_cons_self) c hreach.to_reflTransGen

variable {e : Engine}

/-- The loop over `sel` is the loop over `full`, which has no fragments to count. -/
def SameLoop (e : Engine) (frags : List (Bytes × List Selection)) (visited : Bytes → Nat)
    (sel full : List Selection) : Prop :=
  ∀ n depth visited' st, sel.foldl (visit e frags (walk e frags n) depth visited) st =
    full.foldl (visit e [] (walk e [] n) depth visited') st

theorem SameLoop.walk {visited : Bytes → Nat} {sel full : List Selection}
    (h : SameLoop e frags visited sel full) (n depth : Nat) (visited' : Bytes → Nat) (st : Stats) :
    walk e frags n sel depth visited st = walk e [] n full depth visited' st := by
  cases n with
  | zero => rfl
  | succ n => simp only [GraphQL.walk, h n depth visited']

theorem SameLoop.cons {visited : Bytes → Nat} {s s' : Selection} {rest restFull : List Selection}
    (hs : ∀ n depth visited' st, visit e frags (GraphQL.walk e frags n) depth visited st s =
      visit e [] (GraphQL.walk e [] n) depth visited' st s')
    (hrest : SameLoop e frags visited rest restFull) :
    SameLoop e frags visited (s :: rest) (s' :: restFull) := by
  intro n depth visited' st
  rw [List.foldl_cons, List.foldl_cons, hs n depth visited' st]
  exact hrest n depth visited' _

theorem Expands.sameLoop (hdepth : 0 < e.maxFragDepth) (ha : Acyclic frags)
    {sel full : List Selection} (h : Expands frags sel full) {visited : Bytes → Nat}
    (hopen : Unopened frags visited sel) : SameLoop e frags visited sel full := by
  induction h generalizing visited with
  | nil => exact fun _ _ _ _ => rfl
  | field hsel hrest ihsel ihrest =>
    rw [Unopened, spreadsOf_field, List.forall_mem_append] at hopen
    refine SameLoop.cons (fun n depth visited' st => ?_) (ihrest hopen.2)
    simp only [visit, hsel.isEmpty, (ihsel hopen.1).walk n _ visited']
  | inlineFragment hsel hrest ihsel ihrest =>
    rw [Unopened, spreadsOf_inlineFragment, List.forall_mem_append] at hopen
    refine SameLoop.cons (fun n depth visited' st => ?_) (ihrest hopen.2)
    simp only [visit, (ihsel hopen.1).walk n _ visited']
  | @fragmentSpread name _ _ _ _ hbody hsel hrest ihsel ihrest =>
    have hbodyOpen := hopen.open ha hbody
    rw [Unopened, spreadsOf_fragmentSpread, List.forall_mem_cons] at hopen
    refine SameLoop.cons (fun n depth visited' st => ?_) (ihrest hopen.2)
    have hclosed := hopen.1 _ .refl
    have hbound : ¬ e.maxFragDepth ≤ visited name := by rw [hclosed]; omega
    simp only [visit, if_neg hbound, hbody, (ihsel hbodyOpen).walk n _ visited']

/-- What is written out has no spreads and no empty fragments. -/
theorem Expands.solid (hfrags : ∀ f ∈ frags, Complete frags f.2) {sel full : List Selection}
    (h : Expands frags sel full) (hcomplete : Complete frags sel) : Solid full := by
  induction h with
  | nil => exact fun s hs => (nomatch hs)
  | field _ _ ihsel ihrest =>
    obtain ⟨hin, htail⟩ := hcomplete.field
    exact solid_field.mpr ⟨ihsel hin, ihrest htail⟩
  | inlineFragment hsel _ ihsel ihrest =>
    obtain ⟨hne, hin, htail⟩ := hcomplete.inlineFragment
    refine solid_inlineFragment.mpr ⟨?_, ihsel hin, ihrest htail⟩
    rwa [ne_eq, ← List.isEmpty_iff, hsel.isEmpty, List.isEmpty_iff]
  | fragmentSpread hbody hsel _ ihsel ihrest =>
    obtain ⟨⟨body, hlookup, hne⟩, htail⟩ := hcomplete.fragmentSpread
    obtain rfl := Option.some.inj (hlookup.symm.trans hbody)
    refine solid_inlineFragment.mpr ⟨?_, ihsel (hfrags _ (mem_of_lookup hbody)), ihrest htail⟩
    rwa [ne_eq, ← List.isEmpty_iff, hsel.isEmpty, List.isEmpty_iff]

end

/-! ## The measurement -/

/-- A document of the grammar whose spreads all name fragments with selections. -/
def Document.Complete (doc : Document) : Prop :=
  ∀ sel ∈ doc.operations ++ doc.fragments.map Prod.snd, GraphQL.Complete doc.fragments sel

/-- The measures of an operation without fragments. -/
structure Measures (op : List Selection) (st : Stats) : Prop where
  depth : st.depth = levels op
  fields : st.fields = (fieldsOf op).length
  rootFields : st.rootFields = (op.filterMap Selection.field?).length
  aliases : st.aliases = (fieldsOf op).countP renamed
  introspection : st.introspection = (fieldsOf op).any introspective

section
variable {e : Engine} {frags : List (Bytes × List Selection)}

/-- The walk of `checkQuery`, with calls left for all that is written out. -/
theorem Expands.walk_costs (hdepth : 0 < e.maxFragDepth) (ha : Acyclic frags)
    {sel full : List Selection} (h : Expands frags sel full) :
    Costs e {} (within full).length (Stats.add {} 0 full)
      (walk e frags (e.maxNodes + 1) sel 1 (fun _ => 0) {}) := by
  have hopen : Unopened frags (fun _ => 0) sel := fun _ _ _ _ => rfl
  rw [← walk_enough e frags (within full).length,
    (h.sameLoop hdepth ha hopen).walk _ _ (fun _ => 0)]
  exact (loopCosts e full).walk _ rfl (Nat.zero_le _) (by omega)

theorem measures_add {full : List Selection} (h : Solid full) :
    Measures (inPlace full) (Stats.add {} 0 full) where
  depth := by
    rw [h.levels_inPlace]
    simp [Stats.add]
  fields := by
    rw [fieldsOf_inPlace]
    simp [Stats.add]
  rootFields := by simp [Stats.add]
  aliases := by
    rw [fieldsOf_inPlace]
    simp [Stats.add]
  introspection := by
    rw [fieldsOf_inPlace]
    simp [Stats.add]

end

theorem new_maxFragDepth_pos [Unicode] (cfg : GraphQLSpec) : 0 < (new cfg).maxFragDepth := by
  show 0 < if cfg.maxFragmentDepth ≤ 0 then 32 else cfg.maxFragmentDepth.toNat
  split <;> omega

/-- **The measurement is exact.** For a complete document with acyclic fragments, each operation
can be written out, the walk is aborted exactly where the operation written out has more selections
than the budget, and else its measures are those of the operation with the fragments in place. -/
theorem measurement_exact [Unicode] (cfg : GraphQLSpec) (doc : Document) (hdoc : doc.Complete)
    (ha : Acyclic doc.fragments) {op : List Selection} (hop : op ∈ doc.operations) :
    (∃ full, Expands doc.fragments op full) ∧ ∀ full, Expands doc.fragments op full →
      let e := new cfg
      let st := walk e doc.fragments (e.maxNodes + 1) op 1 (fun _ => 0) {}
      (st.aborted = true ↔ e.maxNodes < (within full).length) ∧
        (st.aborted = false → Measures (inPlace full) st) := by
  have hfrags : ∀ f ∈ doc.fragments, Complete doc.fragments f.2 := fun f hf =>
    hdoc f.2 (List.mem_append_right _ (List.mem_map_of_mem hf))
  have hcomplete := hdoc op (List.mem_append_left _ hop)
  refine ⟨hcomplete.expands ha hfrags, fun full hfull => ?_⟩
  intro e st
  have hcosts : Costs e {} _ _ st := hfull.walk_costs (new_maxFragDepth_pos cfg) ha
  unfold Costs at hcosts
  split at hcosts
  next hfits =>
    have hroom : (within full).length ≤ e.maxNodes := by simpa using hfits
    rw [hcosts]
    exact ⟨⟨fun h => (nomatch h), fun h => absurd hroom (by omega)⟩,
      fun _ => measures_add (hfull.solid hfrags hcomplete)⟩
  next hover =>
    have hlarge : e.maxNodes < (within full).length := by simpa using hover
    exact ⟨⟨fun _ => hlarge, fun _ => hcosts⟩, fun h => by rw [hcosts] at h; cases h⟩

/-- A fragment that spreads another one, and an inline fragment. -/
def spreadingOperation : List Selection :=
  [.fragmentSpread (ascii "A"),
    .field (ascii "x") (ascii "b") [.inlineFragment [.fragmentSpread (ascii "B")]]]

def spreadingDocument : Document where
  operations := [spreadingOperation]
  fragments := [(ascii "A", [.field [] (ascii "a") [], .fragmentSpread (ascii "B")]),
    (ascii "B", [.field [] (ascii "__type") []])]

/-- The operation written out: eight selections. -/
def spreadingFull : List Selection :=
  [.inlineFragment [.field [] (ascii "a") [], .inlineFragment [.field [] (ascii "__type") []]],
    .field (ascii "x") (ascii "b")
      [.inlineFragment [.inlineFragment [.field [] (ascii "__type") []]]]]

theorem spreadingDocument_complete : spreadingDocument.Complete := by
  intro sel hsel
  have hA : spreadingDocument.fragments.reverse.lookup (ascii "A") =
      some [.field [] (ascii "a") [], .fragmentSpread (ascii "B")] := rfl
  have hB : spreadingDocument.fragments.reverse.lookup (ascii "B") =
      some [.field [] (ascii "__type") []] := rfl
  have hnames : ∀ name ∈ [ascii "A", ascii "B"], ∃ body,
      spreadingDocument.fragments.reverse.lookup name = some body ∧ body ≠ [] := by
    simp [hA, hB]
  have hspread : ∀ sel ∈ spreadingDocument.operations ++ spreadingDocument.fragments.map Prod.snd,
      ∀ name ∈ spreadsOf sel, name ∈ [ascii "A", ascii "B"] := by
    decide +kernel
  refine ⟨?_, fun name hname => hnames name (hspread sel hsel name hname)⟩
  simp only [spreadingDocument, List.map_cons, List.map_nil, List.cons_append, List.nil_append,
    List.mem_cons, List.not_mem_nil, or_false] at hsel
  rcases hsel with rfl | rfl | rfl <;> simp [spreadingOperation]

theorem spreadingDocument_acyclic : Acyclic spreadingDocument.fragments := by
  have huses : ∀ a b, Uses spreadingDocument.fragments a b → a = ascii "A" ∧ b = ascii "B" := by
    rintro a b ⟨sel, hsel, hb⟩
    have hmem := mem_of_lookup hsel
    simp only [spreadingDocument, List.mem_cons, List.not_mem_nil, or_false, Prod.mk.injEq] at hmem
    rcases hmem with ⟨rfl, rfl⟩ | ⟨rfl, rfl⟩
    · exact ⟨rfl, List.mem_singleton.mp hb⟩
    · cases hb
  intro a hcycle
  obtain ⟨b, hfirst, -⟩ := Relation.TransGen.head'_iff.mp hcycle
  obtain ⟨c, -, hlast⟩ := Relation.TransGen.tail'_iff.mp hcycle
  exact absurd ((huses a b hfirst).1.symm.trans (huses c a hlast).2) (by decide)

theorem spreadingOperation_measured :
    let _ := Unicode.asciiOnly
    let e := new { maxComplexity := 8 }
    let st := walk e spreadingDocument.fragments (e.maxNodes + 1) spreadingOperation 1 (fun _ => 0) {}
    Expands spreadingDocument.fragments spreadingOperation spreadingFull ∧ st.aborted = false ∧
      Measures (inPlace spreadingFull) st := by
  intro _ e st
  have hB : Expands spreadingDocument.fragments [.fragmentSpread (ascii "B")]
      [.inlineFragment [.field [] (ascii "__type") []]] :=
    .fragmentSpread rfl (.field .nil .nil) .nil
  have hfull : Expands spreadingDocument.fragments spreadingOperation spreadingFull :=
    .fragmentSpread rfl (.field .nil hB) (.field (.inlineFragment hB .nil) .nil)
  obtain ⟨habort, hmeasures⟩ := (measurement_exact { maxComplexity := 8 } spreadingDocument
    spreadingDocument_complete spreadingDocument_acyclic List.mem_cons_self).2 _ hfull
  have hruns : st.aborted = false := by
    rw [← Bool.not_eq_true, habort]
    decide
  exact ⟨hfull, hruns, hmeasures hruns⟩

end ElchiShield.GraphQL
