import Mathlib.Data.List.Pairwise
import Mathlib.Order.Nat

/-! # Leftmost-first matching of expressions

Expressions over an alphabet, matched the way of a backtracking matcher: at one position the
ends of a match come in order of preference, greedy repetitions first, and the first of them is
taken. Searching takes the leftmost position with a match; searching for all of them goes on
where the last one ended. -/
namespace ElchiShield.Lib

inductive Regex (α : Type) where
  | one (p : α → Bool)
  | boundary (word : α → Bool)
  | seq (r t : Regex α)
  | alt (r t : Regex α)
  /-- At most `n` times. -/
  | upTo (n : Nat) (r : Regex α)
  | many (p : α → Bool)

namespace Regex

variable {α : Type} {r t : Regex α} {p : α → Bool} {s : List α} {i j e fuel pos : Nat}

/-! ## The ends of a match -/

def holdsAt (p : α → Bool) (s : List α) (i : Nat) : Bool := s[i]?.any p

/-- Whether something of the class stands right before the position. -/
def holdsBefore (p : α → Bool) (s : List α) : Nat → Bool
  | 0 => false
  | i + 1 => holdsAt p s i

/-- As many rounds as possible first, at most `n`. -/
def greedy (round : Nat → List Nat) : Nat → Nat → List Nat
  | 0, i => [i]
  | n + 1, i => (round i).flatMap (greedy round n) ++ [i]

def oneAt (p : α → Bool) (s : List α) (i : Nat) : List Nat :=
  if holdsAt p s i then [i + 1] else []

/-- Where a match from position `i` can end, the preferred one first. -/
def ends : Regex α → List α → Nat → List Nat
  | one p, s, i => oneAt p s i
  | boundary word, s, i => if holdsBefore word s i != holdsAt word s i then [i] else []
  | seq r t, s, i => (r.ends s i).flatMap (t.ends s)
  | alt r t, s, i => r.ends s i ++ t.ends s i
  | upTo n r, s, i => greedy (r.ends s) n i
  | many p, s, i => greedy (oneAt p s) (s.length - i) i

/-- No match is empty. -/
def consumes : Regex α → Bool
  | one _ => true
  | boundary _ => false
  | seq r t => r.consumes || t.consumes
  | alt r t => r.consumes && t.consumes
  | upTo _ _ => false
  | many _ => false

theorem holdsAt_iff : holdsAt p s i = true ↔ ∃ a, s[i]? = some a ∧ p a = true := by
  simp [holdsAt, Option.any_eq_true]

theorem lt_length_of_holdsAt (h : holdsAt p s i = true) : i < s.length := by
  obtain ⟨a, ha, -⟩ := holdsAt_iff.mp h
  exact (List.getElem?_eq_some_iff.mp ha).1

theorem mem_oneAt : e ∈ oneAt p s i ↔ holdsAt p s i = true ∧ e = i + 1 := by
  unfold oneAt
  split
  next h => simp [h]
  next h => simp [h]

/-- A relation between positions that every round of a repetition keeps. -/
theorem greedy_rule {R : Nat → Nat → Prop} {round : Nat → List Nat} (refl : ∀ i, R i i)
    (trans : ∀ i j k, R i j → R j k → R i k) (hround : ∀ i, ∀ e ∈ round i, R i e) (n : Nat) :
    ∀ i, ∀ e ∈ greedy round n i, R i e := by
  induction n with
  | zero =>
    intro i e he
    rw [greedy, List.mem_singleton] at he
    exact he ▸ refl i
  | succ n ih =>
    intro i e he
    rw [greedy, List.mem_append, List.mem_flatMap, List.mem_singleton] at he
    obtain ⟨j, hj, he⟩ | rfl := he
    · exact trans i j e (hround i j hj) (ih j e he)
    · exact refl e

/-- A match goes forward, and not beyond the text. -/
def Forward (s : List α) (i e : Nat) : Prop := i ≤ e ∧ (i ≤ s.length → e ≤ s.length)

theorem Forward.refl (i : Nat) : Forward s i i := ⟨Nat.le_refl i, id⟩

theorem Forward.trans {k : Nat} (h : Forward s i j) (h' : Forward s j k) : Forward s i k :=
  ⟨h.1.trans h'.1, fun hi => h'.2 (h.2 hi)⟩

theorem oneAt_forward (he : e ∈ oneAt p s i) : Forward s i e := by
  obtain ⟨h, rfl⟩ := mem_oneAt.mp he
  have := lt_length_of_holdsAt h
  exact ⟨by omega, fun _ => this⟩

theorem ends_forward (he : e ∈ r.ends s i) : Forward s i e := by
  induction r generalizing i e with
  | one p => exact oneAt_forward he
  | boundary word =>
    rw [ends] at he
    split at he
    · obtain rfl := List.mem_singleton.mp he
      exact Forward.refl e
    · cases he
  | seq r t ihr iht =>
    obtain ⟨j, hj, he⟩ := List.mem_flatMap.mp he
    exact (ihr hj).trans (iht he)
  | alt r t ihr iht =>
    rcases List.mem_append.mp he with he | he
    · exact ihr he
    · exact iht he
  | upTo n r ih =>
    exact greedy_rule Forward.refl (fun _ _ _ => Forward.trans) (fun _ _ => ih) n i e he
  | many p =>
    exact greedy_rule Forward.refl (fun _ _ _ => Forward.trans) (fun _ _ => oneAt_forward) _ i e he

theorem lt_of_mem_ends (hr : r.consumes = true) (he : e ∈ r.ends s i) : i < e := by
  induction r generalizing i e with
  | one p =>
    obtain ⟨-, rfl⟩ := mem_oneAt.mp he
    exact Nat.lt_succ_self i
  | boundary word => cases hr
  | seq r t ihr iht =>
    obtain ⟨j, hj, he⟩ := List.mem_flatMap.mp he
    rcases (Bool.or_eq_true _ _).mp hr with hr | ht
    · exact (ihr hr hj).trans_le (ends_forward he).1
    · exact (ends_forward hj).1.trans_lt (iht ht he)
  | alt r t ihr iht =>
    obtain ⟨hr, ht⟩ := (Bool.and_eq_true _ _).mp hr
    rcases List.mem_append.mp he with he | he
    · exact ihr hr he
    · exact iht ht he
  | upTo n r ih => cases hr
  | many p => cases hr

/-! ## Searching -/

/-- The leftmost match from `pos` on, if it starts at one of the next `fuel` positions. -/
def findFrom (r : Regex α) (s : List α) : Nat → Nat → Option (Nat × Nat)
  | 0, _ => none
  | fuel + 1, pos =>
    match (r.ends s pos).head? with
    | some e => some (pos, e)
    | none => r.findFrom s fuel (pos + 1)

def find (r : Regex α) (s : List α) (pos : Nat) : Option (Nat × Nat) :=
  r.findFrom s (s.length + 1 - pos) pos

def findAllFrom (r : Regex α) (s : List α) : Nat → Nat → List (Nat × Nat)
  | 0, _ => []
  | fuel + 1, pos =>
    match r.find s pos with
    | none => []
    | some loc => loc :: r.findAllFrom s fuel loc.2

/-- All matches, none of which overlap; for expressions that match no empty text. -/
def findAll (r : Regex α) (s : List α) : List (Nat × Nat) := r.findAllFrom s (s.length + 1) 0

/-- Of the matches that start at `i`, the one that is taken. -/
def Takes (r : Regex α) (s : List α) (i e : Nat) : Prop := (r.ends s i).head? = some e

theorem Takes.mem (h : r.Takes s i e) : e ∈ r.ends s i := List.mem_of_head? h

theorem findFrom_some (h : r.findFrom s fuel pos = some (i, e)) :
    (pos ≤ i ∧ i < pos + fuel) ∧ r.Takes s i e := by
  induction fuel generalizing pos with
  | zero => cases h
  | succ fuel ih =>
    rw [findFrom] at h
    split at h
    next hhead =>
      cases h
      exact ⟨⟨Nat.le_refl _, by omega⟩, hhead⟩
    next =>
      obtain ⟨hpos, htakes⟩ := ih h
      exact ⟨by omega, htakes⟩

/-- The search does not pass over a match. -/
theorem exists_findFrom (htakes : r.Takes s i e) (hpos : pos ≤ i) (hfuel : i < pos + fuel) :
    ∃ j e', r.findFrom s fuel pos = some (j, e') ∧ j ≤ i := by
  induction fuel generalizing pos with
  | zero => omega
  | succ fuel ih =>
    rw [findFrom]
    split
    next e' _ => exact ⟨pos, e', rfl, hpos⟩
    next hhead =>
      have hne : pos ≠ i := fun heq => by
        rw [Takes, ← heq, hhead] at htakes
        cases htakes
      exact ih (by omega) (by omega)

theorem find_some (h : r.find s pos = some (i, e)) :
    (pos ≤ i ∧ i ≤ s.length) ∧ r.Takes s i e := by
  obtain ⟨hpos, htakes⟩ := findFrom_some h
  exact ⟨by omega, htakes⟩

theorem findAllFrom_spec : ∀ loc ∈ r.findAllFrom s fuel pos,
    (pos ≤ loc.1 ∧ loc.1 ≤ s.length) ∧ r.Takes s loc.1 loc.2 := by
  induction fuel generalizing pos with
  | zero => simp [findAllFrom]
  | succ fuel ih =>
    intro loc hloc
    rw [findAllFrom] at hloc
    split at hloc
    next => cases hloc
    next first hfind =>
      obtain ⟨hle, htakes⟩ := find_some hfind
      rcases List.mem_cons.mp hloc with rfl | hloc
      · exact ⟨hle, htakes⟩
      · obtain ⟨hle', htakes'⟩ := ih loc hloc
        have hforward := (ends_forward htakes.mem).1
        exact ⟨by omega, htakes'⟩

theorem takes_of_mem_findAll {loc : Nat × Nat} (h : loc ∈ r.findAll s) :
    loc.1 ≤ s.length ∧ r.Takes s loc.1 loc.2 :=
  ⟨(findAllFrom_spec loc h).1.2, (findAllFrom_spec loc h).2⟩

/-- What is found lies in the text, and is not empty. -/
theorem bounds_of_mem_findAll (hr : r.consumes = true) {loc : Nat × Nat} (h : loc ∈ r.findAll s) :
    loc.1 < loc.2 ∧ loc.2 ≤ s.length := by
  obtain ⟨hle, htakes⟩ := takes_of_mem_findAll h
  exact ⟨lt_of_mem_ends hr htakes.mem, (ends_forward htakes.mem).2 hle⟩

/-- One match ends before the next one starts. -/
theorem findAllFrom_pairwise : (r.findAllFrom s fuel pos).Pairwise (·.2 ≤ ·.1) := by
  induction fuel generalizing pos with
  | zero => exact .nil
  | succ fuel ih =>
    rw [findAllFrom]
    split
    next => exact .nil
    next loc _ => exact .cons (fun next hnext => (findAllFrom_spec next hnext).1.1) ih

theorem findAll_pairwise : (r.findAll s).Pairwise (·.2 ≤ ·.1) := findAllFrom_pairwise

theorem apart_of_mem_findAll {loc other : Nat × Nat} (h : loc ∈ r.findAll s)
    (h' : other ∈ r.findAll s) (hne : loc ≠ other) : loc.2 ≤ other.1 ∨ other.2 ≤ loc.1 := by
  have hsymm : Std.Symm fun a b : Nat × Nat => a.2 ≤ b.1 ∨ b.2 ≤ a.1 := ⟨fun _ _ h => h.symm⟩
  have hapart : (r.findAll s).Pairwise fun a b => a.2 ≤ b.1 ∨ b.2 ≤ a.1 :=
    findAll_pairwise.imp Or.inl
  exact hapart.forall h h' hne

/-- Two matches over one position are the same. -/
theorem eq_of_overlap {loc other : Nat × Nat} (h : loc ∈ r.findAll s) (h' : other ∈ r.findAll s)
    (hp : loc.1 ≤ i ∧ i < loc.2) (hp' : other.1 ≤ i ∧ i < other.2) : loc = other := by
  by_contra hne
  have := apart_of_mem_findAll h h' hne
  omega

/-- A match is found unless it starts inside one that is found. -/
theorem mem_findAllFrom (hr : r.consumes = true) (htakes : r.Takes s i e) (hi : i ≤ s.length)
    (hpos : pos ≤ i) (hfuel : s.length < pos + fuel)
    (hinside : ∀ loc ∈ r.findAllFrom s fuel pos, loc.1 < i → loc.2 ≤ i) :
    (i, e) ∈ r.findAllFrom s fuel pos := by
  induction fuel generalizing pos with
  | zero => omega
  | succ fuel ih =>
    obtain ⟨j, e', hfind, hj⟩ : ∃ j e', r.find s pos = some (j, e') ∧ j ≤ i :=
      exists_findFrom htakes hpos (by omega)
    obtain ⟨hle, htakes'⟩ := find_some hfind
    simp only [findAllFrom, hfind] at hinside ⊢
    rcases Nat.lt_or_eq_of_le hj with hj | rfl
    · have hbefore := hinside (j, e') List.mem_cons_self hj
      have hlt := lt_of_mem_ends hr htakes'.mem
      refine List.mem_cons_of_mem _ (ih hbefore (by omega) fun loc hloc => ?_)
      exact hinside loc (List.mem_cons_of_mem _ hloc)
    · have heq : e = e' := by
        rw [Takes, htakes'] at htakes
        exact (Option.some.inj htakes).symm
      exact heq ▸ List.mem_cons_self

theorem mem_findAll (hr : r.consumes = true) (htakes : r.Takes s i e) (hi : i ≤ s.length)
    (hinside : ∀ loc ∈ r.findAll s, loc.1 < i → loc.2 ≤ i) : (i, e) ∈ r.findAll s :=
  mem_findAllFrom hr htakes hi (Nat.zero_le i) (by omega) hinside

/-! ### What a scan takes -/

/-- The parts a scan from left to right takes: from the start, and from where the last part
ended, the first one there is. -/
inductive Scanned (T : Nat → Nat → Prop) : Nat → Nat → Prop
  | first {i e : Nat} (least : ∀ k < i, ∀ e', ¬ T k e') (takes : T i e) : Scanned T i e
  | next {i e j f : Nat} (before : Scanned T i e) (le : e ≤ j)
    (least : ∀ k, e ≤ k → k < j → ∀ e', ¬ T k e') (takes : T j f) : Scanned T j f

theorem scanned_of_mem_findAllFrom {loc : Nat × Nat}
    (hpos : pos = 0 ∨ ∃ k, Scanned (r.Takes s) k pos) (h : loc ∈ r.findAllFrom s fuel pos) :
    Scanned (r.Takes s) loc.1 loc.2 := by
  induction fuel generalizing pos with
  | zero => cases h
  | succ fuel ih =>
    rw [findAllFrom] at h
    split at h
    next => cases h
    next first hfind =>
      obtain ⟨hle, htakes⟩ := find_some hfind
      have hleast : ∀ k, pos ≤ k → k < first.1 → ∀ e', ¬ r.Takes s k e' := by
        intro k hk hlt e' htakes'
        obtain ⟨j, f, hfind', hj⟩ : ∃ j f, r.find s pos = some (j, f) ∧ j ≤ k :=
          exists_findFrom htakes' hk (by omega)
        obtain rfl := Option.some.inj (hfind.symm.trans hfind')
        omega
      have hfirst : Scanned (r.Takes s) first.1 first.2 := by
        rcases hpos with rfl | ⟨k, hk⟩
        · exact .first (fun k => hleast k (Nat.zero_le k)) htakes
        · exact .next hk hle.1 hleast htakes
      rcases List.mem_cons.mp h with rfl | h
      · exact hfirst
      · exact ih (.inr ⟨_, hfirst⟩) h

/-- The matches are what a scan takes. -/
theorem mem_findAll_iff (hr : r.consumes = true) (hin : ∀ i e, r.Takes s i e → i ≤ s.length) :
    (i, e) ∈ r.findAll s ↔ Scanned (r.Takes s) i e := by
  constructor
  · exact fun h => scanned_of_mem_findAllFrom (.inl rfl) h
  · intro h
    induction h with
    | first least takes =>
      refine mem_findAll hr takes (hin _ _ takes) fun loc hloc hlt => ?_
      exact absurd (takes_of_mem_findAll hloc).2 (least _ hlt _)
    | @next i e j f before le least takes ih =>
      refine mem_findAll hr takes (hin _ _ takes) fun loc hloc hlt => ?_
      have hnot : ¬ e ≤ loc.1 := fun hle => least _ hle hlt _ (takes_of_mem_findAll hloc).2
      by_cases hsame : loc = (i, e)
      · rw [hsame]
        exact le
      · have := apart_of_mem_findAll hloc ih hsame
        have := (bounds_of_mem_findAll hr ih).1
        omega

end Regex

end ElchiShield.Lib
