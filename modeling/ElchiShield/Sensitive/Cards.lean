import ElchiShield.Go.Ascii
import ElchiShield.Sensitive.Redacted

/-! # Which card numbers are reported

The expression for card numbers takes, from where it starts, as many groups of digits as it can.
A card number next to other digits is read together with them, and the checksum is then that of
the longer number. -/
namespace ElchiShield.Sensitive
open ElchiShield.Go ElchiShield.Lib ElchiShield.Stages

variable {body : Bytes} {i j k n e : Nat} {f : Nat → List Nat}

/-! ## Numbers in a body -/

/-- The text has `n` digits, at most one separator between two of them and nothing else. -/
inductive Grouped : Nat → Bytes → Prop
  | one {d : UInt8} : isDigit d = true → Grouped 1 [d]
  | digit {d : UInt8} {n : Nat} {w : Bytes} : isDigit d = true → Grouped n w →
    Grouped (n + 1) (d :: w)
  | separated {d sep : UInt8} {n : Nat} {w : Bytes} : isDigit d = true →
    isSeparator sep = true → Grouped n w → Grouped (n + 1) (d :: sep :: w)

/-- A number of 13 to 19 digits with no byte of a word on either side. -/
structure Stretch (body : Bytes) (i e : Nat) : Prop where
  le : e ≤ body.length
  before : Regex.holdsBefore isWord body i = false
  behind : Regex.holdsAt isWord body e = false
  grouped : ∃ n, 13 ≤ n ∧ n ≤ 19 ∧ Grouped n (within body (i, e))

/-- The longest of the numbers that start at `i`. -/
structure Longest (body : Bytes) (i e : Nat) : Prop where
  stretch : Stretch body i e
  longest : ∀ e', Stretch body i e' → e' ≤ e

/-! ## Digit by digit -/

/-- From a digit to the next one, over at most one separator. -/
def nextDigit (body : Bytes) (i : Nat) : Option Nat :=
  if Regex.holdsAt isDigit body i then
    if Regex.holdsAt isDigit body (i + 1) then some (i + 1)
    else if Regex.holdsAt isSeparator body (i + 1) then some (i + 2)
    else none
  else none

/-- `n` digits on. -/
def digitsOn (body : Bytes) : Nat → Nat → Option Nat
  | 0, i => some i
  | n + 1, i => (nextDigit body i).bind (digitsOn body n)

/-- What is read next starts with a digit. -/
def NeedsDigit (body : Bytes) (f : Nat → List Nat) : Prop :=
  ∀ i, Regex.holdsAt isDigit body i = false → f i = []

theorem not_separator_of_digit : ∀ b : UInt8, isDigit b = true → isSeparator b = false :=
  forall_byte (by decide +kernel)

theorem isWord_of_digit : ∀ b : UInt8, isDigit b = true → isWord b = true :=
  forall_byte (by decide +kernel)

theorem holdsAt_mono {p q : UInt8 → Bool} (h : ∀ b, p b = true → q b = true)
    (hp : Regex.holdsAt p body i = true) : Regex.holdsAt q body i = true := by
  obtain ⟨a, ha, hpa⟩ := Regex.holdsAt_iff.mp hp
  exact Regex.holdsAt_iff.mpr ⟨a, ha, h a hpa⟩

/-- A group and what starts with a digit behind it. -/
theorem group_flatMap (hf : NeedsDigit body f) :
    (group.ends body i).flatMap f = (nextDigit body i).elim [] f := by
  have hone : group.ends body i = if Regex.holdsAt isDigit body i = true then
      Regex.oneAt isSeparator body (i + 1) ++ [i + 1] else [] := by
    simp only [group, optional, Regex.ends, Regex.oneAt, Regex.greedy]
    split
    · simp only [List.flatMap_cons, List.flatMap_nil, List.append_nil]
      split <;> simp
    · rfl
  rw [hone, nextDigit]
  split
  next =>
    rw [List.flatMap_append, List.flatMap_singleton, Regex.oneAt]
    cases hdigit : Regex.holdsAt isDigit body (i + 1) with
    | true =>
      -- a digit is no separator
      have hsep : Regex.holdsAt isSeparator body (i + 1) = false := by
        obtain ⟨b, hb, hd⟩ := Regex.holdsAt_iff.mp hdigit
        simp [Regex.holdsAt, hb, not_separator_of_digit b hd]
      simp [hsep]
    | false =>
      rw [hf (i + 1) hdigit]
      split <;> simp_all
  next => rfl

theorem nextDigit_of_not_digit (h : Regex.holdsAt isDigit body i = false) :
    nextDigit body i = none := by
  rw [nextDigit, if_neg (by simp [h])]

theorem NeedsDigit.group (hf : NeedsDigit body f) :
    NeedsDigit body fun i => (group.ends body i).flatMap f := by
  intro i hi
  exact (group_flatMap hf).trans (by rw [nextDigit_of_not_digit hi]; rfl)

theorem times_flatMap (hf : NeedsDigit body f) (n : Nat) :
    ((times (n + 1) group).ends body i).flatMap f = (digitsOn body (n + 1) i).elim [] f ∧
    NeedsDigit body fun i => ((times (n + 1) group).ends body i).flatMap f := by
  induction n generalizing i with
  | zero =>
    refine ⟨(group_flatMap hf).trans ?_, hf.group⟩
    cases hnext : nextDigit body i <;> simp [digitsOn, hnext]
  | succ n ih =>
    have hends (i : Nat) : ((times (n + 2) group).ends body i).flatMap f =
        (group.ends body i).flatMap fun j => ((times (n + 1) group).ends body j).flatMap f :=
      List.flatMap_assoc
    have hneeds := (ih (i := i)).2
    constructor
    · rw [hends, group_flatMap hneeds, digitsOn]
      cases nextDigit body i with
      | none => rfl
      | some j => exact (ih (i := j)).1
    · intro j hj
      exact (hends j).trans (hneeds.group j hj)

/-- As many more groups as possible, and what follows. -/
def more (body : Bytes) (f : Nat → List Nat) (n i : Nat) : List Nat :=
  (Regex.greedy (group.ends body) n i).flatMap f

theorem more_zero : more body f 0 i = f i := List.flatMap_singleton ..

theorem more_succ (hf : NeedsDigit body f) (n : Nat) :
    more body f (n + 1) i = (nextDigit body i).elim [] (more body f n) ++ f i ∧
    NeedsDigit body (more body f (n + 1)) := by
  have hends (n i : Nat) : more body f (n + 1) i =
      (group.ends body i).flatMap (more body f n) ++ f i := by
    simp only [more, Regex.greedy, List.flatMap_append, List.flatMap_assoc, List.flatMap_singleton]
    rfl
  induction n generalizing i with
  | zero =>
    have hzero : more body f 0 = f := funext fun i => more_zero
    refine ⟨by rw [hends, hzero, group_flatMap hf], fun j hj => ?_⟩
    rw [hends, hzero, group_flatMap hf, nextDigit_of_not_digit hj, hf j hj]
    rfl
  | succ n ih =>
    have hneeds := (ih (i := i)).2
    refine ⟨by rw [hends, group_flatMap hneeds], fun j hj => ?_⟩
    rw [hends, group_flatMap hneeds, nextDigit_of_not_digit hj, hf j hj]
    rfl

/-- The last digit and the border behind it. -/
def lastDigit (body : Bytes) : Nat → List Nat := (Regex.seq (.one isDigit) border).ends body

theorem lastDigit_eq : lastDigit body i =
    if Regex.holdsAt isDigit body i = true ∧ Regex.holdsAt isWord body (i + 1) = false then [i + 1]
    else [] := by
  simp only [lastDigit, border, Regex.ends, Regex.oneAt, Regex.holdsBefore]
  cases hdigit : Regex.holdsAt isDigit body i with
  | false => rfl
  | true => cases hword : Regex.holdsAt isWord body (i + 1) <;>
      simp [holdsAt_mono isWord_of_digit hdigit, hword]

theorem needsDigit_lastDigit : NeedsDigit body (lastDigit body) := by
  intro i hi
  rw [lastDigit_eq, if_neg (by simp [hi])]

/-- `n` digits on from `i` is the last digit of a number that ends at `e`. -/
def EndsAfter (body : Bytes) (n i e : Nat) : Prop :=
  ∃ j, digitsOn body n i = some j ∧ Regex.holdsAt isDigit body j = true ∧
    Regex.holdsAt isWord body (j + 1) = false ∧ e = j + 1

theorem endsAfter_zero : EndsAfter body 0 i e ↔ e ∈ lastDigit body i := by
  rw [lastDigit_eq]
  constructor
  · rintro ⟨j, hj, hdigit, hword, rfl⟩
    obtain rfl : i = j := Option.some.inj hj
    rw [if_pos ⟨hdigit, hword⟩]
    exact List.mem_singleton_self _
  · intro he
    split at he
    next h => exact ⟨i, rfl, h.1, h.2, List.mem_singleton.mp he⟩
    next => cases he

theorem endsAfter_succ : EndsAfter body (n + 1) i e ↔
    ∃ j, nextDigit body i = some j ∧ EndsAfter body n j e := by
  simp only [EndsAfter, digitsOn]
  cases nextDigit body i <;> simp

theorem endsAfter_add {m : Nat} : EndsAfter body (m + n) i e ↔
    ∃ j, digitsOn body m i = some j ∧ EndsAfter body n j e := by
  induction m generalizing i with
  | zero => simp [digitsOn]
  | succ m ih =>
    rw [show m + 1 + n = m + n + 1 by omega, endsAfter_succ]
    simp only [ih, digitsOn]
    cases nextDigit body i <;> simp

theorem lt_of_nextDigit (h : nextDigit body i = some j) : i < j := by
  unfold nextDigit at h
  split at h
  · split at h
    · cases h
      omega
    · split at h
      · cases h
        omega
      · cases h
  · cases h

theorem EndsAfter.lt (h : EndsAfter body n i e) : i < e := by
  induction n generalizing i with
  | zero =>
    obtain ⟨j, hj, -, -, rfl⟩ := h
    obtain rfl : i = j := Option.some.inj hj
    omega
  | succ n ih =>
    obtain ⟨j, hj, h⟩ := endsAfter_succ.mp h
    exact (lt_of_nextDigit hj).trans (ih h)

theorem EndsAfter.digitAt (h : EndsAfter body n i e) : Regex.holdsAt isDigit body i = true := by
  cases n with
  | zero =>
    obtain ⟨j, hj, hdigit, -⟩ := h
    cases hj
    exact hdigit
  | succ n =>
    obtain ⟨j, hj, -⟩ := endsAfter_succ.mp h
    by_contra hnot
    rw [nextDigit_of_not_digit (Bool.eq_false_iff.mpr hnot)] at hj
    cases hj

theorem EndsAfter.behind (h : EndsAfter body n i e) : Regex.holdsAt isWord body e = false := by
  obtain ⟨j, -, -, hword, rfl⟩ := h
  exact hword

theorem EndsAfter.le (h : EndsAfter body n i e) : e ≤ body.length := by
  obtain ⟨j, -, hdigit, -, rfl⟩ := h
  exact Regex.lt_length_of_holdsAt hdigit

theorem mem_more : e ∈ more body (lastDigit body) n i ↔ ∃ m ≤ n, EndsAfter body m i e := by
  induction n generalizing i with
  | zero =>
    rw [more_zero, ← endsAfter_zero]
    simp
  | succ n ih =>
    rw [(more_succ needsDigit_lastDigit n).1, List.mem_append, ← endsAfter_zero]
    constructor
    · rintro (he | h)
      · cases hnext : nextDigit body i with
        | none => simp [hnext] at he
        | some j =>
          rw [hnext] at he
          obtain ⟨m, hm, h⟩ := ih.mp he
          exact ⟨m + 1, by omega, endsAfter_succ.mpr ⟨j, hnext, h⟩⟩
      · exact ⟨0, by omega, h⟩
    · rintro ⟨m, hm, h⟩
      cases m with
      | zero => exact .inr h
      | succ m =>
        obtain ⟨j, hj, h⟩ := endsAfter_succ.mp h
        rw [hj]
        exact .inl (ih.mpr ⟨m, by omega, h⟩)

/-- The longer number comes first. -/
theorem more_pairwise : (more body (lastDigit body) n i).Pairwise (· > ·) := by
  have hlast (i : Nat) : (lastDigit body i).Pairwise (· > ·) := by
    rw [lastDigit_eq]
    split <;> simp
  induction n generalizing i with
  | zero => exact more_zero ▸ hlast i
  | succ n ih =>
    rw [(more_succ needsDigit_lastDigit n).1, List.pairwise_append]
    cases hnext : nextDigit body i with
    | none => exact ⟨.nil, hlast i, by simp⟩
    | some j =>
      refine ⟨ih, hlast i, fun e he e' he' => ?_⟩
      obtain ⟨m, -, h⟩ := mem_more.mp he
      obtain ⟨k, hk, -, -, rfl⟩ := endsAfter_zero.mpr he'
      cases hk
      have := lt_of_nextDigit hnext
      have := h.lt
      omega

/-! ## What the expression reads -/

theorem within_eq_cons {d : UInt8} {w : Bytes} : within body (i, e) = d :: w ↔
    i < e ∧ body[i]? = some d ∧ within body (i + 1, e) = w := by
  have hget : (body.take e)[i]? = some d ↔ i < e ∧ body[i]? = some d := by
    rw [List.getElem?_take]
    split <;> simp_all
  simp only [within]
  constructor
  · intro h
    have hhead := congrArg List.head? h
    have htail := congrArg List.tail h
    rw [List.head?_drop, List.head?_cons, hget] at hhead
    rw [List.tail_drop, List.tail_cons] at htail
    exact ⟨hhead.1, hhead.2, htail⟩
  · rintro ⟨hlt, hd, rfl⟩
    obtain ⟨hi, heq⟩ := List.getElem?_eq_some_iff.mp (hget.mpr ⟨hlt, hd⟩)
    rw [List.drop_eq_getElem_cons hi, heq]

theorem holdsAt_of_getElem? {p : UInt8 → Bool} {b : UInt8} (h : body[i]? = some b) :
    Regex.holdsAt p body i = p b := by
  simp [Regex.holdsAt, h]

/-- Reading digit by digit reads numbers. -/
theorem EndsAfter.grouped (h : EndsAfter body n i e) : Grouped (n + 1) (within body (i, e)) := by
  induction n generalizing i with
  | zero =>
    obtain ⟨j, hj, hdigit, -, rfl⟩ := h
    cases hj
    obtain ⟨d, hd, hisDigit⟩ := Regex.holdsAt_iff.mp hdigit
    rw [within_eq_cons.mpr ⟨Nat.lt_succ_self i, hd, List.drop_take_self⟩]
    exact .one hisDigit
  | succ n ih =>
    obtain ⟨j, hj, h⟩ := endsAfter_succ.mp h
    have hlt := lt_of_nextDigit hj
    have hlt' := h.lt
    unfold nextDigit at hj
    split at hj
    next hdigit =>
      obtain ⟨d, hd, hisDigit⟩ := Regex.holdsAt_iff.mp hdigit
      rw [within_eq_cons.mpr ⟨by omega, hd, rfl⟩]
      split at hj
      next =>
        cases hj
        exact .digit hisDigit (ih h)
      next =>
        split at hj
        next hsep =>
          cases hj
          obtain ⟨sep, hs, hisSep⟩ := Regex.holdsAt_iff.mp hsep
          rw [within_eq_cons.mpr ⟨by omega, hs, rfl⟩]
          exact .separated hisDigit hisSep (ih h)
        next => cases hj
    next => cases hj

/-- Every number is read so, if what follows it is no word. -/
theorem Grouped.endsAfter {w : Bytes} (h : Grouped n w) (hw : within body (i, e) = w)
    (hle : e ≤ body.length) (hword : Regex.holdsAt isWord body e = false) :
    ∃ m, n = m + 1 ∧ EndsAfter body m i e := by
  induction h generalizing i with
  | @one d hd =>
    obtain ⟨hlt, hget, hnil⟩ := within_eq_cons.mp hw
    have heq : e = i + 1 := by
      rw [within, List.drop_eq_nil_iff, List.length_take] at hnil
      omega
    subst heq
    exact ⟨0, rfl, i, rfl, (holdsAt_of_getElem? hget).trans hd, hword, rfl⟩
  | @digit d n w hd hgrouped ih =>
    obtain ⟨hlt, hget, hrest⟩ := within_eq_cons.mp hw
    obtain ⟨m, rfl, h⟩ := ih hrest
    refine ⟨m + 1, rfl, endsAfter_succ.mpr ⟨i + 1, ?_, h⟩⟩
    rw [nextDigit, if_pos ((holdsAt_of_getElem? hget).trans hd), if_pos h.digitAt]
  | @separated d sep n w hd hsep hgrouped ih =>
    obtain ⟨hlt, hget, hrest⟩ := within_eq_cons.mp hw
    obtain ⟨hlt', hget', hrest'⟩ := within_eq_cons.mp hrest
    obtain ⟨m, rfl, h⟩ := ih hrest'
    refine ⟨m + 1, rfl, endsAfter_succ.mpr ⟨i + 2, ?_, h⟩⟩
    have hnot : Regex.holdsAt isDigit body (i + 1) ≠ true := by
      rw [holdsAt_of_getElem? hget']
      intro hdigit
      rw [not_separator_of_digit sep hdigit] at hsep
      cases hsep
    rw [nextDigit, if_pos ((holdsAt_of_getElem? hget).trans hd), if_neg hnot,
      if_pos ((holdsAt_of_getElem? hget').trans hsep)]

theorem luhn_ends : luhn.ends body i =
    if (Regex.holdsBefore isWord body i != Regex.holdsAt isWord body i) = true then
      (digitsOn body 12 i).elim [] (more body (lastDigit body) 6) else [] := by
  have hneeds := (more_succ (i := i) (@needsDigit_lastDigit body) 5).2
  rw [← (times_flatMap hneeds 11).1]
  simp only [luhn, parts, border, Regex.ends]
  split
  · rw [List.flatMap_singleton]
    rfl
  · rfl

theorem mem_luhn_ends : e ∈ luhn.ends body i ↔ Stretch body i e := by
  have hmem : e ∈ (digitsOn body 12 i).elim [] (more body (lastDigit body) 6) ↔
      ∃ m ≤ 6, EndsAfter body (12 + m) i e := by
    simp only [endsAfter_add]
    cases digitsOn body 12 i with
    | none => simp
    | some j => simpa using mem_more
  rw [luhn_ends]
  constructor
  · intro he
    split at he
    next hborder =>
      obtain ⟨m, hm, h⟩ := hmem.mp he
      rw [holdsAt_mono isWord_of_digit h.digitAt] at hborder
      exact ⟨h.le, by simpa using hborder, h.behind, 12 + m + 1, by omega, by omega, h.grouped⟩
    next => cases he
  · rintro ⟨hle, hbefore, hbehind, n, hlow, hhigh, hgrouped⟩
    obtain ⟨m, rfl, h⟩ := hgrouped.endsAfter rfl hle hbehind
    rw [if_pos (by rw [hbefore, holdsAt_mono isWord_of_digit h.digitAt]; rfl)]
    exact hmem.mpr ⟨m - 12, by omega, by rwa [show 12 + (m - 12) = m by omega]⟩

theorem luhn_ends_pairwise : (luhn.ends body i).Pairwise (· > ·) := by
  rw [luhn_ends]
  split
  · cases digitsOn body 12 i with
    | none => exact .nil
    | some j => exact more_pairwise
  · exact .nil

/-- The expression takes the longest number. -/
theorem luhn_takes_iff : luhn.Takes body i e ↔ Longest body i e := by
  have hmem (e : Nat) : e ∈ luhn.ends body i ↔ Stretch body i e := mem_luhn_ends
  have hpair := @luhn_ends_pairwise body i
  rw [Regex.Takes]
  cases hends : luhn.ends body i with
  | nil =>
    rw [hends] at hmem
    simp only [List.head?_nil, reduceCtorEq, false_iff]
    exact fun h => List.not_mem_nil ((hmem e).mpr h.stretch)
  | cons first rest =>
    rw [hends] at hmem hpair
    obtain ⟨hfirst, -⟩ := List.pairwise_cons.mp hpair
    have hlongest : ∀ e', Stretch body i e' → e' ≤ first := fun e' h => by
      rcases List.mem_cons.mp ((hmem e').mpr h) with rfl | h
      · exact Nat.le_refl _
      · exact Nat.le_of_lt (hfirst e' h)
    rw [List.head?_cons, Option.some.injEq]
    constructor
    · rintro rfl
      exact ⟨(hmem first).mp List.mem_cons_self, hlongest⟩
    · intro h
      exact Nat.le_antisymm (h.longest first ((hmem first).mp List.mem_cons_self))
        (hlongest e h.stretch)

theorem Stretch.exists_longest (h : Stretch body i e) : ∃ e', Longest body i e' := by
  cases hends : luhn.ends body i with
  | nil =>
    have := mem_luhn_ends.mpr h
    rw [hends] at this
    cases this
  | cons first rest => exact ⟨first, luhn_takes_iff.mp (by rw [Regex.Takes, hends]; rfl)⟩

/-! ## Cards that are reported -/

/-- A card number in a body. -/
structure Card (body : Bytes) (i j : Nat) : Prop extends Stretch body i j where
  valid : luhnValid (within body (i, j)) = true

/-- Every digit lies in a match for card numbers. -/
def Reported (sorter : SortSlice) (body : Bytes) (i j : Nat) : Prop :=
  ∀ p, i ≤ p → p < j → digitAt body p = true →
    ∃ m ∈ «matches» sorter body, m.kind = creditCard ∧ m.Over p

/-- No number starts before the position and runs over it. -/
def Free (body : Bytes) (i : Nat) : Prop := ∀ a b, a < i → Stretch body a b → b ≤ i

/-- The longest number from the position passes the checksum. -/
def LongestValid (body : Bytes) (i : Nat) : Prop :=
  ∀ e, Longest body i e → luhnValid (within body (i, e)) = true

/-- The scan for card numbers takes the longest number from the first position there is one,
and goes on behind it. -/
theorem mem_findAll_luhn : (i, e) ∈ luhn.findAll body ↔ Regex.Scanned (Longest body) i e := by
  have htakes : luhn.Takes body = Longest body :=
    funext fun i => funext fun e => propext luhn_takes_iff
  rw [Regex.mem_findAll_iff luhn_consumes, htakes]
  intro i e h
  have hstretch := (luhn_takes_iff.mp h).stretch
  exact (Nat.le_of_lt (Regex.lt_of_mem_ends luhn_consumes (mem_luhn_ends.mpr hstretch))).trans
    hstretch.le

/-- Every digit lies in a number that the scan takes and that passes the checksum. -/
def TakenValid (body : Bytes) (i j : Nat) : Prop :=
  ∀ p, i ≤ p → p < j → digitAt body p = true → ∃ a e, Regex.Scanned (Longest body) a e ∧
    a ≤ p ∧ p < e ∧ luhnValid (within body (a, e)) = true

theorem reported_iff_taken {sorter : SortSlice} (hle : j ≤ body.length) :
    Reported sorter body i j ↔ TakenValid body i j := by
  refine forall_congr' fun p => forall₃_congr fun hp hpj hdigit => ?_
  constructor
  · rintro ⟨m, hm, hkind, hover⟩
    obtain ⟨-, hloc, hvalid⟩ := mem_cards.mp (mem_cards_of_kind hm hkind)
    exact ⟨m.start, m.stop, mem_findAll_luhn.mp hloc, hover.1, hover.2, hvalid⟩
  · rintro ⟨a, e, htaken, ha, he, hvalid⟩
    have hne : body ≠ [] := fun hnil => by
      simp only [hnil, List.length_nil] at hle
      omega
    have hcard : (⟨a, e, creditCard⟩ : Match) ∈ cards body :=
      mem_cards.mpr ⟨rfl, mem_findAll_luhn.mpr htaken, hvalid⟩
    exact ⟨_, mem_matches.mpr ⟨hne, .inr hcard⟩, rfl, ha, he⟩

theorem mem_findAll_of_free (hfree : Free body i) (h : Longest body i e) :
    (i, e) ∈ luhn.findAll body := by
  have hlt : i < e := Regex.lt_of_mem_ends luhn_consumes (mem_luhn_ends.mpr h.stretch)
  have hle := h.stretch.le
  refine Regex.mem_findAll luhn_consumes (luhn_takes_iff.mpr h) (by omega) fun loc hloc hbefore => ?_
  exact hfree loc.1 loc.2 hbefore (luhn_takes_iff.mp (Regex.takes_of_mem_findAll hloc).2).stretch

theorem reported_iff_of_free {sorter : SortSlice} (h : Stretch body i j) (hfree : Free body i) :
    Reported sorter body i j ↔ LongestValid body i := by
  have hlt : i < j := Regex.lt_of_mem_ends luhn_consumes (mem_luhn_ends.mpr h)
  have hdigit : digitAt body i = true := by
    obtain ⟨n, -, -, hgrouped⟩ := h.grouped
    obtain ⟨m, -, hends⟩ := hgrouped.endsAfter rfl h.le h.behind
    exact hends.digitAt
  constructor
  · intro hreported e he
    obtain ⟨m, hm, hkind, hover⟩ := hreported i (Nat.le_refl i) hlt hdigit
    obtain ⟨-, hloc, hvalid⟩ := mem_cards.mp (mem_cards_of_kind hm hkind)
    -- only one match is over the first digit
    have heq := Regex.eq_of_overlap hloc (mem_findAll_of_free hfree he) hover
      ⟨Nat.le_refl i, hlt.trans_le (he.longest j h)⟩
    rwa [heq] at hvalid
  · intro hvalid
    obtain ⟨e, he⟩ := h.exists_longest
    refine (reported_iff_taken h.le).mpr fun p hp hpj _ => ?_
    exact ⟨i, e, mem_findAll_luhn.mp (mem_findAll_of_free hfree he), hp,
      hpj.trans_le (he.longest j h), hvalid e he⟩

/-! ## Cards that stand alone -/

/-- Neither a digit and a separator before it nor a separator and a digit behind it. -/
structure Alone (body : Bytes) (i j : Nat) : Prop where
  before : ∀ k, i = k + 2 → Regex.holdsAt isDigit body k = true →
    Regex.holdsAt isSeparator body (k + 1) = false
  behind : Regex.holdsAt isSeparator body j = true → Regex.holdsAt isDigit body (j + 1) = false

theorem Grouped.head {w : Bytes} (h : Grouped n w) : w.head?.any isDigit = true := by
  cases h <;> simpa

/-- What is no digit inside a number is a separator between two digits. -/
theorem Grouped.between {w : Bytes} (h : Grouped n w) {p : Nat} {b : UInt8} (hp : w[p]? = some b)
    (hb : isDigit b = false) : isSeparator b = true ∧
      (∃ k, p = k + 1 ∧ w[k]?.any isDigit = true) ∧ w[p + 1]?.any isDigit = true := by
  induction h generalizing p with
  | @one d hd =>
    cases p with
    | zero => simp_all
    | succ p => simp at hp
  | @digit d n w hd hgrouped ih =>
    cases p with
    | zero => simp_all
    | succ p =>
      obtain ⟨hsep, ⟨k, rfl, hk⟩, hnext⟩ := ih hp
      exact ⟨hsep, ⟨k + 1, rfl, hk⟩, hnext⟩
  | @separated d sep n w hd hsep hgrouped ih =>
    rcases p with _ | _ | p
    · simp_all
    · cases hp
      have hhead := hgrouped.head
      rw [List.head?_eq_getElem?] at hhead
      exact ⟨hsep, ⟨0, rfl, by simpa using hd⟩, hhead⟩
    · obtain ⟨hsep', ⟨k, rfl, hk⟩, hnext⟩ := ih hp
      exact ⟨hsep', ⟨k + 2, rfl, hk⟩, hnext⟩

theorem lt_length_of_any {w : Bytes} {p : Nat} (h : w[p]?.any isDigit = true) : p < w.length :=
  Regex.lt_length_of_holdsAt h

theorem getElem?_within {p : Nat} (h : p < (within body (i, e)).length) :
    (within body (i, e))[p]? = body[i + p]? := by
  rw [within, List.length_drop, List.length_take] at h
  rw [within, List.getElem?_drop, List.getElem?_take_of_lt (by omega)]

/-- Inside a number, what belongs to no word is a separator between two digits. -/
theorem Stretch.between (h : Stretch body i e) {p : Nat} (hi : i ≤ p) (he : p < e)
    (hword : Regex.holdsAt isWord body p = false) : Regex.holdsAt isSeparator body p = true ∧
      (∃ k, p = k + 1 ∧ Regex.holdsAt isDigit body k = true) ∧
      Regex.holdsAt isDigit body (p + 1) = true := by
  obtain ⟨n, -, -, hgrouped⟩ := h.grouped
  have hle := h.le
  obtain ⟨q, rfl⟩ : ∃ q, p = i + q := ⟨p - i, by omega⟩
  have hlen : q < (within body (i, e)).length := by
    rw [within, List.length_drop, List.length_take]
    omega
  have hget : (within body (i, e))[q]? = some body[i + q] := by
    rw [getElem?_within hlen, List.getElem?_eq_getElem]
  have hdigit : isDigit body[i + q] = false := by
    by_contra hdigit
    have := holdsAt_mono isWord_of_digit
      ((holdsAt_of_getElem? (List.getElem?_eq_getElem _)).trans (Bool.of_not_eq_false hdigit))
    rw [hword] at this
    cases this
  obtain ⟨hsep, ⟨k, rfl, hk⟩, hnext⟩ := hgrouped.between hget hdigit
  rw [getElem?_within (lt_length_of_any hk)] at hk
  rw [getElem?_within (lt_length_of_any hnext)] at hnext
  exact ⟨(holdsAt_of_getElem? (List.getElem?_eq_getElem _)).trans hsep, ⟨i + k, by omega, hk⟩, hnext⟩

theorem Alone.free (halone : Alone body i j) (h : Stretch body i j) : Free body i := by
  intro a b ha hstretch
  by_contra hlt
  obtain ⟨k, rfl⟩ : ∃ k, i = k + 1 := ⟨i - 1, by omega⟩
  obtain ⟨hsep, ⟨l, rfl, hdigit⟩, -⟩ := hstretch.between (p := k) (by omega) (by omega) h.before
  rw [halone.before l rfl hdigit] at hsep
  cases hsep

theorem Alone.longest (halone : Alone body i j) (h : Stretch body i j) : Longest body i j := by
  refine ⟨h, fun e he => ?_⟩
  by_contra hlt
  have hij : i < j := Regex.lt_of_mem_ends luhn_consumes (mem_luhn_ends.mpr h)
  obtain ⟨hsep, -, hdigit⟩ := he.between (Nat.le_of_lt hij) (Nat.lt_of_not_le hlt) h.behind
  rw [halone.behind hsep] at hdigit
  cases hdigit

/-- A card number is reported exactly if the numbers that the scan takes over its digits pass the
checksum. That is so for a card number that stands alone; and for one that no number runs into
from the left it says that the longest number that starts with it passes the checksum. -/
theorem card_reported_iff (sorter : SortSlice) (h : Card body i j) :
    (Reported sorter body i j ↔ TakenValid body i j) ∧
    (Alone body i j → Reported sorter body i j) ∧
    (Free body i → (Reported sorter body i j ↔ LongestValid body i)) := by
  refine ⟨reported_iff_taken h.le, fun halone => ?_, reported_iff_of_free h.toStretch⟩
  refine (reported_iff_of_free h.toStretch (halone.free h.toStretch)).mpr fun e he => ?_
  have hlongest := halone.longest h.toStretch
  obtain rfl : e = j := Nat.le_antisymm (hlongest.longest e he.stretch) (he.longest j h.toStretch)
  exact h.valid

def twoCards : Bytes := ascii "4111 1111 1111 1111 4111 1111 1111 1111"

/-- A card number behind another one: the first one is not read on into it. -/
theorem second_card_reported : Reported insertionSort twoCards 20 39 := by
  have hcard : Card twoCards 20 39 := ⟨mem_luhn_ends.mp (by decide +kernel), by decide +kernel⟩
  refine (card_reported_iff insertionSort hcard).1.mpr fun p hp hpj _ => ?_
  have htakes : (luhn.ends twoCards 0).head? = some 19 ∧ (luhn.ends twoCards 20).head? = some 39 := by
    decide +kernel
  have hfirst : Regex.Scanned (Longest twoCards) 0 19 :=
    .first (fun k hk => absurd hk (Nat.not_lt_zero k)) (luhn_takes_iff.mp htakes.1)
  have hgap : ∀ k, 19 ≤ k → k < 20 → ∀ e, ¬ Longest twoCards k e := by
    intro k hk hlt e hlongest
    obtain rfl : k = 19 := by omega
    have hmem := mem_luhn_ends.mpr hlongest.stretch
    rw [show luhn.ends twoCards 19 = [] by decide +kernel] at hmem
    cases hmem
  exact ⟨20, 39, .next hfirst (by decide) hgap (luhn_takes_iff.mp htakes.2), hp, hpj,
    by decide +kernel⟩

/-- The month behind a card number is read as part of it. -/
theorem card_before_month_not_reported :
    Card (ascii "4111111111111111 12/27") 0 16 ∧
    ¬ Reported insertionSort (ascii "4111111111111111 12/27") 0 16 := by
  refine ⟨⟨mem_luhn_ends.mp (by decide +kernel), by decide +kernel⟩, fun h => ?_⟩
  have hnone : «matches» insertionSort (ascii "4111111111111111 12/27") = [] := by decide +kernel
  obtain ⟨m, hm, -⟩ := h 0 (Nat.le_refl 0) (by decide) (by decide +kernel)
  rw [hnone] at hm
  cases hm

end ElchiShield.Sensitive
