import Mathlib.Data.List.Basic

/-! # Splitting at unquoted separators

A scanner over symbols of any type. A quote opens and closes a quoted stretch; inside
one an escape takes the next symbol with it. A separator counts only outside. The mode
of the scanner after a text decides where the next separator is seen, so every result
here is about a text followed by another one. -/
namespace ElchiShield.Lib

inductive Mode where
  | outside
  | inside
  | escaped
  deriving DecidableEq, Repr

structure Quoting (α : Type) where
  quote : α
  esc : α
  quote_ne_esc : quote ≠ esc

variable {α : Type} [DecidableEq α]

namespace Quoting

variable (q : Quoting α) (sep : α)

def step : Mode → α → Mode
  | .outside, c => if c = q.quote then .inside else .outside
  | .inside, c => if c = q.esc then .escaped else if c = q.quote then .outside else .inside
  | .escaped, _ => .inside

def scan (m : Mode) (xs : List α) : Mode := xs.foldl q.step m

@[simp] theorem scan_nil (m : Mode) : q.scan m [] = m := rfl

@[simp] theorem scan_cons (m : Mode) (c : α) (cs : List α) :
    q.scan m (c :: cs) = q.scan (q.step m c) cs := rfl

@[simp] theorem scan_append (m : Mode) (xs ys : List α) :
    q.scan m (xs ++ ys) = q.scan (q.scan m xs) ys := List.foldl_append

/-- Put `xs` in front of the first piece. -/
def prependHead (xs : List α) : List (List α) → List (List α)
  | [] => [xs]
  | p :: ps => (xs ++ p) :: ps

omit [DecidableEq α] in
theorem prependHead_prependHead (xs ys : List α) (ps : List (List α)) :
    prependHead xs (prependHead ys ps) = prependHead (xs ++ ys) ps := by
  cases ps <;> simp [prependHead]

omit [DecidableEq α] in
theorem prependHead_append (xs : List α) {ps : List (List α)} (h : ps ≠ [])
    (rs : List (List α)) : prependHead xs (ps ++ rs) = prependHead xs ps ++ rs := by
  cases ps with
  | nil => exact absurd rfl h
  | cons p ps => rfl

/-- The pieces of a text between the separators read outside quotes. -/
def split : Mode → List α → List (List α)
  | _, [] => [[]]
  | m, c :: cs =>
    if m = .outside ∧ c = sep then [] :: split .outside cs
    else prependHead [c] (split (q.step m c) cs)

theorem split_ne_nil (m : Mode) (xs : List α) : q.split sep m xs ≠ [] := by
  cases xs with
  | nil => simp [split]
  | cons c cs =>
    unfold split
    split
    · simp
    · cases q.split sep (q.step m c) cs <;> simp [prependHead]

/-- A separator read outside quotes cuts the text in two independent halves. -/
theorem split_append_sep (hsep : sep ≠ q.quote) (xs ys : List α) (m : Mode)
    (h : q.scan m xs = .outside) :
    q.split sep m (xs ++ sep :: ys) = q.split sep m xs ++ q.split sep .outside ys := by
  induction xs generalizing m with
  | nil =>
    obtain rfl : m = .outside := h
    simp [split]
  | cons c cs ih =>
    simp only [List.cons_append, split]
    split
    next hc =>
      obtain ⟨rfl, rfl⟩ := hc
      have hs : q.step .outside c = .outside := by simp [step, hsep]
      rw [ih .outside (by simpa [hs] using h), List.cons_append]
    next =>
      rw [ih (q.step m c) h, prependHead_append [c] (q.split_ne_nil sep _ cs)]

/-! ## Texts without a separator -/

/-- No separator of `xs` is read outside quotes. -/
def free : Mode → List α → Bool
  | _, [] => true
  | m, c :: cs => !(m = .outside && c = sep) && free (q.step m c) cs

theorem free_append (xs ys : List α) (m : Mode) :
    q.free sep m (xs ++ ys) = (q.free sep m xs && q.free sep (q.scan m xs) ys) := by
  induction xs generalizing m with
  | nil => simp [free]
  | cons c cs ih => simp [free, ih, Bool.and_assoc]

theorem split_of_free (xs : List α) (m : Mode) (h : q.free sep m xs = true) :
    q.split sep m xs = [xs] := by
  induction xs generalizing m with
  | nil => rfl
  | cons c cs ih =>
    simp only [free, Bool.and_eq_true, Bool.not_eq_true', Bool.and_eq_false_iff,
      decide_eq_false_iff_not] at h
    have hc : ¬ (m = .outside ∧ c = sep) := fun hc => h.1.elim (· hc.1) (· hc.2)
    simp [split, hc, ih _ h.2, prependHead]

theorem split_intercalate (hsep : sep ≠ q.quote) {pieces : List (List α)} (hne : pieces ≠ [])
    (h : ∀ p ∈ pieces, q.free sep .outside p = true ∧ q.scan .outside p = .outside) :
    q.split sep .outside ([sep].intercalate pieces) = pieces := by
  induction pieces with
  | nil => exact absurd rfl hne
  | cons p ps ih =>
    obtain ⟨hfree, hscan⟩ := h p List.mem_cons_self
    cases ps with
    | nil => simpa using q.split_of_free sep p .outside hfree
    | cons r rs =>
      have hrest := ih (by simp) fun p hp => h p (List.mem_cons_of_mem _ hp)
      rw [List.intercalate_cons_cons, List.append_assoc, List.singleton_append,
        q.split_append_sep sep hsep p _ .outside hscan, hrest, q.split_of_free sep p _ hfree]
      rfl

/-- Joining with a separator other than `sep` keeps a text free of `sep`. -/
theorem free_intercalate {glue : α} (hglue : glue ≠ q.quote) (hsep : glue ≠ sep)
    {pieces : List (List α)}
    (h : ∀ p ∈ pieces, q.free sep .outside p = true ∧ q.scan .outside p = .outside) :
    q.free sep .outside ([glue].intercalate pieces) = true := by
  induction pieces with
  | nil => rfl
  | cons p ps ih =>
    obtain ⟨hfree, hscan⟩ := h p List.mem_cons_self
    cases ps with
    | nil => simpa using hfree
    | cons r rs =>
      have hrest := ih fun p hp => h p (List.mem_cons_of_mem _ hp)
      rw [List.intercalate_cons_cons, free_append, free_append, hfree, scan_append, hscan]
      simpa [free, step, hglue, hsep] using hrest

omit sep in
/-- Joining texts that leave no quote open leaves none open. -/
theorem scan_intercalate {glue : α} (hglue : glue ≠ q.quote) {pieces : List (List α)}
    (h : ∀ p ∈ pieces, q.scan .outside p = .outside) :
    q.scan .outside ([glue].intercalate pieces) = .outside := by
  induction pieces with
  | nil => rfl
  | cons p ps ih =>
    have hp := h p List.mem_cons_self
    cases ps with
    | nil => simpa using hp
    | cons r rs =>
      have hrest := ih fun p hp => h p (List.mem_cons_of_mem _ hp)
      rw [List.intercalate_cons_cons, scan_append, scan_append, hp]
      simpa [step, hglue] using hrest

/-! ## Escaping -/

def escape (v : List α) : List α :=
  v.flatMap fun c => if c = q.quote ∨ c = q.esc then [q.esc, c] else [c]

def quoted (v : List α) : List α := q.quote :: (q.escape v ++ [q.quote])

def unescape : List α → List α
  | [] => []
  | [c] => [c]
  | c :: d :: rest => if c = q.esc then d :: unescape rest else c :: unescape (d :: rest)

theorem escape_cons (c : α) (v : List α) :
    q.escape (c :: v) =
      (if c = q.quote ∨ c = q.esc then [q.esc, c] else [c]) ++ q.escape v := rfl

theorem unescape_cons_of_ne {c : α} (h : c ≠ q.esc) (rest : List α) :
    q.unescape (c :: rest) = c :: q.unescape rest := by
  cases rest with
  | nil => rfl
  | cons d rest => simp [unescape, h]

theorem unescape_of_not_mem {v : List α} (h : q.esc ∉ v) : q.unescape v = v := by
  induction v with
  | nil => rfl
  | cons c v ih =>
    have hc : c ≠ q.esc := (List.ne_of_not_mem_cons h).symm
    rw [unescape_cons_of_ne q hc, ih (List.not_mem_of_not_mem_cons h)]

theorem unescape_escape (v : List α) : q.unescape (q.escape v) = v := by
  induction v with
  | nil => rfl
  | cons c v ih =>
    rw [escape_cons]
    split
    · simp [unescape, ih]
    next hc =>
      rw [List.singleton_append, unescape_cons_of_ne q (fun h => hc (.inr h)), ih]

/-- Escaped text never leaves the quotes it stands in. -/
theorem scan_escape (v : List α) : q.scan .inside (q.escape v) = .inside := by
  induction v with
  | nil => rfl
  | cons c v ih =>
    rw [escape_cons, scan_append]
    split
    · simpa [step] using ih
    next hc =>
      have hq : c ≠ q.quote := fun h => hc (.inl h)
      have he : c ≠ q.esc := fun h => hc (.inr h)
      simpa [step, hq, he] using ih

theorem free_escape (v : List α) : q.free sep .inside (q.escape v) = true := by
  induction v with
  | nil => rfl
  | cons c v ih =>
    rw [escape_cons, free_append]
    split
    · simpa [free, step] using ih
    next hc =>
      have hq : c ≠ q.quote := fun h => hc (.inl h)
      have he : c ≠ q.esc := fun h => hc (.inr h)
      simpa [free, step, hq, he] using ih

@[simp] theorem scan_quoted (v : List α) : q.scan .outside (q.quoted v) = .outside := by
  simp [quoted, step, scan_escape, q.quote_ne_esc]

theorem free_quoted (hsep : sep ≠ q.quote) (v : List α) :
    q.free sep .outside (q.quoted v) = true := by
  simp [quoted, free, free_append, step, scan_escape, free_escape, hsep.symm]

end Quoting

end ElchiShield.Lib
