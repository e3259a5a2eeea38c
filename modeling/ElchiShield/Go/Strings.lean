import Mathlib.Data.List.Infix
import Mathlib.Data.List.Lex

/-! # Go strings

A Go string is a finite byte sequence, valid UTF-8 or not. This file models the
functions of packages `strings`, `unicode` and `unicode/utf8` the shield calls.
The case tables of package `unicode` are the only open part: they enter through
the class `Unicode`, whose laws fix them on ASCII. -/
namespace ElchiShield.Go

abbrev Bytes := List UInt8

/-- The byte of an ASCII character. -/
def ch (c : Char) : UInt8 := UInt8.ofNat c.toNat

/-- The bytes of an ASCII literal. -/
def ascii (s : String) : Bytes := s.toList.map ch

def isASCII (s : Bytes) : Bool := s.all (· < 128)

/-! ## Runes -/

/-- `utf8.RuneError`, what a byte that starts no valid sequence decodes to. -/
def runeError : Nat := 0xFFFD

def isCont (b : UInt8) : Bool := 0x80 ≤ b && b ≤ 0xBF

/-- `utf8.DecodeRune` on `b :: bs`: the rune and how many bytes of `bs` it takes
besides `b`. Overlong forms, surrogates and truncated sequences take none. -/
def decodeRune (b : UInt8) (bs : Bytes) : Nat × Nat :=
  if b < 0x80 then (b.toNat, 0)
  else if 0xC2 ≤ b ∧ b ≤ 0xDF then
    match bs with
    | c :: _ => if isCont c then ((b.toNat % 32) * 64 + c.toNat % 64, 1) else (runeError, 0)
    | _ => (runeError, 0)
  else if 0xE0 ≤ b ∧ b ≤ 0xEF then
    match bs with
    | c :: d :: _ =>
      if isCont c && isCont d && (b != 0xE0 || 0xA0 ≤ c) && (b != 0xED || c ≤ 0x9F) then
        ((b.toNat % 16) * 4096 + (c.toNat % 64) * 64 + d.toNat % 64, 2)
      else (runeError, 0)
    | _ => (runeError, 0)
  else if 0xF0 ≤ b ∧ b ≤ 0xF4 then
    match bs with
    | c :: d :: e :: _ =>
      if isCont c && isCont d && isCont e && (b != 0xF0 || 0x90 ≤ c) && (b != 0xF4 || c ≤ 0x8F) then
        ((b.toNat % 8) * 262144 + (c.toNat % 64) * 4096 + (d.toNat % 64) * 64 + e.toNat % 64, 3)
      else (runeError, 0)
    | _ => (runeError, 0)
  else (runeError, 0)

/-- The runes a `range` loop yields, the first `skip` bytes already consumed. -/
def runesFrom : Nat → Bytes → List Nat
  | _, [] => []
  | skip + 1, _ :: bs => runesFrom skip bs
  | 0, b :: bs => (decodeRune b bs).1 :: runesFrom (decodeRune b bs).2 bs

def runes (s : Bytes) : List Nat := runesFrom 0 s

/-- `utf8.EncodeRune`; a surrogate or an out-of-range rune is written as `RuneError`. -/
def encodeRune (r : Nat) : Bytes :=
  if r < 0x80 then [UInt8.ofNat r]
  else if r < 0x800 then [UInt8.ofNat (0xC0 + r / 64), UInt8.ofNat (0x80 + r % 64)]
  else if r > 0x10FFFF ∨ (0xD800 ≤ r ∧ r ≤ 0xDFFF) then [0xEF, 0xBF, 0xBD]
  else if r < 0x10000 then
    [UInt8.ofNat (0xE0 + r / 4096), UInt8.ofNat (0x80 + r / 64 % 64), UInt8.ofNat (0x80 + r % 64)]
  else
    [UInt8.ofNat (0xF0 + r / 262144), UInt8.ofNat (0x80 + r / 4096 % 64),
      UInt8.ofNat (0x80 + r / 64 % 64), UInt8.ofNat (0x80 + r % 64)]

/-! ## Letter case -/

def lowerRune (r : Nat) : Nat := if 65 ≤ r ∧ r ≤ 90 then r + 32 else r
def upperRune (r : Nat) : Nat := if 97 ≤ r ∧ r ≤ 122 then r - 32 else r

def lowerByte (b : UInt8) : UInt8 := if 65 ≤ b ∧ b ≤ 90 then b + 32 else b
def upperByte (b : UInt8) : UInt8 := if 97 ≤ b ∧ b ≤ 122 then b - 32 else b

/-- The tables of package `unicode`. `fold` names the `SimpleFold` orbit of a rune
by one of its members. -/
class Unicode where
  toLower : Nat → Nat
  toUpper : Nat → Nat
  fold : Nat → Nat
  toLower_ascii : ∀ r, r < 128 → toLower r = lowerRune r
  toUpper_ascii : ∀ r, r < 128 → toUpper r = upperRune r
  fold_ascii : ∀ r, r < 128 → fold r = lowerRune r

/-- Tables that know the ASCII letters only. -/
@[reducible] def Unicode.asciiOnly : Unicode where
  toLower := lowerRune
  toUpper := upperRune
  fold := lowerRune
  toLower_ascii _ _ := rfl
  toUpper_ascii _ _ := rfl
  fold_ascii _ _ := rfl

section
variable [Unicode]

/-- `strings.ToLower`: a byte map on ASCII, `strings.Map` otherwise (which rewrites
an invalid byte to the encoding of `RuneError`). -/
def toLower (s : Bytes) : Bytes :=
  if isASCII s then s.map lowerByte
  else (runes s).flatMap fun r => encodeRune (Unicode.toLower r)

/-- `strings.ToUpper`. -/
def toUpper (s : Bytes) : Bytes :=
  if isASCII s then s.map upperByte
  else (runes s).flatMap fun r => encodeRune (Unicode.toUpper r)

/-- `strings.EqualFold`. -/
def equalFold (s t : Bytes) : Bool :=
  (runes s).map Unicode.fold == (runes t).map Unicode.fold

end

/-! ## Cutting and trimming -/

/-- The encodings of the runes `unicode.IsSpace` accepts. -/
def spaces : List Bytes :=
  [[9], [10], [11], [12], [13], [32], [0xC2, 0x85], [0xC2, 0xA0], [0xE1, 0x9A, 0x80],
    [0xE2, 0x80, 0x80], [0xE2, 0x80, 0x81], [0xE2, 0x80, 0x82], [0xE2, 0x80, 0x83],
    [0xE2, 0x80, 0x84], [0xE2, 0x80, 0x85], [0xE2, 0x80, 0x86], [0xE2, 0x80, 0x87],
    [0xE2, 0x80, 0x88], [0xE2, 0x80, 0x89], [0xE2, 0x80, 0x8A], [0xE2, 0x80, 0xA8],
    [0xE2, 0x80, 0xA9], [0xE2, 0x80, 0xAF], [0xE2, 0x81, 0x9F], [0xE3, 0x80, 0x80]]

/-- Drop leading members of `ws`; each is non-empty, so `s.length` rounds are enough. -/
def dropLeading (ws : List Bytes) : Nat → Bytes → Bytes
  | 0, s => s
  | n + 1, s => match ws.find? (fun w => w.isPrefixOf s) with
    | some w => dropLeading ws n (s.drop w.length)
    | none => s

/-- `strings.TrimSpace`. UTF-8 is self-synchronising, so the space runes at the end of
a string are the space encodings its reversal starts with, each reversed. -/
def trimSpace (s : Bytes) : Bytes :=
  let l := dropLeading spaces s.length s
  (dropLeading (spaces.map List.reverse) l.length l.reverse).reverse

/-! ### Bytes that are part of no space -/

/-- No space rune's encoding contains `b`; so for every ASCII byte that is not a space. -/
def solid (b : UInt8) : Bool := spaces.all fun w => !w.contains b

theorem solid_not_mem {b : UInt8} (h : solid b = true) {w : Bytes} (hw : w ∈ spaces) : b ∉ w := by
  simpa using List.all_eq_true.mp h w hw

theorem mem_dropLeading {ws : List Bytes} {b : UInt8} (h : ∀ w ∈ ws, b ∉ w) (n : Nat) {s : Bytes}
    (hb : b ∈ s) : b ∈ dropLeading ws n s := by
  induction n generalizing s with
  | zero => exact hb
  | succ n ih =>
    unfold dropLeading
    split
    next w hw =>
      have hp : w <+: s := by simpa using List.find?_some hw
      obtain ⟨t, rfl⟩ := hp
      rw [List.drop_left]
      rcases List.mem_append.mp hb with hb | hb
      · exact absurd hb (h w (List.mem_of_find?_eq_some hw))
      · exact ih hb
    next => exact hb

theorem dropLeading_cons {ws : List Bytes} {b : UInt8} (h : ∀ w ∈ ws, w ≠ [] ∧ b ∉ w) (n : Nat)
    (s : Bytes) : dropLeading ws n (b :: s) = b :: s := by
  cases n with
  | zero => rfl
  | succ n =>
    have hnone : ws.find? (fun w => w.isPrefixOf (b :: s)) = none := by
      rw [List.find?_eq_none]
      intro w hw hp
      obtain ⟨hne, hb⟩ := h w hw
      cases w with
      | nil => exact hne rfl
      | cons c w =>
        simp only [List.isPrefixOf_cons_cons, Bool.and_eq_true, beq_iff_eq] at hp
        exact hb (hp.1 ▸ List.mem_cons_self)
    simp [dropLeading, hnone]

theorem spaces_ne_nil : ∀ w ∈ spaces, w ≠ [] := by decide

theorem mem_trimSpace {b : UInt8} (h : solid b = true) {s : Bytes} (hb : b ∈ s) :
    b ∈ trimSpace s := by
  have hl : b ∈ dropLeading spaces s.length s := mem_dropLeading (fun w => solid_not_mem h) _ hb
  refine List.mem_reverse.mpr (mem_dropLeading ?_ _ (List.mem_reverse.mpr hl))
  intro w hw
  obtain ⟨v, hv, rfl⟩ := List.mem_map.mp hw
  simpa using solid_not_mem h hv

/-- A text that starts and ends with solid bytes is left as it is. -/
theorem trimSpace_eq_self {b c : UInt8} (hb : solid b = true) (hc : solid c = true) {s t u : Bytes}
    (hs : s = b :: t) (hr : s = u ++ [c]) : trimSpace s = s := by
  have hl : dropLeading spaces s.length s = s := by
    rw [hs]
    exact dropLeading_cons (fun w hw => ⟨spaces_ne_nil w hw, solid_not_mem hb hw⟩) _ _
  have hrev : s.reverse = c :: u.reverse := by simp [hr]
  unfold trimSpace
  simp only [hl, hrev]
  rw [dropLeading_cons]
  · rw [← hrev, List.reverse_reverse]
  · intro w hw
    obtain ⟨v, hv, rfl⟩ := List.mem_map.mp hw
    exact ⟨by simpa using spaces_ne_nil v hv, by simpa using solid_not_mem hc hv⟩

theorem dropLeading_suffix {ws : List Bytes} (h : ∀ w ∈ ws, ∀ b ∈ w, solid b = false) (n : Nat)
    (s : Bytes) : ∃ lead, s = lead ++ dropLeading ws n s ∧ ∀ b ∈ lead, solid b = false := by
  induction n generalizing s with
  | zero => exact ⟨[], rfl, by simp⟩
  | succ n ih =>
    unfold dropLeading
    split
    next w hw =>
      have hp : w <+: s := by simpa using List.find?_some hw
      obtain ⟨t, rfl⟩ := hp
      rw [List.drop_left]
      obtain ⟨lead, ht, hlead⟩ := ih t
      refine ⟨w ++ lead, by rw [List.append_assoc, ← ht], ?_⟩
      intro b hb
      rcases List.mem_append.mp hb with hb | hb
      · exact h w (List.mem_of_find?_eq_some hw) b hb
      · exact hlead b hb
    next => exact ⟨[], rfl, by simp⟩

theorem dropLeading_head {ws : List Bytes} (hne : ∀ w ∈ ws, w ≠ []) {n : Nat} {s : Bytes}
    (hn : s.length ≤ n) {b : UInt8} (hb : (dropLeading ws n s).head? = some b) : [b] ∉ ws := by
  induction n generalizing s with
  | zero =>
    have hs : s = [] := List.length_eq_zero_iff.mp (Nat.le_zero.mp hn)
    rw [hs] at hb
    cases hb
  | succ n ih =>
    unfold dropLeading at hb
    split at hb
    next w hw =>
      have hw0 : w.length ≠ 0 := by
        simpa using hne w (List.mem_of_find?_eq_some hw)
      exact ih (by rw [List.length_drop]; omega) hb
    next hnone =>
      intro hmem
      obtain ⟨t, rfl⟩ : ∃ t, s = b :: t := List.head?_eq_some_iff.mp hb
      have := List.find?_eq_none.mp hnone [b] hmem
      simp at this

theorem space_not_solid : ∀ w ∈ spaces, ∀ b ∈ w, solid b = false := by
  intro w hw b hb
  cases hs : solid b with
  | false => rfl
  | true => exact absurd hb (solid_not_mem hs hw)

/-- `strings.Cut` at a one-byte separator. -/
def cut (sep : UInt8) : Bytes → Option (Bytes × Bytes)
  | [] => none
  | b :: bs =>
    if b = sep then some ([], bs) else (cut sep bs).map fun p => (b :: p.1, p.2)

theorem cut_append {sep : UInt8} {k : Bytes} (h : sep ∉ k) (v : Bytes) :
    cut sep (k ++ sep :: v) = some (k, v) := by
  induction k with
  | nil => simp [cut]
  | cons b k ih =>
    have hb : b ≠ sep := (List.ne_of_not_mem_cons h).symm
    simp [cut, hb, ih (List.not_mem_of_not_mem_cons h)]

theorem cut_eq_some {c : UInt8} {s a b : Bytes} (h : cut c s = some (a, b)) : s = a ++ c :: b := by
  induction s generalizing a b with
  | nil => cases h
  | cons x s ih =>
    unfold cut at h
    split at h
    next hx =>
      obtain ⟨rfl, rfl⟩ := Prod.mk.inj (Option.some.inj h)
      rw [hx]
      rfl
    next =>
      obtain ⟨q, hq, hab⟩ := Option.map_eq_some_iff.mp h
      obtain ⟨rfl, rfl⟩ := Prod.mk.inj hab
      rw [ih hq]
      rfl

/-- The part of `s` before the first `sep`, all of it when there is none. -/
def before (sep : UInt8) (s : Bytes) : Bytes := s.takeWhile (· != sep)

/-- What `strings.LastIndexByte` splits `s` into. -/
def cutLast (c : UInt8) : Bytes → Option (Bytes × Bytes)
  | [] => none
  | b :: bs => match cutLast c bs with
    | some p => some (b :: p.1, p.2)
    | none => if b = c then some ([], bs) else none

theorem cutLast_eq_none {c : UInt8} {s : Bytes} (h : c ∉ s) : cutLast c s = none := by
  induction s with
  | nil => rfl
  | cons b s ih =>
    have hb : b ≠ c := (List.ne_of_not_mem_cons h).symm
    simp [cutLast, ih (List.not_mem_of_not_mem_cons h), hb]

theorem cutLast_eq_some {c : UInt8} {s a b : Bytes} (h : cutLast c s = some (a, b)) :
    s = a ++ c :: b := by
  induction s generalizing a b with
  | nil => cases h
  | cons x s ih =>
    unfold cutLast at h
    split at h
    next p hp =>
      obtain ⟨rfl, rfl⟩ := Prod.mk.inj (Option.some.inj h)
      rw [ih hp]
      rfl
    next =>
      split at h
      next hx =>
        obtain ⟨rfl, rfl⟩ := Prod.mk.inj (Option.some.inj h)
        rw [hx]
        rfl
      next => cases h

theorem cutLast_append {c : UInt8} (a : Bytes) {b : Bytes} (h : c ∉ b) :
    cutLast c (a ++ c :: b) = some (a, b) := by
  induction a with
  | nil => simp [cutLast, cutLast_eq_none h]
  | cons x a ih => simp [cutLast, ih]

theorem exists_last_of_mem {c : UInt8} {s : Bytes} (h : c ∈ s) :
    ∃ a b, s = a ++ c :: b ∧ c ∉ b := by
  obtain ⟨b, a, hs, hb⟩ := List.eq_append_cons_of_mem (List.mem_reverse.mpr h)
  refine ⟨a.reverse, b.reverse, ?_, by simpa using hb⟩
  have := congrArg List.reverse hs
  simpa using this

/-- `strings.CutPrefix`. -/
def cutPrefix (p s : Bytes) : Option Bytes :=
  if p.isPrefixOf s then some (s.drop p.length) else none

/-- `strings.Contains`. -/
def containsSub (s sub : Bytes) : Bool := s.tails.any fun t => sub.isPrefixOf t

/-- `strings.Join`. -/
def join (sep : Bytes) (parts : List Bytes) : Bytes := sep.intercalate parts

/-- Bytes in lexicographic order, the order of Go's `<` on strings. -/
def bytesLE (s t : Bytes) : Bool := decide (¬ List.Lex (· < ·) t s)

/-- `strconv.Itoa` on a non-negative number. -/
def itoa (n : Nat) : Bytes := (Nat.toDigits 10 n).map ch

/-- `strconv.Itoa`. -/
def formatInt (n : Int) : Bytes := if n < 0 then ch '-' :: itoa n.natAbs else itoa n.natAbs

end ElchiShield.Go
